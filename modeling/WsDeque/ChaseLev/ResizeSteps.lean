import WsDeque.ChaseLev.StorageFrames

/-
What is shown for every step of the code, and the steps that replace the
buffer: `resized`, `retire` and `try_reclaim` leave the abstract deque alone.
-/

namespace WsDeque.ChaseLev

open MachineWord

variable {ι α : Type*} {pushes : Nat} {state : State ι α}

/-! ### The abstract state across an owner step -/

/-- What is shown for every step of the code. -/
structure Advance [Fintype ι] [DecidableEq ι] (pushes : Nat) (before : State ι α)
    (label : Label ι α) (after : State ι α) : Prop where
  storage : Storage pushes after
  spec : Spec.Step before.worker.fifo before.abstract label after.abstract
  fifo : after.worker.fifo = before.worker.fifo

variable [Fintype ι]

theorem State.abstract_of_owner (present : state.owner.isDropped = false) :
    state.abstract =
      { items := state.protocol.live.reduceOption
        owner := state.owner.status state.inner
        thief := fun thief => (state.thief thief).status
        freed := state.inner.freedElements } := by
  simp only [State.abstract, State.shared_of_owner present, if_true]

/-- Across an owner step only the list and the owner's status change. -/
theorem State.abstract_ownerStep {after : State ι α}
    (presentBefore : state.owner.isDropped = false)
    (presentAfter : after.owner.isDropped = false) (thief : after.thief = state.thief)
    (freed : after.inner.freedElements = state.inner.freedElements) :
    after.abstract =
      { state.abstract with
        items := after.protocol.live.reduceOption
        owner := after.owner.status after.inner } := by
  rw [State.abstract_of_owner presentBefore, State.abstract_of_owner presentAfter, thief, freed]

theorem State.abstract_ownerQuiet {owner : OwnerPc α} (worker : Worker)
    (retired : List BufferPtr) (inFlight : Int) (freed : List BufferPtr)
    (presentBefore : state.owner.isDropped = false) (presentAfter : owner.isDropped = false)
    (phase : owner.phase = state.owner.phase) :
    State.abstract
      { state with
        inner := state.inner.withReclaim retired inFlight freed
        worker := worker
        owner := owner } =
      { state.abstract with
        owner := owner.status (state.inner.withReclaim retired inFlight freed) } := by
  rw [State.abstract_of_owner presentBefore, State.abstract_of_owner presentAfter]
  simp only [IndexProtocol.State.live, IndexProtocol.State.back, State.protocol, phase,
    Inner.withReclaim, Inner.active]

variable [DecidableEq ι]

theorem Storage.advanceQuiet (storage : Storage pushes state) {owner : OwnerPc α}
    (worker : Worker) (access : Access) (retired : List BufferPtr) (inFlight : Int)
    (freed : List BufferPtr)
    (presentBefore : state.owner.isDropped = false) (presentAfter : owner.isDropped = false)
    (phase : owner.phase = state.owner.phase) (taker : owner.taker = state.owner.taker)
    (pending : owner.pendingPushes = state.owner.pendingPushes)
    (unpublished : owner.unpublished = state.owner.unpublished)
    (cachedNonneg : 0 ≤ worker.cachedTop) (cachedLe : worker.cachedTop ≤ state.inner.top)
    (fifo : worker.fifo = state.worker.fifo) (mode : owner.Mode worker.fifo)
    (meets : owner.Meets (state.inner.withReclaim retired inFlight freed))
    (spec : Spec.Step state.worker.fifo state.abstract (.owner access)
      { state.abstract with
        owner := owner.status (state.inner.withReclaim retired inFlight freed) }) :
    Advance pushes state (.owner access)
      { state with
        inner := state.inner.withReclaim retired inFlight freed
        worker := worker
        owner := owner } :=
  { storage := storage.ownerQuiet retired inFlight freed phase taker
      (by rw [pending]; exact storage.bound) unpublished cachedNonneg cachedLe mode meets
    spec := by
      rw [State.abstract_ownerQuiet worker retired inFlight freed presentBefore presentAfter phase]
      exact spec
    fifo := fifo }

/-- The owner's step changed what the protocol sees; the list follows it. -/
theorem Storage.advance {label : Label ι α} {after : State ι α} (stored : Storage pushes after)
    (presentBefore : state.owner.isDropped = false)
    (presentAfter : after.owner.isDropped = false) (thief : after.thief = state.thief)
    (freed : after.inner.freedElements = state.inner.freedElements)
    (fifo : after.worker.fifo = state.worker.fifo) (items : List α)
    (itemsEq : after.protocol.live.reduceOption = items)
    (spec : Spec.Step state.worker.fifo state.abstract label
      { state.abstract with
        items := items
        owner := after.owner.status after.inner }) : Advance pushes state label after :=
  { storage := stored
    spec := by
      rw [State.abstract_ownerStep presentBefore presentAfter thief freed, itemsEq]
      exact spec
    fifo := fifo }

omit [DecidableEq ι] in
theorem State.abstract_items (present : state.owner.isDropped = false) :
    state.abstract.items = state.protocol.live.reduceOption := by
  rw [State.abstract_of_owner present]

/-! ### Replacing the buffer -/

theorem After.spec_internal (after : After α) (access : Access) (early : access ≠ .storeBottom)
    (status : state.abstract.owner = after.status) :
    Spec.Step state.worker.fifo state.abstract (.owner access) state.abstract := by
  cases after with
  | push value b => exact .pushInternal value access status early
  | pop boxed => exact .ownerTail access _ status

theorem Storage.resizeCopyStore (storage : Storage pushes state) (few : pushes < 2 ^ 63)
    {resize : Resize} {k : Nat} {p : Option α} {after : After α}
    (atPc : state.owner = .resizing resize (.copyStore k p) after) :
    Advance pushes state (.owner .storeCell)
      { state with
        inner :=
          { state.inner with
            heap := Function.update state.inner.heap resize.new
              ((state.inner.heap resize.new).write (wrappingAdd resize.top k) p) }
        owner := .resizing resize (resize.copyFrom (k + 1)) after } := by
  have meets := storage.owner
  rw [atPc] at meets
  obtain ⟨placed, ⟨buffer, inside, copied, loaded⟩, fits⟩ := meets
  have resting : state.owner.phase = .resting := by rw [atPc]; rfl
  have back := storage.back_le
  rw [Storage.back_of_resting resting] at back
  have topNonneg := placed.topNonneg
  have bottomEq := placed.bottom
  obtain ⟨exponent, small, capEq⟩ := storage.window.powerOfTwo resize.new
  have room : resize.bottom - resize.top ≤ (state.inner.heap resize.new).cap - 1 := by
    cases after with
    | push value b => exact Int.le_of_lt fits.2
    | pop boxed => exact fits.2
  have indexEq : wrappingAdd resize.top k = resize.top + k :=
    wrappingAdd_of_range (by omega) (by omega)
  have unpublished : state.owner.unpublished = some resize.new := by rw [atPc]; rfl
  have written : ∀ bufPtr, bufPtr ≠ resize.new →
      Function.update state.inner.heap resize.new
        ((state.inner.heap resize.new).write (wrappingAdd resize.top k) p) bufPtr =
        state.inner.heap bufPtr := fun bufPtr other => Function.update_of_ne other ..
  have activeOld : state.inner.buffer ≠ resize.new := by
    rw [buffer]
    exact placed.distinct.symm
  have stored := storage.ownerHeap
    (Function.update state.inner.heap resize.new
      ((state.inner.heap resize.new).write (wrappingAdd resize.top k) p))
    state.inner.buffer (.resizing resize (resize.copyFrom (k + 1)) after)
    (by rw [resting]; rfl) (by rw [atPc]; rfl)
    (by rw [atPc, resizing_pendingPushes, resizing_pendingPushes])
    (fun bufPtr visible => by rw [copyFrom_unpublished, ← unpublished]; exact visible)
    storage.window.bufferAllocated
    (fun bufPtr => by
      by_cases new : bufPtr = resize.new
      · subst new
        rw [Function.update_self, Buffer.write_cap]
      · rw [written bufPtr new])
    (by rw [written _ activeOld]; exact storage.window.room)
    (fun index _above _below => by rw [written _ activeOld]; rfl)
    (fun bufPtr _known visible _inside agrees => by
      have other : bufPtr ≠ resize.new := fun same => visible (by rw [unpublished, same])
      rw [written _ other, written _ activeOld]
      exact agrees)
    (by cases after <;> trivial)
    ⟨{ bottom := placed.bottom
       topNonneg := placed.topNonneg
       topLe := placed.topLe
       newAllocated := placed.newAllocated
       distinct := placed.distinct },
      copyFrom_meets buffer (by
        intro offset below
        simp only [Function.update_self, written _ placed.distinct.symm]
        by_cases last : offset = k
        · subst last
          rw [indexEq, Buffer.read_write_self, loaded]
        · rw [indexEq, Buffer.read_write_of_near small capEq p (by omega) (by omega) (by omega)]
          exact copied offset (by omega))
        (wrappingSub_of_range (by omega) (by omega)),
      by simpa only [Function.update_self, Buffer.write_cap] using fits⟩
  refine stored.advance (by rw [atPc]; rfl) rfl rfl rfl rfl state.abstract.items ?_ ?_
  · rw [State.abstract_items (by rw [atPc]; rfl), State.protocol_live, State.protocol_live,
      Storage.back_of_resting resting]
    simp only [Inner.active, written _ activeOld]
    rfl
  · have status : state.abstract.owner = after.status := by
      change state.owner.status state.inner = _
      rw [atPc, resizing_status]
    rw [resizing_status, ← status]
    exact after.spec_internal .storeCell (by decide) status

theorem Storage.resizeStoreBuffer (storage : Storage pushes state)
    {resize : Resize} {after : After α}
    (atPc : state.owner = .resizing resize .storeBuffer after) :
    Advance pushes state (.owner .storeBuffer)
      { state with
        inner := { state.inner with buffer := resize.new }
        owner := .resizing resize .loadRetired after } := by
  have meets := storage.owner
  rw [atPc] at meets
  obtain ⟨placed, ⟨buffer, copied⟩, fits⟩ := meets
  have resting : state.owner.phase = .resting := by rw [atPc]; rfl
  have topLe := placed.topLe
  have bottomEq := placed.bottom
  -- Every index still claimed was copied, also when thieves moved `top` since.
  have moved : ∀ index, state.inner.top ≤ index → index < state.inner.bottom →
      (state.inner.heap resize.new).read index = state.inner.active.read index := by
    intro index above below
    have offset : resize.top + ((index - resize.top).toNat : Int) = index := by omega
    have same := copied (index - resize.top).toNat (by omega)
    rw [offset] at same
    rw [same, Inner.active, buffer]
  have room : resize.bottom - resize.top ≤ (state.inner.heap resize.new).cap - 1 := by
    cases after with
    | push value b => exact Int.le_of_lt fits.2
    | pop boxed => exact fits.2
  have stored := storage.ownerHeap state.inner.heap resize.new
    (.resizing resize .loadRetired after)
    (by rw [resting]; rfl) (by rw [atPc]; rfl)
    (by rw [atPc, resizing_pendingPushes, resizing_pendingPushes])
    (fun _bufPtr _visible => by simp [OwnerPc.unpublished])
    placed.newAllocated (fun _bufPtr => rfl)
    (by rw [Storage.back_of_resting resting]; omega)
    (by rw [Storage.back_of_resting resting]; exact moved)
    (fun bufPtr _known _visible inside agrees => by
      rw [Storage.back_of_resting resting] at inside
      rw [agrees, moved _ (Int.le_refl _) inside])
    (by cases after <;> trivial)
    ⟨{ bottom := placed.bottom
       topNonneg := placed.topNonneg
       topLe := placed.topLe
       newAllocated := placed.newAllocated
       distinct := placed.distinct }, rfl, fits⟩
  refine stored.advance (by rw [atPc]; rfl) rfl rfl rfl rfl state.abstract.items ?_ ?_
  · rw [State.abstract_items (by rw [atPc]; rfl), State.protocol_live, State.protocol_live,
      Storage.back_of_resting resting]
    exact congrArg List.reduceOption (window_congr moved)
  · have status : state.abstract.owner = after.status := by
      change state.owner.status state.inner = _
      rw [atPc, resizing_status]
    rw [resizing_status, ← status]
    exact after.spec_internal .storeBuffer (by decide) status

theorem Resize.Meets.withReclaim {inner : Inner α} {resize : Resize} (placed : resize.Meets inner)
    (retired : List BufferPtr) (inFlight : Int) (freed : List BufferPtr) :
    resize.Meets (inner.withReclaim retired inFlight freed) :=
  { bottom := placed.bottom
    topNonneg := placed.topNonneg
    topLe := placed.topLe
    newAllocated := placed.newAllocated
    distinct := placed.distinct }

/-- Steps of a resize that only read, or work on the retired list. -/
theorem Storage.resizeQuiet (storage : Storage pushes state) {resize : Resize}
    {pc pc' : ResizePc α} {after : After α} (access : Access) (retired : List BufferPtr)
    (freed : List BufferPtr) (atPc : state.owner = .resizing resize pc after)
    (early : access ≠ .storeBottom)
    (unpublished : (OwnerPc.resizing resize pc' after).unpublished = state.owner.unpublished)
    (meets : pc.Meets state.inner resize → pc'.Meets state.inner resize) :
    Advance pushes state (.owner access)
      { state with
        inner := state.inner.withReclaim retired state.inner.inFlight freed
        owner := .resizing resize pc' after } := by
  have atOwner := storage.owner
  rw [atPc] at atOwner
  obtain ⟨placed, reached, fits⟩ := atOwner
  have status : state.abstract.owner = after.status := by
    change state.owner.status state.inner = _
    rw [atPc, resizing_status]
  refine storage.advanceQuiet state.worker access retired state.inner.inFlight freed
    (by rw [atPc]; rfl) rfl (by rw [atPc]; rfl) (by rw [atPc]; rfl)
    (by rw [atPc, resizing_pendingPushes, resizing_pendingPushes]) unpublished
    storage.cachedNonneg storage.cachedLe rfl (by cases after <;> trivial)
    ⟨placed.withReclaim .., ?_, fits⟩ ?_
  · cases pc' <;> exact meets reached
  · rw [resizing_status, ← status]
    exact after.spec_internal access early status

/-- The resize is over and its caller goes on. -/
theorem Storage.resizeFinish (storage : Storage pushes state) {resize : Resize}
    {pc : ResizePc α} {after : After α} (access : Access) (retired : List BufferPtr)
    (freed : List BufferPtr) (atPc : state.owner = .resizing resize pc after)
    (early : access ≠ .storeBottom) (unpublished : state.owner.unpublished = none)
    (installed : pc.Meets state.inner resize → state.inner.buffer = resize.new) :
    Advance pushes state (.owner access)
      { state with
        inner := state.inner.withReclaim retired state.inner.inFlight freed
        owner := finishResize resize after } := by
  have atOwner := storage.owner
  rw [atPc] at atOwner
  obtain ⟨placed, reached, fits⟩ := atOwner
  have topLe := placed.topLe
  have bottomEq := placed.bottom
  have status : state.abstract.owner = after.status := by
    change state.owner.status state.inner = _
    rw [atPc, resizing_status]
  have spec := after.spec_internal access early status
  cases after with
  | push value b =>
      obtain ⟨bEq, fits⟩ := fits
      refine storage.advanceQuiet state.worker access retired state.inner.inFlight
        freed (by rw [atPc]; rfl) rfl (by rw [atPc]; rfl) (by rw [atPc]; rfl) (by rw [atPc]; rfl)
        unpublished.symm storage.cachedNonneg storage.cachedLe rfl trivial
        ⟨bEq.trans bottomEq, (installed reached).symm, ?_⟩ ?_
      · change state.inner.bottom - state.inner.top <
          ((state.inner.heap state.inner.buffer).cap : Int) - 1
        rw [installed reached]
        omega
      · rw [show (finishResize resize (.push value b)).status _ = Spec.OwnerStatus.pushing value
          from rfl, ← show state.abstract.owner = .pushing value from status]
        exact spec
  | pop boxed =>
      cases boxed with
      | none => exact absurd rfl fits.1
      | some value =>
          refine storage.advanceQuiet state.worker access retired
            state.inner.inFlight freed (by rw [atPc]; rfl) rfl (by rw [atPc]; rfl)
            (by rw [atPc]; rfl) (by rw [atPc]; rfl) unpublished.symm storage.cachedNonneg
            storage.cachedLe rfl trivial trivial ?_
          rw [show (finishResize resize (.pop (some value))).status _ =
              Spec.OwnerStatus.done (.popped (some value)) from rfl,
            ← show state.abstract.owner = .done (.popped (some value)) from status]
          exact spec

/-- One step of `resized`, `retire` or `try_reclaim` inside a call. -/
theorem Storage.resizeStep (storage : Storage pushes state) (few : pushes < 2 ^ 63)
    {resize : Resize} {pc : ResizePc α} {after : After α} (spurious : Bool)
    (atPc : state.owner = .resizing resize pc after) {access : Access} {worker : Worker}
    {inner : Inner α} {owner : OwnerPc α}
    (taken : ownerStep state.worker state.inner spurious (.resizing resize pc after) =
      some (access, worker, inner, owner)) :
    Advance pushes state (.owner access)
      { state with
        inner := inner
        worker := worker
        owner := owner } := by
  cases pc with
  | copyLoad k =>
      have atOwner := storage.owner
      rw [atPc] at atOwner
      obtain ⟨placed, ⟨_buffer, inside, _copied⟩, _fits⟩ := atOwner
      have topNonneg := placed.topNonneg
      have bottomEq := placed.bottom
      have back := storage.back_le
      rw [Storage.back_of_resting (by rw [atPc]; rfl)] at back
      have indexEq : wrappingAdd resize.top k = resize.top + k :=
        wrappingAdd_of_range (by omega) (by omega)
      simp only [ownerStep, Resize.step, indexEq, Option.some.injEq, Prod.mk.injEq] at taken
      obtain ⟨rfl, rfl, rfl, rfl⟩ := taken
      exact storage.resizeQuiet .loadCell state.inner.retired state.inner.freed atPc (by decide)
        (by rw [atPc]; rfl) fun reached => ⟨reached.1, reached.2.1, reached.2.2, rfl⟩
  | copyStore k p =>
      simp only [ownerStep, Resize.step, Option.some.injEq, Prod.mk.injEq] at taken
      obtain ⟨rfl, rfl, rfl, rfl⟩ := taken
      exact storage.resizeCopyStore few atPc
  | storeBuffer =>
      simp only [ownerStep, Resize.step, Option.some.injEq, Prod.mk.injEq] at taken
      obtain ⟨rfl, rfl, rfl, rfl⟩ := taken
      exact storage.resizeStoreBuffer atPc
  | loadRetired =>
      simp only [ownerStep, Resize.step, Option.some.injEq, Prod.mk.injEq] at taken
      obtain ⟨rfl, rfl, rfl, rfl⟩ := taken
      exact storage.resizeQuiet .loadRetired state.inner.retired state.inner.freed atPc
        (by decide) (by rw [atPc]; rfl) id
  | casRetired head =>
      by_cases won : spurious = false ∧ state.inner.retired = head
      · simp only [ownerStep, Resize.step, if_pos won, Option.some.injEq,
          Prod.mk.injEq] at taken
        obtain ⟨rfl, rfl, rfl, rfl⟩ := taken
        exact storage.resizeQuiet (.casRetired true) _ state.inner.freed atPc (by decide)
          (by rw [atPc]; rfl) id
      · simp only [ownerStep, Resize.step, if_neg won, Option.some.injEq,
          Prod.mk.injEq] at taken
        obtain ⟨rfl, rfl, rfl, rfl⟩ := taken
        exact storage.resizeQuiet (.casRetired false) state.inner.retired state.inner.freed atPc
          (by decide) (by rw [atPc]; rfl) id
  | loadInFlight =>
      by_cases busy : state.inner.inFlight ≠ 0
      · simp only [ownerStep, Resize.step, if_pos busy, Option.some.injEq,
          Prod.mk.injEq] at taken
        obtain ⟨rfl, rfl, rfl, rfl⟩ := taken
        exact storage.resizeFinish .loadInFlight state.inner.retired state.inner.freed atPc
          (by decide) (by rw [atPc]; rfl) id
      · simp only [ownerStep, Resize.step, if_neg busy, Option.some.injEq,
          Prod.mk.injEq] at taken
        obtain ⟨rfl, rfl, rfl, rfl⟩ := taken
        exact storage.resizeQuiet .loadInFlight state.inner.retired state.inner.freed atPc
          (by decide) (by rw [atPc]; rfl) id
  | swapRetired =>
      by_cases nothing : state.inner.retired = []
      · simp only [ownerStep, Resize.step, if_pos nothing, Option.some.injEq,
          Prod.mk.injEq] at taken
        obtain ⟨rfl, rfl, rfl, rfl⟩ := taken
        exact storage.resizeFinish .swapRetired [] state.inner.freed atPc (by decide)
          (by rw [atPc]; rfl) id
      · simp only [ownerStep, Resize.step, if_neg nothing, Option.some.injEq,
          Prod.mk.injEq] at taken
        obtain ⟨rfl, rfl, rfl, rfl⟩ := taken
        exact storage.resizeQuiet .swapRetired [] state.inner.freed atPc (by decide)
          (by rw [atPc]; rfl) id
  | free node =>
      cases node with
      | nil =>
          simp only [ownerStep, Resize.step, Option.some.injEq, Prod.mk.injEq] at taken
          obtain ⟨rfl, rfl, rfl, rfl⟩ := taken
          exact storage.resizeFinish .freeBuffer state.inner.retired state.inner.freed atPc
            (by decide) (by rw [atPc]; rfl) id
      | cons buffer next =>
          by_cases last : next = []
          · simp only [ownerStep, Resize.step, if_pos last, Option.some.injEq,
              Prod.mk.injEq] at taken
            obtain ⟨rfl, rfl, rfl, rfl⟩ := taken
            exact storage.resizeFinish .freeBuffer state.inner.retired _ atPc (by decide)
              (by rw [atPc]; rfl) id
          · simp only [ownerStep, Resize.step, if_neg last, Option.some.injEq,
              Prod.mk.injEq] at taken
            obtain ⟨rfl, rfl, rfl, rfl⟩ := taken
            exact storage.resizeQuiet .freeBuffer state.inner.retired _ atPc (by decide)
              (by rw [atPc]; rfl) id

end WsDeque.ChaseLev
