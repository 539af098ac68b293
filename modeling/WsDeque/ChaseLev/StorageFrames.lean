import WsDeque.ChaseLev.Storage

/-
What each kind of step leaves of the storage invariant: steps the protocol does
not see, a resize that starts, moved indices, written or replaced buffers.
-/

namespace WsDeque.ChaseLev

open MachineWord

variable {ι α : Type*} {pushes : Nat} {state : State ι α}

namespace Storage

theorem top_le_back (storage : Storage pushes state) : state.inner.top ≤ state.back := by
  have meets := storage.protocol.owner
  have level := storage.level
  simp only [State.protocol] at meets
  unfold State.back
  cases phase : state.owner.phase <;>
    simp only [phase, IndexProtocol.Owner.Meets, IndexProtocol.Owner.back] at meets level ⊢ <;>
    first | exact level trivial | omega

theorem bottom_near_back (storage : Storage pushes state) :
    state.back - 1 ≤ state.inner.bottom ∧ state.inner.bottom ≤ state.back := by
  have meets := storage.protocol.owner
  simp only [State.protocol] at meets
  unfold State.back
  cases phase : state.owner.phase <;>
    simp only [phase, IndexProtocol.Owner.Meets, IndexProtocol.Owner.back] at meets ⊢ <;>
    omega

theorem back_of_resting (resting : state.owner.phase = .resting) :
    state.back = state.inner.bottom := by
  simp only [State.back, resting, IndexProtocol.Owner.back]

theorem pendingPushes_nonneg (pc : OwnerPc α) : 0 ≤ pc.pendingPushes := by
  unfold OwnerPc.pendingPushes
  split <;> omega

theorem back_le (storage : Storage pushes state) : state.back ≤ pushes := by
  have bound := storage.bound
  have nonneg := pendingPushes_nonneg state.owner
  omega

end Storage

/-! ### Frames -/

theorem StealPc.Meets.frame {inner inner' : Inner α} {unpublished unpublished' : Option BufferPtr}
    {pc : StealPc α} {back : Int} (met : pc.Meets inner unpublished)
    (entered : pc.taker.Meets inner.top back inner.active.read)
    (allocated : inner.allocated ≤ inner'.allocated)
    (published : ∀ bufPtr, bufPtr < inner.allocated → unpublished ≠ some bufPtr →
      unpublished' ≠ some bufPtr)
    (forward : inner.top ≤ inner'.top)
    (reads : ∀ bufPtr, bufPtr < inner.allocated → unpublished ≠ some bufPtr →
      inner'.top = inner.top → inner.top < back →
      (inner.heap bufPtr).read inner.top = inner.active.read inner.top →
      (inner'.heap bufPtr).read inner.top = inner'.active.read inner.top) :
    pc.Meets inner' unpublished' := by
  cases pc with
  | loadBottom t => exact met
  | loadCell t bufPtr =>
      obtain ⟨known, visible, agrees⟩ := met
      refine ⟨Nat.lt_of_lt_of_le known allocated, published bufPtr known visible, fun current => ?_⟩
      simp only [StealPc.taker, IndexProtocol.Taker.Meets] at entered
      have same : inner'.top = inner.top := by omega
      have seen : t = inner.top := by omega
      rw [seen]
      exact reads bufPtr known visible same (entered.2 seen) (seen ▸ agrees seen)
  | _ => trivial

/-- Changes of the retired list, the counter and the freed set are invisible to
the storage invariant. -/
def Inner.withReclaim (inner : Inner α) (retired : List BufferPtr) (inFlight : Int)
    (freed : List BufferPtr) : Inner α :=
  { inner with
    retired := retired
    inFlight := inFlight
    freed := freed }

theorem StealPc.meets_withReclaim {inner : Inner α} {unpublished : Option BufferPtr}
    {pc : StealPc α} (retired : List BufferPtr) (inFlight : Int) (freed : List BufferPtr) :
    pc.Meets (inner.withReclaim retired inFlight freed) unpublished ↔
      pc.Meets inner unpublished := by
  cases pc <;> rfl

theorem ThiefPc.meets_withReclaim {inner : Inner α} {unpublished : Option BufferPtr}
    {pc : ThiefPc α} (retired : List BufferPtr) (inFlight : Int) (freed : List BufferPtr) :
    pc.Meets (inner.withReclaim retired inFlight freed) unpublished ↔
      pc.Meets inner unpublished := by
  cases pc with
  | stealing pc => exact StealPc.meets_withReclaim retired inFlight freed
  | _ => rfl

/-- The owner moves on without touching what the protocol sees. -/
theorem Storage.ownerQuiet (storage : Storage pushes state) {pushes' : Nat} {owner : OwnerPc α}
    {worker : Worker} (retired : List BufferPtr) (inFlight : Int) (freed : List BufferPtr)
    (phase : owner.phase = state.owner.phase) (taker : owner.taker = state.owner.taker)
    (bound : state.back + owner.pendingPushes ≤ pushes')
    (unpublished : owner.unpublished = state.owner.unpublished)
    (cachedNonneg : 0 ≤ worker.cachedTop) (cachedLe : worker.cachedTop ≤ state.inner.top)
    (mode : owner.Mode worker.fifo)
    (meets : owner.Meets (state.inner.withReclaim retired inFlight freed)) :
    Storage pushes'
      { state with
        inner := state.inner.withReclaim retired inFlight freed
        worker := worker
        owner := owner } := by
  have backSame : State.back
      { state with
        inner := state.inner.withReclaim retired inFlight freed
        worker := worker
        owner := owner } = state.back := by
    simp only [State.back, phase, Inner.withReclaim]
  have protocolSame : State.protocol
      { state with
        inner := state.inner.withReclaim retired inFlight freed
        worker := worker
        owner := owner } = state.protocol := by
    simp only [State.protocol, phase, taker, Inner.withReclaim, Inner.active]
  refine
    { window := ?_
      protocol := protocolSame ▸ storage.protocol
      level := ?_
      bound := ?_
      cachedNonneg := cachedNonneg
      cachedLe := cachedLe
      mode := mode
      owner := meets
      thief := ?_ }
  · rw [backSame]
    exact
      { topNonneg := storage.window.topNonneg
        powerOfTwo := storage.window.powerOfTwo
        room := storage.window.room
        filled := storage.window.filled
        bufferAllocated := storage.window.bufferAllocated }
  · intro resting
    exact storage.level (phase ▸ resting)
  · rw [backSame]
    exact bound
  · intro thief
    dsimp only
    rw [unpublished, ThiefPc.meets_withReclaim]
    exact storage.thief thief

/-! ### `push` and the replacement of the buffer -/

theorem mightBeFull_iff {inner : Inner α} {bufPtr : BufferPtr} {exponent : Nat} {b t : Int}
    (small : exponent ≤ 63) (capEq : (inner.heap bufPtr).cap = 2 ^ exponent)
    (low : -2 ^ 63 ≤ b - t) (high : b - t < 2 ^ 63) :
    mightBeFull inner bufPtr b t = true ↔ ((inner.heap bufPtr).cap : Int) - 1 ≤ b - t := by
  have positive : 0 < (inner.heap bufPtr).cap := by
    rw [capEq]
    exact Nat.two_pow_pos exponent
  have bound : (inner.heap bufPtr).cap ≤ 2 ^ 63 := by
    rw [capEq]
    exact Nat.pow_le_pow_right (by decide) small
  rw [mightBeFull, decide_eq_true_eq, wrappingSub_of_range low high,
    asIsize_sub_one positive bound]

/-- The value a resize keeps for its caller decides the abstract status. -/
def After.status : After α → Spec.OwnerStatus α
  | .push value _ => .pushing value
  | .pop boxed => .done (.popped boxed)

def After.pendingPushes : After α → Int
  | .push _ _ => 1
  | .pop _ => 0

theorem resizing_status (inner : Inner α) (resize : Resize) (pc : ResizePc α) (after : After α) :
    (OwnerPc.resizing resize pc after).status inner = after.status := by
  cases after <;> rfl

theorem resizing_pendingPushes (resize : Resize) (pc : ResizePc α) (after : After α) :
    (OwnerPc.resizing resize pc after).pendingPushes = after.pendingPushes := by
  cases after <;> rfl

theorem copyFrom_unpublished (resize : Resize) (k : Nat) (after : After α) :
    (OwnerPc.resizing resize (resize.copyFrom k) after).unpublished = some resize.new := by
  unfold Resize.copyFrom
  split <;> rfl

theorem copyFrom_meets {inner : Inner α} {resize : Resize} {k : Nat}
    (buffer : inner.buffer = resize.old) (copied : Copied inner resize k)
    (count : resize.count = resize.bottom - resize.top) :
    (resize.copyFrom k : ResizePc α).Meets inner resize := by
  unfold Resize.copyFrom
  split
  · rename_i more
    exact ⟨buffer, by omega, copied⟩
  · rename_i finished
    exact ⟨buffer, fun offset below => copied offset (by omega)⟩

/-- Starting a resize allocates a buffer nobody else can reach. -/
theorem Storage.startResize (storage : Storage pushes state) (few : pushes < 2 ^ 63)
    (worker : Worker) {exponent : Nat} {top : Int} {after : After α}
    (phase : state.owner.phase = .resting) (taker : state.owner.taker = .away)
    (pending : after.pendingPushes = state.owner.pendingPushes)
    (small : exponent ≤ 63) (topNonneg : 0 ≤ top) (topLe : top ≤ state.inner.top)
    (cachedNonneg : 0 ≤ worker.cachedTop) (cachedLe : worker.cachedTop ≤ state.inner.top)
    (fits : after.Fits state.inner.bottom top (2 ^ exponent)) :
    Storage pushes
      { state with
        inner := (ChaseLev.startResize state.inner state.inner.buffer (2 ^ exponent)
          state.inner.bottom top after).1
        worker := worker
        owner := (ChaseLev.startResize state.inner state.inner.buffer (2 ^ exponent)
          state.inner.bottom top after).2 } := by
  have level := storage.level phase
  have bufferAllocated := storage.window.bufferAllocated
  have back := storage.back_le
  rw [Storage.back_of_resting phase] at back
  have old : ∀ bufPtr, bufPtr < state.inner.allocated →
      Function.update state.inner.heap state.inner.allocated (Buffer.alloc (2 ^ exponent)) bufPtr =
        state.inner.heap bufPtr :=
    fun bufPtr known => Function.update_of_ne (Nat.ne_of_lt known) ..
  have protocolSame : State.protocol
      { state with
        inner := (ChaseLev.startResize state.inner state.inner.buffer (2 ^ exponent)
          state.inner.bottom top after).1
        worker := worker
        owner := (ChaseLev.startResize state.inner state.inner.buffer (2 ^ exponent)
          state.inner.bottom top after).2 } = state.protocol := by
    unfold State.protocol
    rw [phase, taker]
    simp only [ChaseLev.startResize, Inner.active, old _ bufferAllocated]
    rfl
  refine
    { window :=
        { topNonneg := storage.window.topNonneg
          powerOfTwo := ?_
          room := ?_
          filled := ?_
          bufferAllocated := Nat.lt_succ_of_lt bufferAllocated }
      protocol := protocolSame ▸ storage.protocol
      level := fun _resting => level
      bound := ?_
      cachedNonneg := cachedNonneg
      cachedLe := cachedLe
      mode := by cases after <;> trivial
      owner := ?_
      thief := ?_ }
  · intro bufPtr
    by_cases fresh : bufPtr = state.inner.allocated
    · subst fresh
      exact ⟨exponent, small, by simp [ChaseLev.startResize]⟩
    · simp only [ChaseLev.startResize, Function.update_of_ne fresh]
      exact storage.window.powerOfTwo bufPtr
  · have room := storage.window.room
    rw [Storage.back_of_resting phase] at room
    change state.inner.bottom - state.inner.top ≤
      ((Function.update state.inner.heap state.inner.allocated (Buffer.alloc (2 ^ exponent))
        state.inner.buffer).cap : Int) - 1
    rw [old _ bufferAllocated]
    exact room
  · have filled := storage.window.filled
    rw [Storage.back_of_resting phase] at filled
    intro index above below
    change (Function.update state.inner.heap state.inner.allocated (Buffer.alloc (2 ^ exponent))
        state.inner.buffer).read index ≠ none
    rw [old _ bufferAllocated]
    exact filled index above below
  · have bound := storage.bound
    rw [Storage.back_of_resting phase] at bound
    change state.inner.bottom + (OwnerPc.resizing _ _ after).pendingPushes ≤ pushes
    rw [resizing_pendingPushes, pending]
    exact bound
  · refine ⟨⟨rfl, topNonneg, topLe, Nat.lt_succ_self _, (Nat.ne_of_lt bufferAllocated).symm⟩,
      copyFrom_meets rfl (fun offset below => absurd below (Nat.not_lt_zero _)) ?_, ?_⟩
    · exact wrappingSub_of_range (by dsimp only; omega) (by dsimp only; omega)
    · simpa only [ChaseLev.startResize, Function.update_self, Buffer.alloc_cap] using fits
  · intro thief
    have met := storage.thief thief
    have entered := storage.protocol.taker (some thief)
    simp only [State.protocol, byParty] at entered
    cases pc : state.thief thief with
    | stealing pc' =>
        rw [pc] at met entered
        refine StealPc.Meets.frame met entered (Nat.le_succ _) ?_ (Int.le_refl _) ?_
        · intro bufPtr known _visible
          simp only [ChaseLev.startResize, copyFrom_unpublished]
          exact fun same => Nat.ne_of_lt known (Option.some.inj same).symm
        · intro bufPtr known _visible _same _inside agrees
          simpa only [ChaseLev.startResize, Inner.active, old _ bufferAllocated, old _ known]
            using agrees
    | fault =>
        rw [pc] at met
        exact met
    | _ => trivial


/-- The owner moves `bottom`, or both indices, over unchanged buffers. -/
theorem Storage.ownerMove [DecidableEq ι] (storage : Storage pushes state) (bottom top : Int)
    (owner : OwnerPc α) {effect : IndexProtocol.Effect (Option α)}
    (step : IndexProtocol.Step state.protocol effect
      { state.protocol with
        top := top
        bottom := bottom
        owner := owner.phase })
    (taker : owner.taker = state.owner.taker)
    (unpublished : owner.unpublished = state.owner.unpublished)
    (forward : state.inner.top ≤ top)
    (room : owner.phase.back bottom - top ≤ state.inner.active.cap - 1)
    (filled : ∀ index, top ≤ index → index < owner.phase.back bottom →
      state.inner.active.read index ≠ none)
    (level : owner.phase = .resting → top ≤ bottom)
    (bound : owner.phase.back bottom + owner.pendingPushes ≤ pushes)
    (mode : owner.Mode state.worker.fifo)
    (meets : owner.Meets { state.inner with top := top, bottom := bottom }) :
    Storage pushes
      { state with
        inner := { state.inner with top := top, bottom := bottom }
        owner := owner } := by
  have topNonneg := storage.window.topNonneg
  have protocolSame : State.protocol
      { state with
        inner := { state.inner with top := top, bottom := bottom }
        owner := owner } =
      { state.protocol with
        top := top
        bottom := bottom
        owner := owner.phase } := by
    unfold State.protocol
    rw [taker]
    rfl
  exact
    { window :=
        { topNonneg := Int.le_trans topNonneg forward
          powerOfTwo := storage.window.powerOfTwo
          room := room
          filled := filled
          bufferAllocated := storage.window.bufferAllocated }
      protocol := protocolSame ▸ step.invariant storage.protocol
      level := level
      bound := bound
      cachedNonneg := storage.cachedNonneg
      cachedLe := Int.le_trans storage.cachedLe forward
      mode := mode
      owner := meets
      thief := by
        intro thief
        have met := storage.thief thief
        have entered := storage.protocol.taker (some thief)
        simp only [State.protocol, byParty] at entered
        dsimp only
        rw [unpublished]
        cases pc : state.thief thief with
        | stealing pc' =>
            rw [pc] at met entered
            exact StealPc.Meets.frame met entered (Nat.le_refl _)
              (fun _bufPtr _known visible => visible) forward
              (fun _bufPtr _known _visible _same _inside agrees => agrees)
        | fault =>
            rw [pc] at met
            exact met
        | _ => trivial }

theorem State.protocol_live (state : State ι α) :
    state.protocol.live = window state.inner.active.read state.inner.top state.back := rfl

/-- The owner writes a buffer or installs another one; the live cells stay. -/
theorem Storage.ownerHeap [DecidableEq ι] (storage : Storage pushes state)
    (heap : BufferPtr → Buffer α) (buffer : BufferPtr) (owner : OwnerPc α)
    (phase : owner.phase = state.owner.phase) (taker : owner.taker = state.owner.taker)
    (pending : owner.pendingPushes = state.owner.pendingPushes)
    (published : ∀ bufPtr, state.owner.unpublished ≠ some bufPtr →
      owner.unpublished ≠ some bufPtr)
    (bufferAllocated : buffer < state.inner.allocated)
    (caps : ∀ bufPtr, (heap bufPtr).cap = (state.inner.heap bufPtr).cap)
    (room : state.back - state.inner.top ≤ (heap buffer).cap - 1)
    (cells : ∀ index, state.inner.top ≤ index → index < state.back →
      (heap buffer).read index = state.inner.active.read index)
    (reads : ∀ bufPtr, bufPtr < state.inner.allocated → state.owner.unpublished ≠ some bufPtr →
      state.inner.top < state.back →
      (state.inner.heap bufPtr).read state.inner.top =
        state.inner.active.read state.inner.top →
      (heap bufPtr).read state.inner.top = (heap buffer).read state.inner.top)
    (mode : owner.Mode state.worker.fifo)
    (meets : owner.Meets { state.inner with heap := heap, buffer := buffer }) :
    Storage pushes
      { state with
        inner := { state.inner with heap := heap, buffer := buffer }
        owner := owner } := by
  have protocolSame : State.protocol
      { state with
        inner := { state.inner with heap := heap, buffer := buffer }
        owner := owner } =
      { state.protocol with cell := (heap buffer).read } := by
    unfold State.protocol
    rw [taker, phase]
    rfl
  have rewritten : IndexProtocol.Step state.protocol .silent
      { state.protocol with cell := (heap buffer).read } := .rewrite _ cells
  have backSame : State.back
      { state with
        inner := { state.inner with heap := heap, buffer := buffer }
        owner := owner } = state.back := by
    unfold State.back
    rw [phase]
  refine
    { window := ?_
      protocol := protocolSame ▸ rewritten.invariant storage.protocol
      level := fun resting => storage.level (phase ▸ resting)
      bound := by
        rw [backSame]
        dsimp only
        rw [pending]
        exact storage.bound
      cachedNonneg := storage.cachedNonneg
      cachedLe := storage.cachedLe
      mode := mode
      owner := meets
      thief := ?_ }
  · rw [backSame]
    refine
      { topNonneg := storage.window.topNonneg
        powerOfTwo := fun bufPtr => ?_
        room := room
        filled := fun index above below => ?_
        bufferAllocated := bufferAllocated }
    · obtain ⟨exponent, small, capEq⟩ := storage.window.powerOfTwo bufPtr
      exact ⟨exponent, small, (caps bufPtr).trans capEq⟩
    · change (heap buffer).read index ≠ none
      rw [cells index above below]
      exact storage.window.filled index above below
  · intro thief
    have met := storage.thief thief
    have entered := storage.protocol.taker (some thief)
    simp only [State.protocol, byParty] at entered
    cases pc : state.thief thief with
    | stealing pc' =>
        rw [pc] at met entered
        exact StealPc.Meets.frame met entered (Nat.le_refl _)
          (fun bufPtr _known => published bufPtr) (Int.le_refl _)
          (fun bufPtr known visible _same => reads bufPtr known visible)
    | fault =>
        rw [pc] at met
        exact met
    | _ => trivial

end WsDeque.ChaseLev
