import WsDeque.ChaseLev.ResizeSteps

/-
Each step of `push` and of a LIFO `pop` keeps the storage invariant and is a
step of the abstract deque.
-/

namespace WsDeque.ChaseLev

open MachineWord

variable {ι α : Type*} {pushes : Nat} {state : State ι α} [Fintype ι] [DecidableEq ι]

/-! ### `push` -/

/-- A larger buffer for the value being pushed, of whatever capacity has room. -/
theorem Storage.grow (storage : Storage pushes state) (few : pushes < 2 ^ 63)
    (worker : Worker) {value : α} {t : Int} {exponent : Nat} (access : Access)
    (early : access ≠ .storeBottom)
    (phase : state.owner.phase = .resting) (taker : state.owner.taker = .away)
    (pending : state.owner.pendingPushes = 1)
    (status : state.owner.status state.inner = .pushing value)
    (present : state.owner.isDropped = false) (fifo : worker.fifo = state.worker.fifo)
    (cachedNonneg : 0 ≤ worker.cachedTop) (cachedLe : worker.cachedTop ≤ state.inner.top)
    (tNonneg : 0 ≤ t) (tLe : t ≤ state.inner.top) (small : exponent ≤ 63)
    (room : state.inner.bottom - t < ((2 ^ exponent : Nat) : Int) - 1) :
    Advance pushes state (.owner access)
      { state with
        inner := (ChaseLev.startResize state.inner state.inner.buffer (2 ^ exponent)
          state.inner.bottom t (.push value state.inner.bottom)).1
        worker := worker
        owner := (ChaseLev.startResize state.inner state.inner.buffer (2 ^ exponent)
          state.inner.bottom t (.push value state.inner.bottom)).2 } := by
  have spec : Spec.Step state.worker.fifo state.abstract (.owner access) state.abstract :=
    .pushInternal value access status early
  have abstractOwner : state.abstract.owner = .pushing value := status
  have fits : (After.push value state.inner.bottom).Fits state.inner.bottom t (2 ^ exponent) :=
    ⟨rfl, room⟩
  have counted : (After.push value state.inner.bottom).pendingPushes =
      state.owner.pendingPushes := pending.symm
  refine (storage.startResize few worker phase taker counted small tNonneg tLe cachedNonneg
    cachedLe fits).advance present rfl rfl rfl fifo state.abstract.items ?_ ?_
  · rw [State.abstract_items present, State.protocol_live, State.protocol_live,
      Storage.back_of_resting phase]
    have old : Function.update state.inner.heap state.inner.allocated
        (Buffer.alloc (2 ^ exponent)) state.inner.buffer =
        state.inner.heap state.inner.buffer :=
      Function.update_of_ne (Nat.ne_of_lt storage.window.bufferAllocated) ..
    simp only [ChaseLev.startResize, Inner.active, old]
    rfl
  · change Spec.Step _ _ _ { state.abstract with owner := .pushing value }
    rw [← abstractOwner]
    exact spec

/-- Both ways into the capacity check: with a cached `top` that shows room, or
with the real one. -/
theorem Storage.pushGrowOrStore (storage : Storage pushes state) (few : pushes < 2 ^ 63)
    (worker : Worker) {value : α} {t : Int} (access : Access) (early : access ≠ .storeBottom)
    (phase : state.owner.phase = .resting) (taker : state.owner.taker = .away)
    (unpublished : state.owner.unpublished = none)
    (pending : state.owner.pendingPushes = 1)
    (status : state.owner.status state.inner = .pushing value)
    (present : state.owner.isDropped = false)
    (fifo : worker.fifo = state.worker.fifo)
    (cachedNonneg : 0 ≤ worker.cachedTop) (cachedLe : worker.cachedTop ≤ state.inner.top)
    (tNonneg : 0 ≤ t) (tLe : t ≤ state.inner.top)
    (current : t = state.inner.top ∨
      mightBeFull state.inner state.inner.buffer state.inner.bottom t = false) :
    Advance pushes state (.owner access)
      { state with
        inner := (ChaseLev.pushGrowOrStore state.inner value state.inner.bottom
          state.inner.buffer t).1
        worker := worker
        owner := (ChaseLev.pushGrowOrStore state.inner value state.inner.bottom
          state.inner.buffer t).2 } := by
  have level := storage.level phase
  have bound := storage.bound
  rw [Storage.back_of_resting phase, pending] at bound
  have room := storage.window.room
  rw [Storage.back_of_resting phase] at room
  have spec : Spec.Step state.worker.fifo state.abstract (.owner access) state.abstract :=
    .pushInternal value access status early
  have abstractOwner : state.abstract.owner = .pushing value := status
  obtain ⟨exponent, small, capEq⟩ := storage.window.powerOfTwo state.inner.buffer
  have full := mightBeFull_iff (b := state.inner.bottom) (t := t) small capEq (by omega) (by omega)
  unfold ChaseLev.pushGrowOrStore
  by_cases grows : mightBeFull state.inner state.inner.buffer state.inner.bottom t = true
  · have topNow : t = state.inner.top := current.resolve_right (by rw [grows]; decide)
    have crowded := full.mp grows
    have smaller : exponent < 63 := by
      apply (Nat.pow_lt_pow_iff_right (by decide : 1 < 2)).mp
      rw [← capEq]
      omega
    have doubled : (state.inner.heap state.inner.buffer).cap * 2 % 2 ^ 64 = 2 ^ (exponent + 1) := by
      rw [capEq, ← Nat.pow_succ]
      exact Nat.mod_eq_of_lt (Nat.pow_lt_pow_right (by decide) (by omega))
    have active : state.inner.active.cap = 2 ^ exponent := capEq
    rw [if_pos grows, doubled]
    refine storage.grow few worker access early phase taker pending status present fifo
      cachedNonneg cachedLe tNonneg tLe smaller ?_
    have positive := Nat.two_pow_pos exponent
    rw [active] at room
    rw [Nat.pow_succ]
    omega
  · have roomy := mt full.mpr grows
    rw [if_neg grows]
    refine storage.advanceQuiet worker access state.inner.retired state.inner.inFlight
      state.inner.freed present rfl phase.symm taker.symm pending.symm
      unpublished.symm cachedNonneg cachedLe fifo trivial ⟨rfl, rfl, ?_⟩ ?_
    · change state.inner.bottom - state.inner.top <
        ((state.inner.heap state.inner.buffer).cap : Int) - 1
      omega
    · change Spec.Step _ _ _ { state.abstract with owner := .pushing value }
      rw [← abstractOwner]
      exact spec

theorem Storage.pushStoreCell (storage : Storage pushes state) {value : α} {b : Int}
    {bufPtr : BufferPtr} (atPc : state.owner = .pushStoreCell value b bufPtr) :
    Advance pushes state (.owner .storeCell)
      { state with
        inner :=
          { state.inner with
            heap := Function.update state.inner.heap bufPtr
              ((state.inner.heap bufPtr).write b (some value)) }
        owner := .pushStoreBottom value b } := by
  have meets := storage.owner
  rw [atPc] at meets
  obtain ⟨rfl, rfl, roomy⟩ := meets
  have resting : state.owner.phase = .resting := by rw [atPc]; rfl
  have level := storage.level resting
  obtain ⟨exponent, small, capEq⟩ := storage.window.powerOfTwo state.inner.buffer
  have active : state.inner.active = state.inner.heap state.inner.buffer := rfl
  -- The cell of `bottom` is not the cell of any index still in the list.
  have kept : ∀ index, state.inner.top ≤ index → index < state.inner.bottom →
      ((state.inner.heap state.inner.buffer).write state.inner.bottom (some value)).read index =
        state.inner.active.read index := by
    intro index above below
    rw [active] at roomy ⊢
    exact Buffer.read_write_of_near small capEq _ (by omega) (by omega) (by omega)
  have stored := storage.ownerHeap
    (Function.update state.inner.heap state.inner.buffer
      ((state.inner.heap state.inner.buffer).write state.inner.bottom (some value)))
    state.inner.buffer (.pushStoreBottom value state.inner.bottom)
    (by rw [resting]; rfl) (by rw [atPc]; rfl) (by rw [atPc]; rfl)
    (fun _bufPtr visible => by rw [atPc] at visible; exact visible)
    storage.window.bufferAllocated
    (fun bufPtr => by
      by_cases same : bufPtr = state.inner.buffer
      · subst same
        rw [Function.update_self, Buffer.write_cap]
      · rw [Function.update_of_ne same])
    (by rw [Function.update_self, Buffer.write_cap]; exact storage.window.room)
    (by rw [Storage.back_of_resting resting, Function.update_self]; exact kept)
    (fun bufPtr _known _visible inside agrees => by
      rw [Storage.back_of_resting resting] at inside
      rw [Function.update_self, kept _ (Int.le_refl _) inside]
      by_cases same : bufPtr = state.inner.buffer
      · rw [same, Function.update_self, kept _ (Int.le_refl _) inside]
      · rw [Function.update_of_ne same]
        exact agrees)
    trivial
    ⟨rfl, by simp [Inner.active], by
      simpa only [Inner.active, Function.update_self, Buffer.write_cap] using roomy⟩
  have status : state.abstract.owner = .pushing value := by
    change state.owner.status state.inner = _
    rw [atPc]
    rfl
  refine stored.advance (by rw [atPc]; rfl) rfl rfl rfl rfl state.abstract.items ?_ ?_
  · rw [State.abstract_items (by rw [atPc]; rfl), State.protocol_live, State.protocol_live,
      Storage.back_of_resting resting]
    simp only [Inner.active, Function.update_self]
    exact congrArg List.reduceOption (window_congr kept)
  · change Spec.Step _ _ _ { state.abstract with owner := .pushing value }
    rw [← status]
    exact .pushInternal value .storeCell status (by decide)

theorem Storage.pushStoreBottom (storage : Storage pushes state) (few : pushes < 2 ^ 63)
    {value : α} {b : Int} (atPc : state.owner = .pushStoreBottom value b) :
    Advance pushes state (.owner .storeBottom)
      { state with
        inner := { state.inner with bottom := wrappingAdd b 1 }
        owner := .returned .pushed } := by
  have meets := storage.owner
  rw [atPc] at meets
  obtain ⟨rfl, stored, roomy⟩ := meets
  have resting : state.owner.phase = .resting := by rw [atPc]; rfl
  have level := storage.level resting
  have topNonneg := storage.window.topNonneg
  have bound := storage.bound
  rw [Storage.back_of_resting resting, atPc] at bound
  simp only [OwnerPc.pendingPushes] at bound
  have next : wrappingAdd state.inner.bottom 1 = state.inner.bottom + 1 :=
    wrappingAdd_of_range (by omega) (by omega)
  have raised : IndexProtocol.Step state.protocol (.appended (some value))
      { state.protocol with
        top := state.inner.top
        bottom := state.inner.bottom + 1
        owner := (OwnerPc.returned .pushed : OwnerPc α).phase } := by
    have step : IndexProtocol.Step state.protocol _ _ := .raise resting level
    rw [show state.protocol.cell state.protocol.bottom = some value from stored] at step
    change IndexProtocol.Step state.protocol _
      { state.protocol with bottom := state.inner.bottom + 1, owner := .resting }
    rw [← show state.protocol.owner = .resting from resting]
    exact step
  rw [next]
  refine (storage.ownerMove (state.inner.bottom + 1) state.inner.top (.returned .pushed) raised
    (by rw [atPc]; rfl) (by rw [atPc]; rfl) (Int.le_refl _) ?_ ?_ ?_ ?_ trivial trivial).advance
      (by rw [atPc]; rfl) rfl rfl rfl rfl (state.abstract.items ++ [value]) ?_ ?_
  · change state.inner.bottom + 1 - state.inner.top ≤ _
    omega
  · intro index above below
    change index < state.inner.bottom + 1 at below
    by_cases last : index = state.inner.bottom
    · rw [last, stored]
      exact Option.some_ne_none value
    · exact storage.window.filled index above (by rw [Storage.back_of_resting resting]; omega)
  · intro _resting
    omega
  · change state.inner.bottom + 1 + 0 ≤ (pushes : Int)
    omega
  · rw [State.abstract_items (by rw [atPc]; rfl)]
    change (WsDeque.window state.inner.active.read state.inner.top
      (state.inner.bottom + 1)).reduceOption =
      (WsDeque.window _ _ state.back).reduceOption ++ [value]
    rw [Storage.back_of_resting resting, window_snoc _ level, List.reduceOption_append, stored]
    rfl
  · exact .pushAppend value (by change state.owner.status state.inner = _; rw [atPc]; rfl)

/-! ### `pop_lifo` -/

omit [Fintype ι] [DecidableEq ι] in
theorem Storage.lifo_of_mode (storage : Storage pushes state) {pc : OwnerPc α}
    (atPc : state.owner = pc) (lifo : pc.Mode state.worker.fifo → state.worker.fifo = false) :
    state.worker.fifo = false :=
  lifo (atPc ▸ storage.mode)

theorem Storage.popStoreBottom (storage : Storage pushes state) {b : Int} {bufPtr : BufferPtr}
    (atPc : state.owner = .popStoreBottom b bufPtr) :
    Advance pushes state (.owner .storeBottom)
      { state with
        inner := { state.inner with bottom := b }
        owner := .popLoadTop b bufPtr } := by
  have meets := storage.owner
  rw [atPc] at meets
  obtain ⟨rfl, rfl⟩ := meets
  have resting : state.owner.phase = .resting := by rw [atPc]; rfl
  have level := storage.level resting
  have room := storage.window.room
  have filled := storage.window.filled
  have bound := storage.bound
  rw [Storage.back_of_resting resting] at room filled bound
  rw [atPc] at bound
  have backSame : (OwnerPc.popLoadTop (state.inner.bottom - 1) state.inner.buffer :
      OwnerPc α).phase.back (state.inner.bottom - 1) = state.inner.bottom := by
    change state.inner.bottom - 1 + 1 = state.inner.bottom
    omega
  have lowered : IndexProtocol.Step state.protocol .silent
      { state.protocol with
        top := state.inner.top
        bottom := state.inner.bottom - 1
        owner := (OwnerPc.popLoadTop (state.inner.bottom - 1) state.inner.buffer :
          OwnerPc α).phase } :=
    .lower resting level
  refine (storage.ownerMove (state.inner.bottom - 1) state.inner.top _ lowered
    (by rw [atPc]; rfl) (by rw [atPc]; rfl) (Int.le_refl _) (backSame.symm ▸ room)
    (backSame.symm ▸ filled) (fun resting => by cases resting) ?_
    (storage.lifo_of_mode atPc id) rfl).advance
      (by rw [atPc]; rfl) rfl rfl rfl rfl state.abstract.items ?_ ?_
  · rw [backSame]
    exact bound
  · rw [State.abstract_items (by rw [atPc]; rfl), State.protocol_live, State.protocol_live,
      Storage.back_of_resting resting]
    change (WsDeque.window _ _ (state.inner.bottom - 1 + 1)).reduceOption = _
    rw [Int.sub_add_cancel]
    rfl
  · exact .popContest (storage.lifo_of_mode atPc id)
      (by change state.owner.status state.inner = _; rw [atPc]; rfl)

theorem Storage.popLoadTop (storage : Storage pushes state) (few : pushes < 2 ^ 63)
    {b : Int} {bufPtr : BufferPtr} (atPc : state.owner = .popLoadTop b bufPtr) :
    Advance pushes state (.owner .loadTop)
      { state with
        owner :=
          if wrappingSub b state.inner.top < 0 then .popRestoreBottom b state.inner.top
          else .popLoadCell b state.inner.top bufPtr } := by
  have bufferEq := storage.owner
  rw [atPc] at bufferEq
  change bufPtr = state.inner.buffer at bufferEq
  subst bufferEq
  have phase : state.owner.phase = .lowered b := by rw [atPc]; rfl
  have protocolPhase : state.protocol.owner = .lowered b := phase
  have lowered := storage.protocol.owner
  rw [protocolPhase] at lowered
  obtain ⟨bottomEq, topLe⟩ := lowered
  change state.inner.bottom = b at bottomEq
  change state.inner.top ≤ b + 1 at topLe
  have backEq : state.back = b + 1 := by
    simp only [State.back, phase, IndexProtocol.Owner.back]
  have topNonneg := storage.window.topNonneg
  have room := storage.window.room
  have filled := storage.window.filled
  have bound := storage.bound
  rw [backEq] at room filled bound
  rw [atPc] at bound
  simp only [OwnerPc.pendingPushes] at bound
  have lifo : state.worker.fifo = false := storage.lifo_of_mode atPc id
  have contesting : state.abstract.owner = .contesting := by
    change state.owner.status state.inner = _
    rw [atPc]
    rfl
  have items : state.abstract.items =
      (WsDeque.window state.inner.active.read state.inner.top (b + 1)).reduceOption := by
    rw [State.abstract_items (by rw [atPc]; rfl), State.protocol_live, backEq]
  rw [wrappingSub_of_range (by omega) (by omega)]
  rcases Int.lt_trichotomy state.inner.top b with below | same | above
  · -- More than one element: the back one is the owner's from here on.
    rw [if_neg (by omega)]
    have notEmpty := filled b (by omega) (by omega)
    obtain ⟨value, valueEq⟩ := Option.ne_none_iff_exists'.mp notEmpty
    have kept : (OwnerPc.popLoadCell b state.inner.top state.inner.buffer : OwnerPc α).phase =
        .resting := by
      simp only [OwnerPc.phase, if_pos below]
    have step : IndexProtocol.Step state.protocol (.popped (some value))
        { state.protocol with
          top := state.inner.top
          bottom := state.inner.bottom
          owner := (OwnerPc.popLoadCell b state.inner.top state.inner.buffer :
            OwnerPc α).phase } := by
      rw [kept, ← valueEq]
      exact .keep b protocolPhase below
    refine (storage.ownerMove state.inner.bottom state.inner.top _ step
      (by rw [atPc]; rfl) (by rw [atPc]; rfl) (Int.le_refl _) ?_ ?_ ?_ ?_ lifo
      ⟨rfl, bottomEq, topNonneg, Int.le_of_lt below, Int.le_refl _, fun _below => notEmpty⟩).advance
        (by rw [atPc]; rfl) rfl rfl rfl rfl
        (WsDeque.window state.inner.active.read state.inner.top b).reduceOption ?_ ?_
    · rw [kept]
      change state.inner.bottom - state.inner.top ≤ _
      omega
    · rw [kept]
      intro index aboveTop belowBottom
      change index < state.inner.bottom at belowBottom
      exact filled index aboveTop (by omega)
    · intro _resting
      omega
    · rw [kept]
      change state.inner.bottom + 0 ≤ (pushes : Int)
      omega
    · rw [State.protocol_live, State.back, kept]
      change (WsDeque.window _ _ state.inner.bottom).reduceOption = _
      rw [bottomEq]
      rfl
    · have status : (OwnerPc.popLoadCell b state.inner.top state.inner.buffer : OwnerPc α).status
          state.inner = .done (.popped (some value)) := by
        simp only [OwnerPc.status, if_pos below]
        rw [← valueEq]
        rfl
      rw [status]
      refine .popBack _ value lifo contesting ?_
      rw [items, window_snoc _ (by omega), List.reduceOption_append, valueEq]
      rfl
  · -- The last element: it stays in the list until a compare-exchange on `top`.
    rw [if_neg (by omega)]
    have contended : (OwnerPc.popLoadCell b state.inner.top state.inner.buffer :
        OwnerPc α).phase = .contending b := by
      simp only [OwnerPc.phase, if_neg (show ¬ state.inner.top < b by omega)]
    obtain ⟨value, valueEq⟩ := Option.ne_none_iff_exists'.mp (filled b (by omega) (by omega))
    have step : IndexProtocol.Step state.protocol .silent
        { state.protocol with
          top := state.inner.top
          bottom := state.inner.bottom
          owner := (OwnerPc.popLoadCell b state.inner.top state.inner.buffer :
            OwnerPc α).phase } := by
      rw [contended]
      exact .meet b protocolPhase same
    refine (storage.ownerMove state.inner.bottom state.inner.top _ step
      (by rw [atPc]; rfl) (by rw [atPc]; rfl) (Int.le_refl _) ?_ ?_ ?_ ?_ lifo
      ⟨rfl, bottomEq, topNonneg, Int.le_of_eq same, Int.le_refl _,
        fun below => absurd below (by omega)⟩).advance
        (by rw [atPc]; rfl) rfl rfl rfl rfl state.abstract.items ?_ ?_
    · rw [contended]
      exact room
    · rw [contended]
      exact filled
    · rw [contended]
      intro resting
      cases resting
    · rw [contended]
      change b + 1 + 0 ≤ (pushes : Int)
      omega
    · rw [items, State.protocol_live, State.back, contended]
      rfl
    · have status : (OwnerPc.popLoadCell b state.inner.top state.inner.buffer : OwnerPc α).status
          state.inner = .contesting := by
        simp only [OwnerPc.status, if_neg (show ¬ state.inner.top < b by omega)]
      rw [status, ← contesting]
      refine .popLast value lifo contesting ?_
      rw [items, same, window_cons _ (by omega), window_empty _ (by omega), valueEq]
      rfl
  · -- Nothing left: `bottom` goes back to where it was.
    rw [if_pos (by omega)]
    have step : IndexProtocol.Step state.protocol .silent
        { state.protocol with
          top := state.inner.top
          bottom := state.inner.bottom
          owner := (OwnerPc.popRestoreBottom b state.inner.top : OwnerPc α).phase } :=
      .miss b protocolPhase above
    refine (storage.ownerMove state.inner.bottom state.inner.top _ step
      (by rw [atPc]; rfl) (by rw [atPc]; rfl) (Int.le_refl _) room filled
      (fun resting => by cases resting) ?_ lifo (show state.inner.top = b + 1 by omega)).advance
        (by rw [atPc]; rfl) rfl rfl rfl rfl state.abstract.items ?_ ?_
    · change b + 1 + 0 ≤ (pushes : Int)
      omega
    · rw [items]
      rfl
    · exact .popEmpty lifo contesting (by
        rw [items, window_empty _ (by omega)]
        rfl)

/-- Both ways a LIFO pop puts `bottom` back above the contended index. -/
theorem Storage.settleBottom (storage : Storage pushes state) {b : Int} {owner : OwnerPc α}
    (result : OwnerResult α) (phase : state.owner.phase = .settling b)
    (taker : state.owner.taker = .away) (unpublished : state.owner.unpublished = none)
    (present : state.owner.isDropped = false)
    (status : state.owner.status state.inner = .done result)
    (returned : owner = .returned result) :
    Advance pushes state (.owner .storeBottom)
      { state with
        inner := { state.inner with bottom := b + 1 }
        owner := owner } := by
  subst returned
  have backEq : state.back = b + 1 := by
    simp only [State.back, phase, IndexProtocol.Owner.back]
  have met := storage.protocol.owner
  rw [show state.protocol.owner = .settling b from phase] at met
  have topEq : state.inner.top = b + 1 := met.2
  have room := storage.window.room
  have filled := storage.window.filled
  have bound := storage.bound
  have nonneg := pendingPushes_nonneg state.owner
  rw [backEq] at room filled bound
  have settled : IndexProtocol.Step state.protocol .silent
      { state.protocol with
        top := state.inner.top
        bottom := b + 1
        owner := (OwnerPc.returned result : OwnerPc α).phase } :=
    .settle b phase
  refine (storage.ownerMove (b + 1) state.inner.top (.returned result) settled taker.symm
    unpublished.symm (Int.le_refl _) room filled (fun _resting => Int.le_of_eq topEq) ?_
    trivial trivial).advance present rfl rfl rfl rfl state.abstract.items ?_ ?_
  · change b + 1 + 0 ≤ (pushes : Int)
    omega
  · rw [State.abstract_items present, State.protocol_live, State.protocol_live, backEq]
    rfl
  · change Spec.Step _ _ _ { state.abstract with owner := .done result }
    rw [← show state.abstract.owner = .done result from status]
    exact .ownerTail .storeBottom result status

theorem Storage.popCasTop (storage : Storage pushes state) (few : pushes < 2 ^ 63)
    {b t : Int} {boxed : Option α} (atPc : state.owner = .popCasTop b t boxed) (won : Bool)
    (outcome : won = true ↔ state.inner.top = t) :
    Advance pushes state (.owner (.casTop won))
      { state with
        inner := { state.inner with top := if won then wrappingAdd t 1 else state.inner.top }
        owner := .popSettleBottom b t boxed won } := by
  have meets := storage.owner
  rw [atPc] at meets
  obtain ⟨rfl, loaded⟩ := meets
  have phase : state.owner.phase = .contending t := by rw [atPc]; rfl
  have protocolPhase : state.protocol.owner = .contending t := phase
  have met := storage.protocol.owner
  rw [protocolPhase] at met
  obtain ⟨bottomEq, topGe, topLe⟩ := met
  change state.inner.bottom = t at bottomEq
  change t ≤ state.inner.top at topGe
  change state.inner.top ≤ t + 1 at topLe
  have backEq : state.back = t + 1 := by
    simp only [State.back, phase, IndexProtocol.Owner.back]
  have topNonneg := storage.window.topNonneg
  have room := storage.window.room
  have filled := storage.window.filled
  have bound := storage.bound
  rw [backEq] at room filled bound
  rw [atPc] at bound
  simp only [OwnerPc.pendingPushes] at bound
  have lifo : state.worker.fifo = false := storage.lifo_of_mode atPc id
  have contesting : state.abstract.owner = .contesting := by
    change state.owner.status state.inner = _
    rw [atPc]
    rfl
  have items : state.abstract.items =
      (WsDeque.window state.inner.active.read state.inner.top (t + 1)).reduceOption := by
    rw [State.abstract_items (by rw [atPc]; rfl), State.protocol_live, backEq]
  have next : wrappingAdd t 1 = t + 1 := wrappingAdd_of_range (by omega) (by omega)
  cases won with
  | true =>
      have same := outcome.mp rfl
      have boxedEq := loaded same
      obtain ⟨value, valueEq⟩ := Option.ne_none_iff_exists'.mp (filled t (by omega) (by omega))
      have step : IndexProtocol.Step state.protocol (.taken (some value))
          { state.protocol with
            top := t + 1
            bottom := state.inner.bottom
            owner := (OwnerPc.popSettleBottom t t boxed true : OwnerPc α).phase } := by
        rw [← valueEq]
        exact .win t protocolPhase same
      rw [if_pos rfl, next]
      refine (storage.ownerMove state.inner.bottom (t + 1) _ step (by rw [atPc]; rfl)
        (by rw [atPc]; rfl) (by omega) ?_ ?_ (fun resting => by cases resting) ?_ lifo
        ⟨rfl, fun _won => by rw [boxedEq, valueEq]; exact Option.some_ne_none value⟩).advance
          (by rw [atPc]; rfl) rfl rfl rfl rfl [] ?_ ?_
      · change t + 1 - (t + 1) ≤ _
        omega
      · intro index above below
        exact filled index (by omega) below
      · change t + 1 + 0 ≤ (pushes : Int)
        omega
      · change (WsDeque.window _ (t + 1) (t + 1)).reduceOption = []
        rw [window_empty _ (Int.le_refl _)]
        rfl
      · have status : (OwnerPc.popSettleBottom t t boxed true).status
            { state.inner with top := t + 1 } = .done (.popped (some value)) := by
          simp only [OwnerPc.status, if_true, boxedEq, valueEq]
        rw [status]
        refine .popWin value lifo contesting ?_
        rw [items, same, window_cons _ (by omega), window_empty _ (by omega), valueEq]
        rfl
  | false =>
      have moved : state.inner.top ≠ t := fun same => Bool.noConfusion (outcome.mpr same)
      have step : IndexProtocol.Step state.protocol .silent
          { state.protocol with
            top := state.inner.top
            bottom := state.inner.bottom
            owner := (OwnerPc.popSettleBottom t t boxed false : OwnerPc α).phase } :=
        .lose t protocolPhase moved
      refine (storage.ownerMove state.inner.bottom state.inner.top _ step (by rw [atPc]; rfl)
        (by rw [atPc]; rfl) (Int.le_refl _) room filled (fun resting => by cases resting) ?_ lifo
        ⟨rfl, fun won => Bool.noConfusion won⟩).advance
          (by rw [atPc]; rfl) rfl rfl rfl rfl state.abstract.items ?_ ?_
      · change t + 1 + 0 ≤ (pushes : Int)
        omega
      · rw [items]
        rfl
      · exact .popLose lifo contesting (by
          rw [items, window_empty _ (by omega)]
          rfl)

end WsDeque.ChaseLev
