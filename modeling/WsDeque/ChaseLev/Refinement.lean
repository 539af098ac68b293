import WsDeque.ChaseLev.OwnerSteps
import WsDeque.ChaseLev.StealSteps

/-
The deque refines the abstract double-ended list, in every interleaving of its
owner with any number of thieves.
-/

namespace WsDeque.ChaseLev

open MachineWord

variable {ι α : Type*} {pushes : Nat} {state : State ι α} [Fintype ι] [DecidableEq ι]

/-! ### The remaining owner steps -/

theorem Storage.popLoadCell (storage : Storage pushes state) (few : pushes < 2 ^ 63)
    {b t : Int} {bufPtr : BufferPtr} (atPc : state.owner = .popLoadCell b t bufPtr)
    (spurious : Bool) {access : Access} {worker : Worker} {inner : Inner α} {owner : OwnerPc α}
    (taken : ownerStep state.worker state.inner spurious (.popLoadCell b t bufPtr) =
      some (access, worker, inner, owner)) :
    Advance pushes state (.owner access)
      { state with
        inner := inner
        worker := worker
        owner := owner } := by
  have meets := storage.owner
  rw [atPc] at meets
  obtain ⟨rfl, rfl, tNonneg, tLe, tTop, filled⟩ := meets
  have back := storage.back_le
  have near := storage.bottom_near_back
  have present : state.owner.isDropped = false := by rw [atPc]; rfl
  have lifo : state.worker.fifo = false := storage.lifo_of_mode atPc id
  have difference : wrappingSub state.inner.bottom t = state.inner.bottom - t :=
    wrappingSub_of_range (by omega) (by omega)
  by_cases below : t < state.inner.bottom
  · -- The element is already the owner's; the buffer may shrink before the return.
    obtain ⟨value, valueEq⟩ := Option.ne_none_iff_exists'.mp (filled below)
    have loaded : (state.inner.heap state.inner.buffer).read state.inner.bottom = some value :=
      valueEq
    have phase : state.owner.phase = .resting := by
      rw [atPc]
      simp only [OwnerPc.phase, if_pos below]
    have status : state.abstract.owner = .done (.popped (some value)) := by
      change state.owner.status state.inner = _
      rw [atPc]
      simp only [OwnerPc.status, if_pos below, loaded]
    have spec : Spec.Step state.worker.fifo state.abstract (.owner .loadCell) state.abstract :=
      .ownerTail .loadCell _ status
    simp only [ownerStep, loaded, difference, if_pos (show state.inner.bottom - t > 0 by omega),
      perhapsShrink, Option.some.injEq, Prod.mk.injEq] at taken
    obtain ⟨exponent, small, capEq⟩ := storage.window.powerOfTwo state.inner.buffer
    split at taken
    · rename_i sparse
      have wide := sparse.1
      have few' := sparse.2
      rw [capEq] at wide few'
      have large : 4 < exponent := by
        apply (Nat.pow_lt_pow_iff_right (by decide : 1 < 2)).mp
        exact wide
      obtain ⟨half, rfl⟩ : ∃ half, exponent = half + 1 := ⟨exponent - 1, by omega⟩
      have halved : max ((state.inner.heap state.inner.buffer).cap / 2) minCapacity =
          2 ^ half := by
        rw [capEq, Nat.pow_succ, Nat.mul_div_cancel _ (by decide)]
        have sixteen : 2 ^ 4 ≤ 2 ^ half := Nat.pow_le_pow_right (by decide) (by omega)
        exact Nat.max_eq_left sixteen
      rw [halved] at taken
      have fits : (After.pop (some value)).Fits state.inner.bottom t (2 ^ half) := by
        refine ⟨Option.some_ne_none value, ?_⟩
        have shrinkEq : shrinkFactor = 3 := rfl
        rw [Nat.pow_succ, shrinkEq] at few'
        omega
      have stored := storage.startResize few state.worker phase
        (by rw [atPc]; rfl) (by rw [atPc]; rfl : (After.pop (some value)).pendingPushes = _)
        (by omega) tNonneg tTop storage.cachedNonneg storage.cachedLe fits
      obtain ⟨rfl, rfl, rest⟩ := taken
      obtain ⟨rfl, rfl⟩ := Prod.mk.inj rest
      refine stored.advance present rfl rfl rfl rfl state.abstract.items ?_ ?_
      · rw [State.abstract_items present, State.protocol_live, State.protocol_live,
          Storage.back_of_resting phase]
        have old : Function.update state.inner.heap state.inner.allocated
            (Buffer.alloc (2 ^ half)) state.inner.buffer =
            state.inner.heap state.inner.buffer :=
          Function.update_of_ne (Nat.ne_of_lt storage.window.bufferAllocated) ..
        simp only [ChaseLev.startResize, Inner.active, old]
        rfl
      · change Spec.Step _ _ _ { state.abstract with owner := .done (.popped (some value)) }
        rw [← status]
        exact spec
    · obtain ⟨rfl, rfl, rest⟩ := taken
      obtain ⟨rfl, rfl⟩ := Prod.mk.inj rest
      refine storage.advanceQuiet state.worker .loadCell state.inner.retired state.inner.inFlight
        state.inner.freed present rfl phase.symm (by rw [atPc]; rfl) (by rw [atPc]; rfl)
        (by rw [atPc]; rfl) storage.cachedNonneg storage.cachedLe rfl trivial trivial ?_
      change Spec.Step _ _ _ { state.abstract with owner := .done (.popped (some value)) }
      rw [← status]
      exact spec
  · have last : t = state.inner.bottom := by omega
    have status : state.abstract.owner = .contesting := by
      change state.owner.status state.inner = _
      rw [atPc]
      simp only [OwnerPc.status, if_neg below]
    simp only [ownerStep, difference, if_neg (show ¬ state.inner.bottom - t > 0 by omega),
      Option.some.injEq, Prod.mk.injEq] at taken
    obtain ⟨rfl, rfl, rfl, rfl⟩ := taken
    refine storage.advanceQuiet state.worker .loadCell state.inner.retired state.inner.inFlight
      state.inner.freed present rfl ?_ (by rw [atPc]; rfl) (by rw [atPc]; rfl) (by rw [atPc]; rfl)
      storage.cachedNonneg storage.cachedLe rfl lifo ⟨last, fun _current => rfl⟩ ?_
    · rw [atPc]
      simp only [OwnerPc.phase, if_neg below]
    · change Spec.Step _ _ _ { state.abstract with owner := .contesting }
      rw [← status]
      exact .popLoadCell lifo status

theorem Storage.fifoStep (storage : Storage pushes state) (few : pushes < 2 ^ 63)
    {pc : StealPc α} (atPc : state.owner = .popFifo pc) (spurious : Bool) {access : Access}
    {worker : Worker} {inner : Inner α} {owner : OwnerPc α}
    (taken : ownerStep state.worker state.inner spurious (.popFifo pc) =
      some (access, worker, inner, owner)) :
    Advance pushes state (.owner access)
      { state with
        inner := inner
        worker := worker
        owner := owner } := by
  have met : pc.Meets state.inner none := by
    have meets := storage.owner
    rw [atPc] at meets
    exact meets
  have held : state.protocol.taker none = pc.taker := by
    change state.owner.taker = _
    rw [atPc]
    rfl
  have phase : state.owner.phase = .resting := by rw [atPc]; rfl
  have present : state.owner.isDropped = false := by rw [atPc]; rfl
  have isFifo : state.worker.fifo = true := by
    have mode := storage.mode
    rw [atPc] at mode
    exact mode
  have status : state.abstract.owner = .popping := by
    change state.owner.status state.inner = _
    rw [atPc]
    rfl
  have items := State.abstract_items present
  have leave : IndexProtocol.Step state.protocol _ _ := .leave none
  have outcome := storage.stealCase few held met
  simp only [ownerStep] at taken
  generalize stealFrom state.inner pc = result at outcome taken
  obtain ⟨stepAccess, stepInner, stepOutcome⟩ := result
  cases outcome with
  | proceed access' inFlight pc' early step meets =>
      simp only [Option.some.injEq, Prod.mk.injEq] at taken
      obtain ⟨rfl, rfl, rfl, rfl⟩ := taken
      refine (storage.fifoQuiet atPc (.popFifo pc') inFlight rfl rfl rfl isFifo step
        (meets none (by simp) met)).advance present rfl rfl rfl rfl state.abstract.items ?_ ?_
      · rw [items, State.protocol_live, State.protocol_live, Storage.back_of_resting phase]
        rfl
      · change Spec.Step _ _ _ { state.abstract with owner := .popping }
        rw [← status]
        exact .popInternal stepAccess status ⟨early.1, early.2 true⟩
  | empty nothing =>
      simp only [Option.some.injEq, Prod.mk.injEq] at taken
      obtain ⟨rfl, rfl, rfl, rfl⟩ := taken
      refine (storage.fifoQuiet atPc (.returned (.popped none)) state.inner.inFlight rfl rfl rfl
        trivial leave trivial).advance present rfl rfl rfl rfl state.abstract.items ?_ ?_
      · rw [items, State.protocol_live, State.protocol_live, Storage.back_of_resting phase]
        rfl
      · refine .popFrontEmpty isFifo status ?_
        rw [items]
        rcases nothing with empty | ⟨index, _single, contended⟩
        · rw [empty]
          rfl
        · rw [show state.protocol.owner = .resting from phase] at contended
          rcases contended with lowered | contending
          · cases lowered
          · cases contending
  | success value rest front inside step =>
      simp only [Option.some.injEq, Prod.mk.injEq] at taken
      obtain ⟨rfl, rfl, rfl, rfl⟩ := taken
      have applied := step.applies storage.protocol
      change state.protocol.live = some value :: _ at applied
      refine (storage.fifoTake atPc value inside step).advance present rfl rfl rfl rfl
        (WsDeque.window state.inner.active.read (state.inner.top + 1) state.back).reduceOption ?_ ?_
      · rw [State.protocol_live, Storage.back_of_resting phase]
        rfl
      · refine .popFront value _ isFifo status ?_
        rw [items, applied, List.reduceOption_cons_of_some]
        rfl
  | retry =>
      simp only [Option.some.injEq, Prod.mk.injEq] at taken
      obtain ⟨rfl, rfl, rfl, rfl⟩ := taken
      refine (storage.fifoQuiet atPc (.popFifo .loadTop) state.inner.inFlight rfl rfl rfl
        isFifo leave trivial).advance present rfl rfl rfl rfl state.abstract.items ?_ ?_
      · rw [items, State.protocol_live, State.protocol_live, Storage.back_of_resting phase]
        rfl
      · change Spec.Step _ _ _ { state.abstract with owner := .popping }
        rw [← status]
        exact .popInternal _ status ⟨by decide, by decide⟩

theorem Storage.pushLoadBuffer (storage : Storage pushes state) (few : pushes < 2 ^ 63)
    {value : α} {b : Int} (atPc : state.owner = .pushLoadBuffer value b) (spurious : Bool)
    {access : Access} {worker : Worker} {inner : Inner α} {owner : OwnerPc α}
    (taken : ownerStep state.worker state.inner spurious (.pushLoadBuffer value b) =
      some (access, worker, inner, owner)) :
    Advance pushes state (.owner access)
      { state with
        inner := inner
        worker := worker
        owner := owner } := by
  have meets := storage.owner
  rw [atPc] at meets
  change b = state.inner.bottom at meets
  subst meets
  have status : state.abstract.owner = .pushing value := by
    change state.owner.status state.inner = _
    rw [atPc]
    rfl
  by_cases full : mightBeFull state.inner state.inner.buffer state.inner.bottom
      state.worker.cachedTop = true
  · simp only [ownerStep, if_pos full, Option.some.injEq, Prod.mk.injEq] at taken
    obtain ⟨rfl, rfl, rfl, rfl⟩ := taken
    refine storage.advanceQuiet state.worker .loadBuffer state.inner.retired state.inner.inFlight
      state.inner.freed (by rw [atPc]; rfl) rfl (by rw [atPc]; rfl) (by rw [atPc]; rfl)
      (by rw [atPc]; rfl) (by rw [atPc]; rfl) storage.cachedNonneg storage.cachedLe rfl trivial
      ⟨rfl, rfl⟩ ?_
    change Spec.Step _ _ _ { state.abstract with owner := .pushing value }
    rw [← status]
    exact .pushInternal value .loadBuffer status (by decide)
  · simp only [ownerStep, if_neg full, Option.some.injEq, Prod.mk.injEq] at taken
    obtain ⟨rfl, rfl, rest⟩ := taken
    have advanced := storage.pushGrowOrStore few state.worker .loadBuffer (by decide)
      (by rw [atPc]; rfl) (by rw [atPc]; rfl) (by rw [atPc]; rfl) (by rw [atPc]; rfl) status
      (by rw [atPc]; rfl) rfl storage.cachedNonneg storage.cachedLe storage.cachedNonneg
      storage.cachedLe (Or.inr (Bool.eq_false_iff.mpr full))
    rw [rest] at advanced
    exact advanced

theorem Storage.pushLoadTop (storage : Storage pushes state) (few : pushes < 2 ^ 63)
    {value : α} {b : Int} {bufPtr : BufferPtr} (atPc : state.owner = .pushLoadTop value b bufPtr)
    (spurious : Bool) {access : Access} {worker : Worker} {inner : Inner α} {owner : OwnerPc α}
    (taken : ownerStep state.worker state.inner spurious (.pushLoadTop value b bufPtr) =
      some (access, worker, inner, owner)) :
    Advance pushes state (.owner access)
      { state with
        inner := inner
        worker := worker
        owner := owner } := by
  have meets := storage.owner
  rw [atPc] at meets
  obtain ⟨rfl, rfl⟩ := meets
  have status : state.abstract.owner = .pushing value := by
    change state.owner.status state.inner = _
    rw [atPc]
    rfl
  have topNonneg := storage.window.topNonneg
  simp only [ownerStep, Option.some.injEq, Prod.mk.injEq] at taken
  obtain ⟨rfl, rfl, rest⟩ := taken
  have advanced := storage.pushGrowOrStore few
    { state.worker with cachedTop := state.inner.top } .loadTop (by decide)
    (by rw [atPc]; rfl) (by rw [atPc]; rfl) (by rw [atPc]; rfl) (by rw [atPc]; rfl) status
    (by rw [atPc]; rfl) rfl topNonneg (Int.le_refl _) topNonneg (Int.le_refl _) (Or.inl rfl)
  rw [rest] at advanced
  exact advanced

/-- Every step of the owner inside a call. -/
theorem Storage.ownerStep (storage : Storage pushes state) (few : pushes < 2 ^ 63)
    (spurious : Bool) {access : Access} {worker : Worker} {inner : Inner α} {owner : OwnerPc α}
    (taken : ChaseLev.ownerStep state.worker state.inner spurious state.owner =
      some (access, worker, inner, owner)) :
    Advance pushes state (.owner access)
      { state with
        inner := inner
        worker := worker
        owner := owner } := by
  have back := storage.back_le
  have near := storage.bottom_near_back
  have topLe := storage.top_le_back
  have topNonneg := storage.window.topNonneg
  cases atPc : state.owner with
  | pushLoadBottom value =>
      rw [atPc] at taken
      simp only [ChaseLev.ownerStep, Option.some.injEq, Prod.mk.injEq] at taken
      obtain ⟨rfl, rfl, rfl, rfl⟩ := taken
      have status : state.abstract.owner = .pushing value := by
        change state.owner.status state.inner = _
        rw [atPc]
        rfl
      refine storage.advanceQuiet state.worker .loadBottom state.inner.retired
        state.inner.inFlight state.inner.freed (by rw [atPc]; rfl) rfl (by rw [atPc]; rfl)
        (by rw [atPc]; rfl) (by rw [atPc]; rfl) (by rw [atPc]; rfl) storage.cachedNonneg
        storage.cachedLe rfl trivial rfl ?_
      change Spec.Step _ _ _ { state.abstract with owner := .pushing value }
      rw [← status]
      exact .pushInternal value .loadBottom status (by decide)
  | pushLoadBuffer value b =>
      rw [atPc] at taken
      exact storage.pushLoadBuffer few atPc spurious taken
  | pushLoadTop value b bufPtr =>
      rw [atPc] at taken
      exact storage.pushLoadTop few atPc spurious taken
  | resizing resize pc after =>
      rw [atPc] at taken
      exact storage.resizeStep few spurious atPc taken
  | pushStoreCell value b bufPtr =>
      rw [atPc] at taken
      simp only [ChaseLev.ownerStep, Option.some.injEq, Prod.mk.injEq] at taken
      obtain ⟨rfl, rfl, rfl, rfl⟩ := taken
      exact storage.pushStoreCell atPc
  | pushStoreBottom value b =>
      rw [atPc] at taken
      simp only [ChaseLev.ownerStep, Option.some.injEq, Prod.mk.injEq] at taken
      obtain ⟨rfl, rfl, rfl, rfl⟩ := taken
      exact storage.pushStoreBottom few atPc
  | popLoadBottom =>
      rw [atPc] at taken
      simp only [ChaseLev.ownerStep, Option.some.injEq, Prod.mk.injEq] at taken
      obtain ⟨rfl, rfl, rfl, rfl⟩ := taken
      have status : state.abstract.owner = .popping := by
        change state.owner.status state.inner = _
        rw [atPc]
        rfl
      refine storage.advanceQuiet state.worker .loadBottom state.inner.retired
        state.inner.inFlight state.inner.freed (by rw [atPc]; rfl) rfl (by rw [atPc]; rfl)
        (by rw [atPc]; rfl) (by rw [atPc]; rfl) (by rw [atPc]; rfl) storage.cachedNonneg
        storage.cachedLe rfl (storage.lifo_of_mode atPc id)
        (wrappingSub_of_range (by omega) (by omega)) ?_
      change Spec.Step _ _ _ { state.abstract with owner := .popping }
      rw [← status]
      exact .popInternal .loadBottom status ⟨by decide, by decide⟩
  | popLoadBuffer b =>
      have meets := storage.owner
      rw [atPc] at taken meets
      simp only [ChaseLev.ownerStep, Option.some.injEq, Prod.mk.injEq] at taken
      obtain ⟨rfl, rfl, rfl, rfl⟩ := taken
      have status : state.abstract.owner = .popping := by
        change state.owner.status state.inner = _
        rw [atPc]
        rfl
      refine storage.advanceQuiet state.worker .loadBuffer state.inner.retired
        state.inner.inFlight state.inner.freed (by rw [atPc]; rfl) rfl (by rw [atPc]; rfl)
        (by rw [atPc]; rfl) (by rw [atPc]; rfl) (by rw [atPc]; rfl) storage.cachedNonneg
        storage.cachedLe rfl (storage.lifo_of_mode atPc id) ⟨meets, rfl⟩ ?_
      change Spec.Step _ _ _ { state.abstract with owner := .popping }
      rw [← status]
      exact .popInternal .loadBuffer status ⟨by decide, by decide⟩
  | popStoreBottom b bufPtr =>
      rw [atPc] at taken
      simp only [ChaseLev.ownerStep, Option.some.injEq, Prod.mk.injEq] at taken
      obtain ⟨rfl, rfl, rfl, rfl⟩ := taken
      exact storage.popStoreBottom atPc
  | popLoadTop b bufPtr =>
      rw [atPc] at taken
      simp only [ChaseLev.ownerStep, Option.some.injEq, Prod.mk.injEq] at taken
      obtain ⟨rfl, rfl, rfl, rfl⟩ := taken
      exact storage.popLoadTop few atPc
  | popRestoreBottom b t =>
      have meets := storage.owner
      rw [atPc] at taken meets
      change t = b + 1 at meets
      subst meets
      simp only [ChaseLev.ownerStep, Option.some.injEq, Prod.mk.injEq] at taken
      obtain ⟨rfl, rfl, rfl, rfl⟩ := taken
      exact storage.settleBottom (.popped none) (by rw [atPc]; rfl) (by rw [atPc]; rfl)
        (by rw [atPc]; rfl) (by rw [atPc]; rfl) (by rw [atPc]; rfl) rfl
  | popLoadCell b t bufPtr =>
      rw [atPc] at taken
      exact storage.popLoadCell few atPc spurious taken
  | popCasTop b t boxed =>
      rw [atPc] at taken
      by_cases current : state.inner.top = t
      · simp only [ChaseLev.ownerStep, if_pos current, Option.some.injEq, Prod.mk.injEq] at taken
        obtain ⟨rfl, rfl, rfl, rfl⟩ := taken
        exact storage.popCasTop few atPc true ⟨fun _won => current, fun _same => rfl⟩
      · simp only [ChaseLev.ownerStep, if_neg current, Option.some.injEq, Prod.mk.injEq] at taken
        obtain ⟨rfl, rfl, rfl, rfl⟩ := taken
        exact storage.popCasTop few atPc false
          ⟨fun won => Bool.noConfusion won, fun same => absurd same current⟩
  | popSettleBottom b t boxed won =>
      have meets := storage.owner
      rw [atPc] at taken meets
      obtain ⟨rfl, boxedSome⟩ := meets
      have phase : state.owner.phase = .settling t := by rw [atPc]; rfl
      have met := storage.protocol.owner
      rw [show state.protocol.owner = .settling t from phase] at met
      have topEq : state.inner.top = t + 1 := met.2
      have next : wrappingAdd t 1 = t + 1 := wrappingAdd_of_range (by omega) (by omega)
      simp only [ChaseLev.ownerStep, next, Option.some.injEq, Prod.mk.injEq] at taken
      obtain ⟨rfl, rfl, rfl, rfl⟩ := taken
      refine storage.settleBottom (.popped (if won then boxed else none)) phase
        (by rw [atPc]; rfl) (by rw [atPc]; rfl) (by rw [atPc]; rfl) (by rw [atPc]; rfl) ?_
      cases won with
      | false => rfl
      | true =>
          obtain ⟨value, rfl⟩ := Option.ne_none_iff_exists'.mp (boxedSome rfl)
          rfl
  | popFifo pc =>
      rw [atPc] at taken
      exact storage.fifoStep few atPc spurious taken
  | idle => rw [atPc] at taken; cases taken
  | returned result => rw [atPc] at taken; cases taken
  | fault => rw [atPc] at taken; cases taken
  | dropped => rw [atPc] at taken; cases taken

end WsDeque.ChaseLev
