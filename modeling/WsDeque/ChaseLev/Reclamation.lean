import WsDeque.ChaseLev.Reclaim
import WsDeque.ChaseLev.Steps

/-
Reclamation along whole runs: no party reads a freed buffer, and after the last
handle is dropped every buffer has been freed once.
-/

namespace WsDeque.ChaseLev

open MachineWord

variable {ι α : Type*} {state : State ι α} [Fintype ι]

/-! ### Steps inside a call -/

omit [Fintype ι] in
/-- A FIFO pop is inside `steal_from`, or has just left it. -/
theorem Reclaim.OwnerMove.fifo {pc : StealPc α} {inner : Inner α} {outcome : Outcome α}
    {owner : OwnerPc α} (atPc : state.owner = .popFifo pc)
    (framed : StealFrame state.inner pc inner outcome) (plain : owner.Plain)
    (critical : owner.inCritical = outcome.inCritical)
    (derefs : owner.dereferences = outcome.loaded.toList) :
    Reclaim.OwnerMove state inner owner := by
  obtain ⟨top, same⟩ := framed.frame
  have before : state.owner.Plain := by
    rw [atPc]
    exact ⟨rfl, rfl, fun _inner => rfl, fun _inner => Iff.rfl⟩
  rw [same]
  refine .plain state.inner.bottom top inner.inFlight state.inner.heap before plain ?_ ?_
  · intro bufPtr member
    rw [derefs, Option.mem_toList] at member
    exact framed.loaded bufPtr member
  · rw [atPc, critical]
    exact framed.counter

theorem Reclaim.ownerStep (reclaim : Reclaim state) (spurious : Bool) {access : Access}
    {worker : Worker} {inner : Inner α} {owner : OwnerPc α}
    (taken : ChaseLev.ownerStep state.worker state.inner spurious state.owner =
      some (access, worker, inner, owner)) : Reclaim.OwnerMove state inner owner := by
  have placed := reclaim.placed
  cases atPc : state.owner with
  | resizing resize pc after =>
      have stepped := reclaim.resizeStep spurious atPc
      rw [atPc] at taken
      simp only [ChaseLev.ownerStep] at taken
      generalize resize.step state.inner spurious pc = result at taken stepped
      obtain ⟨resizeAccess, resizeInner, next⟩ := result
      cases next <;>
      · simp only [Option.some.injEq, Prod.mk.injEq] at taken
        obtain ⟨_, _, rfl, rfl⟩ := taken
        exact stepped
  | popFifo pc =>
      have framed := stealFrom_frame state.inner pc
      have loadTop : (OwnerPc.popFifo .loadTop : OwnerPc α).Plain :=
        ⟨rfl, rfl, fun _inner => rfl, fun _inner => Iff.rfl⟩
      rw [atPc] at taken
      simp only [ChaseLev.ownerStep] at taken
      generalize stealFrom state.inner pc = result at taken framed
      obtain ⟨stealAccess, stealInner, outcome⟩ := result
      cases outcome with
      | running pc' =>
          simp only [Option.some.injEq, Prod.mk.injEq] at taken
          obtain ⟨_, _, rfl, rfl⟩ := taken
          exact .fifo atPc framed ⟨rfl, rfl, fun _inner => rfl, fun _inner => Iff.rfl⟩ rfl rfl
      | returned result =>
          cases result <;>
          · simp only [Option.some.injEq, Prod.mk.injEq] at taken
            obtain ⟨_, _, rfl, rfl⟩ := taken
            exact .fifo atPc framed ⟨rfl, rfl, fun _inner => rfl, fun _inner => Iff.rfl⟩ rfl rfl
      | fault =>
          simp only [Option.some.injEq, Prod.mk.injEq] at taken
          obtain ⟨_, _, rfl, rfl⟩ := taken
          exact .fifo atPc framed ⟨rfl, rfl, fun _inner => rfl, fun _inner => Iff.rfl⟩ rfl rfl
  | pushLoadBuffer value b =>
      rw [atPc] at taken
      simp only [ChaseLev.ownerStep] at taken
      split at taken
      · simp only [Option.some.injEq, Prod.mk.injEq] at taken
        obtain ⟨_, _, rfl, rfl⟩ := taken
        exact .quiet _ _ _ (by rw [atPc]; rfl) rfl (by simp [OwnerPc.dereferences])
      · simp only [Option.some.injEq, Prod.mk.injEq] at taken
        obtain ⟨_, _, rest⟩ := taken
        have moved := Reclaim.OwnerMove.pushGrowOrStore value b state.worker.cachedTop
          (show state.owner.isQuiet = true by rw [atPc]; rfl)
        rw [rest] at moved
        exact moved
  | pushLoadTop value b bufPtr =>
      rw [atPc] at taken placed
      have installed : bufPtr = state.inner.buffer := placed bufPtr List.mem_cons_self
      simp only [ChaseLev.ownerStep, Option.some.injEq, Prod.mk.injEq] at taken
      obtain ⟨_, _, rest⟩ := taken
      have moved := Reclaim.OwnerMove.pushGrowOrStore value b state.inner.top
        (show state.owner.isQuiet = true by rw [atPc]; rfl)
      rw [← installed, rest] at moved
      exact moved
  | popLoadCell b t bufPtr =>
      rw [atPc] at taken placed
      have installed : bufPtr = state.inner.buffer := placed bufPtr List.mem_cons_self
      simp only [ChaseLev.ownerStep] at taken
      split at taken
      · simp only [Option.some.injEq, Prod.mk.injEq] at taken
        obtain ⟨_, _, rest⟩ := taken
        have moved := Reclaim.OwnerMove.perhapsShrink ((state.inner.heap bufPtr).read b) b t
          (show state.owner.isQuiet = true by rw [atPc]; rfl)
        rw [← installed, rest] at moved
        exact moved
      · simp only [Option.some.injEq, Prod.mk.injEq] at taken
        obtain ⟨_, _, rfl, rfl⟩ := taken
        exact .quiet _ _ _ (by rw [atPc]; rfl) rfl (by simp [OwnerPc.dereferences])
  | popLoadTop b bufPtr =>
      rw [atPc] at taken placed
      have installed : bufPtr = state.inner.buffer := placed bufPtr List.mem_cons_self
      simp only [ChaseLev.ownerStep, Option.some.injEq, Prod.mk.injEq] at taken
      obtain ⟨_, _, rfl, rfl⟩ := taken
      refine .quiet _ _ _ (by rw [atPc]; rfl) (by split <;> rfl) ?_
      split <;> simp [OwnerPc.dereferences, installed]
  | popCasTop b t boxed =>
      rw [atPc] at taken
      simp only [ChaseLev.ownerStep] at taken
      split at taken <;>
      · simp only [Option.some.injEq, Prod.mk.injEq] at taken
        obtain ⟨_, _, rfl, rfl⟩ := taken
        exact .quiet _ _ _ (by rw [atPc]; rfl) rfl (by simp [OwnerPc.dereferences])
  | popSettleBottom b t boxed won =>
      rw [atPc] at taken
      simp only [ChaseLev.ownerStep, Option.some.injEq, Prod.mk.injEq] at taken
      obtain ⟨_, _, rfl, rfl⟩ := taken
      cases won with
      | true => exact .popReturn _ _ _ boxed (by rw [atPc]; rfl)
      | false => exact .quiet _ _ _ (by rw [atPc]; rfl) rfl (by simp [OwnerPc.dereferences])
  | popStoreBottom b bufPtr =>
      rw [atPc] at taken placed
      simp only [ChaseLev.ownerStep, Option.some.injEq, Prod.mk.injEq] at taken
      obtain ⟨_, _, rfl, rfl⟩ := taken
      exact .quiet _ _ _ (by rw [atPc]; rfl) rfl placed
  | idle => rw [atPc] at taken; cases taken
  | returned result => rw [atPc] at taken; cases taken
  | fault => rw [atPc] at taken; cases taken
  | dropped => rw [atPc] at taken; cases taken
  | _ =>
      rw [atPc] at taken
      simp only [ChaseLev.ownerStep, Option.some.injEq, Prod.mk.injEq] at taken
      obtain ⟨_, _, rfl, rfl⟩ := taken
      exact .quiet _ _ _ (by rw [atPc]; rfl) rfl (by simp [OwnerPc.dereferences])

/-! ### Handles -/

theorem Reclaim.reclaimed (reclaim : Reclaim state) (shared : state.shared = true) :
    Reclaimed state :=
  ⟨fun _shared => reclaim, fun unshared => by rw [shared] at unshared; cases unshared⟩

theorem Reclaim.ownerCall (reclaim : Reclaim state) {owner : OwnerPc α}
    (before : state.owner.isQuiet = true) (after : owner.Plain) (outside : owner.inCritical = false)
    (none : owner.dereferences = []) : Reclaimed { state with owner := owner } := by
  obtain ⟨plain, outsideBefore⟩ := OwnerPc.plain_of_quiet before
  have kept : Reclaim { state with owner := owner } :=
    reclaim.ownerMove state.worker (.plain state.inner.bottom state.inner.top state.inner.inFlight
      state.inner.heap plain after (by rw [none]; simp) (by rw [outside, outsideBefore]))
  exact kept.reclaimed (by simp [State.shared, after.present])

/-- Both uses of `Drop for Inner`: nothing is held when the last handle goes. -/
theorem Reclaim.release (reclaim : Reclaim state)
    (held : state.owner.isDropped = true → state.owner.held = []) : Reclaimed state.release := by
  unfold State.release
  by_cases shared : state.shared = true
  · rw [if_pos shared]
    exact reclaim.reclaimed shared
  · rw [if_neg shared]
    have dropped : state.owner.isDropped = true := by
      simp only [State.shared, decide_eq_true_eq, not_or, Bool.not_eq_false] at shared
      exact shared.1
    refine ⟨fun present => absurd present shared, fun _unshared => ?_⟩
    have known := reclaim.accounted
    rw [held dropped] at known
    change (((state.inner.freed ++ state.inner.buffer :: state.inner.retired : List BufferPtr)) :
      Multiset BufferPtr) = Multiset.range state.inner.allocated
    rw [← known]
    simp only [Inner.accounted, ← Multiset.coe_add, ← Multiset.cons_coe,
      ← Multiset.singleton_add, Multiset.coe_nil, add_zero]
    ac_rfl

variable [DecidableEq ι]

theorem Reclaim.thiefCall (reclaim : Reclaim state) (thief : ι) {pc : ThiefPc α}
    (before : (state.thief thief).inCritical = false) (after : pc.inCritical = false)
    (loaded : pc.loaded = none) : Reclaim (state.setThief thief pc) :=
  reclaim.thiefMove thief pc ⟨state.inner.top, rfl⟩ (by rw [before, after]) (by simp [loaded])

/-- A thief that keeps its handle enters or leaves a call. -/
theorem Reclaim.thiefReclaimed (reclaim : Reclaim state) (thief : ι) {pc : ThiefPc α}
    (before : (state.thief thief).inCritical = false) (after : pc.inCritical = false)
    (loaded : pc.loaded = none) (present : pc.isAbsent = false) :
    Reclaimed (state.setThief thief pc) :=
  (reclaim.thiefCall thief before after loaded).reclaimed
    (State.shared_setThief state thief present)

/-- Every step of the deque, at any party. -/
theorem Reclaimed.next (reclaimed : Reclaimed state) {choice : Choice ι α} {label : Label ι α}
    {after : State ι α} (taken : ChaseLev.next state choice = some (label, after)) :
    Reclaimed after := by
  cases next_moves taken with
  | pushCall value atPc =>
      have reclaim := reclaimed.1 (State.shared_of_owner (by rw [atPc]; rfl))
      exact reclaim.ownerCall (by rw [atPc]; rfl)
        ⟨rfl, rfl, fun _inner => rfl, fun _inner => Iff.rfl⟩ rfl rfl
  | popCall atPc =>
      have reclaim := reclaimed.1 (State.shared_of_owner (by rw [atPc]; rfl))
      cases state.worker.fifo <;>
        exact reclaim.ownerCall (by rw [atPc]; rfl)
          ⟨rfl, rfl, fun _inner => rfl, fun _inner => Iff.rfl⟩ rfl rfl
  | owner spurious access worker inner pc stepped =>
      have running : state.owner.isDropped = false := by
        cases atPc : state.owner with
        | dropped => rw [atPc] at stepped; cases stepped
        | _ => rfl
      have reclaim := reclaimed.1 (State.shared_of_owner running)
      have move := reclaim.ownerStep spurious stepped
      exact (reclaim.ownerMove worker move).reclaimed (State.shared_of_owner move.present)
  | ownerReturn result atPc =>
      have reclaim := reclaimed.1 (State.shared_of_owner (by rw [atPc]; rfl))
      exact reclaim.ownerCall (by rw [atPc]; rfl)
        ⟨rfl, rfl, fun _inner => rfl, fun _inner => Iff.rfl⟩ rfl rfl
  | stealCall thief atPc | stealReturn thief result atPc =>
      have reclaim := reclaimed.1 (State.shared_of_thief thief (by rw [atPc]; rfl))
      exact reclaim.thiefReclaimed thief (by rw [atPc]; rfl) rfl rfl rfl
  | thief thief pc atPc =>
      have reclaim := reclaimed.1 (State.shared_of_thief thief (by rw [atPc]; rfl))
      have framed := stealFrom_frame state.inner pc
      have kept := reclaim.thiefMove thief
        (ThiefPc.afterOutcome (stealFrom state.inner pc).2.2) framed.frame
        (by
          rw [ThiefPc.afterOutcome_inCritical, atPc]
          exact framed.counter)
        (by
          rw [ThiefPc.afterOutcome_loaded]
          exact framed.loaded)
      refine kept.reclaimed (State.shared_setThief _ thief ?_)
      cases (stealFrom state.inner pc).2.2 <;> rfl
  | newStealer thief atPc shared =>
      exact (reclaimed.1 shared).thiefReclaimed thief (by rw [atPc]; rfl) rfl rfl rfl
  | dropStealer thief atPc =>
      have reclaim := reclaimed.1 (State.shared_of_thief thief (by rw [atPc]; rfl))
      refine (reclaim.thiefCall thief (by rw [atPc]; rfl) rfl rfl).release ?_
      intro dropped
      exact OwnerPc.held_of_dropped dropped
  | dropWorker atPc =>
      have reclaim := reclaimed.1 (State.shared_of_owner (by rw [atPc]; rfl))
      have kept : Reclaim { state with owner := .dropped } :=
        { accounted := by
            have known := reclaim.accounted
            rw [atPc] at known
            exact known
          placed := by intro bufPtr member; cases member
          counter := by
            have counter := reclaim.counter
            rw [atPc] at counter
            exact counter
          loaded := by
            have loaded := reclaim.loaded
            rw [atPc] at loaded
            exact loaded }
      exact kept.release fun _dropped => rfl

/-! ### Whole runs -/

omit [DecidableEq ι] in
theorem Reclaimed.initial (fifo : Bool) (logInitialCap : Nat) :
    Reclaimed (withLogCapacity ι α fifo logInitialCap) := by
  have reclaim : Reclaim (withLogCapacity ι α fifo logInitialCap) :=
    { accounted := rfl
      placed := by intro bufPtr member; cases member
      counter := by simp [withLogCapacity, Inner.new, OwnerPc.inCritical, ThiefPc.inCritical, share]
      loaded := by intro thief bufPtr loaded; cases loaded }
  exact reclaim.reclaimed (State.shared_of_owner rfl)

theorem reclaimed_of_reachable {fifo : Bool} {logInitialCap : Nat}
    (reachable : (system ι α fifo logInitialCap).Reachable state) : Reclaimed state := by
  refine TransitionSystem.Reachable.induction ?_ ?_ reachable
  · intro start isInitial
    change start = withLogCapacity ι α fifo logInitialCap at isInitial
    subst isInitial
    exact Reclaimed.initial fifo logInitialCap
  · intro before label after reclaimed stepped
    obtain ⟨choice, taken⟩ := stepped
    exact reclaimed.next taken

/-- While a handle is left, nobody can reach a freed buffer. -/
structure BuffersLive (state : State ι α) : Prop where
  active : state.inner.buffer ∉ state.inner.freed
  thief : ∀ thief bufPtr, (state.thief thief).loaded = some bufPtr → bufPtr ∉ state.inner.freed
  owner : ∀ bufPtr, bufPtr ∈ state.owner.dereferences → bufPtr ∉ state.inner.freed
  retiredOnce : state.inner.retired.Nodup
  retiredInactive : state.inner.buffer ∉ state.inner.retired
  freedOnce : state.inner.freed.Nodup

omit [DecidableEq ι] in
theorem Reclaim.nodup (reclaim : Reclaim state) :
    (state.inner.buffer ::
      (state.inner.retired ++ (state.owner.held ++ state.inner.freed))).Nodup := by
  rw [← Multiset.coe_nodup]
  have same : ((state.inner.buffer ::
      (state.inner.retired ++ (state.owner.held ++ state.inner.freed)) : List BufferPtr) :
        Multiset BufferPtr) = Multiset.range state.inner.allocated := by
    rw [← reclaim.accounted]
    simp only [Inner.accounted, ← Multiset.coe_add, ← Multiset.cons_coe,
      ← Multiset.singleton_add]
    ac_rfl
  rw [same]
  exact Multiset.nodup_range _

/-- What the owner still dereferences is installed or its own. -/
theorem OwnerPc.dereferences_placed {inner : Inner α} {pc : OwnerPc α} (placed : pc.Placed inner)
    {bufPtr : BufferPtr} (member : bufPtr ∈ pc.dereferences) :
    bufPtr = inner.buffer ∨ bufPtr ∈ pc.held := by
  cases pc with
  | resizing resize resizePc after =>
      cases resizePc with
      | copyLoad k | copyStore k p =>
          simp only [OwnerPc.dereferences, List.mem_cons, List.not_mem_nil, or_false] at member
          rcases member with rfl | rfl
          · exact Or.inl placed.symm
          · exact Or.inr List.mem_cons_self
      | storeBuffer => exact Or.inr member
      | _ => exact Or.inl ((List.mem_singleton.mp member).trans placed.symm)
  | _ => exact Or.inl (placed bufPtr member)

omit [DecidableEq ι] in
theorem Reclaim.buffersLive (reclaim : Reclaim state) : BuffersLive state := by
  have nodup := reclaim.nodup
  simp only [List.nodup_cons, List.mem_append, not_or, List.nodup_append] at nodup
  obtain ⟨⟨notRetired, notHeld, notFreed⟩, retiredOnce, ⟨_heldOnce, freedOnce, heldFreed⟩,
    retiredFreed⟩ := nodup
  refine
    { active := notFreed
      thief := ?_
      owner := ?_
      retiredOnce := retiredOnce
      retiredInactive := notRetired
      freedOnce := freedOnce }
  · intro thief bufPtr loaded freed
    have readable := reclaim.loaded thief bufPtr loaded
    have cases : bufPtr = state.inner.buffer ∨ bufPtr ∈ state.inner.retired ∨
        bufPtr ∈ state.owner.held := by
      cases atPc : state.owner with
      | resizing resize resizePc after =>
          rw [atPc] at readable
          cases resizePc <;>
            simp only [OwnerPc.readable, ResizePc.readable, OwnerPc.held, ResizePc.held,
              List.mem_cons, List.not_mem_nil, or_false] at readable ⊢ <;> tauto
      | _ =>
          rw [atPc] at readable
          simp only [OwnerPc.readable, List.mem_cons] at readable
          tauto
    rcases cases with rfl | retired | held
    · exact notFreed freed
    · exact retiredFreed bufPtr retired bufPtr (Or.inr freed) rfl
    · exact heldFreed bufPtr held bufPtr freed rfl
  · intro bufPtr member freed
    rcases OwnerPc.dereferences_placed reclaim.placed member with rfl | held
    · exact notFreed freed
    · exact heldFreed bufPtr held bufPtr freed rfl

/-- Quiescent-state reclamation frees nothing that is still reachable, and in
the end everything once. -/
theorem buffers_freed_once {fifo : Bool} {logInitialCap : Nat}
    (reachable : (system ι α fifo logInitialCap).Reachable state) :
    (state.shared = true → BuffersLive state) ∧
      (state.shared = false →
        state.inner.freed.Perm (List.range state.inner.allocated)) := by
  obtain ⟨shared, unshared⟩ := reclaimed_of_reachable reachable
  exact ⟨fun present => (shared present).buffersLive,
    fun gone => Multiset.coe_eq_coe.mp (unshared gone)⟩

/-- A push that grows the buffer, and the drop of the only handle. -/
def pushThenDrop : List (Choice (Fin 1) Nat) :=
  [.pushCall 7, .owner false, .owner false, .owner false, .owner false, .owner false,
    .owner false, .owner false, .owner false, .owner false, .owner false, .owner false,
    .ownerReturn, .dropWorker]

theorem buffers_freed_once_pushThenDrop :
    ∃ state : State (Fin 1) Nat, state.inner.allocated = 2 ∧ state.shared = false ∧
      (state.shared = true → BuffersLive state) ∧
      (state.shared = false → state.inner.freed.Perm (List.range state.inner.allocated)) := by
  have reached : (system (Fin 1) Nat false 0).Reaches _ _ :=
    ⟨_, rfl, TransitionSystem.execute_run pushThenDrop rfl⟩
  exact ⟨_, rfl, rfl, buffers_freed_once reached.reachable⟩

end WsDeque.ChaseLev
