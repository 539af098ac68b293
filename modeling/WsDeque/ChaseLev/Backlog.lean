import WsDeque.ChaseLev.Handles

/-
How many retired buffers wait to be freed. The owner frees all of them after a
resize, unless some thief is in flight at that very moment.
-/

namespace WsDeque.ChaseLev

open MachineWord

variable {ι α : Type*}

/-- `Worker::len`. -/
def State.len (state : State ι α) : Nat :=
  (max (wrappingSub state.inner.bottom state.inner.top) 0).toNat

/-- The most elements so far, the tests of `in_flight` in a row that have found a
thief, and the most of those so far. -/
structure Watch where
  held : Nat
  deferred : Nat
  longest : Nat

def Watch.see (watch : Watch) (before : State ι α) (label : Label ι α) (after : State ι α) :
    Watch :=
  let deferred :=
    match label with
    | .owner .loadInFlight => if before.inner.inFlight ≠ 0 then watch.deferred + 1 else 0
    | _ => watch.deferred
  { held := max watch.held after.len
    deferred := deferred
    longest := max watch.longest deferred }

def watched (ι α : Type*) [Fintype ι] [DecidableEq ι] (fifo : Bool) (logInitialCap : Nat) :
    TransitionSystem (State ι α × Watch) (Label ι α) :=
  (system ι α fifo logInitialCap).observed
    (fun start =>
      { held := start.len
        deferred := 0
        longest := 0 })
    Watch.see

/-- In the runs whose longest row of failed tests is one of these, the most
elements held bound the backlog. -/
def BacklogBounded (α : Type*) (allowed : Nat → Prop) : Prop :=
  ∀ most, ∃ bound, ∀ (ι : Type) [Fintype ι] [DecidableEq ι] (fifo : Bool) (logInitialCap : Nat)
    (labels : List (Label ι α)) (state : State ι α) (watch : Watch),
    (watched ι α fifo logInitialCap).Reaches labels (state, watch) → watch.held ≤ most →
      allowed watch.longest → state.inner.retired.length ≤ bound

/-! ### One buffer for each failed test -/

/-- How long the list may be at this point of the owner. -/
def OwnerPc.allowance (deferred longest : Nat) : OwnerPc α → Nat
  | .resizing _ .loadInFlight _ => deferred + 1
  | .resizing _ .swapRetired _ => longest + 1
  | _ => deferred

structure Backlog (inner : Inner α) (owner : OwnerPc α) (deferred longest : Nat) : Prop where
  row : deferred ≤ longest
  length : inner.retired.length ≤ owner.allowance deferred longest

section

variable {worker worker' : Worker} {inner after : Inner α} {spurious : Bool} {pc pc' : OwnerPc α}
  {access : Access} {deferred longest : Nat}

theorem Backlog.le (backlog : Backlog inner pc deferred longest) :
    inner.retired.length ≤ longest + 1 := by
  have row := backlog.row
  have length := backlog.length
  unfold OwnerPc.allowance at length
  split at length <;> omega

/-- No point is allowed less than the row of failed tests. -/
theorem Backlog.of_le (row : deferred ≤ longest) (short : inner.retired.length ≤ deferred)
    (pc : OwnerPc α) : Backlog inner pc deferred longest := by
  refine ⟨row, short.trans ?_⟩
  unfold OwnerPc.allowance
  split <;> omega

theorem pushGrowOrStore_retired (inner : Inner α) (value : α) (b : Int) (bufPtr : BufferPtr)
    (t : Int) : (pushGrowOrStore inner value b bufPtr t).1.retired = inner.retired := by
  unfold pushGrowOrStore
  split <;> rfl

theorem perhapsShrink_retired (inner : Inner α) (bottom top : Int) (bufPtr : BufferPtr)
    (boxed : Option α) :
    (perhapsShrink inner bottom top bufPtr boxed).1.retired = inner.retired := by
  simp only [perhapsShrink]
  split <;> rfl

theorem stealFrom_retired (inner : Inner α) (pc : StealPc α) :
    (stealFrom inner pc).2.1.retired = inner.retired := by
  cases pc with
  | casTop t boxed =>
      simp only [stealFrom]
      split <;> rfl
  | _ => rfl

theorem stealFrom_untested (inner : Inner α) (pc : StealPc α) :
    (stealFrom inner pc).1 ≠ .loadInFlight := by
  cases pc with
  | casTop t boxed =>
      simp only [stealFrom]
      split <;> exact Access.noConfusion
  | _ => exact Access.noConfusion

/-- What a test of `in_flight` does to the row. -/
def rowAfter (inner : Inner α) (access : Access) (deferred : Nat) : Nat :=
  if access = .loadInFlight then (if inner.inFlight ≠ 0 then deferred + 1 else 0) else deferred

theorem Backlog.resize_step {resize : Resize} {at' : ResizePc α} {rest : After α}
    (backlog : Backlog inner (.resizing resize at' rest) deferred longest)
    (taken : ownerStep worker inner spurious (.resizing resize at' rest) =
      some (access, worker', after, pc')) :
    Backlog after pc' (rowAfter inner access deferred)
      (max longest (rowAfter inner access deferred)) := by
  have row := backlog.row
  have length := backlog.length
  cases at' with
  | copyLoad k =>
      cases taken
      apply Backlog.of_le (Nat.le_max_right ..)
      exact length
  | copyStore k p =>
      cases taken
      apply Backlog.of_le (Nat.le_max_right ..)
      exact length
  | storeBuffer =>
      cases taken
      apply Backlog.of_le (Nat.le_max_right ..)
      exact length
  | loadRetired =>
      cases taken
      apply Backlog.of_le (Nat.le_max_right ..)
      exact length
  | casRetired head =>
      simp only [ownerStep, Resize.step] at taken
      by_cases won : spurious = false ∧ inner.retired = head
      · simp only [if_pos won] at taken
        cases taken
        refine ⟨Nat.le_max_right .., ?_⟩
        rw [won.2] at length
        exact Nat.succ_le_succ length
      · simp only [if_neg won] at taken
        cases taken
        apply Backlog.of_le (Nat.le_max_right ..)
        exact length
  | loadInFlight =>
      simp only [ownerStep, Resize.step] at taken
      by_cases busy : inner.inFlight ≠ 0
      · simp only [if_pos busy] at taken
        cases taken
        have counts : rowAfter inner .loadInFlight deferred = deferred + 1 := if_pos busy
        rw [counts]
        apply Backlog.of_le (Nat.le_max_right ..)
        exact length
      · simp only [if_neg busy] at taken
        cases taken
        have counts : rowAfter inner .loadInFlight deferred = 0 := if_neg busy
        rw [counts]
        refine ⟨Nat.zero_le _, ?_⟩
        change inner.retired.length ≤ max longest 0 + 1
        change inner.retired.length ≤ deferred + 1 at length
        omega
  | swapRetired =>
      simp only [ownerStep, Resize.step] at taken
      split at taken
      · rename_i stepped
        cases taken
        split at stepped <;> cases stepped
        exact ⟨Nat.le_max_right .., Nat.zero_le _⟩
      · rename_i stepped
        cases taken
        split at stepped <;> cases stepped
        exact ⟨Nat.le_max_right .., Nat.zero_le _⟩
  | free node =>
      cases node with
      | nil =>
          cases taken
          apply Backlog.of_le (Nat.le_max_right ..)
          exact length
      | cons buffer next =>
          simp only [ownerStep, Resize.step] at taken
          split at taken
          · rename_i stepped
            cases taken
            split at stepped <;> cases stepped
            apply Backlog.of_le (Nat.le_max_right ..)
            exact length
          · rename_i stepped
            cases taken
            split at stepped <;> cases stepped
            apply Backlog.of_le (Nat.le_max_right ..)
            exact length

/-- The list changes and is tested only inside a resize. -/
theorem ownerStep_quiet (outside : ∀ resize at' rest, pc ≠ .resizing resize at' rest)
    (taken : ownerStep worker inner spurious pc = some (access, worker', after, pc')) :
    access ≠ .loadInFlight ∧ after.retired = inner.retired := by
  cases pc with
  | resizing resize at' rest => exact absurd rfl (outside resize at' rest)
  | pushLoadBuffer value b =>
      simp only [ownerStep] at taken
      split at taken
      · cases taken
        exact ⟨Access.noConfusion, rfl⟩
      · simp only [Option.some.injEq, Prod.mk.injEq] at taken
        obtain ⟨rfl, -, moved⟩ := taken
        have kept := pushGrowOrStore_retired inner value b inner.buffer worker.cachedTop
        rw [moved] at kept
        exact ⟨Access.noConfusion, kept⟩
  | pushLoadTop value b bufPtr =>
      simp only [ownerStep, Option.some.injEq, Prod.mk.injEq] at taken
      obtain ⟨rfl, -, moved⟩ := taken
      have kept := pushGrowOrStore_retired inner value b bufPtr inner.top
      rw [moved] at kept
      exact ⟨Access.noConfusion, kept⟩
  | popLoadCell b t bufPtr =>
      simp only [ownerStep] at taken
      split at taken
      · simp only [Option.some.injEq, Prod.mk.injEq] at taken
        obtain ⟨rfl, -, moved⟩ := taken
        have kept := perhapsShrink_retired inner b t bufPtr ((inner.heap bufPtr).read b)
        rw [moved] at kept
        exact ⟨Access.noConfusion, kept⟩
      · cases taken
        exact ⟨Access.noConfusion, rfl⟩
  | popCasTop b t boxed =>
      simp only [ownerStep] at taken
      split at taken <;> cases taken <;> exact ⟨Access.noConfusion, rfl⟩
  | popFifo at' =>
      have kept := stealFrom_retired inner at'
      have tests := stealFrom_untested inner at'
      simp only [ownerStep] at taken
      split at taken
      all_goals
        rename_i stepped
        rw [stepped] at kept tests
        cases taken
        exact ⟨tests, kept⟩
  | idle => cases taken
  | returned result => cases taken
  | fault => cases taken
  | dropped => cases taken
  | _ =>
      cases taken
      exact ⟨Access.noConfusion, rfl⟩

theorem Backlog.ownerStep (backlog : Backlog inner pc deferred longest)
    (taken : ChaseLev.ownerStep worker inner spurious pc = some (access, worker', after, pc')) :
    Backlog after pc' (rowAfter inner access deferred)
      (max longest (rowAfter inner access deferred)) := by
  by_cases inside : ∃ resize at' rest, pc = .resizing resize at' rest
  · obtain ⟨resize, at', rest, rfl⟩ := inside
    exact backlog.resize_step taken
  · have outside : ∀ resize at' rest, pc ≠ .resizing resize at' rest :=
      fun resize at' rest same => inside ⟨resize, at', rest, same⟩
    obtain ⟨untested, kept⟩ := ownerStep_quiet outside taken
    have counts : rowAfter inner access deferred = deferred := if_neg untested
    have most : max longest deferred = longest := Nat.max_eq_left backlog.row
    rw [counts, most]
    apply Backlog.of_le backlog.row
    rw [kept]
    have length := backlog.length
    unfold OwnerPc.allowance at length
    split at length
    · exact absurd rfl (outside _ _ _)
    · exact absurd rfl (outside _ _ _)
    · exact length

end

/-! ### Whole runs -/

section

variable [Fintype ι] [DecidableEq ι] {fifo : Bool} {logInitialCap : Nat}
  {labels : List (Label ι α)} {label : Label ι α} {choice : Choice ι α}
  {state after : State ι α} {watch : Watch}

omit [DecidableEq ι] in
theorem release_retired (state : State ι α) :
    state.release.inner.retired.length ≤ state.inner.retired.length := by
  unfold State.release
  split
  · exact Nat.le_refl _
  · exact Nat.zero_le _

omit [DecidableEq ι] in
theorem release_owner (state : State ι α) : state.release.owner = state.owner := by
  unfold State.release
  split <;> rfl

/-- The backlog is bounded by the row of tests that found a thief. -/
def Watch.Covers (watch : Watch) (state : State ι α) : Prop :=
  Backlog state.inner state.owner watch.deferred watch.longest

omit [Fintype ι] [DecidableEq ι] in
theorem Watch.Covers.calm (covers : watch.Covers state)
    (outside : ∀ resize at' rest, state.owner ≠ .resizing resize at' rest)
    (fewer : after.inner.retired.length ≤ state.inner.retired.length) :
    watch.Covers after := by
  apply Backlog.of_le covers.row
  have length := covers.length
  unfold OwnerPc.allowance at length
  split at length
  · exact absurd ‹_› (outside _ _ _)
  · exact absurd ‹_› (outside _ _ _)
  · exact fewer.trans length

omit [Fintype ι] [DecidableEq ι] in
theorem Watch.Covers.aside (covers : watch.Covers state) (same : after.owner = state.owner)
    (fewer : after.inner.retired.length ≤ state.inner.retired.length) :
    watch.Covers after := by
  refine ⟨covers.row, ?_⟩
  rw [same]
  exact fewer.trans covers.length

omit [Fintype ι] [DecidableEq ι] in
theorem Watch.Covers.see (covers : watch.Covers after)
    (same : (watch.see state label after).deferred = watch.deferred) :
    (watch.see state label after).Covers after := by
  have longest : (watch.see state label after).longest = watch.longest := by
    change max watch.longest (watch.see state label after).deferred = _
    rw [same, Nat.max_eq_left covers.row]
  unfold Watch.Covers
  rw [same, longest]
  exact covers

omit [Fintype ι] [DecidableEq ι] in
theorem Watch.see_owner {access : Access} :
    (watch.see state (.owner access) after).deferred =
      rowAfter state.inner access watch.deferred := by
  cases access <;> rfl

theorem Watch.Covers.next (covers : watch.Covers state)
    (moved : ChaseLev.next state choice = some (label, after)) :
    (watch.see state label after).Covers after := by
  cases next_moves moved with
  | pushCall value atPc | popCall atPc | ownerReturn result atPc =>
      refine Watch.Covers.see (covers.calm ?_ (Nat.le_refl _)) rfl
      simp [atPc]
  | owner spurious access worker inner pc stepped =>
      have kept := Backlog.ownerStep covers stepped
      rw [← Watch.see_owner] at kept
      exact kept
  | stealCall thief atPc | stealReturn thief result atPc | newStealer thief atPc shared =>
      refine Watch.Covers.see ?_ rfl
      exact covers.aside rfl (Nat.le_refl _)
  | thief thief pc atPc =>
      refine Watch.Covers.see (covers.aside rfl (Nat.le_of_eq ?_)) rfl
      exact congrArg List.length (stealFrom_retired ..)
  | dropStealer thief atPc =>
      refine Watch.Covers.see ?_ rfl
      exact covers.aside (release_owner _) (release_retired _)
  | dropWorker atPc =>
      refine Watch.Covers.see (covers.calm ?_ (release_retired _)) rfl
      simp [atPc]

theorem covers_of_reaches
    (reached : (watched ι α fifo logInitialCap).Reaches labels (state, watch)) :
    watch.Covers state := by
  obtain ⟨start, ⟨isInitial, unwatched⟩, run⟩ := reached
  have atStart : start.2.Covers start.1 := by
    obtain ⟨first, early⟩ := start
    obtain rfl : first = withLogCapacity ι α fifo logInitialCap := isInitial
    change early = _ at unwatched
    rw [unwatched]
    exact ⟨Nat.le_refl _, Nat.le_refl _⟩
  have kept : ∀ before label after, before.2.Covers before.1 →
      (watched ι α fifo logInitialCap).step before label after → after.2.Covers after.1 := by
    rintro ⟨before, earlier⟩ label ⟨after, later⟩ covers ⟨⟨choice, moved⟩, seen⟩
    obtain rfl : later = earlier.see before label after := seen
    exact Watch.Covers.next covers moved
  exact run.preserves kept atStart

theorem backlogBounded_of_le {allowed : Nat → Prop} {few : Nat}
    (bounded : ∀ row, allowed row → row ≤ few) : BacklogBounded α allowed := by
  intro most
  use few + 1
  intro ι _ _ fifo logInitialCap labels state watch reached _held isAllowed
  have covers := covers_of_reaches reached
  exact covers.le.trans (Nat.succ_le_succ (bounded _ isAllowed))

end

end WsDeque.ChaseLev
