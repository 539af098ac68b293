import WsDeque.ChaseLev.BatchPool

/-
Where the elements of a pool are: what moves between two deques in a batch is in
one place all the time, and a batch takes no more than half of what it saw.
-/

namespace WsDeque.ChaseLev

open MachineWord
open Deque (wanted)

variable {ι α : Type*}

/-! ### What joins and leaves the pool -/

/-- A batch pushes what it has stolen; every other push brings a new element. -/
def BatchLabel.entering : BatchLabel ι α → Option α
  | .deque _ _ false (.pushCall value) => some value
  | _ => none

def BatchLabel.leaving : BatchLabel ι α → Option α
  | .deque _ _ _ (.ownerReturn (.popped value)) => value
  | .deque _ _ false (.stealReturn _ (.success value)) => some value
  | .batchReturn _ (.success value) => value
  | _ => none

def entered (labels : List (BatchLabel ι α)) : List α :=
  labels.filterMap BatchLabel.entering

def left (labels : List (BatchLabel ι α)) : List α :=
  labels.filterMap BatchLabel.leaving

theorem entered_single (label : BatchLabel ι α) : entered [label] = label.entering.toList := by
  cases joins : label.entering <;> simp [entered, joins]

theorem left_single (label : BatchLabel ι α) : left [label] = label.leaving.toList := by
  cases leaves : label.leaving <;> simp [left, leaves]

/-- The elements in the local variables of a batch call. -/
def Batch.held : Batch α → Multiset α
  | .andPop popped => {popped}
  | _ => 0

def CallPc.held : CallPc ι α → Multiset α
  | .stealNext _ _ batch | .stealing _ _ batch | .pushing _ _ batch => batch.held
  | .pushNext _ _ batch value => batch.held + {value}
  | .returned (.success (some value)) => {value}
  | _ => 0

theorem Batch.held_loop (victim : ι) (batch : Batch α) (rounds : Nat) :
    (batch.loop victim rounds).held = batch.held := by
  cases rounds with
  | zero =>
      cases batch with
      | move moved =>
          simp only [Batch.loop, Batch.finish]
          split <;> rfl
      | first => rfl
      | andPop popped => rfl
  | succ rounds => rfl

theorem Batch.held_afterPush (victim : ι) (rounds : Nat) (batch : Batch α) :
    (batch.afterPush victim rounds).held = batch.held := by
  cases batch with
  | move moved => exact Batch.held_loop victim (.move (moved + 1)) (rounds - 1)
  | first => exact Batch.held_loop victim .first (rounds - 1)
  | andPop popped => exact Batch.held_loop victim (.andPop popped) (rounds - 1)

theorem Batch.held_afterLoads (victim : ι) (andPop : Bool) (available : Int) :
    (Batch.afterLoads victim andPop available : CallPc ι α).held = 0 := by
  unfold Batch.afterLoads
  split
  · rfl
  · split
    · rfl
    · rw [Batch.held_loop]
      cases andPop <;> rfl

/-- What the inner `steal` takes is in the hands of the batch. -/
theorem Batch.held_afterSteal (victim : ι) (rounds : Nat) (batch : Batch α) (result : Steal α) :
    (batch.afterSteal victim rounds result).held =
      batch.held + Spec.handedOut [(.stealReturn victim result : Label ι α)] := by
  cases batch with
  | move moved =>
      cases result with
      | empty =>
          simp only [Batch.afterSteal, Batch.finish]
          split <;> rfl
      | retry =>
          simp only [Batch.afterSteal, Batch.finish]
          split <;> rfl
      | success value => rfl
  | first =>
      cases result with
      | empty => rfl
      | retry => rfl
      | success value =>
          simp only [Batch.afterSteal, Batch.held_loop, Batch.held]
          simp [Spec.handedOut]
  | andPop popped =>
      cases result with
      | empty => rfl
      | retry => rfl
      | success value => rfl

variable [Fintype ι] [DecidableEq ι]

omit [Fintype ι] [DecidableEq ι] in
/-- The elements of a step: handed out by its deque or new, they are pushed on it,
returned to the caller or held by the call. -/
theorem Lands.account {thread place : ι} {inBatch : Bool} {label : Label ι α}
    {before after : CallPc ι α} (lands : Lands thread before place inBatch label after) :
    (Spec.handedOut [label] + entered [(.deque thread place inBatch label : BatchLabel ι α)] +
        before.held : Multiset α) =
      Spec.pushed [label] + left [(.deque thread place inBatch label : BatchLabel ι α)] +
        after.held := by
  rw [entered_single, left_single]
  cases lands with
  | innerReturn victim rounds batch result =>
      rw [Batch.held_afterSteal]
      cases result <;>
        simp [Spec.handedOut, Spec.pushed, BatchLabel.entering, BatchLabel.leaving, CallPc.held,
          add_comm]
  | innerPushReturn victim rounds batch result =>
      rw [Batch.held_afterPush]
      rcases result with _ | _ | value <;>
        simp [Spec.handedOut, Spec.pushed, BatchLabel.entering, BatchLabel.leaving, CallPc.held]
  | innerPushCall victim rounds batch value =>
      simp [Spec.handedOut, Spec.pushed, BatchLabel.entering, BatchLabel.leaving, CallPc.held,
        add_comm]
  | pushReturn result =>
      rcases result with _ | _ | value <;>
        simp [Spec.handedOut, Spec.pushed, BatchLabel.entering, BatchLabel.leaving, CallPc.held]
  | popReturn result =>
      rcases result with _ | _ | value <;>
        simp [Spec.handedOut, Spec.pushed, BatchLabel.entering, BatchLabel.leaving, CallPc.held]
  | stealReturn victim result =>
      cases result <;>
        simp [Spec.handedOut, Spec.pushed, BatchLabel.entering, BatchLabel.leaving, CallPc.held]
  | _ => simp [Spec.handedOut, Spec.pushed, BatchLabel.entering, BatchLabel.leaving, CallPc.held]

/-! ### Every element is in one place -/

variable {before after : BatchPool ι α} {label : BatchLabel ι α} {labels : List (BatchLabel ι α)}

omit [Fintype ι] in
theorem stepsAt_deque (place here thread : ι) (inBatch : Bool) (label : Label ι α) :
    stepsAt place [(.deque thread here inBatch label : BatchLabel ι α)] =
      if here = place then [label] else [] := by
  by_cases same : here = place
  · simp [stepsAt, BatchLabel.placed, TransitionSystem.labelsAt, same]
  · simp [stepsAt, BatchLabel.placed, TransitionSystem.labelsAt, same]

/-- What a step adds to a total over the deques. -/
theorem sum_stepsAt_deque (count : List (Label ι α) → List α)
    (append : ∀ first second, count (first ++ second) = count first ++ count second)
    (empty : count [] = []) (here thread : ι) (inBatch : Bool) (label : Label ι α) :
    (∑ place, (count (stepsAt place (labels ++ [.deque thread here inBatch label])) :
        Multiset α)) =
      (∑ place, (count (stepsAt place labels) : Multiset α)) + count [label] := by
  have single : ∀ place, (count (stepsAt place [(.deque thread here inBatch label)]) :
      Multiset α) = if here = place then (count [label] : Multiset α) else 0 := by
    intro place
    rw [stepsAt_deque]
    split
    · rfl
    · rw [empty]
      rfl
  simp only [stepsAt_append, append, ← Multiset.coe_add, single, Finset.sum_add_distrib,
    Finset.sum_ite_eq, Finset.mem_univ, if_true]

/-- What the deques hand out and what comes new goes into a deque, to a caller or into
the hands of a call. -/
def Accounted (labels : List (BatchLabel ι α)) (pool : BatchPool ι α) : Prop :=
  (∑ place, (Spec.handedOut (stepsAt place labels) : Multiset α)) + entered labels =
    (∑ place, (Spec.pushed (stepsAt place labels) : Multiset α)) + left labels +
      ∑ thread, (pool.call thread).held

theorem Accounted.step {handed pushed : Multiset α} {thread : ι} {pc : CallPc ι α}
    (accounted : Accounted labels before)
    (handedOut : (∑ place, (Spec.handedOut (stepsAt place (labels ++ [label])) : Multiset α)) =
      (∑ place, (Spec.handedOut (stepsAt place labels) : Multiset α)) + handed)
    (pushes : (∑ place, (Spec.pushed (stepsAt place (labels ++ [label])) : Multiset α)) =
      (∑ place, (Spec.pushed (stepsAt place labels) : Multiset α)) + pushed)
    (call : after.call = Function.update before.call thread pc)
    (moves : handed + entered [label] + (before.call thread).held =
      pushed + left [label] + pc.held) :
    Accounted (labels ++ [label]) after := by
  have hands := sum_update_add CallPc.held before.call thread pc
  unfold Accounted at accounted ⊢
  rw [handedOut, pushes, call]
  simp only [entered, left, List.filterMap_append, ← Multiset.coe_add] at *
  exact balance_step accounted hands moves

theorem Accounted.next (accounted : Accounted labels before)
    (moves : BatchMoves before label after) : Accounted (labels ++ [label]) after := by
  -- A step of a call between two steps of its deques.
  have between : ∀ (thread : ι) (pc : CallPc ι α), label.placed = none →
      after = before.setCall thread pc →
      ((entered [label] : Multiset α)) + (before.call thread).held = left [label] + pc.held →
        Accounted (labels ++ [label]) after := by
    rintro thread pc notPlaced rfl balance
    have quiet : ∀ place, stepsAt place [label] = [] := by
      intro place
      simp [stepsAt, notPlaced, TransitionSystem.labelsAt]
    refine @Accounted.step _ _ _ _ _ _ _ _ 0 0 thread pc accounted ?_ ?_ rfl ?_
    · simp only [stepsAt_append, quiet, List.append_nil, add_zero]
    · simp only [stepsAt_append, quiet, List.append_nil, add_zero]
    · rw [zero_add, zero_add]
      exact balance
  cases moves with
  | deque thread place inBatch choice label deque pc stepped lands =>
      exact accounted.step
        (sum_stepsAt_deque Spec.handedOut Spec.handedOut_append rfl place thread inBatch label)
        (sum_stepsAt_deque Spec.pushed Spec.pushed_append rfl place thread inBatch label) rfl
        lands.account
  | batchCall thread victim andPop atPc =>
      refine between thread _ rfl rfl ?_
      simp [entered_single, left_single, BatchLabel.entering, BatchLabel.leaving, atPc, CallPc.held]
  | loadTop thread victim andPop atPc =>
      refine between thread _ rfl rfl ?_
      simp [entered_single, left_single, BatchLabel.entering, BatchLabel.leaving, atPc, CallPc.held]
  | loadBottom thread victim andPop t atPc =>
      refine between thread _ rfl rfl ?_
      rw [Batch.held_afterLoads]
      simp [entered_single, left_single, BatchLabel.entering, BatchLabel.leaving, atPc, CallPc.held]
  | batchReturn thread result atPc =>
      refine between thread _ rfl rfl ?_
      rw [entered_single, left_single, atPc]
      rcases result with _ | _ | _ | value <;>
        simp [BatchLabel.entering, BatchLabel.leaving, CallPc.held]

variable {fifo : ι → Bool} {logInitialCap : ι → Nat}

theorem accounted_of_reaches (reached : (batchSystem ι α fifo logInitialCap).Reaches labels after) :
    Accounted labels after := by
  refine TransitionSystem.Reaches.induction ?_ ?_ reached
  · intro start isInitial
    change start = _ at isInitial
    subst isInitial
    simp [Accounted, stepsAt, TransitionSystem.labelsAt, Spec.handedOut, Spec.pushed, entered,
      left, BatchPool.initial, CallPc.held]
  · intro labels before label after _reached accounted stepped
    obtain ⟨choice, taken⟩ := stepped
    exact accounted.next (BatchPool.next_moves taken)

/-! ### The threads keep their handles -/

omit [Fintype ι] [DecidableEq ι] in
theorem Lands.not_drop {thread place : ι} {inBatch : Bool} {label : Label ι α}
    {before after : CallPc ι α} (lands : Lands thread before place inBatch label after) :
    label.isDrop = false := by
  cases lands <;> rfl

theorem not_drop_of_reaches (reached : (batchSystem ι α fifo logInitialCap).Reaches labels after)
    (place : ι) : ∀ label ∈ stepsAt place labels, label.isDrop = false := by
  refine @TransitionSystem.Reaches.induction _ _ (batchSystem ι α fifo logInitialCap)
    (fun labels _ => ∀ label ∈ stepsAt place labels, label.isDrop = false) ?_ ?_ _ _ reached
  · intro start _isInitial label member
    cases member
  · intro labels before label after _reached kept stepped step member
    obtain ⟨choice, taken⟩ := stepped
    rw [stepsAt_append, List.mem_append] at member
    rcases member with earlier | here
    · exact kept step earlier
    · cases BatchPool.next_moves taken with
      | deque thread other inBatch choice label deque pc stepped lands =>
          rw [stepsAt_deque] at here
          split at here
          · rw [List.mem_singleton.mp here]
            exact lands.not_drop
          · cases here
      | _ => cases here

/-- Threads may steal from each other in batches and one by one: every element that
was pushed is in one deque, in the hands of one call, or was returned to one caller,
and no null pointer is made a box. -/
theorem batch_exactly_once (reached : (batchSystem ι α fifo logInitialCap).Reaches labels after)
    (few : ∀ place, (Spec.pushed (stepsAt place labels)).length < 2 ^ 63) :
    (entered labels : Multiset α) =
        (∑ place, ((after.deques place).abstract.items + (after.deques place).abstract.inHand)) +
          (∑ thread, (after.call thread).held) + left labels ∧
      ∀ place, (after.deques place).Sound := by
  have tracked := fun place => tracked_of_reaches (deque_reaches reached place) (few place)
  refine ⟨?_, fun place => (tracked place).1.sound⟩
  have accounted := accounted_of_reaches reached
  have conserved : ∀ place, (Spec.pushed (stepsAt place labels) : Multiset α) =
      ((after.deques place).abstract.items + (after.deques place).abstract.inHand) +
        Spec.handedOut (stepsAt place labels) := by
    intro place
    have spec := (tracked place).2.2
    rw [Spec.conserved_of_reaches spec,
      Spec.freed_of_reaches spec (not_drop_of_reaches reached place)]
    simp
  unfold Accounted at accounted
  simp only [conserved, Finset.sum_add_distrib] at accounted ⊢
  apply add_left_cancel (a := ∑ place, (Spec.handedOut (stepsAt place labels) : Multiset α))
  rw [accounted]
  abel

def pushing (value : Nat) : List (BatchChoice Bool Nat) :=
  [.pushCall true value] ++ List.replicate 4 (.step true false) ++ [.finish true]

/-- One thread pushes three elements, the other moves two of them in a batch. -/
def aboutToLoad : List (BatchChoice Bool Nat) :=
  pushing 5 ++ pushing 6 ++ pushing 7 ++
    [.newStealer false true, .batchCall false true false, .step false false]

def movesOne : List (BatchChoice Bool Nat) :=
  List.replicate 8 (.step false false) ++ [.finish false] ++
    List.replicate 5 (.step false false) ++ [.finish false]

theorem batch_exactly_once_movesTwo :
    ∃ labels after, (batchSystem Bool Nat (fun _ => false) fun _ => 5).Reaches labels after ∧
      (∀ place, (Spec.pushed (stepsAt place labels)).length < 2 ^ 63) ∧
      (after.deques false).inner.bottom = 2 ∧ (after.deques true).inner.top = 2 ∧
      (entered labels : Multiset Nat) =
        (∑ place, ((after.deques place).abstract.items + (after.deques place).abstract.inHand)) +
          (∑ thread, (after.call thread).held) + left labels ∧
      ∀ place, (after.deques place).Sound := by
  obtain ⟨labels, after, executed, few, moved, rest⟩ :
      ∃ labels after, TransitionSystem.execute BatchPool.next
          (BatchPool.initial Bool Nat (fun _ => false) fun _ => 5)
          (aboutToLoad ++ [.step false false] ++ movesOne ++ movesOne ++ [.finish false]) =
            some (labels, after) ∧
        (∀ place, (Spec.pushed (stepsAt place labels)).length < 2 ^ 63) ∧
        (after.deques false).inner.bottom = 2 ∧
        (after.deques true).inner.top = 2 :=
    ⟨_, _, rfl, by decide, rfl, rfl⟩
  have reached : (batchSystem Bool Nat (fun _ => false) fun _ => 5).Reaches labels after :=
    ⟨_, rfl, TransitionSystem.execute_run _ executed⟩
  exact ⟨labels, after, reached, few, moved, rest, batch_exactly_once reached few⟩

/-! ### How much a batch takes -/

/-- The elements a thread has stolen inside batch calls. -/
def takenInBatch (thread : ι) (labels : List (BatchLabel ι α)) : Nat :=
  labels.countP fun label =>
    match label with
    | .deque other _ true (.stealReturn _ (.success _)) => decide (other = thread)
    | _ => false

omit [Fintype ι] in
theorem takenInBatch_snoc (thread : ι) (labels : List (BatchLabel ι α)) (label : BatchLabel ι α) :
    takenInBatch thread (labels ++ [label]) =
      takenInBatch thread labels + takenInBatch thread [label] :=
  List.countP_append

/-- What the loop carries after it has stolen so many. -/
def Batch.Carries (taken : Nat) : Batch α → Prop
  | .move moved => moved = taken
  | .first => taken = 0
  | .andPop _ => 0 < taken

def isSuccess : BatchResult α → Bool
  | .success _ => true
  | _ => false

/-- The same while the last of them is on its way to the destination. -/
def Batch.Pushes (taken : Nat) : Batch α → Prop
  | .move moved => moved + 1 = taken
  | .first => False
  | .andPop _ => 0 < taken

/-- A call that wants so many rounds and has stolen so many elements. -/
def CallPc.Within (want taken : Nat) : CallPc ι α → Prop
  | .stealNext _ rounds batch | .stealing _ rounds batch =>
      0 < rounds ∧ rounds + taken = want ∧ batch.Carries taken
  | .pushNext _ rounds batch _ | .pushing _ rounds batch =>
      0 < rounds ∧ rounds + taken = want + 1 ∧ batch.Pushes taken
  | .returned result => taken ≤ want ∧ (isSuccess result = true ↔ 0 < taken)
  | .panicked => taken = 0
  | _ => False

variable {want taken : Nat}

omit [Fintype ι] [DecidableEq ι] in
theorem Batch.Carries.finish {batch : Batch α} (carries : batch.Carries taken) :
    isSuccess batch.finish = true ↔ 0 < taken := by
  cases batch with
  | move moved =>
      obtain rfl : moved = taken := carries
      simp only [Batch.finish]
      split
      · rename_i none
        subst none
        exact iff_of_false (fun same => by cases same) (Nat.lt_irrefl 0)
      · rename_i some'
        exact iff_of_true rfl (Nat.pos_of_ne_zero some')
  | first =>
      obtain rfl : taken = 0 := carries
      exact iff_of_false (fun same => by cases same) (Nat.lt_irrefl 0)
  | andPop popped => exact iff_of_true rfl carries

omit [Fintype ι] [DecidableEq ι] in
theorem Batch.Carries.loop {batch : Batch α} (victim : ι) {rounds : Nat}
    (carries : batch.Carries taken) (total : rounds + taken = want) :
    (batch.loop victim rounds).Within want taken := by
  cases rounds with
  | zero => exact ⟨by omega, carries.finish⟩
  | succ rounds => exact ⟨Nat.succ_pos rounds, total, carries⟩

omit [Fintype ι] [DecidableEq ι] in
theorem Batch.Carries.afterSteal {batch : Batch α} (victim : ι) {rounds : Nat}
    (result : Steal α) (carries : batch.Carries taken) (more : 0 < rounds)
    (total : rounds + taken = want) :
    (batch.afterSteal victim rounds result).Within want
      (taken + (Spec.handedOut [(.stealReturn victim result : Label ι α)]).length) := by
  cases batch with
  | move moved =>
      obtain rfl : moved = taken := carries
      cases result with
      | success value => exact ⟨more, by simp [Spec.handedOut]; omega, rfl⟩
      | empty => exact ⟨by simp [Spec.handedOut]; omega, Batch.Carries.finish rfl⟩
      | retry =>
          refine ⟨by simp [Spec.handedOut]; omega, ?_⟩
          split
          · rename_i none
            subst none
            exact iff_of_false (fun same => by cases same) (Nat.lt_irrefl 0)
          · exact Batch.Carries.finish rfl
  | first =>
      obtain rfl : taken = 0 := carries
      have nothing : ∀ result : BatchResult α, isSuccess result = false →
          (.returned result : CallPc ι α).Within want 0 := fun result failed =>
        ⟨Nat.zero_le _, by simp [failed]⟩
      cases result with
      | success value =>
          refine @Batch.Carries.loop _ _ _ _ (.andPop value) victim _ Nat.one_pos ?_
          simp [Spec.handedOut]
          omega
      | empty => exact nothing .empty rfl
      | retry => exact nothing .retry rfl
  | andPop popped =>
      have positive : 0 < taken := carries
      cases result with
      | success value => exact ⟨more, by simp [Spec.handedOut]; omega, Nat.succ_pos _⟩
      | empty => exact ⟨by simp [Spec.handedOut]; omega, iff_of_true rfl positive⟩
      | retry => exact ⟨by simp [Spec.handedOut]; omega, iff_of_true rfl positive⟩

omit [Fintype ι] [DecidableEq ι] in
theorem Batch.Pushes.afterPush {batch : Batch α} (victim : ι) {rounds : Nat}
    (pushes : batch.Pushes taken) (more : 0 < rounds) (total : rounds + taken = want + 1) :
    (batch.afterPush victim rounds).Within want taken := by
  cases batch with
  | move moved => exact @Batch.Carries.loop _ _ _ _ (.move (moved + 1)) victim _ pushes (by omega)
  | first => exact pushes.elim
  | andPop popped => exact @Batch.Carries.loop _ _ _ _ (.andPop popped) victim _ pushes (by omega)

omit [Fintype ι] in
theorem Lands.within {thread place : ι} {inBatch : Bool} {label : Label ι α}
    {pc pc' : CallPc ι α} (lands : Lands thread pc place inBatch label pc')
    (within : pc.Within want taken) :
    pc'.Within want (taken + takenInBatch thread [(.deque thread place inBatch label)]) := by
  cases lands with
  | innerCall victim rounds batch => exact within
  | innerAccess victim rounds batch access => exact within
  | innerReturn victim rounds batch result =>
      have counted : takenInBatch thread
          [(.deque thread place true (.stealReturn thread result) : BatchLabel ι α)] =
            (Spec.handedOut [(.stealReturn place result : Label ι α)]).length := by
        cases result <;> simp [takenInBatch, Spec.handedOut]
      rw [counted]
      exact within.2.2.afterSteal place result within.1 within.2.1
  | innerPushCall victim rounds batch value => exact within
  | innerPushAccess victim rounds batch access => exact within
  | innerPushReturn victim rounds batch result =>
      exact within.2.2.afterPush victim within.1 within.2.1
  | _ => exact within.elim

omit [Fintype ι] in
/-- The steps of other threads do not count. -/
theorem takenInBatch_other {thread other : ι} (different : other ≠ thread) (place : ι)
    (inBatch : Bool) (label : Label ι α) :
    takenInBatch thread [(.deque other place inBatch label : BatchLabel ι α)] = 0 := by
  cases inBatch with
  | false => rfl
  | true =>
      cases label with
      | stealReturn thief result => cases result <;> simp [takenInBatch, different]
      | _ => rfl

theorem within_step {thread : ι} (within : (before.call thread).Within want taken)
    (moves : BatchMoves before label after)
    (running : ∀ result, label ≠ .batchReturn thread result) :
    (after.call thread).Within want (taken + takenInBatch thread [label]) := by
  have others : ∀ (other : ι) (pc : CallPc ι α), other ≠ thread →
      Function.update before.call other pc thread = before.call thread := fun other pc different =>
    Function.update_of_ne different.symm ..
  cases moves with
  | deque other place inBatch choice label deque pc stepped lands =>
      by_cases same : other = thread
      · subst same
        simp only [Function.update_self]
        exact lands.within within
      · simp only [others other pc same, takenInBatch_other same]
        exact within
  | batchCall other victim andPop atPc =>
      have different : other ≠ thread := by
        rintro rfl
        rw [atPc] at within
        exact within
      simp only [BatchPool.setCall, others other _ different]
      exact within
  | loadTop other victim andPop atPc =>
      have different : other ≠ thread := by
        rintro rfl
        rw [atPc] at within
        exact within
      simp only [BatchPool.setCall, others other _ different]
      exact within
  | loadBottom other victim andPop t atPc =>
      have different : other ≠ thread := by
        rintro rfl
        rw [atPc] at within
        exact within
      simp only [BatchPool.setCall, others other _ different]
      exact within
  | batchReturn other result atPc =>
      have different : other ≠ thread := by
        rintro rfl
        exact running result rfl
      simp only [BatchPool.setCall, others other _ different]
      exact within

omit [Fintype ι] [DecidableEq ι] in
theorem wanted_eq {available : Int} {want : Nat} (more : 0 < available)
    (wants : wanted available = some want) : want = ((available + 1) / 2).toNat := by
  unfold wanted checkedIsize at wants
  split at wants
  · rename_i range
    cases wants
    change asUsize ((available + 1).tdiv 2) = _
    rw [Int.tdiv_eq_ediv_of_nonneg (by omega)]
    unfold asUsize
    omega
  · cases wants

omit [Fintype ι] [DecidableEq ι] in
theorem Batch.within_afterLoads (victim : ι) (andPop : Bool) (available : Int) :
    (Batch.afterLoads victim andPop available : CallPc ι α).Within
      ((available + 1) / 2).toNat 0 := by
  unfold Batch.afterLoads
  split
  · exact ⟨Nat.zero_le _, by simp [isSuccess]⟩
  · rename_i more
    split
    · rfl
    · rename_i want wants
      refine Batch.Carries.loop victim ?_ ?_
      · cases andPop <;> rfl
      · exact (Nat.add_zero _).trans (wanted_eq (Int.not_le.mp more) wants)

theorem called_eq {thread victim : ι} {andPop : Bool} {t : Int} {called : BatchPool ι α}
    (atPc : before.call thread = .loadBottom victim andPop t)
    (loads : (batchSystem ι α fifo logInitialCap).step before
      (.batchAccess thread .loadBottom) called) :
    called.call thread =
      Batch.afterLoads victim andPop (wrappingSub (before.deques victim).inner.bottom t) := by
  obtain ⟨choice, taken⟩ := loads
  cases BatchPool.next_moves taken with
  | loadBottom thread other andPop' t' atPc' =>
      rw [atPc] at atPc'
      cases atPc'
      simp only [BatchPool.setCall, Function.update_self]

/-- A batch call steals at most half of the elements that its two loads show, the odd
one included, whatever the others do meanwhile, and reports success exactly when it
has stolen something. -/
theorem batch_takes_half {thread victim : ι} {andPop : Bool} {t : Int}
    {called final : BatchPool ι α} (atPc : before.call thread = .loadBottom victim andPop t)
    (loads : (batchSystem ι α fifo logInitialCap).step before
      (.batchAccess thread .loadBottom) called)
    (run : (batchSystem ι α fifo logInitialCap).Run called labels final)
    (running : ∀ result, .batchReturn thread result ∉ labels) :
    takenInBatch thread labels ≤
        ((wrappingSub (before.deques victim).inner.bottom t + 1) / 2).toNat ∧
      ∀ result, final.call thread = .returned result →
        (isSuccess result = true ↔ 0 < takenInBatch thread labels) := by
  have within : (final.call thread).Within
      ((wrappingSub (before.deques victim).inner.bottom t + 1) / 2).toNat
      (takenInBatch thread labels) := by
    induction run with
    | refl =>
        rw [called_eq atPc loads]
        exact Batch.within_afterLoads victim andPop _
    | snoc _prior last ih =>
        obtain ⟨choice, taken⟩ := last
        have earlier := ih fun result member => running result (List.mem_append_left _ member)
        rw [takenInBatch_snoc]
        refine within_step earlier (BatchPool.next_moves taken) fun result same => ?_
        exact running result (same ▸ List.mem_append_right _ (List.mem_singleton_self _))
  constructor
  · cases atEnd : final.call thread with
    | stealNext other rounds batch =>
        rw [atEnd] at within
        have total := within.2.1
        omega
    | stealing other rounds batch =>
        rw [atEnd] at within
        have total := within.2.1
        omega
    | pushNext other rounds batch value =>
        rw [atEnd] at within
        have total := within.2.1
        have more := within.1
        omega
    | pushing other rounds batch =>
        rw [atEnd] at within
        have total := within.2.1
        have more := within.1
        omega
    | returned result =>
        rw [atEnd] at within
        exact within.1
    | panicked =>
        rw [atEnd] at within
        have none : takenInBatch thread labels = 0 := within
        omega
    | _ =>
        rw [atEnd] at within
        exact within.elim
  · intro result returned
    rw [returned] at within
    exact within.2

theorem batch_takes_half_movesTwo :
    ∃ labels before called later final,
      (batchSystem Bool Nat (fun _ => false) fun _ => 5).Reaches labels before ∧
      before.call false = .loadBottom true false 0 ∧
      (batchSystem Bool Nat (fun _ => false) fun _ => 5).step before
        (.batchAccess false .loadBottom) called ∧
      (batchSystem Bool Nat (fun _ => false) fun _ => 5).Run called later final ∧
      wrappingSub (before.deques true).inner.bottom 0 = 3 ∧
      takenInBatch false later = 2 ∧ takenInBatch false later ≤ ((3 + 1) / 2 : Int).toNat := by
  obtain ⟨labels, before, called, later, final, started, atPc, loads, executed, three, two,
      silent⟩ :
      ∃ labels before called later final,
        TransitionSystem.execute BatchPool.next
            (BatchPool.initial Bool Nat (fun _ => false) fun _ => 5) aboutToLoad =
          some (labels, before) ∧
        before.call false = .loadBottom true false 0 ∧
        before.next (.step false false) = some (.batchAccess false .loadBottom, called) ∧
        TransitionSystem.execute BatchPool.next called (movesOne ++ movesOne) =
          some (later, final) ∧
        wrappingSub (before.deques true).inner.bottom 0 = 3 ∧ takenInBatch false later = 2 ∧
        (later.all fun label => match label with
          | .batchReturn _ _ => false
          | _ => true) = true :=
    ⟨_, _, _, _, _, rfl, rfl, rfl, rfl, rfl, rfl, rfl⟩
  have reached : (batchSystem Bool Nat (fun _ => false) fun _ => 5).Reaches labels before :=
    ⟨_, rfl, TransitionSystem.execute_run aboutToLoad started⟩
  have run : (batchSystem Bool Nat (fun _ => false) fun _ => 5).Run called later final :=
    TransitionSystem.execute_run (movesOne ++ movesOne) executed
  have half := batch_takes_half atPc ⟨.step false false, loads⟩ run fun result member => by
    have spoken := List.all_eq_true.mp silent _ member
    cases spoken
  rw [three] at half
  exact ⟨labels, before, called, later, final, reached, atPc, ⟨.step false false, loads⟩, run,
    three, two, half.1⟩

end WsDeque.ChaseLev
