import WsDeque.Priority.Pool

/-
Where the tasks of a priority pool are: every task that was pushed is at the
level it was pushed to, in the hands of one call, or was returned once.
-/

namespace WsDeque.Priority

variable {ι α : Type*} {K : Nat}

/-! ### What joins and leaves a level -/

/-- The task goes to the level that `push` clamps to. -/
def Label.entering (level : Fin K) : Label ι α K → Option α
  | .pushCall task asked => if min asked (K - 1) = level.val then some task else none
  | _ => none

def Label.leaving (level : Fin K) : Label ι α K → Option α
  | .ownerReturn (.popped (some (origin, task))) => if origin = level then some task else none
  | .stealReturn _ (.success (origin, task)) => if origin = level then some task else none
  | _ => none

def submitted (level : Fin K) (labels : List (Label ι α K)) : List α :=
  labels.filterMap (Label.entering level)

def received (level : Fin K) (labels : List (Label ι α K)) : List α :=
  labels.filterMap (Label.leaving level)

theorem submitted_single (level : Fin K) (label : Label ι α K) :
    submitted level [label] = (label.entering level).toList := by
  cases joins : label.entering level <;> simp [submitted, joins]

theorem received_single (level : Fin K) (label : Label ι α K) :
    received level [label] = (label.leaving level).toList := by
  cases leaves : label.leaving level <;> simp [received, leaves]

/-- The task of the level that a loop carries to its deque or to its caller. -/
def OwnerPc.held (level : Fin K) : OwnerPc α K → Multiset α
  | .push here task => if here = level then {task} else 0
  | .returned (.popped (some (here, task))) => if here = level then {task} else 0
  | _ => 0

def ThiefPc.held (level : Fin K) : ThiefPc α K → Multiset α
  | .returned (.success (here, task)) => if here = level then {task} else 0
  | _ => 0

theorem held_popFrom (level : Fin K) (rest : List (Fin K)) :
    (popFrom rest : OwnerPc α K).held level = 0 := by
  cases rest <;> rfl

theorem held_stealFrom (level : Fin K) (sawRetry : Bool) (rest : List (Fin K)) :
    (stealFrom sawRetry rest : ThiefPc α K).held level = 0 := by
  cases rest with
  | nil => cases sawRetry <;> rfl
  | cons here later => rfl

variable {Deque : Type*} [Fintype ι]

def State.held (state : State Deque ι α K) (level : Fin K) : Multiset α :=
  state.owner.held level + ∑ thief, (state.thief thief).held level

theorem State.held_owner (state : State Deque ι α K) (level : Fin K) (levels : Fin K → Deque)
    (pc : OwnerPc α K) :
    State.held { state with levels := levels, owner := pc } level + state.owner.held level =
      state.held level + pc.held level := by
  unfold State.held
  change pc.held level + ∑ thief, (state.thief thief).held level + state.owner.held level = _
  abel

variable [DecidableEq ι]

theorem State.held_thief (state : State Deque ι α K) (level : Fin K) (levels : Fin K → Deque)
    (thief : ι) (pc : ThiefPc α K) :
    State.held { state with levels := levels, thief := Function.update state.thief thief pc } level +
        (state.thief thief).held level =
      state.held level + pc.held level := by
  unfold State.held
  rw [add_assoc, add_assoc]
  exact congrArg (state.owner.held level + ·)
    (sum_update_add (ThiefPc.held level) state.thief thief pc)

/-! ### A push returns as a push -/

open ChaseLev (Spec.Step)

variable {fifo : Bool} {labels : List (Label ι α K)} {label : Label ι α K}
  {before after : State (ChaseLev.Spec.State ι α) ι α K}

/-- Inside `push` of its level, the owner does nothing else there. -/
def State.Pushes (state : State (ChaseLev.Spec.State ι α) ι α K) : Prop :=
  ∀ level, state.owner = .pushing level →
    (∃ task, (state.levels level).owner = .pushing task) ∨
      (state.levels level).owner = .done .pushed

omit [Fintype ι] in
theorem pushes_access {deque final : ChaseLev.Spec.State ι α} {access : ChaseLev.Access}
    (pushes : (∃ task, deque.owner = .pushing task) ∨ deque.owner = .done .pushed)
    (taken : Spec.Step fifo deque (.owner access) final) :
    (∃ task, final.owner = .pushing task) ∨ final.owner = .done .pushed := by
  cases taken with
  | pushAppend value pushing => exact Or.inr rfl
  | pushInternal value access pushing early => exact pushes
  | ownerTail access result done => exact pushes
  | popInternal access popping early | popContest lifo popping | popFront value rest isFifo popping
  | popFrontEmpty isFifo popping =>
      rcases pushes with ⟨task, pushing⟩ | pushed
      · rw [popping] at pushing
        cases pushing
      · rw [popping] at pushed
        cases pushed
  | popBack rest value lifo contesting back | popEmpty lifo contesting empty
  | popLast value lifo contesting last | popLoadCell lifo contesting
  | popWin value lifo contesting last | popLose lifo contesting empty =>
      rcases pushes with ⟨task, pushing⟩ | pushed
      · rw [contesting] at pushing
        cases pushing
      · rw [contesting] at pushed
        cases pushed

omit [Fintype ι] in
theorem State.Pushes.step (pushes : before.Pushes)
    (taken : Step (ChaseLev.Spec.system ι α fifo) before label after) : after.Pushes := by
  cases taken with
  | pushCall task asked level idle clamped =>
      intro other atPc
      cases atPc
  | popCall idle =>
      intro other atPc
      cases all : List.finRange K with
      | nil =>
          rw [all] at atPc
          cases atPc
      | cons level rest =>
          rw [all] at atPc
          cases atPc
  | ownerReturn result done =>
      intro other atPc
      cases atPc
  | stealCall thief idle => exact pushes
  | stealReturn thief result done => exact pushes
  | newStealer thief next absent stepped =>
      intro other atPc
      rw [(newStealer_keeps (stepped other)).1]
      exact pushes other atPc
  | thief thief level step pc next moves stepped =>
      intro other atPc
      change (∃ task, (Function.update before.levels level next other).owner = _) ∨
        (Function.update before.levels level next other).owner = _
      by_cases same : other = level
      · subst same
        rw [Function.update_self, thief_step_owner moves stepped]
        exact pushes other atPc
      · rw [Function.update_of_ne same]
        exact pushes other atPc
  | owner level step pc next moves stepped =>
      intro other atPc
      change pc = _ at atPc
      generalize whatIs : before.owner = old at moves
      cases moves with
      | pushCall level task =>
          cases atPc
          refine Or.inl ⟨task, ?_⟩
          change (Function.update before.levels level next level).owner = _
          rw [Function.update_self]
          cases stepped
          rfl
      | pushAccess level access =>
          cases atPc
          change (∃ task, (Function.update before.levels level next level).owner = _) ∨
            (Function.update before.levels level next level).owner = _
          rw [Function.update_self]
          exact pushes_access (pushes level whatIs) stepped
      | popNone level rest =>
          cases rest <;> cases atPc
      | _ => cases atPc

omit [Fintype ι] in
theorem pushes_of_reaches
    (reached : (system K (ChaseLev.Spec.system ι α fifo)).Reaches labels after) :
    after.Pushes := by
  obtain ⟨start, isInitial, run⟩ := reached
  induction run with
  | refl =>
      intro level atPc
      rw [isInitial.2.1] at atPc
      cases atPc
  | snoc _prior last ih => exact ih.step last

/-! ### Every task is in one place -/

/-- What the deque of the level hands out and what comes new goes into the deque, to a
caller or into the hands of a call. -/
def Accounted (level : Fin K) (labels : List (Label ι α K))
    (state : State (ChaseLev.Spec.State ι α) ι α K) : Prop :=
  (ChaseLev.Spec.handedOut (levelLabels level labels) : Multiset α) + submitted level labels =
    (ChaseLev.Spec.pushed (levelLabels level labels) : Multiset α) + received level labels +
      state.held level

omit [DecidableEq ι] in
theorem Accounted.of_balance {level : Fin K} {was is' : Multiset α}
    (accounted : Accounted level labels before)
    (moved : after.held level + was = before.held level + is')
    (step : (ChaseLev.Spec.handedOut (levelLabels level [label]) : Multiset α) +
        submitted level [label] + was =
      (ChaseLev.Spec.pushed (levelLabels level [label]) : Multiset α) +
        received level [label] + is') : Accounted level (labels ++ [label]) after := by
  unfold Accounted at accounted ⊢
  simp only [levelLabels_append, ChaseLev.Spec.handedOut_append, ChaseLev.Spec.pushed_append,
    submitted, received, List.filterMap_append, ← Multiset.coe_add] at *
  exact balance_step accounted moved step

omit [Fintype ι] [DecidableEq ι] in
theorem levelLabels_level (here level : Fin K) (step : ChaseLev.Label ι α) :
    levelLabels level [(.level here step : Label ι α K)] = if here = level then [step] else [] := by
  unfold levelLabels
  split <;> rfl

omit [Fintype ι] [DecidableEq ι] in
theorem OwnerMoves.account {here : Fin K} {step : ChaseLev.Label ι α} {old pc : OwnerPc α K}
    (moves : OwnerMoves old here step pc)
    (returns : old = .pushing here → ∀ result, step = .ownerReturn result → result = .pushed)
    (level : Fin K) :
    (ChaseLev.Spec.handedOut (if here = level then [step] else []) : Multiset α) +
        old.held level =
      (ChaseLev.Spec.pushed (if here = level then [step] else []) : Multiset α) +
        pc.held level := by
  by_cases same : here = level
  · simp only [if_pos same]
    cases moves with
    | pushReturn level result =>
        obtain rfl := returns rfl result rfl
        rfl
    | popNone level rest =>
        rw [held_popFrom]
        rfl
    | pushCall level task | popSome level rest task =>
        simp [ChaseLev.Spec.handedOut, ChaseLev.Spec.pushed, OwnerPc.held, same]
    | _ => rfl
  · simp only [if_neg same]
    cases moves with
    | popNone level rest =>
        rw [held_popFrom]
        rfl
    | pushCall level task | popSome level rest task =>
        simp [ChaseLev.Spec.handedOut, ChaseLev.Spec.pushed, OwnerPc.held, same]
    | _ => rfl

omit [Fintype ι] [DecidableEq ι] in
theorem ThiefMoves.account {thief : ι} {here : Fin K} {step : ChaseLev.Label ι α}
    {old pc : ThiefPc α K} (moves : ThiefMoves thief old here step pc) (level : Fin K) :
    (ChaseLev.Spec.handedOut (if here = level then [step] else []) : Multiset α) +
        old.held level =
      (ChaseLev.Spec.pushed (if here = level then [step] else []) : Multiset α) +
        pc.held level := by
  by_cases same : here = level
  · simp only [if_pos same]
    cases moves with
    | stealSuccess level rest sawRetry task =>
        simp [ChaseLev.Spec.handedOut, ChaseLev.Spec.pushed, ThiefPc.held, same]
    | stealRetry level rest sawRetry | stealEmpty level rest sawRetry =>
        rw [held_stealFrom]
        rfl
    | _ => rfl
  · simp only [if_neg same]
    cases moves with
    | stealSuccess level rest sawRetry task =>
        simp [ChaseLev.Spec.handedOut, ChaseLev.Spec.pushed, ThiefPc.held, same]
    | stealRetry level rest sawRetry | stealEmpty level rest sawRetry =>
        rw [held_stealFrom]
        rfl
    | _ => rfl

theorem Accounted.step {level : Fin K} (accounted : Accounted level labels before)
    (pushes : before.Pushes)
    (taken : Step (ChaseLev.Spec.system ι α fifo) before label after) :
    Accounted level (labels ++ [label]) after := by
  cases taken with
  | pushCall task asked here idle clamped =>
      refine accounted.of_balance (before.held_owner level before.levels _) ?_
      rw [submitted_single, received_single, idle]
      simp [levelLabels, ChaseLev.Spec.handedOut, ChaseLev.Spec.pushed, Label.entering,
        Label.leaving, OwnerPc.held, ← clamped, Fin.ext_iff]
      split <;> rfl
  | popCall idle =>
      refine accounted.of_balance (before.held_owner level before.levels _) ?_
      rw [submitted_single, received_single, idle, held_popFrom]
      rfl
  | ownerReturn result done =>
      refine accounted.of_balance (before.held_owner level before.levels _) ?_
      rw [submitted_single, received_single, done]
      rcases result with _ | _ | ⟨here, task⟩
      · rfl
      · rfl
      · by_cases same : here = level <;>
          simp [levelLabels, ChaseLev.Spec.handedOut, ChaseLev.Spec.pushed, Label.entering,
            Label.leaving, OwnerPc.held, same]
  | newStealer thief next absent stepped =>
      refine accounted.of_balance (before.held_thief level next thief .idle) ?_
      rw [submitted_single, received_single, absent]
      rfl
  | stealCall thief idle =>
      refine accounted.of_balance (before.held_thief level before.levels thief _) ?_
      rw [submitted_single, received_single, idle, held_stealFrom]
      rfl
  | stealReturn thief result done =>
      refine accounted.of_balance (before.held_thief level before.levels thief _) ?_
      rw [submitted_single, received_single, done]
      rcases result with _ | _ | ⟨here, task⟩
      · rfl
      · rfl
      · by_cases same : here = level <;>
          simp [levelLabels, ChaseLev.Spec.handedOut, ChaseLev.Spec.pushed, Label.entering,
            Label.leaving, ThiefPc.held, same]
  | owner here step pc next moves stepped =>
      refine accounted.of_balance (before.held_owner level _ pc) ?_
      rw [submitted_single, received_single, levelLabels_level]
      simp only [Label.entering, Label.leaving, Option.toList_none, Multiset.coe_nil, add_zero]
      refine moves.account (fun atPc result returns => ?_) level
      subst returns
      cases stepped with
      | ownerReturn _result done =>
          rcases pushes here atPc with ⟨task, pushing⟩ | pushed
          · rw [done] at pushing
            cases pushing
          · rw [done] at pushed
            cases pushed
            rfl
  | thief thief here step pc next moves stepped =>
      refine accounted.of_balance (before.held_thief level _ thief pc) ?_
      rw [submitted_single, received_single, levelLabels_level]
      simp only [Label.entering, Label.leaving, Option.toList_none, Multiset.coe_nil, add_zero]
      exact moves.account level

theorem accounted_of_reaches
    (reached : (system K (ChaseLev.Spec.system ι α fifo)).Reaches labels after)
    (level : Fin K) : Accounted level labels after := by
  obtain ⟨start, isInitial, run⟩ := reached
  induction run with
  | refl =>
      obtain ⟨_fresh, idle, absent⟩ := isInitial
      simp [Accounted, State.held, levelLabels, ChaseLev.Spec.handedOut, ChaseLev.Spec.pushed,
        submitted, received, idle, absent, OwnerPc.held, ThiefPc.held]
  | snoc prior last ih => exact ih.step (pushes_of_reaches ⟨start, isInitial, prior⟩) last

/-! ### The worker and its stealers are kept -/

omit [Fintype ι] [DecidableEq ι] in
theorem OwnerMoves.not_drop {here : Fin K} {step : ChaseLev.Label ι α} {old pc : OwnerPc α K}
    (moves : OwnerMoves old here step pc) : step.isDrop = false := by
  cases moves <;> rfl

omit [Fintype ι] [DecidableEq ι] in
theorem ThiefMoves.not_drop {thief : ι} {here : Fin K} {step : ChaseLev.Label ι α}
    {old pc : ThiefPc α K} (moves : ThiefMoves thief old here step pc) : step.isDrop = false := by
  cases moves <;> rfl

omit [Fintype ι] in
theorem not_drop_level {Deque : Type*}
    {deque : TransitionSystem Deque (ChaseLev.Label ι α)} {state : State Deque ι α K}
    (reached : (system K deque).Reaches labels state) (level : Fin K) :
    ∀ step ∈ levelLabels level labels, step.isDrop = false := by
  obtain ⟨start, _isInitial, run⟩ := reached
  induction run with
  | refl =>
      intro step member
      cases member
  | snoc _prior last ih =>
      intro step member
      rw [levelLabels_append] at member
      rcases List.mem_append.mp member with earlier | now
      · exact ih step earlier
      · cases last with
        | owner here other pc next moves stepped =>
            rw [levelLabels_level] at now
            split at now
            · rw [List.mem_singleton.mp now]
              exact moves.not_drop
            · cases now
        | thief thief here other pc next moves stepped =>
            rw [levelLabels_level] at now
            split at now
            · rw [List.mem_singleton.mp now]
              exact moves.not_drop
            · cases now
        | newStealer thief next absent stepped =>
            rw [List.mem_singleton.mp now]
            rfl
        | _ => cases now

variable {logInitialCap : Nat} {state : State (ChaseLev.State ι α) ι α K}

/-- A priority pool keeps every task at the level it was pushed to, in the hands of one
call, or has returned it once with that level. -/
theorem priority_exactly_once
    (reached : (system K (ChaseLev.system ι α fifo logInitialCap)).Reaches labels state)
    (few : Few labels) (level : Fin K) :
    (submitted level labels : Multiset α) =
      (state.levels level).abstract.items + (state.levels level).abstract.inHand +
        state.held level + received level labels := by
  have accounted := accounted_of_reaches (pool_refines reached few) level
  have spec := (ChaseLev.tracked_of_reaches (level_reaches reached level) (few level)).2.2
  have conserved := ChaseLev.Spec.conserved_of_reaches spec
  unfold ChaseLev.Spec.Conserved at conserved
  rw [ChaseLev.Spec.freed_of_reaches spec (not_drop_level reached level)] at conserved
  unfold Accounted at accounted
  rw [conserved] at accounted
  apply add_left_cancel (a := (ChaseLev.Spec.handedOut (levelLabels level labels) : Multiset α))
  rw [accounted]
  change _ + state.held level = _
  simp only [Multiset.coe_nil, add_zero]
  abel

/-- A thief has taken one of two tasks of the high level and not returned it yet. -/
def takesHigh : List (Choice Bool Nat) :=
  filled ++ [.stealCall false] ++ List.replicate 9 (.thief false)

theorem priority_exactly_once_takesHigh :
    ∃ labels state, pool.Reaches labels state ∧
      state.thief false = .returned (.success (high, 10)) ∧ ∀ level,
        (submitted level labels : Multiset Nat) =
          (state.levels level).abstract.items + (state.levels level).abstract.inHand +
            state.held level + received level labels := by
  have found : (TransitionSystem.execute next newPool takesHigh).any (fun done =>
      decide (Few done.1 ∧ done.2.thief false = .returned (.success (high, 10)))) = true := by
    decide +kernel
  obtain ⟨⟨labels, state⟩, executed, atEnd⟩ := (Option.any_eq_true _ _).mp found
  obtain ⟨few, took⟩ := of_decide_eq_true atEnd
  have reached := reaches_next executed
  exact ⟨labels, state, reached, took, fun level => priority_exactly_once reached few level⟩

end WsDeque.Priority
