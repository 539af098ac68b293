import Mathlib.Data.List.FinRange
import WsDeque.ChaseLev.Spec

/-
The priority pool: `PriorityWorker` and `PriorityStealer` over `K` deques.

The pool is given over any deque that answers the calls of `Worker` and
`Stealer`, and its steps are those of its levels. A loop over the levels holds
the levels it has not reached.
-/

namespace WsDeque.Priority

open ChaseLev (OwnerResult)

variable {Deque ι α : Type*} {K : Nat}

/-- A task comes with the level its loop was at. -/
inductive PopResult (α : Type*) (K : Nat)
  | pushed
  | popped (found : Option (Fin K × α))
  deriving DecidableEq

inductive OwnerPc (α : Type*) (K : Nat)
  | idle
  | push (level : Fin K) (task : α)
  | pushing (level : Fin K)
  | pop (level : Fin K) (rest : List (Fin K))
  | popping (level : Fin K) (rest : List (Fin K))
  | returned (result : PopResult α K)
  deriving DecidableEq

/-- The head of the loop of `pop`. -/
def popFrom : List (Fin K) → OwnerPc α K
  | [] => .returned (.popped none)
  | level :: rest => .pop level rest

/-- What the owner does on a level, from one point of `push` or `pop` to the next. -/
inductive OwnerMoves : OwnerPc α K → Fin K → ChaseLev.Label ι α → OwnerPc α K → Prop
  | pushCall (level : Fin K) (task : α) :
      OwnerMoves (.push level task) level (.pushCall task) (.pushing level)
  | pushAccess (level : Fin K) (access : ChaseLev.Access) :
      OwnerMoves (.pushing level) level (.owner access) (.pushing level)
  | pushReturn (level : Fin K) (result : OwnerResult α) :
      OwnerMoves (.pushing level) level (.ownerReturn result) (.returned .pushed)
  | popCall (level : Fin K) (rest : List (Fin K)) :
      OwnerMoves (.pop level rest) level .popCall (.popping level rest)
  | popAccess (level : Fin K) (rest : List (Fin K)) (access : ChaseLev.Access) :
      OwnerMoves (.popping level rest) level (.owner access) (.popping level rest)
  | popSome (level : Fin K) (rest : List (Fin K)) (task : α) :
      OwnerMoves (.popping level rest) level (.ownerReturn (.popped (some task)))
        (.returned (.popped (some (level, task))))
  | popNone (level : Fin K) (rest : List (Fin K)) :
      OwnerMoves (.popping level rest) level (.ownerReturn (.popped none)) (popFrom rest)

inductive ThiefPc (α : Type*) (K : Nat)
  | absent
  | idle
  | steal (level : Fin K) (rest : List (Fin K)) (sawRetry : Bool)
  | stealing (level : Fin K) (rest : List (Fin K)) (sawRetry : Bool)
  | returned (result : Steal (Fin K × α))
  deriving DecidableEq

/-- The head of the loop of `steal`. -/
def stealFrom (sawRetry : Bool) : List (Fin K) → ThiefPc α K
  | [] => .returned (if sawRetry then .retry else .empty)
  | level :: rest => .steal level rest sawRetry

inductive ThiefMoves (thief : ι) :
    ThiefPc α K → Fin K → ChaseLev.Label ι α → ThiefPc α K → Prop
  | stealCall (level : Fin K) (rest : List (Fin K)) (sawRetry : Bool) :
      ThiefMoves thief (.steal level rest sawRetry) level (.stealCall thief)
        (.stealing level rest sawRetry)
  | stealAccess (level : Fin K) (rest : List (Fin K)) (sawRetry : Bool)
      (access : ChaseLev.Access) :
      ThiefMoves thief (.stealing level rest sawRetry) level (.thief thief access)
        (.stealing level rest sawRetry)
  | stealSuccess (level : Fin K) (rest : List (Fin K)) (sawRetry : Bool) (task : α) :
      ThiefMoves thief (.stealing level rest sawRetry) level
        (.stealReturn thief (.success task)) (.returned (.success (level, task)))
  | stealRetry (level : Fin K) (rest : List (Fin K)) (sawRetry : Bool) :
      ThiefMoves thief (.stealing level rest sawRetry) level
        (.stealReturn thief .retry) (stealFrom true rest)
  | stealEmpty (level : Fin K) (rest : List (Fin K)) (sawRetry : Bool) :
      ThiefMoves thief (.stealing level rest sawRetry) level
        (.stealReturn thief .empty) (stealFrom sawRetry rest)

structure State (Deque ι α : Type*) (K : Nat) where
  levels : Fin K → Deque
  owner : OwnerPc α K
  thief : ι → ThiefPc α K

inductive Label (ι α : Type*) (K : Nat)
  | pushCall (task : α) (level : Nat)
  | popCall
  | ownerReturn (result : PopResult α K)
  | newStealer (thief : ι)
  | stealCall (thief : ι)
  | stealReturn (thief : ι) (result : Steal (Fin K × α))
  /-- A step of one of the deques. -/
  | level (level : Fin K) (step : ChaseLev.Label ι α)

variable [DecidableEq ι]

/-- `new` asserts that `K` is not zero, so that a pushed task has a level. -/
inductive Step (deque : TransitionSystem Deque (ChaseLev.Label ι α))
    (state : State Deque ι α K) : Label ι α K → State Deque ι α K → Prop
  | pushCall (task : α) (asked : Nat) (level : Fin K) (idle : state.owner = .idle)
      (clamped : level.val = min asked (K - 1)) :
      Step deque state (.pushCall task asked) { state with owner := .push level task }
  | popCall (idle : state.owner = .idle) :
      Step deque state .popCall { state with owner := popFrom (List.finRange K) }
  | owner (level : Fin K) (step : ChaseLev.Label ι α) (pc : OwnerPc α K) (after : Deque)
      (moves : OwnerMoves state.owner level step pc)
      (taken : deque.step (state.levels level) step after) :
      Step deque state (.level level step)
        { state with
          levels := Function.update state.levels level after
          owner := pc }
  | ownerReturn (result : PopResult α K) (done : state.owner = .returned result) :
      Step deque state (.ownerReturn result) { state with owner := .idle }
  -- `stealer` makes a handle on every level.
  | newStealer (thief : ι) (after : Fin K → Deque) (absent : state.thief thief = .absent)
      (taken : ∀ level, deque.step (state.levels level) (.newStealer thief) (after level)) :
      Step deque state (.newStealer thief)
        { state with
          levels := after
          thief := Function.update state.thief thief .idle }
  | stealCall (thief : ι) (idle : state.thief thief = .idle) :
      Step deque state (.stealCall thief)
        { state with
          thief := Function.update state.thief thief (stealFrom false (List.finRange K)) }
  | thief (thief : ι) (level : Fin K) (step : ChaseLev.Label ι α) (pc : ThiefPc α K)
      (after : Deque) (moves : ThiefMoves thief (state.thief thief) level step pc)
      (taken : deque.step (state.levels level) step after) :
      Step deque state (.level level step)
        { state with
          levels := Function.update state.levels level after
          thief := Function.update state.thief thief pc }
  | stealReturn (thief : ι) (result : Steal (Fin K × α))
      (done : state.thief thief = .returned result) :
      Step deque state (.stealReturn thief result)
        { state with thief := Function.update state.thief thief .idle }

/-- `PriorityWorker::new` over new deques. -/
def Initial (deque : TransitionSystem Deque (ChaseLev.Label ι α))
    (state : State Deque ι α K) : Prop :=
  (∀ level, deque.initial (state.levels level)) ∧ state.owner = .idle ∧
    ∀ thief, state.thief thief = .absent

def system (K : Nat) (deque : TransitionSystem Deque (ChaseLev.Label ι α)) :
    TransitionSystem (State Deque ι α K) (Label ι α K) :=
  { initial := Initial deque
    step := Step deque }

/-! ### The runs of one level -/

/-- What a level sees of the labels of the pool. -/
def levelLabels (level : Fin K) : List (Label ι α K) → List (ChaseLev.Label ι α)
  | [] => []
  | .newStealer thief :: rest => .newStealer thief :: levelLabels level rest
  | .level other step :: rest =>
      if other = level then step :: levelLabels level rest else levelLabels level rest
  | _ :: rest => levelLabels level rest

omit [DecidableEq ι] in
theorem levelLabels_append (level : Fin K) (first second : List (Label ι α K)) :
    levelLabels level (first ++ second) =
      levelLabels level first ++ levelLabels level second := by
  induction first with
  | nil => rfl
  | cons label rest ih =>
      cases label with
      | level other step =>
          by_cases same : other = level
          · simp [levelLabels, same, ih]
          · simp [levelLabels, same, ih]
      | _ => simp [levelLabels, ih]

variable {deque : TransitionSystem Deque (ChaseLev.Label ι α)}

/-- A step of the pool is a step of a level, or leaves the level as it is. -/
theorem Step.level_step {before after : State Deque ι α K} {label : Label ι α K}
    (taken : Step deque before label after) (level : Fin K) :
    deque.Run (before.levels level) (levelLabels level [label]) (after.levels level) := by
  have moved : ∀ (here : Fin K) (step : ChaseLev.Label ι α) (next : Deque),
      deque.step (before.levels here) step next →
        deque.Run (before.levels level) (levelLabels level [Label.level here step])
          (Function.update before.levels here next level) := by
    intro here step next stepped
    by_cases same : here = level
    · subst same
      simp only [levelLabels, if_true, Function.update_self]
      exact .single stepped
    · rw [Function.update_of_ne (Ne.symm same)]
      simp only [levelLabels, if_neg same]
      exact .refl _
  cases taken with
  | pushCall task asked here idle clamped => exact .refl _
  | popCall idle => exact .refl _
  | owner here step pc next moves stepped => exact moved here step next stepped
  | ownerReturn result done => exact .refl _
  | newStealer thief next absent stepped => exact .single (stepped level)
  | stealCall thief idle => exact .refl _
  | thief thief here step pc next moves stepped => exact moved here step next stepped
  | stealReturn thief result done => exact .refl _

theorem level_reaches {labels : List (Label ι α K)} {state : State Deque ι α K}
    (reached : (system K deque).Reaches labels state) (level : Fin K) :
    deque.Reaches (levelLabels level labels) (state.levels level) := by
  obtain ⟨start, isInitial, run⟩ := reached
  refine ⟨start.levels level, isInitial.1 level, ?_⟩
  induction run with
  | refl => exact .refl _
  | snoc _prior taken ih =>
      rw [levelLabels_append]
      exact ih.append (Step.level_step taken level)

end WsDeque.Priority
