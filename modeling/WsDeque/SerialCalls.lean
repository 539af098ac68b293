import Mathlib.Data.List.Basic

/-
Calls that never overlap, against a specification that answers each in one step.
-/

namespace WsDeque.SerialCalls

variable {State Spec Call Reply : Type*}

section

variable (call : Nat → Call → State → Option (Reply × State))

/-- The replies of these calls when each returns before the next one starts. -/
def serially (fuel : Nat) : List Call → State → Option (List Reply × State)
  | [], state => some ([], state)
  | first :: rest, state =>
      (call fuel first state).bind fun done =>
        (serially fuel rest done.2).map fun later => (done.1 :: later.1, later.2)

/-- More fuel does not change what a call returns. -/
def FuelOnly : Prop :=
  ∀ ⦃fuel more : Nat⦄ ⦃first : Call⦄ ⦃state : State⦄ ⦃result : Reply × State⦄, fuel ≤ more →
    call fuel first state = some result → call more first state = some result

end

section

variable (answer : Call → Spec → Reply × Spec)

def replies : List Call → Spec → List Reply
  | [], _ => []
  | first :: rest, value => (answer first value).1 :: replies rest (answer first value).2

/-- Each call may be made where the calls before it lead. -/
def Admitted (admits : Call → Spec → Prop) : List Call → Spec → Prop
  | [], _ => True
  | first :: rest, value => admits first value ∧ Admitted admits rest (answer first value).2

instance decidableAdmitted (admits : Call → Spec → Prop)
    [∀ first value, Decidable (admits first value)] :
    (calls : List Call) → (value : Spec) → Decidable (Admitted answer admits calls value)
  | [], _ => inferInstanceAs (Decidable True)
  | first :: rest, value =>
      have := decidableAdmitted admits rest (answer first value).2
      inferInstanceAs (Decidable (_ ∧ _))

/-- One call returns what the specification answers, and the states still match. -/
def Refines (call : Nat → Call → State → Option (Reply × State)) (admits : Call → Spec → Prop)
    (Represents : State → Spec → Prop) : Prop :=
  ∀ first state value, Represents state value → admits first value →
    ∃ fuel after, call fuel first state = some ((answer first value).1, after) ∧
      Represents after (answer first value).2

end

variable {call : Nat → Call → State → Option (Reply × State)}
  {answer : Call → Spec → Reply × Spec} {admits : Call → Spec → Prop}
  {Represents : State → Spec → Prop}

theorem serially_refines (fuelOnly : FuelOnly call)
    (refines : Refines answer call admits Represents) (calls : List Call) {state : State}
    {value : Spec} (represents : Represents state value)
    (admitted : Admitted answer admits calls value) :
    ∃ enough, ∀ fuel ≥ enough, ∃ after,
      serially call fuel calls state = some (replies answer calls value, after) := by
  induction calls generalizing state value with
  | nil => exact ⟨0, fun _fuel _enough => ⟨state, rfl⟩⟩
  | cons first rest ih =>
      obtain ⟨allowed, later⟩ := admitted
      obtain ⟨needed, middle, returned, represents⟩ := refines first state value represents allowed
      obtain ⟨enough, returns⟩ := ih represents later
      refine ⟨max needed enough, ?_⟩
      intro fuel large
      obtain ⟨after, runs⟩ := returns fuel (Nat.le_trans (Nat.le_max_right _ _) large)
      have here := fuelOnly (Nat.le_trans (Nat.le_max_left _ _) large) returned
      use after
      simp only [serially, here, Option.bind_some, runs, Option.map_some, replies]

end WsDeque.SerialCalls
