import Mathlib.Data.List.Basic

/-
One party of a system running alone, with fuel: a single call, and calls
repeated until one of them returns nothing.
-/

namespace WsDeque

variable {State Result Value : Type*}

/-! ### One call -/

section

variable (finished : State → Option Result) (step : State → Option State)

def runAlone : Nat → State → Option Result
  | 0, _ => none
  | fuel + 1, state =>
      match finished state with
      | some result => some result
      | none => (step state).bind (runAlone fuel)

variable {finished step} {fuel more : Nat} {state after : State} {result : Result}

theorem runAlone_mono (enough : fuel ≤ more)
    (ran : runAlone finished step fuel state = some result) :
    runAlone finished step more state = some result := by
  induction fuel generalizing more state with
  | zero => cases ran
  | succ fuel ih =>
      cases more with
      | zero => omega
      | succ more =>
          unfold runAlone at ran ⊢
          cases done : finished state with
          | some value => simpa only [done] using ran
          | none =>
              simp only [done, Option.bind_eq_some_iff] at ran ⊢
              obtain ⟨next, stepped, rest⟩ := ran
              exact ⟨next, stepped, ih (by omega) rest⟩

theorem runAlone_finished (done : finished state = some result) :
    runAlone finished step (fuel + 1) state = some result := by
  simp only [runAlone, done]

theorem runAlone_step (running : finished state = none) (stepped : step state = some after) :
    runAlone finished step (fuel + 1) state = runAlone finished step fuel after := by
  simp only [runAlone, running, stepped, Option.bind_some]

/-- An invariant whose measure each step lowers leads to the end of the call. -/
theorem runAlone_returns {Holds : State → Prop} {Returns : Result → Prop}
    (measure : State → Nat)
    (progress : ∀ state, Holds state →
      (∃ result, finished state = some result ∧ Returns result) ∨
        finished state = none ∧
          ∃ after, step state = some after ∧ Holds after ∧ measure after < measure state)
    (holds : Holds state) :
    ∃ fuel result, runAlone finished step fuel state = some result ∧ Returns result := by
  generalize size : measure state = remaining
  induction remaining using Nat.strongRecOn generalizing state with
  | ind remaining ih =>
      rcases progress state holds with ⟨result, done, returns⟩ | ⟨running, after, stepped, rest⟩
      · exact ⟨1, result, runAlone_finished done, returns⟩
      · obtain ⟨fuel, result, ran, returns⟩ := ih _ (size ▸ rest.2) rest.1 rfl
        exact ⟨fuel + 1, result, (runAlone_step running stepped).trans ran, returns⟩

end

/-! ### Calls until nothing comes back -/

section

variable (call : Nat → State → Option (Option Value × State))

def untilNone : Nat → State → Option (List Value)
  | 0, _ => none
  | fuel + 1, state =>
      (call fuel state).bind fun called =>
        match called.1 with
        | some value => (untilNone fuel called.2).map fun rest => value :: rest
        | none => some []

/-- More fuel does not change what a call returns. -/
def FuelOnly : Prop :=
  ∀ ⦃fuel more : Nat⦄ ⦃state : State⦄ ⦃result : Option Value × State⦄, fuel ≤ more →
    call fuel state = some result → call more state = some result

variable {call} {state : State}

theorem untilNone_mono (fuelOnly : FuelOnly call) {fuel more : Nat} (enough : fuel ≤ more)
    {values : List Value} (ran : untilNone call fuel state = some values) :
    untilNone call more state = some values := by
  induction fuel generalizing more state values with
  | zero => cases ran
  | succ fuel ih =>
      cases more with
      | zero => omega
      | succ more =>
          simp only [untilNone, Option.bind_eq_some_iff] at ran ⊢
          obtain ⟨called, returned, rest⟩ := ran
          refine ⟨called, fuelOnly (by omega) returned, ?_⟩
          split at rest
          · simp only [Option.map_eq_some_iff] at rest ⊢
            obtain ⟨values, drained, rfl⟩ := rest
            exact ⟨values, ih (by omega) drained, rfl⟩
          · exact rest

/-- A call takes the last of the rows, or there are none. -/
structure TakesLast (call : Nat → State → Option (Option Value × State))
    (Ready : State → Prop) (rows : State → List Value) (state : State) (value : Option Value)
    (after : State) : Prop where
  returns : ∃ fuel, call fuel state = some (value, after)
  ready : Ready after
  removes : rows state = rows after ++ value.toList
  exhausts : value = none → rows state = []

theorem untilNone_rows {Ready : State → Prop} {rows : State → List Value}
    (fuelOnly : FuelOnly call)
    (takes : ∀ state, Ready state →
      ∃ value after, TakesLast call Ready rows state value after)
    (ready : Ready state) :
    ∃ enough, ∀ fuel, enough ≤ fuel → untilNone call fuel state = some (rows state).reverse := by
  generalize count : (rows state).length = remaining
  induction remaining using Nat.strongRecOn generalizing state with
  | ind remaining ih =>
      obtain ⟨value, after, taken⟩ := takes state ready
      obtain ⟨fuel, returned⟩ := taken.returns
      cases value with
      | none =>
          use fuel + 1
          intro more enough
          obtain ⟨less, rfl⟩ : ∃ less, more = less + 1 := ⟨more - 1, by omega⟩
          simp only [untilNone, fuelOnly (by omega : fuel ≤ less) returned, Option.bind_some,
            taken.exhausts rfl, List.reverse_nil]
      | some value =>
          have shorter : (rows after).length < remaining := by
            rw [← count, taken.removes]
            simp
          obtain ⟨rest, drains⟩ := ih _ shorter taken.ready rfl
          use max fuel rest + 1
          intro more enough
          obtain ⟨less, rfl⟩ : ∃ less, more = less + 1 := ⟨more - 1, by omega⟩
          simp only [untilNone, fuelOnly (by omega : fuel ≤ less) returned, Option.bind_some,
            drains less (by omega), Option.map_some, taken.removes, List.reverse_append,
            Option.toList_some, List.reverse_singleton, List.singleton_append]

end

end WsDeque
