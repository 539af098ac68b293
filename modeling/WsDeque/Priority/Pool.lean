import WsDeque.Priority.Refinement

/-
What `pop` and `steal` promise about the levels above the one they took from.
-/

namespace WsDeque.Priority

variable {ι α : Type*} [DecidableEq ι] {K : Nat}

/-! ### Computed runs of a pool of two levels and two thieves -/

def high : Fin 2 := ⟨0, Nat.two_pos⟩

def low : Fin 2 := ⟨1, Nat.one_lt_two⟩

def pushOf (task asked : Nat) : List (Choice Bool Nat) :=
  .pushCall task asked :: List.replicate 6 (.owner false) ++ [.ownerReturn]

def newPool : State (ChaseLev.State Bool Nat) Bool Nat 2 :=
  { levels := fun _ => ChaseLev.withLogCapacity Bool Nat false 4
    owner := .idle
    thief := fun _ => .absent }

abbrev pool : TransitionSystem (State (ChaseLev.State Bool Nat) Bool Nat 2) (Label Bool Nat 2) :=
  system 2 (ChaseLev.system Bool Nat false 4)

theorem run_next {guard : State (ChaseLev.State Bool Nat) Bool Nat 2 → Label Bool Nat 2 → Prop}
    [∀ state label, Decidable (guard state label)]
    {start final : State (ChaseLev.State Bool Nat) Bool Nat 2} {choices : List (Choice Bool Nat)}
    {labels : List (Label Bool Nat 2)}
    (executed : TransitionSystem.execute (TransitionSystem.guarded guard next) start choices =
      some (labels, final)) : (pool.restrict guard).Run start labels final := by
  have run : ((TransitionSystem.ofNext (Initial (ChaseLev.system Bool Nat false 4)) next).restrict
      guard).Run start labels final :=
    TransitionSystem.execute_restrict_run choices executed
  apply run.mono
  intro before label after taken
  obtain ⟨meets, choice, moved⟩ := taken
  exact ⟨meets, next_sound moved⟩

theorem reaches_next {final : State (ChaseLev.State Bool Nat) Bool Nat 2}
    {choices : List (Choice Bool Nat)} {labels : List (Label Bool Nat 2)}
    (executed : TransitionSystem.execute next newPool choices = some (labels, final)) :
    pool.Reaches labels final := by
  have run : (TransitionSystem.ofNext (Initial (ChaseLev.system Bool Nat false 4)) next).Run
      newPool labels final := TransitionSystem.execute_run choices executed
  refine ⟨newPool, ⟨fun _level => rfl, rfl, fun _thief => rfl⟩, run.mono ?_⟩
  intro before label after taken
  obtain ⟨choice, moved⟩ := taken
  exact next_sound moved

instance (labels : List (Label Bool Nat 2)) : Decidable (Few labels) :=
  inferInstanceAs (Decidable (∀ _level, _ < _))

/-! ### `pop` -/

/-- What `pop` reports is true at the moment of its return: the levels above the
one it took from are empty, and all of them are when it found nothing. -/
theorem pop_honest {fifo : Bool} {labels : List (Label ι α K)}
    {before after : State (ChaseLev.Spec.State ι α) ι α K} {found : Option (Fin K × α)}
    (reached : (system K (ChaseLev.Spec.system ι α fifo)).Reaches labels before)
    (returns : (system K (ChaseLev.Spec.system ι α fifo)).step before
      (.ownerReturn (.popped found)) after) :
    match found with
    | some (level, _) => ∀ above < level, (after.levels above).items = []
    | none => ∀ level, (after.levels level).items = [] := by
  have knows := owner_knows reached
  cases returns with
  | ownerReturn result done =>
      rw [done] at knows
      cases found with
      | none => exact knows.2
      | some found => exact knows.2

/-- A pop of the one task, at the low level. -/
def popLow : List (Choice Bool Nat) :=
  pushOf 20 1 ++ [.popCall] ++ List.replicate 16 (.owner false)

/-- The owner passes the empty high level. -/
theorem pop_honest_low :
    ∃ labels before after,
      (system 2 (ChaseLev.Spec.system Bool Nat false)).Reaches labels before ∧
        (system 2 (ChaseLev.Spec.system Bool Nat false)).step before
          (.ownerReturn (.popped (some (low, 20)))) after ∧
        ∀ above < low, (after.levels above).items = [] := by
  have found : (TransitionSystem.execute next newPool popLow).any (fun done =>
      decide (Few done.1 ∧ done.2.owner = .returned (.popped (some (low, 20))))) = true := by
    decide +kernel
  obtain ⟨⟨labels, before⟩, executed, atEnd⟩ := (Option.any_eq_true _ _).mp found
  obtain ⟨few, done⟩ := of_decide_eq_true atEnd
  have reached := pool_refines (reaches_next executed) few
  have returns : (system 2 (ChaseLev.Spec.system Bool Nat false)).step before.abstract
      (.ownerReturn (.popped (some (low, 20)))) _ := .ownerReturn _ done
  exact ⟨labels, before.abstract, _, reached, returns, pop_honest reached returns⟩

/-! ### `steal` -/

/-- A steal takes from a level only when every level above it was vacant at some
instant of the call, or was lost to another party in a race of the call. -/
theorem steal_inverts_only_when_contended {fifo : Bool} {thief : ι} {level above : Fin K}
    {task : α} {before after final : State (ChaseLev.Spec.State ι α) ι α K}
    {during : List (Label ι α K)}
    (called : (system K (ChaseLev.Spec.system ι α fifo)).step before (.stealCall thief) after)
    (run : ((system K (ChaseLev.Spec.system ι α fifo)).restrict (Passes thief above)).Run
      after during final)
    (took : final.thief thief = .returned (.success (level, task))) : ¬ above < level :=
  StillAhead.took called run took

/-- Two tasks at the high level and one at the low one, with two thieves. -/
def filled : List (Choice Bool Nat) :=
  [.newStealer false, .newStealer true] ++ pushOf 10 0 ++ pushOf 11 0 ++ pushOf 20 1

/-- A step at the high level while the low one is occupied. -/
def AtHigh (state : State (ChaseLev.State Bool Nat) Bool Nat 2) (label : Label Bool Nat 2) :
    Prop :=
  0 < MachineWord.wrappingSub (state.levels low).inner.bottom (state.levels low).inner.top ∧
    match label with
    | .level here _ => here = high
    | _ => False

instance (state : State (ChaseLev.State Bool Nat) Bool Nat 2) (label : Label Bool Nat 2) :
    Decidable (AtHigh state label) :=
  match label with
  | .level _ _ => inferInstanceAs (Decidable (_ ∧ _ = _))
  | .pushCall _ _ | .popCall | .ownerReturn _ | .newStealer _ | .stealCall _
  | .stealReturn _ _ => inferInstanceAs (Decidable (_ ∧ False))

theorem AtHigh.passes {state : State (ChaseLev.State Bool Nat) Bool Nat 2}
    {label : Label Bool Nat 2} (atHigh : AtHigh state label) :
    PassesCode false low state label := by
  obtain ⟨occupied, here⟩ := atHigh
  refine ⟨occupied, ?_, ?_⟩
  · intro same
    subst same
    exact absurd here (by decide)
  · intro same
    subst same
    exact here

def stealsHigh (labels : List (Label Bool Nat 2))
    (before : State (ChaseLev.State Bool Nat) Bool Nat 2) : Bool :=
  (next before (.stealCall false)).any fun called =>
    (TransitionSystem.execute (TransitionSystem.guarded AtHigh next) called.2
      (List.replicate 9 (.thief false))).any
      fun done => decide (Few (labels ++ [.stealCall false] ++ done.1) ∧
        done.2.thief false = .returned (.success (high, 10)))

/-- A steal that finds a task at once leaves the occupied level below alone. -/
theorem steal_inverts_only_when_contended_high :
    ∃ before after final during,
      (system 2 (ChaseLev.Spec.system Bool Nat false)).step before (.stealCall false) after ∧
        ((system 2 (ChaseLev.Spec.system Bool Nat false)).restrict (Passes false low)).Run
          after during final ∧
        final.thief false = .returned (.success (high, 10)) ∧ ¬ low < high := by
  have found : (TransitionSystem.execute next newPool filled).any
      (fun done => stealsHigh done.1 done.2) = true := by decide +kernel
  obtain ⟨⟨earlier, before⟩, executed, steals⟩ := (Option.any_eq_true _ _).mp found
  obtain ⟨⟨label, after⟩, called, later⟩ := (Option.any_eq_true _ _).mp steals
  obtain ⟨⟨during, final⟩, finished, atEnd⟩ := (Option.any_eq_true _ _).mp later
  obtain ⟨few, took⟩ := of_decide_eq_true atEnd
  have same : label = .stealCall false := by
    simp only [next] at called
    split at called <;> cases called
    rfl
  rw [same] at called
  have reached := reaches_next executed
  have calledCode : pool.step before (.stealCall false) after := next_sound called
  have runCode : (pool.restrict (PassesCode false low)).Run after during final := by
    refine (run_next finished).mono ?_
    intro before label after taken
    exact ⟨taken.1.passes, taken.2⟩
  have calledSpec := step_abstract reached calledCode few.prefix
  have runSpec := run_abstract (reached.snoc calledCode) runCode few
  exact ⟨before.abstract, after.abstract, final.abstract, during, calledSpec, runSpec, took,
    steal_inverts_only_when_contended calledSpec runSpec took⟩

/-- The first thief reads the high level, the second takes its front, and the
first loses its compare-exchange there and goes on to the low level. -/
def race : List (Choice Bool Nat) :=
  List.replicate 7 (.thief false) ++ [.stealCall true] ++ List.replicate 9 (.thief true) ++
    List.replicate 11 (.thief false)

def startsSteal (thief : Bool) : Label Bool Nat 2 → Bool
  | .stealCall other => other == thief
  | _ => false

/-- The high level holds tasks, and the first thief starts no other call. -/
def Inverts (state : State (ChaseLev.State Bool Nat) Bool Nat 2) (label : Label Bool Nat 2) :
    Prop :=
  0 < MachineWord.wrappingSub (state.levels high).inner.bottom (state.levels high).inner.top ∧
    startsSteal false label = false

instance (state : State (ChaseLev.State Bool Nat) Bool Nat 2) (label : Label Bool Nat 2) :
    Decidable (Inverts state label) :=
  inferInstanceAs (Decidable (_ ∧ _))

/-- What the race leads to from the filled pool. -/
def Inverted (before : State (ChaseLev.State Bool Nat) Bool Nat 2) : Bool :=
  (next before (.stealCall false)).any fun called =>
    (TransitionSystem.execute (TransitionSystem.guarded Inverts next) called.2 race).any
      fun done => decide (Inverts done.2 .popCall ∧
        done.2.thief false = .returned (.success (low, 20)))

/-- Through the whole call the high level holds tasks, and the thief comes back
with one of the low level. -/
theorem steal_inverts :
    ∃ earlier before after during final,
      pool.Reaches earlier before ∧ pool.step before (.stealCall false) after ∧
        (pool.restrict Inverts).Run after during final ∧
        0 < MachineWord.wrappingSub (final.levels high).inner.bottom
          (final.levels high).inner.top ∧
        final.thief false = .returned (.success (low, 20)) := by
  have found : (TransitionSystem.execute next newPool filled).any
      (fun done => Inverted done.2) = true := by decide +kernel
  obtain ⟨⟨earlier, before⟩, executed, inverted⟩ := (Option.any_eq_true _ _).mp found
  obtain ⟨⟨label, after⟩, called, later⟩ := (Option.any_eq_true _ _).mp inverted
  obtain ⟨⟨during, final⟩, raced, atEnd⟩ := (Option.any_eq_true _ _).mp later
  obtain ⟨occupied, took⟩ := of_decide_eq_true atEnd
  have same : label = .stealCall false := by
    simp only [next] at called
    split at called <;> cases called
    rfl
  rw [same] at called
  exact ⟨earlier, before, after, during, final, reaches_next executed, next_sound called,
    run_next raced, occupied.1, took⟩

/-- On the code: between the call and the return each level above the one that
was taken from answers `is_empty` with `true` at some instant, or retry. -/
theorem steal_of_code [Fintype ι] {fifo : Bool} {logInitialCap : Nat}
    {earlier during : List (Label ι α K)} {thief : ι} {level above : Fin K} {task : α}
    {before after final : State (ChaseLev.State ι α) ι α K}
    (reached : (system K (ChaseLev.system ι α fifo logInitialCap)).Reaches earlier before)
    (called : (system K (ChaseLev.system ι α fifo logInitialCap)).step before (.stealCall thief)
      after)
    (run : ((system K (ChaseLev.system ι α fifo logInitialCap)).restrict
      (PassesCode thief above)).Run after during final)
    (few : Few (earlier ++ [.stealCall thief] ++ during))
    (took : final.thief thief = .returned (.success (level, task))) : ¬ above < level := by
  intro lower
  have calledSpec := step_abstract reached called few.prefix
  have runSpec := run_abstract (reached.snoc called) run few
  exact absurd lower (StillAhead.took calledSpec runSpec took)

end WsDeque.Priority
