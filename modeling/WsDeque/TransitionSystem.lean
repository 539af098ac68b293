import Mathlib.Logic.Function.Basic
import Mathlib.Data.List.Basic

/-
Labelled transition systems with finite runs.

A run keeps the labels of its steps in the order they happened, so that a
statement can speak about the history of a state as well as the state itself.
-/

namespace WsDeque

structure TransitionSystem (State Label : Type*) where
  initial : State → Prop
  step : State → Label → State → Prop

namespace TransitionSystem

variable {State Label Abstract : Type*}

inductive Run (system : TransitionSystem State Label) :
    State → List Label → State → Prop
  | refl (start : State) : Run system start [] start
  | snoc {start middle final : State} {labels : List Label} {label : Label}
      (prior : Run system start labels middle)
      (last : system.step middle label final) :
      Run system start (labels ++ [label]) final

/-- The labels lead from some initial state to the given state. -/
def Reaches (system : TransitionSystem State Label)
    (labels : List Label) (state : State) : Prop :=
  ∃ start, system.initial start ∧ system.Run start labels state

def Reachable (system : TransitionSystem State Label) (state : State) : Prop :=
  ∃ labels, system.Reaches labels state

/-- Keep only the steps whose source state and label meet a guard. -/
def restrict (system : TransitionSystem State Label)
    (guard : State → Label → Prop) : TransitionSystem State Label :=
  { initial := system.initial
    step := fun before label after =>
      guard before label ∧ system.step before label after }

variable {system : TransitionSystem State Label}

theorem Run.single {before after : State} {label : Label}
    (taken : system.step before label after) :
    system.Run before [label] after :=
  (Run.refl before).snoc taken

theorem Run.append {start middle final : State} {first second : List Label}
    (left : system.Run start first middle)
    (right : system.Run middle second final) :
    system.Run start (first ++ second) final := by
  induction right with
  | refl => simpa using left
  | snoc _prior last ih =>
      rw [← List.append_assoc]
      exact ih.snoc last

theorem Run.last {start final : State} {front labels : List Label} {label : Label}
    (run : system.Run start labels final) (whole : labels = front ++ [label]) :
    ∃ middle, system.Run start front middle ∧ system.step middle label final := by
  cases run with
  | refl => simp at whole
  | @snoc before _ labels last prior taken =>
      obtain ⟨rfl, same⟩ := List.append_inj' whole rfl
      obtain rfl := List.singleton_inj.mp same
      exact ⟨before, prior, taken⟩

theorem Run.of_single {before after : State} {label : Label} {labels : List Label}
    (run : system.Run before labels after) (whole : labels = [label]) :
    system.step before label after := by
  obtain ⟨middle, none, taken⟩ := run.last (whole.trans (List.nil_append _).symm)
  generalize empty : ([] : List Label) = front at none
  cases none with
  | refl => exact taken
  | snoc prior last => simp at empty

theorem Run.split {start final : State} {first second labels : List Label}
    (run : system.Run start labels final) (whole : labels = first ++ second) :
    ∃ middle, system.Run start first middle ∧ system.Run middle second final := by
  induction run generalizing second with
  | refl =>
      obtain ⟨rfl, rfl⟩ := List.append_eq_nil_iff.mp whole.symm
      exact ⟨_, .refl _, .refl _⟩
  | @snoc before final labels label prior taken ih =>
      rcases List.eq_nil_or_concat second with rfl | ⟨front, last, rfl⟩
      · rw [List.append_nil] at whole
        exact ⟨final, whole ▸ prior.snoc taken, .refl final⟩
      · rw [List.concat_eq_append, ← List.append_assoc] at whole
        obtain ⟨rfl, same⟩ := List.append_inj' whole rfl
        obtain rfl := List.singleton_inj.mp same
        obtain ⟨middle, left, right⟩ := ih rfl
        exact ⟨middle, left, List.concat_eq_append ▸ right.snoc taken⟩

theorem Reaches.snoc {labels : List Label} {before after : State} {label : Label}
    (reached : system.Reaches labels before)
    (taken : system.step before label after) :
    system.Reaches (labels ++ [label]) after := by
  obtain ⟨start, isInitial, run⟩ := reached
  exact ⟨start, isInitial, run.snoc taken⟩

theorem Reaches.reachable {labels : List Label} {state : State}
    (reached : system.Reaches labels state) : system.Reachable state :=
  ⟨labels, reached⟩

theorem Run.mono {other : TransitionSystem State Label}
    (allowed : ∀ before label after,
      system.step before label after → other.step before label after)
    {start final : State} {labels : List Label} (run : system.Run start labels final) :
    other.Run start labels final := by
  induction run with
  | refl => exact .refl _
  | snoc _prior last ih => exact ih.snoc (allowed _ _ _ last)

theorem Run.unrestricted {guard : State → Label → Prop} {start final : State}
    {labels : List Label} (run : (system.restrict guard).Run start labels final) :
    system.Run start labels final := by
  apply run.mono
  intro before label after taken
  exact taken.2

/-- What a run preserves from what one step preserves. -/
theorem Run.preserves {Holds : State → Prop}
    (preserved : ∀ before label after,
      Holds before → system.step before label after → Holds after)
    {start final : State} {labels : List Label}
    (run : system.Run start labels final) (atStart : Holds start) :
    Holds final := by
  induction run with
  | refl => exact atStart
  | snoc _prior last ih => exact preserved _ _ _ ih last

/-- The invariant rule when the claim also depends on the labels so far. -/
theorem Reaches.induction {Holds : List Label → State → Prop}
    (atStart : ∀ start, system.initial start → Holds [] start)
    (preserved : ∀ labels before label after,
      system.Reaches labels before → Holds labels before →
        system.step before label after → Holds (labels ++ [label]) after)
    {labels : List Label} {state : State}
    (reached : system.Reaches labels state) : Holds labels state := by
  obtain ⟨start, isInitial, run⟩ := reached
  induction run with
  | refl => exact atStart start isInitial
  | snoc prior last ih =>
      exact preserved _ _ _ _ ⟨start, isInitial, prior⟩ ih last

theorem Reachable.induction {Holds : State → Prop}
    (atStart : ∀ start, system.initial start → Holds start)
    (preserved : ∀ before label after,
      Holds before → system.step before label after → Holds after)
    {state : State} (reachable : system.Reachable state) : Holds state := by
  obtain ⟨labels, start, isInitial, run⟩ := reachable
  exact run.preserves preserved (atStart start isInitial)

/-- A system whose steps are steps of a model runs as the model does. -/
theorem Reaches.simulated {model : TransitionSystem Abstract Label} {abstract : State → Abstract}
    (atStart : ∀ start, system.initial start → model.initial (abstract start))
    (matched : ∀ labels before label after, system.Reaches labels before →
      system.step before label after → model.step (abstract before) label (abstract after))
    {labels : List Label} {state : State} (reached : system.Reaches labels state) :
    model.Reaches labels (abstract state) := by
  obtain ⟨start, isInitial, run⟩ := reached
  refine ⟨abstract start, atStart start isInitial, ?_⟩
  induction run with
  | refl => exact .refl _
  | snoc prior last ih => exact ih.snoc (matched _ _ _ _ ⟨start, isInitial, prior⟩ last)

/-! ### Guards that look back -/

/-- The same system with the labels so far beside its state. -/
def recorded (system : TransitionSystem State Label) :
    TransitionSystem (State × List Label) Label :=
  { initial := fun start => system.initial start.1 ∧ start.2 = []
    step := fun before label after =>
      system.step before.1 label after.1 ∧ after.2 = before.2 ++ [label] }

theorem Reaches.of_recorded {labels : List Label} {final : State × List Label}
    (reached : system.recorded.Reaches labels final) :
    system.Reaches labels final.1 ∧ final.2 = labels := by
  obtain ⟨start, ⟨isInitial, empty⟩, run⟩ := reached
  induction run with
  | refl => exact ⟨⟨_, isInitial, .refl _⟩, empty⟩
  | snoc _prior last ih =>
      obtain ⟨reached, history⟩ := ih
      exact ⟨reached.snoc last.1, by rw [last.2, history]⟩

/-! ### The highest state of a run -/

/-- The same system with the largest height so far beside its state. -/
def peaked (system : TransitionSystem State Label) (height : State → Nat) :
    TransitionSystem (State × Nat) Label :=
  { initial := fun start => system.initial start.1 ∧ start.2 = height start.1
    step := fun before label after =>
      system.step before.1 label after.1 ∧ after.2 = max before.2 (height after.1) }

/-! ### Observers -/

/-- The same system with something beside its state that sees every step. -/
def observed {Seen : Type*} (system : TransitionSystem State Label) (atStart : State → Seen)
    (see : Seen → State → Label → State → Seen) : TransitionSystem (State × Seen) Label :=
  { initial := fun start => system.initial start.1 ∧ start.2 = atStart start.1
    step := fun before label after =>
      system.step before.1 label after.1 ∧ after.2 = see before.2 before.1 label after.1 }

/-! ### Instants of a run -/

/-- Some state along the run is of this kind. -/
def PassesThrough (system : TransitionSystem State Label) (start : State) (labels : List Label)
    (final : State) (Holds : State → Prop) : Prop :=
  ∃ earlier middle later, labels = earlier ++ later ∧ system.Run start earlier middle ∧
    system.Run middle later final ∧ Holds middle

variable {Holds : State → Prop}

theorem PassesThrough.snoc {start middle final : State} {labels : List Label} {label : Label}
    (passes : system.PassesThrough start labels middle Holds)
    (taken : system.step middle label final) :
    system.PassesThrough start (labels ++ [label]) final Holds := by
  obtain ⟨earlier, instant, later, rfl, before, after, holds⟩ := passes
  exact ⟨earlier, instant, later ++ [label], List.append_assoc .., before, after.snoc taken, holds⟩

theorem Run.passesThrough {start final : State} {labels : List Label}
    (run : system.Run start labels final) (holds : Holds final) :
    system.PassesThrough start labels final Holds :=
  ⟨labels, final, [], (List.append_nil _).symm, run, .refl final, holds⟩

/-! ### Systems side by side -/

section

variable {Place : Type*} [DecidableEq Place]

/-- The steps at one place. -/
def labelsAt (place : Place) (labels : List (Place × Label)) : List Label :=
  labels.filterMap fun label => if label.1 = place then some label.2 else none

theorem labelsAt_append (place : Place) (first second : List (Place × Label)) :
    labelsAt place (first ++ second) = labelsAt place first ++ labelsAt place second :=
  List.filterMap_append

/-- Each step is a step of the system at one place. -/
def sideBySide (systems : Place → TransitionSystem State Label) :
    TransitionSystem (Place → State) (Place × Label) :=
  { initial := fun start => ∀ place, (systems place).initial (start place)
    step := fun before label after =>
      ∃ moved, (systems label.1).step (before label.1) label.2 moved ∧
        after = Function.update before label.1 moved }

variable {systems : Place → TransitionSystem State Label}

theorem Run.at_place {start final : Place → State} {labels : List (Place × Label)}
    (run : (sideBySide systems).Run start labels final) (place : Place) :
    (systems place).Run (start place) (labelsAt place labels) (final place) := by
  induction run with
  | refl => exact .refl _
  | @snoc before _ _ label _prior last ih =>
      obtain ⟨moved, stepped, rfl⟩ := last
      rw [labelsAt_append]
      by_cases same : label.1 = place
      · subst same
        rw [Function.update_self]
        simpa [labelsAt] using ih.snoc stepped
      · rw [Function.update_of_ne (Ne.symm same)]
        simpa [labelsAt, same] using ih

end

/-! ### Where some run leads -/

/-- From a state of the first kind some run ends in one of the second. -/
def Leads (system : TransitionSystem State Label) (From To : State → Prop) : Prop :=
  ∀ start, From start → ∃ labels final, system.Run start labels final ∧ To final

theorem Leads.trans {From Through To : State → Prop} (first : system.Leads From Through)
    (second : system.Leads Through To) : system.Leads From To := by
  intro start holds
  obtain ⟨before, middle, left, there⟩ := first start holds
  obtain ⟨after, final, right, ends⟩ := second middle there
  exact ⟨before ++ after, final, left.append right, ends⟩

theorem Leads.iterate {Stage : Nat → State → Prop}
    (turn : ∀ round, system.Leads (Stage round) (Stage (round + 1))) (rounds : Nat) :
    system.Leads (Stage 0) (Stage rounds) := by
  induction rounds with
  | zero => exact fun start holds => ⟨[], start, .refl start, holds⟩
  | succ rounds ih => exact ih.trans (turn rounds)

/-- A measure that some step lowers, as long as the goal is not reached. -/
theorem Leads.of_measure {Holds Goal : State → Prop} (measure : State → Nat)
    (progress : ∀ before, Holds before → Goal before ∨ ∃ label after,
      system.step before label after ∧ Holds after ∧ measure after < measure before) :
    system.Leads Holds fun state => Holds state ∧ Goal state := by
  intro start holds
  generalize size : measure start = remaining
  induction remaining using Nat.strongRecOn generalizing start with
  | ind remaining ih =>
      rcases progress start holds with done | ⟨label, after, stepped, still, less⟩
      · exact ⟨[], start, .refl start, holds, done⟩
      · obtain ⟨labels, final, run, ends⟩ := ih _ (size ▸ less) after still rfl
        exact ⟨label :: labels, final, (Run.single stepped).append run, ends⟩

/-! ### Systems whose steps are computed -/

variable {Choice : Type*}

/-- A choice names who moves next and settles whatever the code leaves open. -/
def ofNext (initial : State → Prop) (next : State → Choice → Option (Label × State)) :
    TransitionSystem State Label :=
  { initial := initial
    step := fun before label after => ∃ choice, next before choice = some (label, after) }

def execute (next : State → Choice → Option (Label × State)) :
    State → List Choice → Option (List Label × State)
  | state, [] => some ([], state)
  | state, choice :: rest =>
      (next state choice).bind fun taken =>
        (execute next taken.2 rest).map fun done => (taken.1 :: done.1, done.2)

theorem execute_run {initial : State → Prop}
    {next : State → Choice → Option (Label × State)} (choices : List Choice)
    {start final : State} {labels : List Label}
    (executed : execute next start choices = some (labels, final)) :
    (ofNext initial next).Run start labels final := by
  induction choices generalizing start labels with
  | nil =>
      simp only [execute, Option.some.injEq, Prod.mk.injEq] at executed
      obtain ⟨rfl, rfl⟩ := executed
      exact .refl start
  | cons choice rest ih =>
      simp only [execute, Option.bind_eq_some_iff, Option.map_eq_some_iff] at executed
      obtain ⟨⟨label, middle⟩, moved, ⟨later, last⟩, finished, same⟩ := executed
      simp only [Prod.mk.injEq] at same
      obtain ⟨rfl, rfl⟩ := same
      have first : (ofNext initial next).step start label middle := ⟨choice, moved⟩
      exact (Run.single first).append (ih finished)

/-- A run found by evaluation, with what can be decided about its end. -/
theorem execute_finds {initial : State → Prop}
    (next : State → Choice → Option (Label × State)) (start : State) (choices : List Choice)
    (found : List Label → State → Prop) [∀ labels state, Decidable (found labels state)]
    (executed : (execute next start choices).any (fun done => found done.1 done.2) = true) :
    ∃ labels state, (ofNext initial next).Run start labels state ∧ found labels state := by
  obtain ⟨⟨labels, state⟩, finished, holds⟩ := (Option.any_eq_true _ _).mp executed
  exact ⟨labels, state, execute_run choices finished, of_decide_eq_true holds⟩

/-- The choices whose steps meet the guard. -/
def guarded (guard : State → Label → Prop) [∀ before label, Decidable (guard before label)]
    (next : State → Choice → Option (Label × State)) (before : State) (choice : Choice) :
    Option (Label × State) :=
  (next before choice).filter fun taken => guard before taken.1

theorem execute_restrict_run {guard : State → Label → Prop}
    [∀ before label, Decidable (guard before label)] {initial : State → Prop}
    {next : State → Choice → Option (Label × State)} (choices : List Choice)
    {start final : State} {labels : List Label}
    (executed : execute (guarded guard next) start choices = some (labels, final)) :
    ((ofNext initial next).restrict guard).Run start labels final := by
  have run : (ofNext initial (guarded guard next)).Run start labels final :=
    execute_run choices executed
  clear executed
  induction run with
  | refl => exact .refl start
  | snoc _prior last ih =>
      obtain ⟨choice, moved⟩ := last
      obtain ⟨taken, meets⟩ := Option.filter_eq_some_iff.mp moved
      exact ih.snoc ⟨of_decide_eq_true meets, choice, taken⟩

def recordedNext (next : State → Choice → Option (Label × State)) (before : State × List Label)
    (choice : Choice) : Option (Label × State × List Label) :=
  (next before.1 choice).map fun taken => (taken.1, taken.2, before.2 ++ [taken.1])

/-- The same under a guard that looks back. -/
theorem execute_recorded_run {guard : State × List Label → Label → Prop}
    [∀ before label, Decidable (guard before label)] {initial : State → Prop}
    {next : State → Choice → Option (Label × State)} (choices : List Choice) {start : State}
    {labels : List Label} {final : State × List Label}
    (executed : execute (guarded guard (recordedNext next)) (start, []) choices =
      some (labels, final)) :
    ((ofNext initial next).recorded.restrict guard).Run (start, []) labels final := by
  have run : ((ofNext (fun _ => True) (recordedNext next)).restrict guard).Run _ _ _ :=
    execute_restrict_run choices executed
  apply run.mono
  rintro before label after ⟨meets, choice, moved⟩
  obtain ⟨taken, chosen, same⟩ := Option.map_eq_some_iff.mp moved
  cases same
  exact ⟨meets, ⟨choice, chosen⟩, rfl⟩

end TransitionSystem

end WsDeque
