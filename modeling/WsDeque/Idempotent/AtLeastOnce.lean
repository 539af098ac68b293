import WsDeque.Idempotent.Calls
import WsDeque.Multiplicity.Repeats

/-
Tasks that are put are delivered, and how often: with `steal` once for each
consumer, with `steal_weak` only as long as no plain store lowers the head.
-/

namespace WsDeque.Idempotent

open Multiplicity (AllDelivered Contract timesDelivered timesDeliveredTo)

variable {ι α : Type*}

/-! ### Tasks in the hands of a consumer -/

/-- The owner has read the task and will return it. -/
def OwnerPc.held : OwnerPc α → Option Nat
  | .takeMaxHead head _ | .returned (.took head (.got _)) => some head
  | _ => none

def ThiefPc.held : ThiefPc α → Option Nat
  | .maxHead head _ | .reloadHead head _ | .storeHead head _ | .returned head (.got _) => some head
  | _ => none

def State.InHands (state : State ι α) (position : Nat) : Prop :=
  state.owner.held = some position ∨ ∃ thief, (state.thief thief).held = some position

/-- A consumer is between its `fetch_max` and its return. -/
def State.Returning (state : State ι α) (position : Nat) : Prop :=
  (∃ task, state.owner = .returned (.took position (.got task))) ∨
    ∃ thief task, state.thief thief = .returned position (.got task)

/-- The local `head` of a call that has not ended with `Empty`. -/
def OwnerPc.working : OwnerPc α → Option Nat
  | .takeLoadTasks head | .takeLoadCell head _ | .takeMaxHead head _
  | .returned (.took head (.got _)) => some head
  | _ => none

def ThiefPc.working : ThiefPc α → Option Nat
  | .loadTasks head | .loadCell head _ | .claim head _ _ | .maxHead head _ | .nudgeHead head
  | .reloadHead head _ | .storeHead head _ | .returned head (.got _) => some head
  | _ => none

/-- What some head, private maximum or local head has reached. -/
def State.Passed (state : State ι α) (position : Nat) : Prop :=
  position < state.inner.head ∨ (∃ thief, position < state.r thief) ∨
    (∃ head ∈ state.owner.working, position < head) ∨
      ∃ thief, ∃ head ∈ (state.thief thief).working, position < head

theorem OwnerPc.held_phase (pc : OwnerPc α) : pc.phase.held false = pc.held := by
  rcases pc with _ | _ | _ | _ | _ | _ | _ | _ | _ | _ | _ | _ | _ | result | _
  case returned => rcases result with _ | ⟨_, _ | _⟩ <;> rfl
  all_goals rfl

theorem ThiefPc.held_phase (pc : ThiefPc α) : pc.phase.held false = pc.held := by
  rcases pc with _ | _ | _ | _ | _ | _ | _ | _ | _ | ⟨_, _ | _⟩ | _ <;> rfl

theorem OwnerPc.working_le {pc : OwnerPc α} {head : Nat} (working : head ∈ pc.working) :
    head ≤ pc.phase.bound := by
  rcases pc with _ | _ | _ | _ | _ | _ | _ | _ | _ | _ | _ | _ | _ | result | _
  case returned => rcases result with _ | ⟨_, _ | _⟩ <;> cases working; exact Nat.le_refl _
  all_goals cases working
  all_goals exact Nat.le_refl _

theorem ThiefPc.working_le {pc : ThiefPc α} {head : Nat} (working : head ∈ pc.working) :
    head ≤ pc.phase.bound := by
  rcases pc with _ | _ | _ | _ | _ | _ | _ | _ | _ | ⟨_, _ | _⟩ | _ <;> cases working <;>
    exact Nat.le_refl _

variable {state : State ι α} {tasks : List α}
  {delivered : List (Multiplicity.Delivery (Option ι) α)}

theorem State.inHands_of_view {position : Nat}
    (held : ∃ party, ((state.view tasks delivered).phase party).held false = some position) :
    state.InHands position := by
  obtain ⟨party, held⟩ := held
  cases party with
  | none => exact .inl ((OwnerPc.held_phase state.owner).symm.trans held)
  | some thief => exact .inr ⟨thief, (ThiefPc.held_phase (state.thief thief)).symm.trans held⟩

theorem State.returning_of_view {position : Nat}
    (held : ∃ party, ((state.view tasks delivered).phase party).held true = some position) :
    state.Returning position := by
  obtain ⟨party, held⟩ := held
  cases party with
  | none =>
      change state.owner.phase.held true = some position at held
      cases atPc : state.owner with
      | returned result =>
          rw [atPc] at held
          rcases result with _ | ⟨head, _ | task⟩ <;> cases held
          exact .inl ⟨task, atPc⟩
      | _ =>
          rw [atPc] at held
          cases held
  | some thief =>
      change (state.thief thief).phase.held true = some position at held
      cases atPc : state.thief thief with
      | returned head result =>
          rw [atPc] at held
          cases result <;> cases held
          exact .inr ⟨thief, _, atPc⟩
      | _ =>
          rw [atPc] at held
          cases held

theorem State.Quiescent.away (quiet : state.Quiescent) (party : Option ι) :
    (state.view tasks delivered).phase party = .away := by
  cases party with
  | none => exact congrArg OwnerPc.phase quiet.1
  | some thief => exact congrArg ThiefPc.phase (quiet.2 thief)

variable {shape : Shape} {method : ι → Method} {labels : List (Label ι α)} [DecidableEq ι]

omit [DecidableEq ι] in
theorem ownerStep_held {inner after : Inner α} {tail tail' position : Nat} {spurious : Bool}
    {pc pc' : OwnerPc α} {access : Access α} (held : pc.held = some position)
    (moved : ownerStep inner tail spurious pc = some (access, after, tail', pc')) :
    pc'.held = some position := by
  cases pc with
  | takeMaxHead head task =>
      cases moved
      exact held
  | returned result => cases moved
  | _ => cases held

omit [DecidableEq ι] in
theorem thiefStep_held {how : Method} {inner after : Inner α} {r r' position : Nat}
    {pc pc' : ThiefPc α} {access : Access α} (held : pc.held = some position)
    (moved : thiefStep how inner r pc = some (access, after, r', pc')) :
    pc'.held = some position := by
  cases pc with
  | maxHead head task =>
      cases moved
      exact held
  | reloadHead head task =>
      simp only [thiefStep] at moved
      split at moved <;> cases moved <;> exact held
  | storeHead head task =>
      cases moved
      exact held
  | returned head result => cases moved
  | _ => cases held

theorem State.InHands.setThief {inner : Inner α} {thief : ι} {r position : Nat}
    {pc : ThiefPc α} (inHands : state.InHands position)
    (kept : (state.thief thief).held = some position → pc.held = some position) :
    ({ state with inner := inner }.setThief thief r pc).InHands position := by
  rcases inHands with owner | ⟨other, held⟩
  · exact .inl owner
  · apply Or.inr
    use other
    by_cases same : other = thief
    · subst same
      simp only [State.setThief, Function.update_self]
      exact kept held
    · simp only [State.setThief, Function.update_of_ne same]
      exact held

/-- A task stays in the hands of its consumer until that returns it. -/
theorem inHands_step {position : Nat} (inHands : state.InHands position) {label : Label ι α}
    {after : State ι α} (moved : (system ι α shape method).step state label after) :
    after.InHands position ∨ ∃ given ∈ delivery label, given.position = position := by
  obtain ⟨_choice, taken⟩ := moved
  cases next_moves taken with
  | owner spurious access inner tail pc stepped =>
      rcases inHands with owner | thief
      · exact .inl (.inl (ownerStep_held owner stepped))
      · exact .inl (.inr thief)
  | thief thief access inner r pc stepped =>
      exact .inl (inHands.setThief fun held => thiefStep_held held stepped)
  | ownerReturn result atPc =>
      rcases inHands with owner | thief
      · rw [atPc] at owner
        rcases result with _ | ⟨head, _ | task⟩ <;> cases owner
        exact .inr ⟨_, rfl, rfl⟩
      · exact .inl (.inr thief)
  | stealReturn thief head result atPc =>
      cases result with
      | empty =>
          apply Or.inl
          apply inHands.setThief
          rw [atPc]
          intro impossible
          cases impossible
      | got task =>
          by_cases same : head = position
          · exact .inr ⟨_, rfl, same⟩
          · apply Or.inl
            apply inHands.setThief
            rw [atPc]
            exact fun held => absurd (Option.some.inj held) same
  | stealCall thief atPc =>
      apply Or.inl
      apply inHands.setThief
      rw [atPc]
      intro impossible
      cases impossible
  | putCall task atPc | takeCall atPc =>
      rcases inHands with owner | thief
      · rw [atPc] at owner
        cases owner
      · exact .inl (.inr thief)

/-! ### Finding nothing -/

omit [DecidableEq ι] in
/-- Nothing below the position that a steal goes for is lost. -/
theorem covered_known {settled : Bool} {thief : ι}
    (covering : Multiplicity.Covering settled (state.view tasks delivered)) :
    Multiplicity.CoveredBelow settled (state.view tasks delivered)
      (state.known method thief) := by
  unfold State.known
  split
  · rw [refresh_eq]
    exact covering.head.max (covering.registers (some thief))
  · exact covering.head
  · exact covering.head

theorem allDelivered_of_findsEmpty (follows : Follows shape method labels state)
    (quiet : state.Quiescent)
    (unclaimed : ∀ thief, method thief = .stealExclusive → shape.isBounded = true ∧
      (state.inner.arrays 0).claimed state.inner.head = false)
    (finds : state.FindsEmpty shape method) : AllDelivered (puts labels) (deliveries labels) := by
  have covering : Multiplicity.Covering false (state.view (puts labels) (deliveries labels)) :=
    Multiplicity.covering_of_reachable nofun follows.reachable
  rcases finds with ⟨fuel, after, returned⟩ | ⟨thief, fuel, after, returned⟩
  · have called := callTake_alone method fuel follows.stored.stocked quiet.1
    rw [callTake_mono (Nat.le_add_right fuel 5) returned] at called
    have nothing := found_empty (congrArg Prod.fst (Option.some.inj called)).symm
    exact covering.head.delivered quiet.away nothing
  · obtain ⟨other, called, _past⟩ := callSteal_alone fuel follows.stored quiet.1 (quiet.2 thief)
      (unclaimed thief)
    rw [callSteal_mono (Nat.le_add_right fuel 6) returned] at called
    have nothing := found_empty (congrArg Prod.fst (Option.some.inj called)).symm
    exact (covered_known covering).delivered quiet.away nothing

/-! ### Only `take` and `steal` -/

theorem head_le (follows : Follows shape method labels state)
    (strong : ∀ thief, method thief ≠ .stealWeak) {label : Label ι α} {after : State ι α}
    (moved : (system ι α shape method).step state label after) :
    state.inner.head ≤ after.inner.head := by
  obtain ⟨choice, taken⟩ := moved
  have noWeak : ∀ party, kind method party ≠ .weak := by
    intro party isWeak
    cases party with
    | none => cases isWeak
    | some thief =>
        change (method thief).kind = .weak at isWeak
        cases which : method thief with
        | stealWeak => exact strong thief which
        | _ =>
            rw [which] at isWeak
            cases isWeak
  rcases follows.stored.next_moves (deliveries labels) taken with same | step
  · exact Nat.le_of_eq (congrArg Multiplicity.State.head same).symm
  · exact step.head_le noWeak

/-- Every task is delivered at least once and at most once to each consumer. -/
theorem steal_multiplicity [Fintype ι]
    (reached : (system ι α shape fun _ => .steal).Reaches labels state) :
    (∀ label after, (system ι α shape fun _ => .steal).step state label after →
      state.inner.head ≤ after.inner.head) ∧
    Contract state.inner.head (puts labels) (deliveries labels) state.Returning
      (Fintype.card ι + 1) ∧
    (state.Quiescent → state.FindsEmpty shape (fun _ => .steal) →
      AllDelivered (puts labels) (deliveries labels)) := by
  have follows := follows_of_reaches reached
  have strong : ∀ party, kind (fun _ : ι => Method.steal) party = .strong := by
    intro party
    cases party <;> rfl
  have contract := Multiplicity.contract_of_reachable strong follows.reachable
  rw [Fintype.card_option] at contract
  refine ⟨?_, contract.weaken fun position => State.returning_of_view, ?_⟩
  · exact fun label after moved => head_le follows (fun _thief => nofun) moved
  · exact fun quiet finds => allDelivered_of_findsEmpty follows quiet (fun _thief => nofun) finds

def putOne (ι : Type) (task : Nat) : List (Choice ι Nat) :=
  [.putCall task, .owner false, .owner false, .owner false, .ownerReturn]

/-- The thief has loaded the first array when the owner replaces it, and both
take the first task. -/
def stealFromOldArray : List (Choice Unit Nat) :=
  (List.range 15).flatMap (putOne Unit) ++ [.stealCall (), .thief (), .thief (), .putCall 15] ++
    List.replicate 38 (.owner false) ++
    [.ownerReturn, .takeCall, .owner false, .owner false, .owner false, .owner false,
      .ownerReturn, .thief (), .thief (), .stealReturn ()]

theorem steal_multiplicity_oldArray :
    ∃ labels state, (system Unit Nat .growable fun _ => .steal).Reaches labels state ∧
      state.inner.tasks = 1 ∧ timesDelivered (deliveries labels) 0 = 2 ∧
      Contract state.inner.head (puts labels) (deliveries labels) state.Returning
        (Fintype.card Unit + 1) := by
  obtain ⟨labels, state, run, active, twice⟩ :=
    TransitionSystem.execute_finds (next .growable fun _ : Unit => .steal)
      (make Unit Nat .growable) stealFromOldArray
      (fun labels state => state.inner.tasks = 1 ∧ timesDelivered (deliveries labels) 0 = 2)
      (by decide +kernel)
  exact ⟨labels, state, ⟨_, rfl, run⟩, active, twice, (steal_multiplicity ⟨_, rfl, run⟩).2.1⟩

/-! ### Weak thieves -/

/-- A weak handle is never delivered a position twice, and any other consumer
only after a plain store has lowered the head: at most once more for each. -/
theorem weak_multiplicity [Fintype ι]
    (reached : (system ι α shape method).Reaches labels state) :
    ((deliveries labels).Pairwise fun earlier later => earlier.party = later.party →
      kind method earlier.party = .weak → earlier.position < later.position) ∧
    (∀ consumer position,
      timesDeliveredTo (deliveries labels) consumer position ≤ lowerings labels + 1) ∧
    (∀ position, timesDelivered (deliveries labels) position ≤
      (Fintype.card ι + 1) * (lowerings labels + 1)) := by
  have follows := follows_of_reaches reached
  refine ⟨Multiplicity.weak_increasing follows.reachable,
    Multiplicity.timesDeliveredTo_le follows.counted, ?_⟩
  intro position
  have times := Multiplicity.timesDelivered_le_mul follows.counted position
  rwa [Fintype.card_option] at times

/-- One thief is weak and stands before its plain store while the other steals on. -/
def oneWeak : Bool → Method
  | false => .stealWeak
  | true => .steal

def stealOne : List (Choice Bool Nat) :=
  [.stealCall true, .thief true, .thief true, .thief true, .thief true, .stealReturn true]

/-- The weak thief goes for a task, the other one takes as many as given, and
then the plain store lowers the head. -/
def storeLate (taken : Nat) : List (Choice Bool Nat) :=
  [.stealCall false, .thief false, .thief false, .thief false, .thief false] ++
    (List.replicate taken stealOne).flatten ++ [.thief false, .stealReturn false]

def stealAgain : List (Choice Bool Nat) :=
  (List.range 4).flatMap (putOne Bool) ++ storeLate 4 ++ storeLate 3 ++ storeLate 2 ++ stealOne

/-- The other thief is delivered the last of four tasks four times, more often than there
are consumers. -/
theorem not_steal_at_most_once :
    ∃ labels state, (system Bool Nat .growable oneWeak).Reaches labels state ∧
      oneWeak true = .steal ∧ timesDeliveredTo (deliveries labels) (some true) 3 = 4 ∧
      Fintype.card Bool + 1 < timesDelivered (deliveries labels) 3 := by
  obtain ⟨labels, state, run, often, total⟩ :=
    TransitionSystem.execute_finds (next .growable oneWeak) (make Bool Nat .growable)
      stealAgain
      (fun labels _state => timesDeliveredTo (deliveries labels) (some true) 3 = 4 ∧
        Fintype.card Bool + 1 < timesDelivered (deliveries labels) 3)
      (by decide +kernel)
  exact ⟨labels, state, ⟨_, rfl, run⟩, rfl, often, total⟩

theorem weak_multiplicity_lowered :
    ∃ labels state, (system Bool Nat .growable oneWeak).Reaches labels state ∧
      lowerings labels = 3 ∧ timesDelivered (deliveries labels) 3 ≤ 3 * (lowerings labels + 1) := by
  obtain ⟨labels, state, run, lowered⟩ :=
    TransitionSystem.execute_finds (next .growable oneWeak) (make Bool Nat .growable)
      stealAgain (fun labels _state => lowerings labels = 3) (by decide +kernel)
  exact ⟨labels, state, ⟨_, rfl, run⟩, lowered, (weak_multiplicity ⟨_, rfl, run⟩).2.2 3⟩

/-- However the plain stores move the head, nothing that any head has reached is
lost; it is delivered or in the hands of a consumer until that returns it. -/
theorem weak_loses_nothing (free : ∀ thief, method thief ≠ .stealExclusive)
    (reached : (system ι α shape method).Reaches labels state) :
    (∀ position, state.Passed position →
      (∃ given ∈ deliveries labels, given.position = position) ∨ state.InHands position) ∧
    (∀ position label after, state.InHands position →
      (system ι α shape method).step state label after →
        after.InHands position ∨ ∃ given ∈ delivery label, given.position = position) ∧
    ((deliveries labels).Pairwise fun earlier later => earlier.party = later.party →
      kind method earlier.party = .weak → earlier.position < later.position) ∧
    (state.Quiescent → state.FindsEmpty shape method →
      AllDelivered (puts labels) (deliveries labels)) := by
  have follows := follows_of_reaches reached
  have covering : Multiplicity.Covering false (state.view (puts labels) (deliveries labels)) :=
    Multiplicity.covering_of_reachable nofun follows.reachable
  have known : ∀ bound, Multiplicity.CoveredBelow false
      (state.view (puts labels) (deliveries labels)) bound → ∀ position, position < bound →
        (∃ given ∈ deliveries labels, given.position = position) ∨ state.InHands position :=
    fun bound below position within => (below position within).imp id State.inHands_of_view
  refine ⟨?_, fun _position _label _after inHands moved => inHands_step inHands moved,
    Multiplicity.weak_increasing follows.reachable, ?_⟩
  · rintro position (below | ⟨thief, below⟩ | ⟨head, working, below⟩ |
      ⟨thief, head, working, below⟩)
    · exact known _ covering.head position below
    · exact known _ (covering.registers (some thief)) position below
    · exact known _ (covering.phases none) position
        (Nat.lt_of_lt_of_le below (OwnerPc.working_le working))
    · exact known _ (covering.phases (some thief)) position
        (Nat.lt_of_lt_of_le below (ThiefPc.working_le working))
  · intro quiet finds
    apply allDelivered_of_findsEmpty follows quiet _ finds
    exact fun thief exclusive => absurd exclusive (free thief)

/-- After three late stores and with everything taken the owner finds nothing. -/
theorem weak_loses_nothing_lowered :
    ∃ labels state, (system Bool Nat .growable oneWeak).Reaches labels state ∧
      lowerings labels = 3 ∧ puts labels = [0, 1, 2, 3] ∧
      AllDelivered (puts labels) (deliveries labels) := by
  obtain ⟨labels, state, run, lowered, tasks, quiet, nothing⟩ :=
    TransitionSystem.execute_finds (next .growable oneWeak) (make Bool Nat .growable)
      stealAgain
      (fun labels state => lowerings labels = 3 ∧ puts labels = [0, 1, 2, 3] ∧
        state.Quiescent ∧ (callTake .growable oneWeak 8 state).map Prod.fst = some .empty)
      (by decide +kernel)
  exact ⟨labels, state, ⟨_, rfl, run⟩, lowered, tasks,
    (weak_loses_nothing (by decide) ⟨_, rfl, run⟩).2.2.2 quiet (findsEmpty_of_callTake nothing)⟩

end WsDeque.Idempotent
