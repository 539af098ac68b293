import WsDeque.Idempotent.AtLeastOnce
import WsDeque.Multiplicity.Claims

/-
A bounded queue whose thieves all call `steal_exclusive`: every accepted task is
delivered once or twice.
-/

namespace WsDeque.Idempotent

open Multiplicity (timesDelivered)

variable {ι α : Type*} [DecidableEq ι] {capacity : Nat} {state : State ι α}
  {labels : List (Label ι α)}

omit [DecidableEq ι] in
theorem exclusive_noWeak (party : Option ι) :
    kind (fun _ : ι => Method.stealExclusive) party ≠ .weak := by
  cases party <;> exact nofun

/-- With everybody idle no flag is set at the head. -/
theorem unclaimed_head
    (follows : Follows (.bounded capacity) (fun _ => .stealExclusive) labels state)
    (quiet : state.Quiescent) : (state.inner.arrays 0).claimed state.inner.head = false := by
  have passed : Multiplicity.ClaimsPassed (state.view (puts labels) (deliveries labels)) :=
    Multiplicity.claimsPassed_of_reachable exclusive_noWeak follows.reachable
  cases claimed : (state.inner.arrays 0).claimed state.inner.head with
  | false => rfl
  | true =>
      rcases passed state.inner.head claimed with behind | ⟨party, item, holding⟩
      · exact absurd behind (Nat.lt_irrefl _)
      · rw [quiet.away party] at holding
        cases holding

/-- What the flags and the head leave: a task goes to one thief at most and to
the owner at most once, and after a drain to somebody. -/
theorem exclusive_multiplicity
    (reached : (system ι α (.bounded capacity) fun _ => .stealExclusive).Reaches labels state) :
    ((deliveries labels).Pairwise fun earlier later =>
      earlier.party.isSome = later.party.isSome → earlier.position ≠ later.position) ∧
    (∀ position, position < state.inner.head →
      (∃ given ∈ deliveries labels, given.position = position) ∨ state.InHands position) ∧
    (∀ position label after, state.InHands position →
      (system ι α (.bounded capacity) fun _ => .stealExclusive).step state label after →
        after.InHands position ∨ ∃ given ∈ delivery label, given.position = position) ∧
    (∀ left right position, (state.thief left).held = some position →
      (state.thief right).held = some position → left = right) ∧
    (state.Quiescent →
      (puts labels).length ≤ state.inner.head ∨
        state.FindsEmpty (.bounded capacity) (fun _ => .stealExclusive) →
      ∀ position, position < (puts labels).length →
        1 ≤ timesDelivered (deliveries labels) position ∧
          timesDelivered (deliveries labels) position ≤ 2) := by
  have follows := follows_of_reaches reached
  have steady := follows.reachable.monotone exclusive_noWeak
  have claims : Multiplicity.Claims (kind fun _ : ι => .stealExclusive)
      (state.view (puts labels) (deliveries labels)) :=
    Multiplicity.claims_of_reachable follows.reachable
  have covering : Multiplicity.Covering false (state.view (puts labels) (deliveries labels)) :=
    Multiplicity.covering_of_reachable nofun follows.reachable
  refine ⟨?_, ?_, fun _position _label _after inHands moved => inHands_step inHands moved,
    ?_, ?_⟩
  · have both := (Multiplicity.perParty_of_reachable steady).and claims.once
    apply both.imp
    rintro ⟨earlier, first, _⟩ ⟨later, second, _⟩ ⟨increases, apart⟩ sameSide
    cases earlier with
    | none =>
        cases later with
        | none => exact Nat.ne_of_lt (increases rfl)
        | some thief => cases sameSide
    | some thief =>
        cases later with
        | none => cases sameSide
        | some other => exact apart rfl rfl
  · exact fun position below => (covering.head position below).imp id State.inHands_of_view
  · intro left right position leftHeld rightHeld
    have keeps : ∀ thief, (state.thief thief).held = some position →
        Multiplicity.Keeps (kind fun _ : ι => .stealExclusive)
          (state.view (puts labels) (deliveries labels)) (some thief) position :=
      fun thief held => ⟨rfl, (ThiefPc.held_phase (state.thief thief)).trans held⟩
    exact Option.some.inj
      (claims.alone _ _ position (keeps left leftHeld) (keeps right rightHeld))
  · intro quiet drained position within
    have all : Multiplicity.AllDelivered (puts labels) (deliveries labels) := by
      rcases drained with reachedAll | finds
      · exact covering.head.delivered quiet.away reachedAll
      · apply allDelivered_of_findsEmpty follows quiet _ finds
        exact fun _thief _exclusive => ⟨rfl, unclaimed_head follows quiet⟩
    constructor
    · obtain ⟨given, member, here⟩ := all position within
      exact List.countP_pos_iff.mpr ⟨given, member, decide_eq_true here⟩
    · have single : ∀ party : Option ι, party ≠ none →
          kind (fun _ : ι => Method.stealExclusive) party = .exclusive := by
        intro party other
        cases party with
        | none => exact absurd rfl other
        | some thief => rfl
      have receivers := claims.receivers_le_two
        (Multiplicity.increasing_of_reachable (Or.inl rfl) steady) single position
      unfold Multiplicity.State.receivers at receivers
      rwa [List.length_map, ← List.countP_eq_length_filter] at receivers

/-- A thief claims the first of two tasks and stops; another one is refused and
moves the head for it; the owner takes the second task, and the first thief
returns. -/
def refusedOnce : List (Choice Bool Nat) :=
  putOne Bool 7 ++ putOne Bool 8 ++
    [.stealCall false, .thief false, .thief false, .thief false, .thief false,
      .stealCall true, .thief true, .thief true, .thief true, .thief true, .thief true, .stealReturn true,
      .takeCall, .owner false, .owner false, .owner false, .owner false, .ownerReturn,
      .thief false, .stealReturn false]

theorem exclusive_multiplicity_refusedOnce :
    ∃ labels state, (system Bool Nat (.bounded 2) fun _ => .stealExclusive).Reaches labels
        state ∧
      .thief true (.claim false) ∈ labels ∧ puts labels = [7, 8] ∧
      1 ≤ timesDelivered (deliveries labels) 0 ∧ timesDelivered (deliveries labels) 0 ≤ 2 := by
  obtain ⟨labels, state, run, refused, tasks, quiet, drained⟩ :=
    TransitionSystem.execute_finds (next (.bounded 2) fun _ => .stealExclusive)
      (make Bool Nat (.bounded 2)) refusedOnce
      (fun labels state => .thief true (.claim false) ∈ labels ∧ puts labels = [7, 8] ∧
        state.Quiescent ∧ (puts labels).length ≤ state.inner.head)
      (by decide +kernel)
  have reached : (system Bool Nat (.bounded 2) fun _ => .stealExclusive).Reaches labels
      state := ⟨_, rfl, run⟩
  have times := (exclusive_multiplicity reached).2.2.2.2 quiet (.inl drained) 0
    (by rw [tasks]; decide)
  exact ⟨labels, state, reached, refused, tasks, times⟩

end WsDeque.Idempotent
