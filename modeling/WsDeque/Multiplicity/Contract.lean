import WsDeque.Multiplicity.Coverage
import WsDeque.Multiplicity.Order

/-
What strong parties are promised, and what remains of it with weak ones.
-/

namespace WsDeque.Multiplicity

variable {Party Item : Type*}

def AllDelivered (items : List Item) (delivered : List (Delivery Party Item)) : Prop :=
  ∀ position, position < items.length → ∃ given ∈ delivered, given.position = position

/-- How often a position was handed out. -/
def timesDelivered (delivered : List (Delivery Party Item)) (position : Nat) : Nat :=
  delivered.countP fun given => decide (given.position = position)

/-- No party is handed a position again, or one below. -/
def PerParty (delivered : List (Delivery Party Item)) : Prop :=
  delivered.Pairwise fun earlier later =>
    earlier.party = later.party → earlier.position < later.position

structure Contract (head : Nat) (items : List Item) (delivered : List (Delivery Party Item))
    (returning : Nat → Prop) (parties : Nat) : Prop where
  published : head ≤ items.length
  genuine : ∀ given ∈ delivered, items[given.position]? = some given.item
  increasing : PerParty delivered
  multiplicity : ∀ position, timesDelivered delivered position ≤ parties
  covered : ∀ position, position < head →
    (∃ given ∈ delivered, given.position = position) ∨ returning position

variable {kind : Party → Kind} {monotone : Bool} {state : State Party Item}

theorem Contract.weaken {head parties : Nat} {items : List Item}
    {delivered : List (Delivery Party Item)} {returning hands : Nat → Prop}
    (contract : Contract head items delivered returning parties)
    (weaker : ∀ position, returning position → hands position) :
    Contract head items delivered hands parties :=
  { contract with
    covered := fun position below =>
      (contract.covered position below).imp id (weaker position) }

/-- Without plain stores, or as long as they do not lower the index. -/
theorem perParty_of_reachable [DecidableEq Party] (reachable : Reachable kind true state) :
    PerParty state.delivered := by
  have increasing : Increasing kind (fun _party => True) state :=
    increasing_of_reachable (Or.inl rfl) reachable
  exact increasing.ordered.imp fun increases same => increases same trivial

theorem timesDelivered_le [DecidableEq Party] [Fintype Party]
    (reachable : Reachable kind true state) (position : Nat) :
    timesDelivered state.delivered position ≤ Fintype.card Party := by
  have increasing : Increasing kind (fun _party => True) state :=
    increasing_of_reachable (Or.inl rfl) reachable
  have receivers := increasing.receivers_le position
  unfold State.receivers at receivers
  rwa [List.length_map, ← List.countP_eq_length_filter] at receivers

/-- A weak party is handed increasing positions however the index moves. -/
theorem weak_increasing [DecidableEq Party] (reachable : Reachable kind monotone state) :
    state.delivered.Pairwise fun earlier later =>
      earlier.party = later.party → kind earlier.party = .weak →
        earlier.position < later.position := by
  have increasing : Increasing kind (fun party => kind party = .weak) state :=
    increasing_of_reachable (Or.inr fun _party weak => weak) reachable
  exact increasing.ordered

theorem contract_of_reachable [DecidableEq Party] [Fintype Party]
    (strong : ∀ party, kind party = .strong) (reachable : Reachable kind monotone state) :
    Contract state.head state.items state.delivered
      (fun position => ∃ party, (state.phase party).held true = some position)
      (Fintype.card Party) := by
  have noWeak : ∀ party, kind party ≠ .weak := by
    intro party
    rw [strong party]
    exact nofun
  have steady : Reachable kind true state := reachable.monotone noWeak
  have covering : Covering true state :=
    covering_of_reachable (fun _settled => strong) reachable
  have genuine := genuine_of_reachable reachable
  constructor
  · exact covering.head.le_length genuine
  · exact genuine.delivered
  · exact perParty_of_reachable steady
  · exact timesDelivered_le steady
  · exact covering.head

/-- With everybody away, what was gone past was handed out. -/
theorem CoveredBelow.delivered {settled : Bool} {bound : Nat}
    (below : CoveredBelow settled state bound) (away : ∀ party, state.phase party = .away)
    (reached : state.items.length ≤ bound) : AllDelivered state.items state.delivered := by
  intro position within
  rcases below position (Nat.lt_of_lt_of_le within reached) with given | ⟨party, held⟩
  · exact given
  · rw [away party] at held
    cases held

end WsDeque.Multiplicity
