import Mathlib.Data.Fintype.Card
import Mathlib.Data.Fintype.Option
import WsDeque.Multiplicity.Protocol

/-
A party is handed positions in increasing order: a weak one always, by its own
maximum, any other one as long as no step lowers the index.
-/

namespace WsDeque.Multiplicity

variable {Party Item : Type*}

/-- What a party's next read is bounded by. -/
def State.reach (state : State Party Item) (kind : Party → Kind) (party : Party) : Nat :=
  if kind party = .weak then state.register party else state.head

/-- What the party was handed so far is below this. -/
def Phase.front (reach : Nat) : Phase Item → Nat
  | .away => reach
  | .saw index | .holding index _ | .storing index _ | .refused index | .returning index _ => index

def Phase.ceiling : Phase Item → Nat
  | .away => 0
  | .saw index | .holding index _ | .refused index => index
  | .storing index _ | .returning index _ => index + 1

theorem Phase.front_mono {less more : Nat} (grows : less ≤ more) (phase : Phase Item) :
    phase.front less ≤ phase.front more := by
  cases phase with
  | away => exact grows
  | _ => exact Nat.le_refl _

structure Increasing (kind : Party → Kind) (steady : Party → Prop) (state : State Party Item) :
    Prop where
  ordered : state.delivered.Pairwise fun earlier later =>
    earlier.party = later.party → steady earlier.party → earlier.position < later.position
  behind : ∀ delivery ∈ state.delivered, steady delivery.party →
    delivery.position < (state.phase delivery.party).front (state.reach kind delivery.party)
  within : ∀ party, steady party → (state.phase party).ceiling ≤ state.reach kind party

variable {kind : Party → Kind} {steady : Party → Prop} {before after : State Party Item}
  {party : Party} {phase : Phase Item} [DecidableEq Party]

/-- A step in which one party moves and nothing is handed out. -/
theorem Increasing.move (increasing : Increasing kind steady before)
    (base : State Party Item) (delivered : base.delivered = before.delivered)
    (phases : base.phase = before.phase)
    (reach : ∀ other, steady other → before.reach kind other ≤ base.reach kind other)
    (front : steady party →
      (before.phase party).front (before.reach kind party) ≤ phase.front (base.reach kind party))
    (ceiling : steady party → phase.ceiling ≤ base.reach kind party) :
    Increasing kind steady (base.setPhase party phase) := by
  constructor
  · change base.delivered.Pairwise _
    rw [delivered]
    exact increasing.ordered
  · intro delivery member isSteady
    change delivery ∈ base.delivered at member
    rw [delivered] at member
    have below := increasing.behind delivery member isSteady
    by_cases same : delivery.party = party
    · rw [same] at below isSteady ⊢
      rw [State.setPhase_self]
      exact Nat.lt_of_lt_of_le below (front isSteady)
    · rw [State.setPhase_other _ _ same, phases]
      exact Nat.lt_of_lt_of_le below (Phase.front_mono (reach _ isSteady) _)
  · intro other isSteady
    by_cases same : other = party
    · subst same
      rw [State.setPhase_self]
      exact ceiling isSteady
    · rw [State.setPhase_other _ _ same, phases]
      exact Nat.le_trans (increasing.within other isSteady) (reach _ isSteady)

/-- A position is handed out above all earlier ones of the party. -/
theorem Increasing.deliver (increasing : Increasing kind steady before) {index : Nat} {item : Item}
    (holds : before.phase party = .returning index item) :
    Increasing kind steady
      ((before.handOut { party := party, position := index, item := item }).setPhase party
        .away) := by
  have front : ∀ delivery ∈ before.delivered, delivery.party = party → steady party →
      delivery.position < index := by
    rintro delivery member rfl isSteady
    have below := increasing.behind delivery member isSteady
    rwa [holds] at below
  have ceiling : steady party → index < before.reach kind party := by
    intro isSteady
    have within := increasing.within party isSteady
    rwa [holds] at within
  constructor
  · apply List.pairwise_append.mpr
    refine ⟨increasing.ordered, List.pairwise_singleton _ _, ?_⟩
    intro earlier earlierMember last lastMember same isSteady
    rw [List.mem_singleton.mp lastMember] at same ⊢
    rw [same] at isSteady
    exact front earlier earlierMember same isSteady
  · intro delivery member isSteady
    by_cases same : delivery.party = party
    · rw [same] at isSteady ⊢
      rw [State.setPhase_self]
      have reached : index < before.reach kind party := ceiling isSteady
      change delivery.position < before.reach kind party
      rcases List.mem_append.mp member with old | new
      · exact Nat.lt_trans (front delivery old same isSteady) reached
      · rw [List.mem_singleton.mp new]
        exact reached
    · rw [State.setPhase_other _ _ same]
      rcases List.mem_append.mp member with old | new
      · exact increasing.behind delivery old isSteady
      · rw [List.mem_singleton.mp new] at same
        exact absurd rfl same
  · intro other isSteady
    by_cases same : other = party
    · subst same
      rw [State.setPhase_self]
      exact Nat.zero_le _
    · rw [State.setPhase_other _ _ same]
      exact increasing.within other isSteady

/-- A private maximum never shrinks. -/
theorem Step.register_le (step : Step kind before after) (party : Party) :
    before.register party ≤ after.register party := by
  have updated : ∀ (other : Party) (value : Nat), before.register other ≤ value →
      before.register party ≤ Function.update before.register other value party := by
    intro other value grows
    by_cases same : party = other
    · subst same
      rw [Function.update_self]
      exact grows
    · rw [Function.update_of_ne same]
  cases step with
  | seeRanged other reads away => exact updated other _ (Nat.le_max_right _ _)
  | remember other index item stores holds =>
      exact updated other _
        (Nat.le_trans (Nat.le_max_right _ _) (Nat.le_max_left _ (index + 1)))
  | _ => exact Nat.le_refl _

theorem Step.reach_le (step : Step kind before after)
    (kept : ∀ party, steady party → kind party = .weak ∨ before.head ≤ after.head)
    (party : Party) (isSteady : steady party) :
    before.reach kind party ≤ after.reach kind party := by
  unfold State.reach
  by_cases weak : kind party = .weak
  · rw [if_pos weak, if_pos weak]
    exact step.register_le party
  · rw [if_neg weak, if_neg weak]
    exact (kept party isSteady).resolve_left weak

theorem Increasing.step (increasing : Increasing kind steady before)
    (step : Step kind before after)
    (kept : ∀ party, steady party → kind party = .weak ∨ before.head ≤ after.head) :
    Increasing kind steady after := by
  have reach := step.reach_le kept
  cases step with
  | publish item => exact ⟨increasing.ordered, increasing.behind, increasing.within⟩
  | see party reads away =>
      apply increasing.move before rfl rfl reach
      · intro _isSteady
        rw [away]
        simp only [Phase.front, State.reach, if_neg reads]
        exact Nat.le_refl _
      · intro _isSteady
        simp only [Phase.ceiling, State.reach, if_neg reads]
        exact Nat.le_refl _
  | seeRanged party reads away =>
      apply increasing.move (before.setRegister party _) rfl rfl reach
      · intro _isSteady
        rw [away]
        simp only [Phase.front, State.reach, if_pos reads]
        exact Nat.le_max_right _ _
      · intro _isSteady
        simp only [Phase.ceiling, State.reach, if_pos reads, State.setRegister,
          Function.update_self]
        exact Nat.le_refl _
  | leave party index saw =>
      apply increasing.move before rfl rfl reach
      · intro isSteady
        have within := increasing.within party isSteady
        rw [saw] at within ⊢
        exact within
      · exact fun _isSteady => Nat.zero_le _
  | hold party index item free saw there =>
      apply increasing.move before rfl rfl reach
      · intro _isSteady
        rw [saw]
        exact Nat.le_refl _
      · intro isSteady
        have within := increasing.within party isSteady
        rw [saw] at within
        exact within
  | claim party index item claims saw there unclaimed =>
      apply increasing.move
        { before with claimed := Function.update before.claimed index true } rfl rfl reach
      · intro _isSteady
        rw [saw]
        exact Nat.le_refl _
      · intro isSteady
        have within := increasing.within party isSteady
        rw [saw] at within
        exact within
  | refuse party index claims saw taken =>
      apply increasing.move before rfl rfl reach
      · intro _isSteady
        rw [saw]
        exact Nat.le_refl _
      · intro isSteady
        have within := increasing.within party isSteady
        rw [saw] at within
        exact within
  | nudge party index claims refused =>
      apply increasing.move { before with head := max before.head (index + 1) } rfl rfl reach
      · intro isSteady
        have within := increasing.within party isSteady
        rw [refused] at within ⊢
        exact Nat.le_trans within (reach party isSteady)
      · exact fun _isSteady => Nat.zero_le _
  | raise party index item raises holds =>
      apply increasing.move { before with head := max before.head (index + 1) } rfl rfl reach
      · intro _isSteady
        rw [holds]
        exact Nat.le_refl _
      · intro _isSteady
        simp only [Phase.ceiling, State.reach, if_neg raises]
        exact Nat.le_max_right _ _
  | remember party index item stores holds =>
      apply increasing.move (before.setRegister party _) rfl rfl reach
      · intro _isSteady
        rw [holds]
        split <;> exact Nat.le_refl _
      · intro _isSteady
        simp only [State.reach, if_pos stores, State.setRegister, Function.update_self]
        split <;> exact Nat.le_max_right _ _
  | store party index item stores holds =>
      apply increasing.move { before with head := index + 1 } rfl rfl reach
      · intro _isSteady
        rw [holds]
        exact Nat.le_refl _
      · intro isSteady
        have within := increasing.within party isSteady
        rw [holds] at within
        exact Nat.le_trans within (reach party isSteady)
  | deliver party index item holds => exact increasing.deliver holds

theorem increasing_of_reachable {monotone : Bool} {state : State Party Item}
    (kept : monotone = true ∨ ∀ party, steady party → kind party = .weak)
    (reachable : Reachable kind monotone state) : Increasing kind steady state := by
  apply reachable.induction
  · constructor
    · exact .nil
    · exact fun _delivery member => nomatch member
    · exact fun _party _isSteady => Nat.zero_le _
  · intro before after step keeps increasing
    apply increasing.step step
    intro party isSteady
    rcases kept with yes | weak
    · exact .inr (keeps yes)
    · exact .inl (weak party isSteady)

/-! ### How often a position is handed out -/

/-- The parties that were handed a position, in order. -/
def State.receivers (state : State Party Item) (position : Nat) : List Party :=
  (state.delivered.filter fun delivery => decide (delivery.position = position)).map
    Delivery.party

omit [DecidableEq Party] in
theorem Increasing.receivers_nodup (increasing : Increasing kind (fun _party => True) before)
    (position : Nat) : (before.receivers position).Nodup := by
  unfold State.receivers
  rw [List.Nodup, List.pairwise_map]
  apply (increasing.ordered.filter _).imp_of_mem
  intro earlier later earlierMember laterMember increases same
  have earlierHere := of_decide_eq_true (List.mem_filter.mp earlierMember).2
  have laterHere := of_decide_eq_true (List.mem_filter.mp laterMember).2
  have before := increases same trivial
  omega

omit [DecidableEq Party] in
/-- At most once for each party. -/
theorem Increasing.receivers_le [Fintype Party]
    (increasing : Increasing kind (fun _party => True) before) (position : Nat) :
    (before.receivers position).length ≤ Fintype.card Party :=
  (increasing.receivers_nodup position).length_le_card

end WsDeque.Multiplicity
