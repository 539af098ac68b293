import Mathlib.Algebra.BigOperators.Group.Finset.Piecewise
import Mathlib.Algebra.Order.BigOperators.Group.Finset
import WsDeque.Multiplicity.Contract

/-
A party that does not keep a maximum of its own is handed a position again only
after the index was lowered: at most once more each time.
-/

namespace WsDeque.Multiplicity

variable {Party Item : Type*} [DecidableEq Party]

def timesDeliveredTo (delivered : List (Delivery Party Item)) (party : Party)
    (position : Nat) : Nat :=
  delivered.countP fun given => decide (given.party = party ∧ given.position = position)

/-- The position that was gone for and is not yet gone past. -/
def Phase.active : Phase Item → Option Nat
  | .saw index | .holding index _ => some index
  | _ => none

/-- One for a position that was gone past and is not yet handed out. -/
def Phase.due (position : Nat) : Phase Item → Nat
  | .returning index _ => if index = position then 1 else 0
  | _ => 0

/-- One for what the index is past. -/
def past (head position : Nat) : Nat :=
  if position < head then 1 else 0

theorem past_mono {less more : Nat} (grows : less ≤ more) (position : Nat) :
    past less position ≤ past more position := by
  unfold past
  split
  · rename_i below
    rw [if_pos (Nat.lt_of_lt_of_le below grows)]
  · exact Nat.zero_le _

theorem past_le_one (head position : Nat) : past head position ≤ 1 := by
  unfold past
  split
  · exact Nat.le_refl 1
  · exact Nat.zero_le 1

structure Repeats (kind : Party → Kind) (drops : Nat) (state : State Party Item) : Prop where
  total : ∀ party, kind party ≠ .weak → ∀ position,
    timesDeliveredTo state.delivered party position + (state.phase party).due position ≤
      drops + past state.head position
  active : ∀ party, kind party ≠ .weak → ∀ position, (state.phase party).active = some position →
    timesDeliveredTo state.delivered party position ≤ drops

variable {kind : Party → Kind} {drops drops' : Nat} {before after : State Party Item}
  {party : Party} {phase : Phase Item}

/-- A step in which one party moves and nothing is handed out. -/
theorem Repeats.move (repeats : Repeats kind drops before) (base : State Party Item)
    (delivered : base.delivered = before.delivered) (phases : base.phase = before.phase)
    (more : drops ≤ drops')
    (grows : ∀ position, drops + past before.head position ≤ drops' + past base.head position)
    (total : kind party ≠ .weak → ∀ position,
      timesDeliveredTo before.delivered party position + phase.due position ≤
        drops' + past base.head position)
    (active : kind party ≠ .weak → ∀ position, phase.active = some position →
      timesDeliveredTo before.delivered party position ≤ drops') :
    Repeats kind drops' (base.setPhase party phase) := by
  constructor
  · intro other free position
    change timesDeliveredTo base.delivered other position + _ ≤ drops' + past base.head position
    rw [delivered]
    by_cases same : other = party
    · subst same
      rw [State.setPhase_self]
      exact total free position
    · rw [State.setPhase_other _ _ same, phases]
      exact Nat.le_trans (repeats.total other free position) (grows position)
  · intro other free position
    change _ → timesDeliveredTo base.delivered other position ≤ drops'
    rw [delivered]
    by_cases same : other = party
    · subst same
      rw [State.setPhase_self]
      exact active free position
    · rw [State.setPhase_other _ _ same, phases]
      exact fun isActive => Nat.le_trans (repeats.active other free position isActive) more

/-- A move that puts nothing due. -/
theorem Repeats.move_free (repeats : Repeats kind drops before) (base : State Party Item)
    (delivered : base.delivered = before.delivered) (phases : base.phase = before.phase)
    (more : drops ≤ drops')
    (grows : ∀ position, drops + past before.head position ≤ drops' + past base.head position)
    (due : ∀ position, phase.due position = 0)
    (active : kind party ≠ .weak → ∀ position, phase.active = some position →
      timesDeliveredTo before.delivered party position ≤ drops') :
    Repeats kind drops' (base.setPhase party phase) := by
  apply repeats.move base delivered phases more grows _ active
  intro free position
  rw [due position, Nat.add_zero]
  exact Nat.le_trans (Nat.le_of_add_right_le (repeats.total party free position)) (grows position)

theorem timesDeliveredTo_snoc (delivered : List (Delivery Party Item))
    (last : Delivery Party Item) (party : Party) (position : Nat) :
    timesDeliveredTo (delivered ++ [last]) party position =
      timesDeliveredTo delivered party position +
        if last.party = party ∧ last.position = position then 1 else 0 := by
  unfold timesDeliveredTo
  rw [List.countP_append, List.countP_singleton]
  simp only [decide_eq_true_eq]

theorem Repeats.deliver (repeats : Repeats kind drops before) {index : Nat} {item : Item}
    (holds : before.phase party = .returning index item) (more : drops ≤ drops') :
    Repeats kind drops'
      ((before.handOut { party := party, position := index, item := item }).setPhase party
        .away) := by
  have count : ∀ other position, timesDeliveredTo
      (before.handOut { party := party, position := index, item := item }).delivered other
        position = timesDeliveredTo before.delivered other position +
          if party = other ∧ index = position then 1 else 0 :=
    timesDeliveredTo_snoc before.delivered { party := party, position := index, item := item }
  constructor
  · intro other free position
    have total := repeats.total other free position
    change timesDeliveredTo (before.handOut _).delivered other position + _ ≤
      drops' + past before.head position
    rw [count]
    by_cases same : other = party
    · subst same
      rw [holds] at total
      rw [State.setPhase_self]
      simp only [Phase.due] at total ⊢
      simp only [true_and]
      omega
    · rw [State.setPhase_other _ _ same, if_neg fun both => same both.1.symm]
      exact Nat.le_trans total (Nat.add_le_add_right more _)
  · intro other free position
    change _ → timesDeliveredTo (before.handOut _).delivered other position ≤ drops'
    rw [count]
    by_cases same : other = party
    · subst same
      rw [State.setPhase_self]
      exact fun impossible => nomatch impossible
    · rw [State.setPhase_other _ _ same, if_neg fun both => same both.1.symm]
      exact fun isActive => Nat.le_trans (repeats.active other free position isActive) more

theorem Repeats.step (repeats : Repeats kind drops before) (step : Step kind before after)
    (more : drops ≤ drops')
    (grows : ∀ position, drops + past before.head position ≤ drops' + past after.head position) :
    Repeats kind drops' after := by
  have still : ∀ party position, kind party ≠ .weak →
      (before.phase party).active = some position →
        timesDeliveredTo before.delivered party position ≤ drops' :=
    fun party position free isActive =>
      Nat.le_trans (repeats.active party free position isActive) more
  cases step with
  | publish item =>
      constructor
      · exact fun party free position =>
          Nat.le_trans (repeats.total party free position) (grows position)
      · exact fun party free position => still party position free
  | see party reads away =>
      apply repeats.move_free before rfl rfl more grows (fun _position => rfl)
      rintro free position ⟨⟩
      -- The index is not past what is read from it.
      have total := repeats.total party free before.head
      have notPast : past before.head before.head = 0 := if_neg (Nat.lt_irrefl _)
      omega
  | seeRanged party reads away =>
      exact repeats.move_free (before.setRegister party _) rfl rfl more grows
        (fun _position => rfl) fun free => absurd reads free
  | leave party index saw =>
      exact repeats.move_free before rfl rfl more grows (fun _position => rfl)
        fun _free _position impossible => nomatch impossible
  | hold party index item free saw there =>
      apply repeats.move_free before rfl rfl more grows (fun _position => rfl)
      rintro free position ⟨⟩
      exact still party index free (by rw [saw]; rfl)
  | claim party index item claims saw there unclaimed =>
      apply repeats.move_free
        { before with claimed := Function.update before.claimed index true } rfl rfl more grows
        (fun _position => rfl)
      rintro free position ⟨⟩
      exact still party index free (by rw [saw]; rfl)
  | refuse party index claims saw taken =>
      exact repeats.move_free before rfl rfl more grows (fun _position => rfl)
        fun _free _position impossible => nomatch impossible
  | nudge party index claims refused =>
      exact repeats.move_free { before with head := max before.head (index + 1) } rfl rfl more
        grows (fun _position => rfl) fun _free _position impossible => nomatch impossible
  | raise party index item raises holds =>
      apply repeats.move { before with head := max before.head (index + 1) } rfl rfl more grows
      · intro free position
        have atMost := still party index free (by rw [holds]; rfl)
        have total := Nat.le_trans (repeats.total party free position) (grows position)
        rw [holds] at total
        change _ ≤ drops' + past (max before.head (index + 1)) position at total ⊢
        by_cases here : index = position
        · subst here
          have isPast : past (max before.head (index + 1)) index = 1 := if_pos (by omega)
          simp only [Phase.due, if_true]
          omega
        · simp only [Phase.due, if_neg here] at total ⊢
          exact total
      · exact fun _free _position impossible => nomatch impossible
  | remember party index item stores holds =>
      apply repeats.move (before.setRegister party _) rfl rfl more grows
      · exact fun free => absurd stores free
      · exact fun free => absurd stores free
  | store party index item stores holds =>
      apply repeats.move { before with head := index + 1 } rfl rfl more grows
      · exact fun free => absurd stores free
      · exact fun free => absurd stores free
  | deliver party index item holds => exact repeats.deliver holds more

theorem repeats_of_reachableIn {state : State Party Item}
    (counted : ReachableIn kind drops state) : Repeats kind drops state := by
  induction counted with
  | start drops =>
      constructor
      · exact fun _party _free _position => Nat.zero_le _
      · exact fun _party _free _position impossible => nomatch impossible
  | keep prior step kept ih =>
      apply ih.step step (Nat.le_refl _)
      exact fun position => Nat.add_le_add_left (past_mono kept position) _
  | lower prior step ih =>
      apply ih.step step (Nat.le_succ _)
      exact fun position =>
        Nat.add_le_add_left (past_le_one _ position) _ |>.trans (Nat.le_add_right _ _)

/-- One that only a single entry can meet. -/
theorem countP_le_one {Entry : Type*} {entries : List Entry} {meets : Entry → Bool}
    (apart : entries.Pairwise fun earlier later => meets earlier = true → meets later = false) :
    entries.countP meets ≤ 1 := by
  induction apart with
  | nil => exact Nat.zero_le 1
  | @cons first rest fromFirst _apart ih =>
      rw [List.countP_cons]
      by_cases here : meets first = true
      · have none : rest.countP meets = 0 := by
          rw [List.countP_eq_zero]
          intro later member
          rw [fromFirst later member here]
          exact Bool.false_ne_true
        rw [if_pos here, none]
      · rw [if_neg here]
        exact ih

/-- Once, and once more each time the index was lowered. -/
theorem timesDeliveredTo_le {state : State Party Item} (counted : ReachableIn kind drops state)
    (party : Party) (position : Nat) :
    timesDeliveredTo state.delivered party position ≤ drops + 1 := by
  by_cases weak : kind party = .weak
  · have once : timesDeliveredTo state.delivered party position ≤ 1 := by
      apply countP_le_one
      apply (weak_increasing counted.reachable).imp
      intro earlier later increases earlierHere
      obtain ⟨earlierParty, earlierPosition⟩ := of_decide_eq_true earlierHere
      apply decide_eq_false
      rintro ⟨laterParty, laterPosition⟩
      have before := increases (earlierParty.trans laterParty.symm) (earlierParty ▸ weak)
      omega
    omega
  · have total := (repeats_of_reachableIn counted).total party weak position
    have most := past_le_one state.head position
    omega

/-- A delivery of the position is one to some party. -/
theorem timesDelivered_eq_sum [Fintype Party] (delivered : List (Delivery Party Item))
    (position : Nat) :
    timesDelivered delivered position =
      ∑ party, timesDeliveredTo delivered party position := by
  induction delivered with
  | nil => exact (Finset.sum_const_zero).symm
  | cons given rest ih =>
      have one : ∀ party, timesDeliveredTo (given :: rest) party position =
          timesDeliveredTo rest party position +
            if given.party = party then (if given.position = position then 1 else 0) else 0 := by
        intro party
        unfold timesDeliveredTo
        rw [List.countP_cons]
        simp only [decide_eq_true_eq, ite_and]
      simp only [one]
      rw [Finset.sum_add_distrib, ← ih, Finset.sum_ite_eq, if_pos (Finset.mem_univ _)]
      unfold timesDelivered
      rw [List.countP_cons]
      simp only [decide_eq_true_eq]

theorem timesDelivered_le_mul [Fintype Party] {state : State Party Item}
    (counted : ReachableIn kind drops state) (position : Nat) :
    timesDelivered state.delivered position ≤ Fintype.card Party * (drops + 1) := by
  calc timesDelivered state.delivered position
      = ∑ party, timesDeliveredTo state.delivered party position :=
        timesDelivered_eq_sum state.delivered position
    _ ≤ ∑ _party : Party, (drops + 1) :=
        Finset.sum_le_sum fun party _member => timesDeliveredTo_le counted party position
    _ = Fintype.card Party * (drops + 1) := Finset.sum_const_nat fun _party _member => rfl

end WsDeque.Multiplicity
