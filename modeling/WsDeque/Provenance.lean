import Mathlib.Data.List.Nodup
import Mathlib.Data.Multiset.AddSub
import WsDeque.FiniteUpdate

/-
Which handed-in value each handed-out value is.

A history is a list of labels. Some labels hand a value in, some hand one out;
a ledger follows every value handed in by the position of its label, so that
equal values are still told apart.
-/

namespace WsDeque

variable {Label Party α : Type*}

/-! ### Events of a history -/

/-- The positions at which an event happens, with its values, in order. -/
def occurrences (event : Label → Option α) (labels : List Label) : List (Nat × α) :=
  labels.zipIdx.filterMap fun entry => (event entry.1).map fun value => (entry.2, value)

variable {event put give : Label → Option α} {labels : List Label}

theorem occurrences_snoc (label : Label) :
    occurrences event (labels ++ [label]) =
      occurrences event labels ++
        ((event label).map fun value => (labels.length, value)).toList := by
  cases happens : event label <;> simp [occurrences, List.zipIdx_append, happens]

theorem occurrences_snoc_none {label : Label} (silent : event label = none) :
    occurrences event (labels ++ [label]) = occurrences event labels := by
  rw [occurrences_snoc, silent]
  exact List.append_nil _

theorem occurrences_snoc_some {label : Label} {value : α} (happens : event label = some value) :
    occurrences event (labels ++ [label]) =
      occurrences event labels ++ [(labels.length, value)] := by
  rw [occurrences_snoc, happens]
  rfl

theorem mem_occurrences {position : Nat} {value : α} :
    (position, value) ∈ occurrences event labels ↔
      ∃ label, labels[position]? = some label ∧ event label = some value := by
  simp only [occurrences, List.mem_filterMap, List.mem_zipIdx_iff_getElem?,
    Option.map_eq_some_iff, Prod.mk.injEq]
  constructor
  · rintro ⟨⟨label, index⟩, found, _, happens, rfl, rfl⟩
    exact ⟨label, found, happens⟩
  · rintro ⟨label, found, happens⟩
    exact ⟨(label, position), found, value, happens, rfl, rfl⟩

theorem position_lt {entry : Nat × α} (member : entry ∈ occurrences event labels) :
    entry.1 < labels.length := by
  obtain ⟨label, found, _happens⟩ := mem_occurrences.mp member
  exact (List.getElem?_eq_some_iff.mp found).1

theorem positions_nodup : ((occurrences event labels).map Prod.fst).Nodup := by
  induction labels using List.reverseRecOn with
  | nil => exact List.nodup_nil
  | append_singleton labels label ih =>
      cases happens : event label with
      | none =>
          rw [occurrences_snoc_none happens]
          exact ih
      | some value =>
          rw [occurrences_snoc_some happens, List.map_append, List.nodup_append]
          refine ⟨ih, List.nodup_singleton _, ?_⟩
          intro position member other last
          obtain ⟨entry, entryMember, rfl⟩ := List.mem_map.mp member
          have earlier := position_lt entryMember
          have same : other = labels.length := by simpa using last
          omega

/-! ### Matching -/

/-- Every value handed out was handed in earlier, each at most once. -/
structure Matching (put give : Label → Option α) (labels : List Label)
    (source : Nat → Nat) : Prop where
  earlier : ∀ position value, (position, value) ∈ occurrences give labels →
    source position < position ∧ (source position, value) ∈ occurrences put labels
  injective : ∀ left ∈ occurrences give labels, ∀ right ∈ occurrences give labels,
    source left.1 = source right.1 → left.1 = right.1

/-- The values handed in and not yet handed out, oldest first. -/
def outstanding (put give : Label → Option α) (labels : List Label) (source : Nat → Nat) :
    List (Nat × α) :=
  (occurrences put labels).filter fun entry =>
    entry.1 ∉ (occurrences give labels).map fun given => source given.1

/-- Each value handed out accounts for at most one value handed in. -/
theorem length_le_outstanding (put give : Label → Option α) (labels : List Label)
    (source : Nat → Nat) :
    (occurrences put labels).length ≤
      (outstanding put give labels source).length + (occurrences give labels).length := by
  let given := (occurrences give labels).map fun given => source given.1
  have taken : ((occurrences put labels).filter fun entry => entry.1 ∈ given).length ≤
      given.length := by
    have nodup : (((occurrences put labels).filter fun entry => entry.1 ∈ given).map
        Prod.fst).Nodup :=
      positions_nodup.sublist ((List.filter_sublist).map _)
    rw [← List.length_map (f := Prod.fst)]
    refine (List.subperm_of_subset nodup fun position member => ?_).length_le
    obtain ⟨entry, entryMember, rfl⟩ := List.mem_map.mp member
    exact of_decide_eq_true (List.mem_filter.mp entryMember).2
  have split := List.length_eq_length_filter_add (l := occurrences put labels)
    fun entry => decide (entry.1 ∉ given)
  simp only [decide_not, Bool.not_not] at split
  have kept : outstanding put give labels source =
      (occurrences put labels).filter fun entry => !decide (entry.1 ∈ given) := by
    simp only [outstanding, decide_not, given]
  rw [List.length_map] at taken
  rw [kept]
  omega

/-! ### The ledger -/

structure Ledger (Party α : Type*) where
  /-- Values that can still be taken, oldest first. -/
  waiting : List (Nat × α)
  /-- The value a party has taken and not yet handed out. -/
  held : Party → Option (Nat × α)
  lost : List (Nat × α)
  source : Nat → Nat

namespace Ledger

def empty (Party α : Type*) : Ledger Party α :=
  { waiting := []
    held := fun _ => none
    lost := []
    source := id }

/-- A value handed out, under the position of its label handed in. -/
def origin (source : Nat → Nat) (given : Nat × α) : Nat × α :=
  (source given.1, given.2)

def inHand (holding : Option (Nat × α)) : Multiset (Nat × α) :=
  holding.toList

variable [Fintype Party]

structure Valid (put give : Label → Option α) (labels : List Label)
    (ledger : Ledger Party α) : Prop where
  conserved : (ledger.waiting : Multiset (Nat × α)) + ∑ party, inHand (ledger.held party) +
    ledger.lost + (occurrences give labels).map (origin ledger.source) = occurrences put labels
  earlier : ∀ given ∈ occurrences give labels, ledger.source given.1 < given.1
  ordered : ledger.waiting.Sublist (occurrences put labels)

variable {ledger : Ledger Party α}

theorem Valid.empty : (Ledger.empty Party α).Valid put give [] :=
  { conserved := by simp [Ledger.empty, occurrences, inHand]
    earlier := by simp [occurrences]
    ordered := List.nil_sublist _ }

theorem Valid.silent (valid : ledger.Valid put give labels) {label : Label}
    (noPut : put label = none) (noGive : give label = none) :
    ledger.Valid put give (labels ++ [label]) := by
  obtain ⟨conserved, earlier, ordered⟩ := valid
  rw [← occurrences_snoc_none noPut] at conserved ordered
  rw [← occurrences_snoc_none noGive] at conserved earlier
  exact ⟨conserved, earlier, ordered⟩

/-- A value handed in can be taken, after all the older ones. -/
theorem Valid.handIn (valid : ledger.Valid put give labels) {label : Label} {value : α}
    (puts : put label = some value) (noGive : give label = none) :
    { ledger with waiting := ledger.waiting ++ [(labels.length, value)] }.Valid put give
      (labels ++ [label]) := by
  obtain ⟨conserved, earlier, ordered⟩ := valid
  rw [← occurrences_snoc_none noGive] at conserved earlier
  refine
    { conserved := ?_
      earlier := earlier
      ordered := ?_ }
  · rw [occurrences_snoc_some puts, ← Multiset.coe_add, ← Multiset.coe_add, ← conserved]
    ac_rfl
  · rw [occurrences_snoc_some puts]
    exact ordered.append_right _

/-- A value handed in is out of everybody's reach. -/
theorem Valid.handInLost (valid : ledger.Valid put give labels) {label : Label} {value : α}
    (puts : put label = some value) (noGive : give label = none) :
    { ledger with lost := ledger.lost ++ [(labels.length, value)] }.Valid put give
      (labels ++ [label]) := by
  obtain ⟨conserved, earlier, ordered⟩ := valid
  rw [← occurrences_snoc_none noGive] at conserved earlier
  refine
    { conserved := ?_
      earlier := earlier
      ordered := ?_ }
  · rw [occurrences_snoc_some puts, ← Multiset.coe_add, ← Multiset.coe_add, ← conserved]
    ac_rfl
  · rw [occurrences_snoc_some puts]
    exact ordered.trans (List.sublist_append_left _ _)

variable [DecidableEq Party]

theorem sum_inHand_update (held : Party → Option (Nat × α)) (party : Party)
    (holding : Option (Nat × α)) :
    (∑ other, inHand (Function.update held party holding other)) + inHand (held party) =
      (∑ other, inHand (held other)) + inHand holding :=
  sum_update_add inHand held party holding

theorem Valid.take (valid : ledger.Valid put give labels) {label : Label} {party : Party}
    {entry : Nat × α} {before after : List (Nat × α)} (noPut : put label = none)
    (noGive : give label = none) (free : ledger.held party = none)
    (present : ledger.waiting = before ++ entry :: after) :
    { ledger with
      waiting := before ++ after
      held := Function.update ledger.held party (some entry) }.Valid put give
      (labels ++ [label]) := by
  obtain ⟨conserved, earlier, ordered⟩ := valid.silent noPut noGive
  refine
    { conserved := ?_
      earlier := earlier
      ordered := ?_ }
  · have moved := sum_inHand_update ledger.held party (some entry)
    rw [free] at moved
    simp only [inHand, Option.toList_none, Option.toList_some, Multiset.coe_nil, add_zero,
      Multiset.coe_singleton] at moved conserved ⊢
    rw [← conserved, moved, present]
    simp only [← Multiset.coe_add, ← Multiset.cons_coe, ← Multiset.singleton_add]
    ac_rfl
  · rw [present] at ordered
    refine List.Sublist.trans ?_ ordered
    exact List.Sublist.append_left (List.sublist_cons_self entry after) before

theorem Valid.handOut (valid : ledger.Valid put give labels) {label : Label} {party : Party}
    {position : Nat} {value : α} (noPut : put label = none) (gives : give label = some value)
    (holds : ledger.held party = some (position, value)) :
    { ledger with
      held := Function.update ledger.held party none
      source := Function.update ledger.source labels.length position }.Valid put give
      (labels ++ [label]) := by
  obtain ⟨conserved, earlier, ordered⟩ := valid
  have origins : (occurrences give labels).map
      (origin (Function.update ledger.source labels.length position)) =
        (occurrences give labels).map (origin ledger.source) := by
    apply List.map_congr_left
    intro given member
    have past := position_lt member
    rw [origin, origin, Function.update_of_ne (Nat.ne_of_lt past)]
  have moved := sum_inHand_update ledger.held party none
  rw [holds] at moved
  simp only [inHand, Option.toList_none, Option.toList_some, Multiset.coe_nil, add_zero,
    Multiset.coe_singleton] at moved
  refine
    { conserved := ?_
      earlier := ?_
      ordered := ?_ }
  · rw [occurrences_snoc_none noPut, occurrences_snoc_some gives, List.map_append, origins,
      ← conserved]
    simp only [List.map_cons, List.map_nil, origin, Function.update_self, inHand,
      ← Multiset.coe_add, Multiset.coe_singleton, ← moved]
    ac_rfl
  · intro given member
    rw [occurrences_snoc_some gives, List.mem_append, List.mem_singleton] at member
    rcases member with old | rfl
    · have past := position_lt old
      change Function.update ledger.source labels.length position given.1 < given.1
      rw [Function.update_of_ne (Nat.ne_of_lt past)]
      exact earlier given old
    · change Function.update ledger.source labels.length position labels.length < labels.length
      rw [Function.update_self]
      have known : (position, value) ∈ (occurrences put labels : Multiset (Nat × α)) := by
        rw [← conserved]
        simp only [Multiset.mem_add]
        left
        left
        right
        rw [Multiset.mem_sum]
        exact ⟨party, Finset.mem_univ party, by simp [inHand, holds]⟩
      exact position_lt (Multiset.mem_coe.mp known)
  · rw [occurrences_snoc_none noPut]
    exact ordered

omit [DecidableEq Party] in
theorem Valid.mem_of_given (valid : ledger.Valid put give labels) {given : Nat × α}
    (member : given ∈ occurrences give labels) :
    origin ledger.source given ∈ occurrences put labels := by
  rw [← Multiset.mem_coe, ← valid.conserved]
  simp only [Multiset.mem_add]
  right
  exact Multiset.mem_coe.mpr (List.mem_map_of_mem member)

omit [DecidableEq Party] in
/-- No position is in two places. -/
theorem Valid.nodup (valid : ledger.Valid put give labels) :
    ((ledger.waiting ++ (occurrences give labels).map (origin ledger.source)).map
      Prod.fst).Nodup := by
  have whole : (((occurrences put labels : Multiset (Nat × α))).map Prod.fst).Nodup := by
    rw [Multiset.map_coe, Multiset.coe_nodup]
    exact positions_nodup
  rw [← Multiset.coe_nodup, ← Multiset.map_coe]
  refine Multiset.nodup_of_le (Multiset.map_le_map ?_) whole
  rw [← valid.conserved, ← Multiset.coe_add, add_right_comm _ (ledger.lost : Multiset (Nat × α)),
    add_right_comm _ (∑ party, inHand (ledger.held party))]
  exact (Multiset.le_add_right _ _).trans (Multiset.le_add_right _ _)

omit [DecidableEq Party] in
theorem Valid.matching (valid : ledger.Valid put give labels) :
    Matching put give labels ledger.source := by
  have nodup := valid.nodup
  rw [List.map_append, List.nodup_append, List.map_map] at nodup
  refine
    { earlier := fun position value member =>
        ⟨valid.earlier _ member, valid.mem_of_given member⟩
      injective := ?_ }
  intro left leftMember right rightMember same
  exact congrArg Prod.fst
    (List.inj_on_of_nodup_map nodup.2.1 leftMember rightMember same)

theorem eq_filter_of_sublist {Item : Type*} {part whole : List Item} {keep : Item → Bool}
    (ordered : part.Sublist whole) (nodup : whole.Nodup)
    (exact : ∀ item ∈ whole, keep item = true ↔ item ∈ part) : part = whole.filter keep := by
  induction ordered with
  | slnil => rfl
  | cons item ordered ih =>
      rw [List.nodup_cons] at nodup
      have absent : ¬ keep item = true := fun kept =>
        nodup.1 (ordered.subset ((exact item List.mem_cons_self).mp kept))
      rw [List.filter_cons_of_neg absent]
      exact ih nodup.2 fun other member => exact other (List.mem_cons_of_mem item member)
  | cons_cons item ordered ih =>
      rw [List.nodup_cons] at nodup
      have kept : keep item = true := (exact item List.mem_cons_self).mpr List.mem_cons_self
      rw [List.filter_cons_of_pos kept]
      congr 1
      refine ih nodup.2 fun other member => ?_
      rw [exact other (List.mem_cons_of_mem item member), List.mem_cons]
      constructor
      · rintro (same | present)
        · exact absurd (same ▸ member) nodup.1
        · exact present
      · exact Or.inr

omit [DecidableEq Party] in
/-- With nothing in hand and nothing lost, what waits is what is outstanding. -/
theorem Valid.waiting_eq (valid : ledger.Valid put give labels)
    (free : ∀ party, ledger.held party = none) (kept : ledger.lost = []) :
    ledger.waiting = outstanding put give labels ledger.source := by
  have nodup := valid.nodup
  rw [List.map_append, List.nodup_append, List.map_map] at nodup
  have conserved := valid.conserved
  simp only [free, inHand, Option.toList_none, Multiset.coe_nil, Finset.sum_const_zero, add_zero,
    kept] at conserved
  refine eq_filter_of_sublist valid.ordered (List.Nodup.of_map _ positions_nodup) ?_
  intro entry member
  rw [decide_eq_true_eq]
  have place : entry ∈ ledger.waiting ∨
      entry ∈ (occurrences give labels).map (origin ledger.source) := by
    rw [← Multiset.mem_coe, ← conserved, Multiset.mem_add] at member
    exact member
  constructor
  · intro notGiven
    rcases place with waits | given
    · exact waits
    · obtain ⟨given, givenMember, rfl⟩ := List.mem_map.mp given
      exact absurd (List.mem_map_of_mem givenMember) notGiven
  · intro waits given
    exact nodup.2.2 entry.1 (List.mem_map_of_mem waits) entry.1 given rfl

end Ledger

/-! ### What a state shows of its ledger -/

/-- Some ledger explains the values a state still has and the values its
parties hold; a lossless history has lost none. -/
def Tracked [Fintype Party] (put give : Label → Option α) (labels : List Label) (lossless : Bool)
    (items : List α) (held : Party → Option α) : Prop :=
  ∃ ledger : Ledger Party α, ledger.Valid put give labels ∧
    ledger.waiting.map Prod.snd = items ∧
    (∀ party, (ledger.held party).map Prod.snd = held party) ∧
    (lossless = true → ledger.lost = [])

namespace Tracked

variable [Fintype Party] {lossless : Bool} {items : List α} {held : Party → Option α}

theorem empty (put give : Label → Option α) (lossless : Bool) :
    Tracked put give [] lossless [] fun _ : Party => none :=
  ⟨Ledger.empty Party α, .empty, rfl, fun _party => rfl, fun _kept => rfl⟩

/-- With nothing in hand and nothing lost, what was handed in is still there or
was handed out. -/
theorem count (tracked : Tracked put give labels true items held)
    (free : ∀ party, held party = none) :
    (occurrences put labels).length = items.length + (occurrences give labels).length := by
  obtain ⟨ledger, valid, waiting, holds, kept⟩ := tracked
  have nothing : ∀ party, ledger.held party = none := by
    intro party
    rw [← Option.map_eq_none_iff, holds party, free party]
  have conserved := congrArg Multiset.card valid.conserved
  simp only [nothing, Ledger.inHand, kept rfl, Option.toList_none, Multiset.coe_nil,
    Finset.sum_const_zero, add_zero, Multiset.card_add, Multiset.coe_card,
    List.length_map] at conserved
  rw [← waiting, List.length_map]
  exact conserved.symm

theorem silent (tracked : Tracked put give labels lossless items held) {label : Label}
    (noPut : put label = none) (noGive : give label = none) :
    Tracked put give (labels ++ [label]) lossless items held := by
  obtain ⟨ledger, valid, shows⟩ := tracked
  exact ⟨ledger, valid.silent noPut noGive, shows⟩

theorem handIn (tracked : Tracked put give labels lossless items held) {label : Label}
    {value : α} (puts : put label = some value) (noGive : give label = none) :
    Tracked put give (labels ++ [label]) lossless (items ++ [value]) held := by
  obtain ⟨ledger, valid, waiting, holds, kept⟩ := tracked
  refine ⟨_, valid.handIn puts noGive, ?_, holds, kept⟩
  rw [List.map_append, waiting]
  rfl

theorem handInLost (tracked : Tracked put give labels false items held) {label : Label}
    {value : α} (puts : put label = some value) (noGive : give label = none) :
    Tracked put give (labels ++ [label]) false items held := by
  obtain ⟨ledger, valid, waiting, holds, _kept⟩ := tracked
  exact ⟨_, valid.handInLost puts noGive, waiting, holds, fun lossless => nomatch lossless⟩

variable [DecidableEq Party]

theorem take {before after : List α} {value : α}
    (tracked : Tracked put give labels lossless (before ++ value :: after) held) {label : Label}
    {party : Party} (noPut : put label = none) (noGive : give label = none)
    (free : held party = none) :
    Tracked put give (labels ++ [label]) lossless (before ++ after)
      (Function.update held party (some value)) := by
  obtain ⟨ledger, valid, waiting, holds, kept⟩ := tracked
  obtain ⟨front, rest, split, frontEq, restEq⟩ := List.map_eq_append_iff.mp waiting
  obtain ⟨entry, back, restSplit, valueEq, backEq⟩ := List.map_eq_cons_iff.mp restEq
  have present : ledger.waiting = front ++ entry :: back := by rw [split, restSplit]
  have idle : ledger.held party = none := by
    rw [← Option.map_eq_none_iff, holds, free]
  refine ⟨_, valid.take noPut noGive idle present, ?_, fun other => ?_, kept⟩
  · rw [List.map_append, frontEq, backEq]
  · by_cases same : other = party
    · subst same
      simp only [Function.update_self, Option.map_some, valueEq]
    · simp only [Function.update_of_ne same, holds]

theorem handOut (tracked : Tracked put give labels lossless items held) {label : Label}
    {party : Party} {value : α} (noPut : put label = none) (gives : give label = some value)
    (holding : held party = some value) :
    Tracked put give (labels ++ [label]) lossless items (Function.update held party none) := by
  obtain ⟨ledger, valid, waiting, holds, kept⟩ := tracked
  have mine := holds party
  rw [holding, Option.map_eq_some_iff] at mine
  obtain ⟨⟨position, same⟩, entry, rfl⟩ := mine
  refine ⟨_, valid.handOut noPut gives entry, waiting, fun other => ?_, kept⟩
  by_cases here : other = party
  · subst here
    simp only [Function.update_self, Option.map_none]
  · simp only [Function.update_of_ne here, holds]

omit [DecidableEq Party] in
theorem matching (tracked : Tracked put give labels lossless items held) :
    ∃ source, Matching put give labels source := by
  obtain ⟨ledger, valid, _⟩ := tracked
  exact ⟨ledger.source, valid.matching⟩

omit [DecidableEq Party] in
/-- With nothing in anybody's hands the state has exactly what is outstanding. -/
theorem outstanding (tracked : Tracked put give labels true items held)
    (free : ∀ party, held party = none) :
    ∃ source, Matching put give labels source ∧
      items = (WsDeque.outstanding put give labels source).map Prod.snd := by
  obtain ⟨ledger, valid, waiting, holds, kept⟩ := tracked
  refine ⟨ledger.source, valid.matching, ?_⟩
  rw [← waiting, ← valid.waiting_eq (fun party => ?_) (kept rfl)]
  rw [← Option.map_eq_none_iff, holds, free]

end Tracked

end WsDeque
