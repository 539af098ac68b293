import Mathlib.Data.List.Basic
import Mathlib.Data.List.Induction
import Mathlib.Data.List.Perm.Basic

/-
Grouping entries by key, and checking the pairs inside each group: together the
groups give every pair of entries with equal keys once.
-/

namespace WsDeque

variable {Key Value Item Found : Type*}

/-- Every two positions of a list, the earlier one first. -/
def pairs : List Item → List (Item × Item)
  | [] => []
  | first :: rest => (rest.map fun second => (first, second)) ++ pairs rest

theorem pairs_snoc (items : List Item) (last : Item) :
    (pairs (items ++ [last])).Perm (pairs items ++ items.map fun earlier => (earlier, last)) := by
  induction items with
  | nil => exact .refl []
  | cons first rest ih =>
      have moved : (pairs (first :: rest ++ [last])).Perm
          ((rest.map fun second => (first, second)) ++
            ((first, last) :: (pairs rest ++ rest.map fun earlier => (earlier, last)))) := by
        simp only [List.cons_append, pairs, List.map_append, List.map_cons, List.map_nil,
          List.append_assoc, List.nil_append]
        exact (ih.cons (first, last)).append_left _
      refine moved.trans ?_
      simp only [pairs, List.map_cons, List.append_assoc]
      exact (List.perm_middle.symm).append_left _

theorem pairwise_of_mem_pairs {Related : Item → Item → Prop} {items : List Item}
    (related : items.Pairwise Related) {pair : Item × Item} (member : pair ∈ pairs items) :
    Related pair.1 pair.2 := by
  induction items with
  | nil => cases member
  | cons first rest ih =>
      rw [List.pairwise_cons] at related
      rcases List.mem_append.mp member with here | later
      · obtain ⟨second, secondMember, rfl⟩ := List.mem_map.mp here
        exact related.1 second secondMember
      · exact ih related.2 later

theorem pairwise_of_forall_pairs {Related : Item → Item → Prop} {items : List Item}
    (related : ∀ pair ∈ pairs items, Related pair.1 pair.2) : items.Pairwise Related := by
  induction items with
  | nil => exact .nil
  | cons first rest ih =>
      apply List.Pairwise.cons
      · intro second member
        exact related (first, second) (List.mem_append_left _ (List.mem_map_of_mem member))
      · exact ih fun pair member => related pair (List.mem_append_right _ member)

theorem mem_of_mem_pairs {items : List Item} {pair : Item × Item} (member : pair ∈ pairs items) :
    pair.1 ∈ items ∧ pair.2 ∈ items := by
  induction items with
  | nil => cases member
  | cons first rest ih =>
      rcases List.mem_append.mp member with here | later
      · obtain ⟨second, secondMember, rfl⟩ := List.mem_map.mp here
        exact ⟨List.mem_cons_self, List.mem_cons_of_mem first secondMember⟩
      · exact ⟨List.mem_cons_of_mem first (ih later).1, List.mem_cons_of_mem first (ih later).2⟩

/-- In a list in order, two items make a pair the way round the order has them. -/
theorem mem_pairs_of_pairwise {Before : Item → Item → Prop} {items : List Item}
    (ordered : items.Pairwise Before)
    (asymmetric : ∀ first second, Before first second → ¬Before second first)
    {left right : Item} (leftMember : left ∈ items) (rightMember : right ∈ items)
    (before : Before left right) : (left, right) ∈ pairs items := by
  induction items with
  | nil => cases leftMember
  | cons first rest ih =>
      rw [List.pairwise_cons] at ordered
      rcases List.mem_cons.mp leftMember with rfl | leftLater
      · rcases List.mem_cons.mp rightMember with rfl | rightLater
        · exact absurd before (asymmetric _ _ before)
        · exact List.mem_append_left _ (List.mem_map_of_mem rightLater)
      · rcases List.mem_cons.mp rightMember with rfl | rightLater
        · exact absurd before (asymmetric _ _ (ordered.1 left leftLater))
        · exact List.mem_append_right _ (ih ordered.2 leftLater rightLater)

theorem pairs_map {Image : Type*} (image : Item → Image) (items : List Item) :
    pairs (items.map image) = (pairs items).map fun pair => (image pair.1, image pair.2) := by
  induction items with
  | nil => rfl
  | cons first rest ih =>
      simp only [List.map_cons, pairs, ih, List.map_append, List.map_map]
      rfl

/-! ### Groups -/

variable [DecidableEq Key]

/-- `entry(key).or_default().push(value)`. -/
def pushAt (key : Key) (value : Value) : List (Key × List Value) → List (Key × List Value)
  | [] => [(key, [value])]
  | (other, values) :: rest =>
      if other = key then (other, values ++ [value]) :: rest
      else (other, values) :: pushAt key value rest

def groupByKey (entries : List (Key × Value)) : List (Key × List Value) :=
  entries.foldl (fun groups entry => pushAt entry.1 entry.2 groups) []

def valuesAt (key : Key) : List (Key × List Value) → List Value
  | [] => []
  | (other, values) :: rest => if other = key then values else valuesAt key rest

theorem valuesAt_pushAt (key other : Key) (value : Value) (groups : List (Key × List Value)) :
    valuesAt other (pushAt key value groups) =
      valuesAt other groups ++ if key = other then [value] else [] := by
  induction groups with
  | nil => simp [pushAt, valuesAt]
  | cons group rest ih =>
      by_cases here : group.1 = key
      · subst here
        by_cases same : group.1 = other <;> simp [pushAt, valuesAt, same]
      · by_cases same : group.1 = other
        · subst same
          simp only [pushAt, if_neg here, valuesAt, if_true, if_neg (Ne.symm here),
            List.append_nil]
        · simp only [pushAt, if_neg here, valuesAt, if_neg same, ih]

theorem valuesAt_groupByKey (key : Key) (entries : List (Key × Value)) :
    valuesAt key (groupByKey entries) =
      entries.filterMap fun entry => if entry.1 = key then some entry.2 else none := by
  induction entries using List.reverseRecOn with
  | nil => rfl
  | append_singleton entries last ih =>
      simp only [groupByKey, List.foldl_append, List.foldl_cons, List.foldl_nil]
      rw [valuesAt_pushAt, List.filterMap_append]
      congr 1
      by_cases same : last.1 = key <;> simp [same]

/-- The pairs inside each group that a check finds something in. -/
def checkGroups (check : Key → Value → Value → Option Found)
    (groups : List (Key × List Value)) : List Found :=
  groups.flatMap fun group =>
    (pairs group.2).filterMap fun pair => check group.1 pair.1 pair.2

theorem checkGroups_pushAt (check : Key → Value → Value → Option Found) (key : Key)
    (value : Value) (groups : List (Key × List Value)) :
    (checkGroups check (pushAt key value groups)).Perm
      (checkGroups check groups ++
        (valuesAt key groups).filterMap fun earlier => check key earlier value) := by
  induction groups with
  | nil => exact .refl []
  | cons group rest ih =>
      by_cases here : group.1 = key
      · subst here
        have grown := (pairs_snoc group.2 value).filterMap
          fun pair => check group.1 pair.1 pair.2
        rw [List.filterMap_append, List.filterMap_map] at grown
        simp only [pushAt, if_true, checkGroups, List.flatMap_cons, valuesAt]
        refine (grown.append_right _).trans ?_
        rw [List.append_assoc, List.append_assoc]
        exact List.perm_append_comm.append_left _
      · simp only [pushAt, if_neg here, checkGroups, List.flatMap_cons, valuesAt,
          List.append_assoc]
        exact ih.append_left _

/-- Group by group or all at once: the same finds, each as often. -/
theorem checkGroups_groupByKey (check : Key → Value → Value → Option Found)
    (entries : List (Key × Value)) :
    (checkGroups check (groupByKey entries)).Perm
      ((pairs entries).filterMap fun pair =>
        if pair.1.1 = pair.2.1 then check pair.2.1 pair.1.2 pair.2.2 else none) := by
  induction entries using List.reverseRecOn with
  | nil => exact .refl []
  | append_singleton entries last ih =>
      have pushed : groupByKey (entries ++ [last]) =
          pushAt last.1 last.2 (groupByKey entries) := by
        simp only [groupByKey, List.foldl_append, List.foldl_cons, List.foldl_nil]
      have withLast : ((valuesAt last.1 (groupByKey entries)).filterMap fun earlier =>
          check last.1 earlier last.2) =
          (entries.map fun earlier => (earlier, last)).filterMap fun pair =>
            if pair.1.1 = pair.2.1 then check pair.2.1 pair.1.2 pair.2.2 else none := by
        rw [valuesAt_groupByKey, List.filterMap_filterMap, List.filterMap_map]
        apply List.filterMap_congr
        intro earlier _member
        by_cases same : earlier.1 = last.1 <;> simp [same]
      rw [pushed]
      refine (checkGroups_pushAt check last.1 last.2 _).trans ?_
      refine .trans ?_ ((pairs_snoc entries last).filterMap _).symm
      rw [List.filterMap_append, withLast]
      exact ih.append_right _

end WsDeque
