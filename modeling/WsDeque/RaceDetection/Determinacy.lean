import Mathlib.Data.List.Pairwise
import WsDeque.Linearization
import WsDeque.RaceDetection.Detection

/-
What an empty answer of the detector promises: every schedule of the computation
shows each read the same write and leaves the same write last in each location.
-/

namespace WsDeque.RaceDetection

/-! ### Schedules -/

/-- Below an earlier child of a series composition than the other. -/
def seriesBefore : Path → Path → Bool
  | (kind, left) :: leftRest, (_, right) :: rightRest =>
      if left = right then seriesBefore leftRest rightRest
      else decide (kind = .series ∧ left < right)
  | _, _ => false

/-- What every schedule keeps: program order and series composition. -/
def Recorded.Precedes (left right : Recorded) : Prop :=
  left.strand = right.strand ∧ left.position < right.position ∨
    seriesBefore left.path right.path = true

instance : DecidableRel Recorded.Precedes := fun left right =>
  inferInstanceAs (Decidable (left.strand = right.strand ∧ left.position < right.position ∨
    seriesBefore left.path right.path = true))

abbrev Dag.Schedule (dag : Dag) (order : List Recorded) : Prop :=
  Linearizes Recorded.Precedes dag.recorded order

def writesTo (location : Location) (recorded : Recorded) : Bool :=
  recorded.access.isWrite && decide (recorded.access.location = location)

/-- The write a read sees, none for the initial value. -/
def seenBy (order : List Recorded) (read : Recorded) : Option Recorded :=
  ((ahead read order).filter (writesTo read.access.location)).getLast?

def lastWrite (order : List Recorded) (location : Location) : Option Recorded :=
  (order.filter (writesTo location)).getLast?

/-! ### Leaves from left to right -/

/-- Two leaves in their order from left to right. -/
def Composed (left right : Leaf) : Prop :=
  lowestCommon left.path right.path = some .parallel ∨
    seriesBefore left.path right.path = true

theorem composed_under {left right : Leaf} (kind : Composition) (index : Nat) :
    Composed (left.under kind index) (right.under kind index) ↔ Composed left right := by
  simp only [Composed, Leaf.under, lowestCommon, seriesBefore, if_true]

theorem composed_children {kind : Composition} {index : Nat} {rest : List Node}
    {left right : Leaf} (member : right ∈ leavesFrom kind (index + 1) rest) :
    Composed (left.under kind index) right := by
  cases kind with
  | parallel => exact .inl (lowestCommon_children member)
  | series =>
      obtain ⟨other, path, same, beyond⟩ := leavesFrom_path .series (index + 1) rest right member
      apply Or.inr
      rw [same]
      simp only [Leaf.under, seriesBefore]
      rw [if_neg (by omega)]
      exact decide_eq_true ⟨trivial, by omega⟩

mutual

theorem leaves_composed (node : Node) : node.leaves.Pairwise Composed := by
  match node with
  | .strand accesses => simp [Node.leaves]
  | .series children => simpa only [Node.leaves] using leavesFrom_composed .series 0 children
  | .parallel children => simpa only [Node.leaves] using leavesFrom_composed .parallel 0 children

theorem leavesFrom_composed (kind : Composition) (index : Nat) (children : List Node) :
    (leavesFrom kind index children).Pairwise Composed := by
  match children with
  | [] => exact .nil
  | child :: rest =>
      simp only [leavesFrom, List.pairwise_append, List.pairwise_map, composed_under]
      constructor
      · exact leaves_composed child
      · constructor
        · exact leavesFrom_composed kind (index + 1) rest
        · intro left leftMember right rightMember
          obtain ⟨inner, _innerMember, rfl⟩ := List.mem_map.mp leftMember
          exact composed_children rightMember

end

/-! ### Computations without races -/

variable {dag : Dag} {first second schedule : List Recorded}

theorem pairwise_of_races_nil (none : dag.races = []) :
    dag.recorded.Pairwise fun left right => ¬left.Conflicts right := by
  apply pairwise_of_forall_pairs
  intro pair member conflicts
  have quiet := List.filterMap_eq_nil_iff.mp none pair member
  rw [conflict, if_pos conflicts] at quiet
  cases quiet

/-- The strands of two accesses are composed one way or the other. -/
theorem Dag.recorded_composed (dag : Dag) :
    dag.recorded.Pairwise fun left right => left.strand ≠ right.strand →
      lowestCommon left.path right.path = some .parallel ∨
        seriesBefore left.path right.path = true := by
  apply dag.recorded_pairwise.imp_of_mem
  intro left right leftMember rightMember before apart
  obtain ⟨leftLeaf, leftFound, leftPath⟩ := Dag.mem_recorded leftMember
  obtain ⟨rightLeaf, rightFound, rightPath⟩ := Dag.mem_recorded rightMember
  obtain ⟨leftBound, rfl⟩ := List.getElem?_eq_some_iff.mp leftFound
  obtain ⟨rightBound, rfl⟩ := List.getElem?_eq_some_iff.mp rightFound
  rw [leftPath, rightPath]
  have earlier : left.strand < right.strand := by
    rcases before with earlier | ⟨same, _earlier⟩
    · exact earlier
    · exact absurd same apart
  exact List.pairwise_iff_getElem.mp (leavesFrom_composed .series 0 dag.children) _ _ leftBound
    rightBound earlier

/-- A schedule has no choice between a write and another access of its location. -/
def Recorded.Compared (left right : Recorded) : Prop :=
  left.access.location = right.access.location →
    (left.access.isWrite = true ∨ right.access.isWrite = true) →
    left.Precedes right ∨ right.Precedes left

instance : Std.Symm Recorded.Compared where
  symm _left _right compared location writes := (compared location.symm writes.symm).symm

theorem compared_of_races_nil (none : dag.races = []) {left right : Recorded}
    (leftMember : left ∈ dag.recorded) (rightMember : right ∈ dag.recorded)
    (apart : left ≠ right) : left.Compared right := by
  have compared : dag.recorded.Pairwise Recorded.Compared := by
    apply ((dag.recorded_pairwise.and dag.recorded_composed).and
      (pairwise_of_races_nil none)).imp
    rintro left right ⟨⟨before, composed⟩, quiet⟩ location writes
    apply Or.inl
    by_cases sameStrand : left.strand = right.strand
    · rcases before with earlier | ⟨_same, earlier⟩
      · exact absurd sameStrand (Nat.ne_of_lt earlier)
      · exact .inl ⟨sameStrand, earlier⟩
    · rcases composed sameStrand with parallel | series
      · exact absurd ⟨location, sameStrand, writes, parallel⟩ quiet
      · exact .inr series
  exact compared.forall leftMember rightMember apart

theorem Dag.recorded_nodup (dag : Dag) : dag.recorded.Nodup := by
  apply dag.recorded_pairwise.imp
  rintro left right before rfl
  rcases before with earlier | ⟨_same, earlier⟩
  · exact Nat.lt_irrefl _ earlier
  · exact Nat.lt_irrefl _ earlier

/-- The writes to one location come in one order only. -/
theorem writes_eq (none : dag.races = []) (firstSchedule : dag.Schedule first)
    (secondSchedule : dag.Schedule second) (location : Location) :
    first.filter (writesTo location) = second.filter (writesTo location) := by
  apply firstSchedule.filter_eq secondSchedule
  intro left leftMember right rightMember leftWrites rightWrites apart
  simp only [writesTo, Bool.and_eq_true, decide_eq_true_iff] at leftWrites rightWrites
  exact compared_of_races_nil none leftMember rightMember apart
    (leftWrites.2.trans rightWrites.2.symm) (.inl leftWrites.1)

theorem seenBy_eq (none : dag.races = []) (isSchedule : dag.Schedule schedule) {read : Recorded}
    (member : read ∈ dag.recorded) (reads : read.access.isWrite = false) :
    seenBy schedule read =
      ((schedule.filter (writesTo read.access.location)).filter
        fun other => decide (other.Precedes read)).getLast? := by
  unfold seenBy
  rw [isSchedule.filter_ahead dag.recorded_nodup _ member]
  · simp only [writesTo, reads, Bool.false_and]
  · intro other otherMember writes
    simp only [writesTo, Bool.and_eq_true, decide_eq_true_iff] at writes
    have apart : other ≠ read := by
      rintro rfl
      exact Bool.false_ne_true (reads.symm.trans writes.1)
    exact compared_of_races_nil none otherMember member apart writes.2 (.inl writes.1)

/-- Two schedules of a computation without races do the same. -/
theorem schedules_agree (order : IterationOrder) (raceFree : dag.detectRaces order = [])
    (firstSchedule : dag.Schedule first) (secondSchedule : dag.Schedule second) :
    (∀ read ∈ dag.recorded, read.access.isWrite = false → seenBy first read = seenBy second read) ∧
      ∀ location, lastWrite first location = lastWrite second location := by
  have found : (dag.detectRaces order).Perm dag.races := findRaces_rankStrands dag order
  rw [raceFree] at found
  have none : dag.races = [] := List.nil_perm.mp found
  constructor
  · intro read member reads
    rw [seenBy_eq none firstSchedule member reads, seenBy_eq none secondSchedule member reads,
      writes_eq none firstSchedule secondSchedule]
  · intro location
    rw [lastWrite, lastWrite, writes_eq none firstSchedule secondSchedule]

/-- Two strands write in parallel, then both locations are read. -/
def forkJoin : Dag :=
  (Dag.new.parallel fun both =>
    (both.strand fun left => left.write 0).strand fun right => right.write 1).strand
      fun last => (last.read 1).read 0

/-- The right branch goes first. -/
def rightFirst : List Recorded :=
  (forkJoin.recorded.drop 1).take 1 ++ forkJoin.recorded.take 1 ++ forkJoin.recorded.drop 2

def asListed : IterationOrder where
  arrange entries := entries
  perm := List.Perm.refl

theorem schedules_agree_forkJoin :
    (∀ read ∈ forkJoin.recorded, read.access.isWrite = false →
      seenBy forkJoin.recorded read = seenBy rightFirst read) ∧
    ∀ location, lastWrite forkJoin.recorded location = lastWrite rightFirst location :=
  schedules_agree asListed (by decide) ⟨by decide, by decide⟩ ⟨by decide, by decide⟩

end WsDeque.RaceDetection
