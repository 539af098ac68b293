import WsDeque.RaceDetection.Passes

/-
What the detector is for: the pairs of accesses that conflict, read off the
tree, and that `detectRaces` lists them.
-/

namespace WsDeque.RaceDetection

/-! ### Conflicting accesses -/

/-- One access of a computation: the strand that makes it, which of the strand's
accesses it is, and where the strand stands in the tree. -/
structure Recorded where
  strand : Nat
  position : Nat
  path : Path
  access : Access
  deriving DecidableEq

def Leaf.recorded (leaf : Leaf) (strand : Nat) : List Recorded :=
  leaf.accesses.zipIdx.map fun access =>
    { strand := strand
      position := access.2
      path := leaf.path
      access := access.1 }

/-- All accesses, strand by strand from left to right. -/
def Dag.recorded (dag : Dag) : List Recorded :=
  dag.leaves.zipIdx.flatMap fun strand => strand.1.recorded strand.2

structure Recorded.Conflicts (left right : Recorded) : Prop where
  location : left.access.location = right.access.location
  strands : left.strand ≠ right.strand
  writes : left.access.isWrite = true ∨ right.access.isWrite = true
  parallel : lowestCommon left.path right.path = some .parallel

instance (left right : Recorded) : Decidable (left.Conflicts right) :=
  decidable_of_iff
    (left.access.location = right.access.location ∧ left.strand ≠ right.strand ∧
      (left.access.isWrite = true ∨ right.access.isWrite = true) ∧
      lowestCommon left.path right.path = some .parallel)
    ⟨fun ⟨location, strands, writes, parallel⟩ => ⟨location, strands, writes, parallel⟩,
      fun ⟨location, strands, writes, parallel⟩ => ⟨location, strands, writes, parallel⟩⟩

def conflict (left right : Recorded) : Option Race :=
  if left.Conflicts right then
    some
      { location := left.access.location
        strandA := left.strand
        strandB := right.strand
        writeA := left.access.isWrite
        writeB := right.access.isWrite }
  else
    none

/-- One race for every unordered pair of conflicting accesses. -/
def Dag.races (dag : Dag) : List Race :=
  (pairs dag.recorded).filterMap fun pair => conflict pair.1 pair.2

/-! ### The recorded accesses in order -/

/-- Strand by strand, and in program order inside a strand. -/
def Recorded.Before (left right : Recorded) : Prop :=
  left.strand < right.strand ∨ left.strand = right.strand ∧ left.position < right.position

theorem zipIdx_pairwise {Item : Type} (items : List Item) :
    items.zipIdx.Pairwise fun left right => left.2 < right.2 := by
  have increasing : (items.zipIdx.map Prod.snd).Pairwise fun left right => left < right := by
    rw [List.zipIdx_map_snd]
    exact List.pairwise_lt_range'
  exact List.pairwise_map.mp increasing

theorem Leaf.recorded_pairwise (leaf : Leaf) (strand : Nat) :
    (leaf.recorded strand).Pairwise Recorded.Before := by
  unfold Leaf.recorded
  rw [List.pairwise_map]
  exact (zipIdx_pairwise leaf.accesses).imp fun before => .inr ⟨rfl, before⟩

theorem Leaf.mem_recorded {leaf : Leaf} {strand : Nat} {recorded : Recorded}
    (member : recorded ∈ leaf.recorded strand) :
    recorded.strand = strand ∧ recorded.path = leaf.path := by
  obtain ⟨access, _accessMember, rfl⟩ := List.mem_map.mp member
  exact ⟨rfl, rfl⟩

theorem Dag.recorded_pairwise (dag : Dag) : dag.recorded.Pairwise Recorded.Before := by
  unfold Dag.recorded
  rw [List.pairwise_flatMap]
  constructor
  · exact fun strand _member => strand.1.recorded_pairwise strand.2
  · apply (zipIdx_pairwise dag.leaves).imp
    intro left right before leftRecorded leftMember rightRecorded rightMember
    apply Or.inl
    rw [(Leaf.mem_recorded leftMember).1, (Leaf.mem_recorded rightMember).1]
    exact before

theorem Dag.mem_recorded {dag : Dag} {recorded : Recorded} (member : recorded ∈ dag.recorded) :
    ∃ leaf, dag.leaves[recorded.strand]? = some leaf ∧ recorded.path = leaf.path := by
  obtain ⟨strand, strandMember, recordedMember⟩ := List.mem_flatMap.mp member
  obtain ⟨sameStrand, samePath⟩ := Leaf.mem_recorded recordedMember
  rw [List.mem_zipIdx_iff_getElem?] at strandMember
  exact ⟨strand.1, sameStrand ▸ strandMember, samePath⟩

/-! ### The search for races -/

theorem racesAtLocation_eq (strands : List StrandInfo) (location : Location)
    (entries : List (Nat × Bool)) :
    racesAtLocation strands location entries =
      (pairs entries).filterMap fun pair => raceOf strands location pair.1 pair.2 := by
  induction entries with
  | nil => rfl
  | cons first rest ih =>
      simp only [racesAtLocation, pairs, List.filterMap_append, List.filterMap_map, ih]
      rfl

/-- The map's order does not change what is found. -/
theorem findRaces_perm (order : IterationOrder) (strands : List StrandInfo) :
    (findRaces order strands).Perm
      ((pairs (accessors strands)).filterMap fun pair =>
        if pair.1.1 = pair.2.1 then raceOf strands pair.2.1 pair.1.2 pair.2.2 else none) := by
  have arranged : (findRaces order strands).Perm
      (checkGroups (raceOf strands) (groupByKey (accessors strands))) := by
    simp only [findRaces, racesAtLocation_eq]
    exact (order.perm _).flatMap_right _
  exact arranged.trans (checkGroups_groupByKey (raceOf strands) (accessors strands))

theorem zipIdx_zipIdx {Item : Type} (items : List Item) (base : Nat) :
    (items.zipIdx base).zipIdx base = (items.zipIdx base).map fun entry => (entry, entry.2) := by
  induction items generalizing base with
  | nil => rfl
  | cons first rest ih => simp only [List.zipIdx_cons, List.map_cons, ih]

def Recorded.accessor (recorded : Recorded) : Location × (Nat × Bool) :=
  (recorded.access.location, (recorded.strand, recorded.access.isWrite))

theorem Leaf.recorded_accessor (leaf : Leaf) (strand : Nat) :
    (leaf.recorded strand).map Recorded.accessor =
      leaf.accesses.map fun access => (access.location, (strand, access.isWrite)) := by
  have program : leaf.accesses.zipIdx.map Prod.fst = leaf.accesses :=
    List.zipIdx_map_fst 0 leaf.accesses
  rw [Leaf.recorded, List.map_map]
  conv_rhs => rw [← program, List.map_map]
  rfl

theorem accessors_rankStrands (dag : Dag) :
    accessors (rankStrands dag) = dag.recorded.map Recorded.accessor := by
  have leaves : dag.leaves = (numberedSeries 0 dag.children 0).map Prod.snd :=
    (numberedSeries_leaves 0 dag.children 0).symm
  simp only [accessors, rankStrands_eq, records, List.zipIdx_map, zipIdx_zipIdx, Dag.recorded,
    leaves, List.flatMap_map, List.map_flatMap, Leaf.recorded_accessor]
  rfl

theorem mem_rankStrands {dag : Dag} {recorded : Recorded} (member : recorded ∈ dag.recorded) :
    ∃ ranked, (numberedSeries 0 dag.children 0)[recorded.strand]? = some ranked ∧
      ranked.2.path = recorded.path ∧
      strandAt (rankStrands dag) recorded.strand =
        strandInfo recorded.strand ranked.1 ranked.2 := by
  obtain ⟨leaf, atStrand, samePath⟩ := Dag.mem_recorded member
  rw [Dag.leaves, ← numberedSeries_leaves 0 dag.children 0, List.getElem?_map,
    Option.map_eq_some_iff] at atStrand
  obtain ⟨ranked, found, rfl⟩ := atStrand
  use ranked, found, samePath.symm
  simp only [strandAt, rankStrands_eq, records, List.getD_eq_getElem?_getD, List.getElem?_map,
    List.getElem?_zipIdx, found, Option.map_some, Option.getD_some, Nat.zero_add]

/-- The records say whether two strands are in parallel. -/
theorem inParallel_iff {dag : Dag} {left right : Recorded} (leftMember : left ∈ dag.recorded)
    (rightMember : right ∈ dag.recorded) (before : left.strand < right.strand) :
    inParallel (strandAt (rankStrands dag) left.strand)
        (strandAt (rankStrands dag) right.strand) = true ↔
      lowestCommon left.path right.path = some .parallel := by
  obtain ⟨leftRanked, leftFound, leftPath, leftInfo⟩ := mem_rankStrands leftMember
  obtain ⟨rightRanked, rightFound, rightPath, rightInfo⟩ := mem_rankStrands rightMember
  have agree : Agree leftRanked rightRanked := by
    obtain ⟨leftBound, rfl⟩ := List.getElem?_eq_some_iff.mp leftFound
    obtain ⟨rightBound, rfl⟩ := List.getElem?_eq_some_iff.mp rightFound
    exact List.pairwise_iff_getElem.mp (numberedSeries_agree 0 dag.children 0) _ _ leftBound
      rightBound before
  unfold Agree at agree
  rw [leftPath, rightPath] at agree
  simp only [leftInfo, rightInfo, inParallel, strandInfo, before, decide_true, agree]
  by_cases parallel : lowestCommon left.path right.path = some .parallel <;> simp [parallel]

theorem raceOf_eq_conflict {dag : Dag} {left right : Recorded} (leftMember : left ∈ dag.recorded)
    (rightMember : right ∈ dag.recorded) (before : left.Before right) :
    (if left.accessor.1 = right.accessor.1 then
        raceOf (rankStrands dag) right.accessor.1 left.accessor.2 right.accessor.2
      else none) =
      conflict left right := by
  by_cases location : left.access.location = right.access.location
  · rcases before with earlierStrand | ⟨sameStrand, _earlier⟩
    · obtain ⟨_leftRanked, _leftFound, _leftPath, leftInfo⟩ := mem_rankStrands leftMember
      obtain ⟨_rightRanked, _rightFound, _rightPath, rightInfo⟩ := mem_rankStrands rightMember
      have parallel := inParallel_iff leftMember rightMember earlierStrand
      have apart : left.strand ≠ right.strand := Nat.ne_of_lt earlierStrand
      have englishLeft : (strandAt (rankStrands dag) left.strand).english = left.strand := by
        rw [leftInfo, strandInfo]
      have englishRight : (strandAt (rankStrands dag) right.strand).english = right.strand := by
        rw [rightInfo, strandInfo]
      simp only [Recorded.accessor, if_pos location, raceOf, englishLeft, englishRight]
      by_cases conflicts : left.Conflicts right
      · have found := parallel.mpr conflicts.parallel
        have writes : (left.access.isWrite || right.access.isWrite) = true := by
          simpa only [Bool.or_eq_true] using conflicts.writes
        simp [conflict, if_pos conflicts, apart, writes, found, location]
      · have quiet : (left.access.isWrite || right.access.isWrite) = false ∨
            inParallel (strandAt (rankStrands dag) left.strand)
              (strandAt (rankStrands dag) right.strand) = false := by
          by_contra both
          simp only [not_or, Bool.not_eq_false, Bool.or_eq_true] at both
          exact conflicts ⟨location, apart, both.1, parallel.mp both.2⟩
        rcases quiet with reads | serial
        · simp [conflict, if_neg conflicts, reads]
        · simp [conflict, if_neg conflicts, serial]
    · have none : ¬left.Conflicts right := fun conflicts => conflicts.strands sameStrand
      simp only [conflict, if_neg none, Recorded.accessor, raceOf, sameStrand, decide_true,
        Bool.true_or, if_true, ite_self]
  · have none : ¬left.Conflicts right := fun conflicts => location conflicts.location
    rw [conflict, if_neg none]
    exact if_neg location

theorem findRaces_rankStrands (dag : Dag) (order : IterationOrder) :
    (findRaces order (rankStrands dag)).Perm dag.races := by
  apply (findRaces_perm order (rankStrands dag)).trans
  rw [accessors_rankStrands, pairs_map, List.filterMap_map]
  apply List.Perm.of_eq
  apply List.filterMap_congr
  intro pair member
  have before := pairwise_of_mem_pairs dag.recorded_pairwise member
  have members := mem_of_mem_pairs member
  exact raceOf_eq_conflict members.1 members.2 before

/-- The races found are the conflicting pairs of accesses, each once. -/
theorem detectRaces_perm (dag : Dag) (order : IterationOrder) :
    (dag.detectRaces order).Perm dag.races :=
  findRaces_rankStrands dag order

end WsDeque.RaceDetection
