import WsDeque.RaceDetection.Determinacy

/-
What an answer of the detector means for schedules: it lists exactly the accesses
that two schedules make one right after the other, either way round, and it is
empty exactly when schedules agree on what they do.
-/

namespace WsDeque.RaceDetection

variable {dag : Dag} {left right : Recorded}

/-! ### What comes before what -/

theorem seriesBefore_self (path : Path) : seriesBefore path path = false := by
  induction path with
  | nil => rfl
  | cons first rest ih => simpa only [seriesBefore, if_true] using ih

theorem lowestCommon_of_seriesBefore {first second : Path}
    (before : seriesBefore first second = true) : lowestCommon first second = some .series := by
  induction first, second using seriesBefore.induct with
  | case1 kind left leftRest other rightRest ih =>
      simp only [seriesBefore, if_true] at before
      simpa only [lowestCommon, if_true] using ih before
  | case2 kind left leftRest other right rightRest apart =>
      rw [seriesBefore, if_neg apart] at before
      rw [lowestCommon, if_neg apart, (of_decide_eq_true before).1]
  | case3 first second short =>
      simp only [seriesBefore] at before
      cases before

/-- No leaf comes before one further left. -/
def Forward (left right : Leaf) : Prop :=
  seriesBefore right.path left.path = false

theorem forward_under {left right : Leaf} (kind : Composition) (index : Nat) :
    Forward (left.under kind index) (right.under kind index) ↔ Forward left right := by
  simp only [Forward, Leaf.under, seriesBefore, if_true]

mutual

theorem leaves_forward (node : Node) : node.leaves.Pairwise Forward := by
  match node with
  | .strand accesses => simp [Node.leaves]
  | .series children => simpa only [Node.leaves] using leavesFrom_forward .series 0 children
  | .parallel children => simpa only [Node.leaves] using leavesFrom_forward .parallel 0 children

theorem leavesFrom_forward (kind : Composition) (index : Nat) (children : List Node) :
    (leavesFrom kind index children).Pairwise Forward := by
  match children with
  | [] => exact .nil
  | child :: rest =>
      simp only [leavesFrom, List.pairwise_append, List.pairwise_map, forward_under]
      constructor
      · exact leaves_forward child
      · constructor
        · exact leavesFrom_forward kind (index + 1) rest
        · intro left leftMember right rightMember
          obtain ⟨inner, _innerMember, rfl⟩ := List.mem_map.mp leftMember
          obtain ⟨other, path, same, beyond⟩ :=
            leavesFrom_path kind (index + 1) rest right rightMember
          simp only [Forward, same, Leaf.under, seriesBefore]
          rw [if_neg (by omega)]
          exact decide_eq_false fun before => by omega

end

/-- What holds of all leaves from left to right holds of the strands of two accesses. -/
theorem Dag.leaves_of_strand_lt {Related : Leaf → Leaf → Prop}
    (related : dag.leaves.Pairwise Related) (leftMember : left ∈ dag.recorded)
    (rightMember : right ∈ dag.recorded) (earlier : left.strand < right.strand) :
    ∃ leftLeaf rightLeaf, left.path = leftLeaf.path ∧ right.path = rightLeaf.path ∧
      Related leftLeaf rightLeaf := by
  obtain ⟨leftLeaf, leftFound, leftPath⟩ := Dag.mem_recorded leftMember
  obtain ⟨rightLeaf, rightFound, rightPath⟩ := Dag.mem_recorded rightMember
  obtain ⟨leftBound, rfl⟩ := List.getElem?_eq_some_iff.mp leftFound
  obtain ⟨rightBound, rfl⟩ := List.getElem?_eq_some_iff.mp rightFound
  exact ⟨_, _, leftPath, rightPath,
    List.pairwise_iff_getElem.mp related _ _ leftBound rightBound earlier⟩

/-- The rank the detector gives the strand of an access. -/
def Dag.hebrewRank (dag : Dag) (recorded : Recorded) : Nat :=
  (strandAt (rankStrands dag) recorded.strand).hebrew

theorem Dag.hebrewRank_congr (dag : Dag) (same : left.strand = right.strand) :
    dag.hebrewRank left = dag.hebrewRank right := by
  rw [hebrewRank, hebrewRank, same]

theorem Dag.hebrewRank_lt_iff (leftMember : left ∈ dag.recorded)
    (rightMember : right ∈ dag.recorded) (earlier : left.strand < right.strand) :
    dag.hebrewRank left < dag.hebrewRank right ↔
      lowestCommon left.path right.path ≠ some .parallel := by
  obtain ⟨_leftRanked, _leftFound, _leftPath, leftInfo⟩ := mem_rankStrands leftMember
  obtain ⟨_rightRanked, _rightFound, _rightPath, rightInfo⟩ := mem_rankStrands rightMember
  have parallel := inParallel_iff leftMember rightMember earlier
  simp only [leftInfo, rightInfo, inParallel, strandInfo, earlier, decide_true] at parallel
  simp only [hebrewRank, leftInfo, rightInfo, strandInfo]
  rw [ne_eq, ← parallel]
  simp

/-- An access comes before another when both ranks of its strand are smaller, or
earlier in the same strand. -/
theorem Dag.precedes_iff (leftMember : left ∈ dag.recorded) (rightMember : right ∈ dag.recorded) :
    left.Precedes right ↔ left.strand = right.strand ∧ left.position < right.position ∨
      left.strand < right.strand ∧ dag.hebrewRank left < dag.hebrewRank right := by
  unfold Recorded.Precedes
  rcases Nat.lt_trichotomy left.strand right.strand with earlier | same | later
  · rw [hebrewRank_lt_iff leftMember rightMember earlier]
    obtain ⟨leftLeaf, rightLeaf, leftPath, rightPath, composed⟩ :=
      leaves_of_strand_lt (leavesFrom_composed .series 0 dag.children) leftMember rightMember
        earlier
    rw [leftPath, rightPath]
    have series : seriesBefore leftLeaf.path rightLeaf.path = true ↔
        lowestCommon leftLeaf.path rightLeaf.path ≠ some .parallel := by
      constructor
      · intro before
        rw [lowestCommon_of_seriesBefore before]
        decide
      · exact composed.resolve_left
    have apart : left.strand ≠ right.strand := Nat.ne_of_lt earlier
    simp only [series, apart, earlier, false_and, false_or, true_and]
  · obtain ⟨leftLeaf, leftFound, leftPath⟩ := Dag.mem_recorded leftMember
    obtain ⟨rightLeaf, rightFound, rightPath⟩ := Dag.mem_recorded rightMember
    rw [same, rightFound] at leftFound
    obtain rfl := Option.some.inj leftFound
    simp [leftPath, rightPath, seriesBefore_self, same]
  · obtain ⟨rightLeaf, leftLeaf, rightPath, leftPath, forward⟩ :=
      leaves_of_strand_lt (leavesFrom_forward .series 0 dag.children) rightMember leftMember later
    have backward : seriesBefore left.path right.path = false := by
      rw [leftPath, rightPath]
      exact forward
    have apart : left.strand ≠ right.strand := Nat.ne_of_gt later
    have notEarlier : ¬left.strand < right.strand := Nat.not_lt.mpr (Nat.le_of_lt later)
    simp [backward, apart, notEarlier]

/-! ### Schedules that differ in two neighbours -/

/-- Two schedules make these accesses one right after the other, one of them the
other way round. -/
def Dag.EitherWay (dag : Dag) (left right : Recorded) : Prop :=
  ∃ earlier later, dag.Schedule (earlier ++ left :: right :: later) ∧
    dag.Schedule (earlier ++ right :: left :: later)

theorem Dag.recorded_schedule (dag : Dag) : dag.Schedule dag.recorded := by
  constructor
  · exact List.Perm.refl _
  · apply dag.recorded_pairwise.imp_of_mem
    intro left right leftMember rightMember before precedes
    rw [precedes_iff rightMember leftMember] at precedes
    unfold Recorded.Before at before
    omega

/-- Accesses that neither has to come first come either way round. -/
theorem Dag.eitherWay (leftMember : left ∈ dag.recorded) (rightMember : right ∈ dag.recorded)
    (distinct : left ≠ right) (notBefore : ¬left.Precedes right)
    (notAfter : ¬right.Precedes left) : dag.EitherWay left right := by
  apply dag.recorded_schedule.side_by_side _ _ leftMember rightMember distinct notBefore notAfter
  · intro first firstMember second secondMember third thirdMember firstBefore secondBefore
    rw [precedes_iff firstMember secondMember] at firstBefore
    rw [precedes_iff secondMember thirdMember] at secondBefore
    rw [precedes_iff firstMember thirdMember]
    have firstRank : first.strand = second.strand → dag.hebrewRank first = dag.hebrewRank second :=
      dag.hebrewRank_congr
    have secondRank : second.strand = third.strand →
        dag.hebrewRank second = dag.hebrewRank third :=
      dag.hebrewRank_congr
    omega
  · intro recorded member before
    rw [precedes_iff member member] at before
    omega

theorem Dag.EitherWay.members (either : dag.EitherWay left right) :
    left ∈ dag.recorded ∧ right ∈ dag.recorded := by
  obtain ⟨earlier, later, schedule, _swapped⟩ := either
  constructor
  · exact schedule.perm.mem_iff.mp (by simp)
  · exact schedule.perm.mem_iff.mp (by simp)

theorem Dag.EitherWay.incomparable (either : dag.EitherWay left right) :
    ¬left.Precedes right ∧ ¬right.Precedes left := by
  obtain ⟨earlier, later, schedule, swapped⟩ := either
  have first := (List.pairwise_append.mp schedule.keeps).2.1
  have second := (List.pairwise_append.mp swapped.keeps).2.1
  exact ⟨(List.pairwise_cons.mp second).1 left List.mem_cons_self,
    (List.pairwise_cons.mp first).1 right List.mem_cons_self⟩

theorem parallel_iff_eitherWay (leftMember : left ∈ dag.recorded)
    (rightMember : right ∈ dag.recorded) (earlier : left.strand < right.strand) :
    lowestCommon left.path right.path = some .parallel ↔ dag.EitherWay left right := by
  have ranks := Dag.hebrewRank_lt_iff leftMember rightMember earlier
  constructor
  · intro parallel
    apply Dag.eitherWay leftMember rightMember
    · rintro rfl
      exact Nat.lt_irrefl _ earlier
    · rw [Dag.precedes_iff leftMember rightMember]
      have notRanked : ¬dag.hebrewRank left < dag.hebrewRank right := fun lower =>
        ranks.mp lower parallel
      omega
    · rw [Dag.precedes_iff rightMember leftMember]
      have apart : right.strand ≠ left.strand := Nat.ne_of_gt earlier
      have notEarlier : ¬right.strand < left.strand := Nat.not_lt.mpr (Nat.le_of_lt earlier)
      simp [apart, notEarlier]
  · intro either
    by_contra serial
    apply either.incomparable.1
    rw [Dag.precedes_iff leftMember rightMember]
    exact .inr ⟨earlier, ranks.mpr serial⟩

/-! ### Every race shows -/

/-- The detector lists the accesses of one location, one of them a write, that
schedules make one right after the other either way round, and nothing else. -/
theorem race_iff_eitherWay (dag : Dag) (order : IterationOrder) (race : Race) :
    race ∈ dag.detectRaces order ↔
      ∃ left right, left.strand < right.strand ∧
        left.access.location = right.access.location ∧
        (left.access.isWrite = true ∨ right.access.isWrite = true) ∧
        dag.EitherWay left right ∧
        race =
          { location := left.access.location
            strandA := left.strand
            strandB := right.strand
            writeA := left.access.isWrite
            writeB := right.access.isWrite } := by
  have found : (dag.detectRaces order).Perm dag.races := findRaces_rankStrands dag order
  rw [found.mem_iff, Dag.races, List.mem_filterMap]
  constructor
  · rintro ⟨⟨left, right⟩, member, isRace⟩
    have members := mem_of_mem_pairs member
    unfold conflict at isRace
    split at isRace
    · rename_i conflicts
      have earlier : left.strand < right.strand :=
        (pairwise_of_mem_pairs dag.recorded_pairwise member).resolve_right
          fun same => conflicts.strands same.1
      use left, right, earlier, conflicts.location, conflicts.writes,
        (parallel_iff_eitherWay members.1 members.2 earlier).mp conflicts.parallel
      exact (Option.some.inj isRace).symm
    · cases isRace
  · rintro ⟨left, right, earlier, location, writes, either, rfl⟩
    obtain ⟨leftMember, rightMember⟩ := either.members
    have conflicts : left.Conflicts right :=
      { location := location
        strands := Nat.ne_of_lt earlier
        writes := writes
        parallel := (parallel_iff_eitherWay leftMember rightMember earlier).mpr either }
    refine ⟨(left, right), ?_, if_pos conflicts⟩
    apply mem_pairs_of_pairwise dag.recorded_pairwise _ leftMember rightMember (.inl earlier)
    intro first second before after
    unfold Recorded.Before at before after
    omega

/-! ### Races change what a computation does -/

/-- Schedules show each read the same write and make the writes of each location in
the same order. -/
def Dag.Determinate (dag : Dag) : Prop :=
  ∀ first second, dag.Schedule first → dag.Schedule second →
    (∀ read ∈ dag.recorded, read.access.isWrite = false → seenBy first read = seenBy second read) ∧
      ∀ location, first.filter (writesTo location) = second.filter (writesTo location)

/-- A read next to a write of its location sees it in one order only. -/
theorem seenBy_neighbour {earlier later : List Recorded} {read write : Recorded}
    (nodup : (earlier ++ read :: write :: later).Nodup)
    (location : read.access.location = write.access.location)
    (writes : write.access.isWrite = true) :
    seenBy (earlier ++ read :: write :: later) read ≠
      seenBy (earlier ++ write :: read :: later) read := by
  have distinct := List.nodup_append.mp nodup
  have readFresh : read ∉ earlier := fun member =>
    distinct.2.2 read member read List.mem_cons_self rfl
  have writeFresh : write ∉ earlier := fun member =>
    distinct.2.2 write member write (List.mem_cons_of_mem _ List.mem_cons_self) rfl
  have apart : read ≠ write := fun same =>
    (List.nodup_cons.mp distinct.2.1).1 (same ▸ List.mem_cons_self)
  have stillFresh : read ∉ earlier ++ [write] := by simp [readFresh, apart]
  have regrouped : earlier ++ write :: read :: later = (earlier ++ [write]) ++ read :: later := by
    simp
  have seen : writesTo read.access.location write = true := by simp [writesTo, writes, location]
  rw [regrouped, seenBy, seenBy, ahead_append _ readFresh, ahead_append _ stillFresh,
    List.filter_append, List.filter_cons_of_pos seen, List.filter_nil, List.getLast?_concat]
  intro sameWrite
  exact writeFresh (List.mem_filter.mp (List.mem_of_getLast? sameWrite)).1

theorem writes_of_neighbours {earlier later : List Recorded}
    (nodup : (earlier ++ left :: right :: later).Nodup)
    (location : left.access.location = right.access.location)
    (leftWrites : left.access.isWrite = true) (rightWrites : right.access.isWrite = true) :
    (earlier ++ left :: right :: later).filter (writesTo left.access.location) ≠
      (earlier ++ right :: left :: later).filter (writesTo left.access.location) := by
  have distinct := (List.nodup_append.mp nodup).2.1
  have leftSeen : writesTo left.access.location left = true := by simp [writesTo, leftWrites]
  have rightSeen : writesTo left.access.location right = true := by
    simp [writesTo, rightWrites, location]
  simp only [List.filter_append, List.filter_cons_of_pos leftSeen,
    List.filter_cons_of_pos rightSeen]
  intro same
  have swapped := (List.cons.inj (List.append_cancel_left same)).1
  exact (List.nodup_cons.mp distinct).1 (swapped ▸ List.mem_cons_self)

theorem Dag.EitherWay.not_determinate (either : dag.EitherWay left right)
    (location : left.access.location = right.access.location)
    (writes : left.access.isWrite = true ∨ right.access.isWrite = true) : ¬dag.Determinate := by
  intro determinate
  obtain ⟨leftMember, rightMember⟩ := either.members
  obtain ⟨earlier, later, schedule, swapped⟩ := either
  have nodup := schedule.perm.nodup_iff.mpr dag.recorded_nodup
  have swappedNodup := swapped.perm.nodup_iff.mpr dag.recorded_nodup
  obtain ⟨sameSeen, sameWrites⟩ := determinate _ _ schedule swapped
  by_cases leftWrites : left.access.isWrite = true
  · by_cases rightWrites : right.access.isWrite = true
    · exact writes_of_neighbours nodup location leftWrites rightWrites
        (sameWrites left.access.location)
    · exact seenBy_neighbour swappedNodup location.symm leftWrites
        (sameSeen right rightMember (Bool.eq_false_iff.mpr rightWrites)).symm
  · exact seenBy_neighbour nodup location (writes.resolve_left leftWrites)
      (sameSeen left leftMember (Bool.eq_false_iff.mpr leftWrites))

/-- The detector is silent about a computation exactly when its schedules all do
the same. -/
theorem detectRaces_nil_iff_determinate (dag : Dag) (order : IterationOrder) :
    dag.detectRaces order = [] ↔ dag.Determinate := by
  have found : (dag.detectRaces order).Perm dag.races := findRaces_rankStrands dag order
  constructor
  · intro silent first second firstSchedule secondSchedule
    rw [silent] at found
    have none : dag.races = [] := List.nil_perm.mp found
    constructor
    · intro read member reads
      rw [seenBy_eq none firstSchedule member reads, seenBy_eq none secondSchedule member reads,
        writes_eq none firstSchedule secondSchedule]
    · exact writes_eq none firstSchedule secondSchedule
  · intro determinate
    have none : dag.races = [] := by
      rw [Dag.races, List.filterMap_eq_nil_iff]
      intro pair member
      apply if_neg
      intro conflicts
      have members := mem_of_mem_pairs member
      have earlier : pair.1.strand < pair.2.strand :=
        (pairwise_of_mem_pairs dag.recorded_pairwise member).resolve_right
          fun same => conflicts.strands same.1
      have either := (parallel_iff_eitherWay members.1 members.2 earlier).mp conflicts.parallel
      exact either.not_determinate conflicts.location conflicts.writes determinate
    exact List.perm_nil.mp (none ▸ found)

end WsDeque.RaceDetection
