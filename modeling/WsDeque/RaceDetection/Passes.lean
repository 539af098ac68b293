import WsDeque.RaceDetection.Order

/-
What the English and the Hebrew pass write: after both, the record of each
strand has its place from left to right, its Hebrew rank and its accesses.
-/

namespace WsDeque.RaceDetection

def strandInfo (english hebrew : Nat) (leaf : Leaf) : StrandInfo :=
  { english := english
    hebrew := hebrew
    accesses := leaf.accesses }

/-- Records of consecutive strands with their Hebrew ranks. -/
def records (base : Nat) (ranked : List (Nat × Leaf)) : List StrandInfo :=
  (ranked.zipIdx base).map fun entry => strandInfo entry.2 entry.1.1 entry.1.2

/-- Records before the Hebrew pass. -/
def blank (base : Nat) (leaves : List Leaf) : List StrandInfo :=
  (leaves.zipIdx base).map fun entry => strandInfo entry.2 unranked entry.1

theorem records_append (base : Nat) (left right : List (Nat × Leaf)) :
    records base (left ++ right) = records base left ++ records (base + left.length) right := by
  unfold records
  rw [List.zipIdx_append, List.map_append]

theorem blank_append (base : Nat) (left right : List Leaf) :
    blank base (left ++ right) = blank base left ++ blank (base + left.length) right := by
  unfold blank
  rw [List.zipIdx_append, List.map_append]

@[simp] theorem records_length (base : Nat) (ranked : List (Nat × Leaf)) :
    (records base ranked).length = ranked.length := by
  simp [records]

@[simp] theorem blank_length (base : Nat) (leaves : List Leaf) :
    (blank base leaves).length = leaves.length := by
  simp [blank]

/-- A record does not show what the leaf is under. -/
theorem records_under (base : Nat) (kind : Composition) (index : Nat)
    (ranked : List (Nat × Leaf)) :
    records base (ranked.map (rankUnder kind index)) = records base ranked := by
  unfold records
  rw [List.zipIdx_map, List.map_map]
  rfl

theorem blank_under (base : Nat) (kind : Composition) (index : Nat) (leaves : List Leaf) :
    blank base (leaves.map (Leaf.under kind index)) = blank base leaves := by
  unfold blank
  rw [List.zipIdx_map, List.map_map]
  rfl

/-! ### The English pass -/

mutual

theorem assignEnglish_eq (node : Node) (counter : Nat) (out : List StrandInfo) :
    assignEnglish node counter out =
      (counter + countStrands node, out ++ blank counter node.leaves) := by
  match node with
  | .strand accesses => simp [assignEnglish, countStrands, Node.leaves, blank, strandInfo]
  | .series children =>
      simpa only [assignEnglish, countStrands, Node.leaves] using
        assignEnglishAll_eq .series 0 children counter out
  | .parallel children =>
      simpa only [assignEnglish, countStrands, Node.leaves] using
        assignEnglishAll_eq .parallel 0 children counter out

theorem assignEnglishAll_eq (kind : Composition) (index : Nat) (children : List Node)
    (counter : Nat) (out : List StrandInfo) :
    assignEnglishAll children counter out =
      (counter + countStrandsAll children,
        out ++ blank counter (leavesFrom kind index children)) := by
  match children with
  | [] => simp [assignEnglishAll, countStrandsAll, leavesFrom, blank]
  | child :: rest =>
      simp only [assignEnglishAll, assignEnglish_eq child,
        assignEnglishAll_eq kind (index + 1) rest, countStrandsAll, leavesFrom, blank_append,
        blank_under, List.length_map, leaves_length, List.append_assoc, Nat.add_assoc]

end

/-! ### The Hebrew pass -/

theorem modify_middle {Item : Type} (before after : List Item) (middle : Item)
    (change : Item → Item) :
    (before ++ middle :: after).modify before.length change = before ++ change middle :: after := by
  induction before with
  | nil => rfl
  | cons first rest ih => simp only [List.cons_append, List.length_cons, List.modify_succ_cons, ih]

/-- The walk at the start of its strands, which follow those in `before`. -/
def entering (hebrew : Nat) (before : List StrandInfo) (leaves : List Leaf)
    (after : List StrandInfo) : Walk :=
  { hebrew := hebrew
    out := before ++ (blank before.length leaves ++ after)
    englishCursor := before.length }

mutual

/-- A walk over a subtree writes the ranks of its own strands and no others. -/
theorem hebrewWalk_eq (node : Node) (hebrew : Nat) (before after : List StrandInfo) :
    hebrewWalk node (entering hebrew before node.leaves after) =
      { hebrew := hebrew + countStrands node
        out := before ++ (records before.length (numbered node hebrew) ++ after)
        englishCursor := before.length + countStrands node } := by
  match node with
  | .strand accesses =>
      simp only [hebrewWalk, entering, countStrands, Node.leaves, numbered, records, blank,
        List.zipIdx_cons, List.zipIdx_nil, List.map_cons, List.map_nil, List.cons_append,
        List.nil_append, modify_middle, strandInfo]
  | .series children =>
      simpa only [hebrewWalk, countStrands, Node.leaves, numbered] using
        hebrewSeries_eq 0 children hebrew before after
  | .parallel children =>
      have done := hebrewParallel_eq 0 children hebrew before after
      simp only [hebrewWalk, countStrands, Node.leaves, numbered, done.1, done.2]
      rfl

theorem hebrewSeries_eq (index : Nat) (children : List Node) (hebrew : Nat)
    (before after : List StrandInfo) :
    hebrewSeries children (entering hebrew before (leavesFrom .series index children) after) =
      { hebrew := hebrew + countStrandsAll children
        out := before ++ (records before.length (numberedSeries index children hebrew) ++ after)
        englishCursor := before.length + countStrandsAll children } := by
  match children with
  | [] => rfl
  | child :: rest =>
      have first := hebrewWalk_eq child hebrew before
        (blank (before.length + countStrands child) (leavesFrom .series (index + 1) rest) ++ after)
      have others := hebrewSeries_eq (index + 1) rest (hebrew + countStrands child)
        (before ++ records before.length (numbered child hebrew)) after
      simp only [entering, List.length_append, records_length, numbered_length,
        List.append_assoc] at first others
      simp only [entering, hebrewSeries, leavesFrom, numberedSeries, countStrandsAll, blank_append,
        blank_under, records_append, records_under, List.length_map, leaves_length,
        numbered_length, List.append_assoc, first, others, Nat.add_assoc]

/-- The cursor is left to the caller, which overwrites it. -/
theorem hebrewParallel_eq (index : Nat) (children : List Node) (hebrew : Nat)
    (before after : List StrandInfo) :
    (hebrewParallel children
        (entering hebrew before (leavesFrom .parallel index children) after)).hebrew =
      hebrew + countStrandsAll children ∧
    (hebrewParallel children
        (entering hebrew before (leavesFrom .parallel index children) after)).out =
      before ++ (records before.length (numberedParallel index children hebrew) ++ after) := by
  match children with
  | [] => exact ⟨rfl, rfl⟩
  | child :: rest =>
      have later := hebrewParallel_eq (index + 1) rest hebrew
        (before ++ blank before.length child.leaves) after
      have first := hebrewWalk_eq child (hebrew + countStrandsAll rest) before
        (records (before.length + countStrands child) (numberedParallel (index + 1) rest hebrew) ++
          after)
      simp only [entering, List.length_append, blank_length, leaves_length,
        List.append_assoc] at later first
      simp only [entering, hebrewParallel, leavesFrom, numberedParallel, countStrandsAll,
        blank_append, blank_under, records_append, records_under, List.length_map, leaves_length,
        numbered_length, List.append_assoc, later.1, later.2, first]
      constructor
      · omega
      · trivial

end

/-- The root is walked like a series. -/
theorem hebrewRoot_eq (index : Nat) (children : List Node) (hebrew : Nat)
    (before : List StrandInfo) :
    hebrewRoot children hebrew
        (before ++ blank before.length (leavesFrom .series index children)) before.length =
      before ++ records before.length (numberedSeries index children hebrew) := by
  induction children generalizing index hebrew before with
  | nil => rfl
  | cons child rest ih =>
      have first := hebrewWalk_eq child hebrew before
        (blank (before.length + countStrands child) (leavesFrom .series (index + 1) rest))
      have others := ih (index + 1) (hebrew + countStrands child)
        (before ++ records before.length (numbered child hebrew))
      simp only [entering, List.length_append, records_length, numbered_length,
        List.append_assoc] at first others
      simp only [hebrewRoot, leavesFrom, numberedSeries, blank_append, blank_under,
        records_append, records_under, List.length_map, leaves_length, numbered_length, first,
        others]

/-- The strands of a computation as the detector records them. -/
theorem rankStrands_eq (dag : Dag) :
    rankStrands dag = records 0 (numberedSeries 0 dag.children 0) := by
  unfold rankStrands
  rw [assignEnglishAll_eq .series 0]
  exact hebrewRoot_eq 0 dag.children 0 []

end WsDeque.RaceDetection
