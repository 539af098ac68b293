import Mathlib.Data.List.Basic
import WsDeque.RaceDetection.Model

/-
The tree the detector reasons about, by the paths of its leaves, and the two
numberings as functions of it: between two leaves the Hebrew order turns the
English one around exactly below a parallel composition.
-/

namespace WsDeque.RaceDetection

/-! ### Leaves and their paths -/

inductive Composition
  | series
  | parallel
  deriving DecidableEq

/-- From the root down: each composition with the index of the child taken. -/
abbrev Path := List (Composition × Nat)

structure Leaf where
  path : Path
  accesses : List Access

def Leaf.under (kind : Composition) (index : Nat) (leaf : Leaf) : Leaf :=
  { leaf with path := (kind, index) :: leaf.path }

mutual

/-- The strands of a computation, left to right. -/
def Node.leaves : Node → List Leaf
  | .strand accesses => [{ path := [], accesses := accesses }]
  | .series children => leavesFrom .series 0 children
  | .parallel children => leavesFrom .parallel 0 children

def leavesFrom (kind : Composition) (index : Nat) : List Node → List Leaf
  | [] => []
  | child :: rest => child.leaves.map (Leaf.under kind index) ++ leavesFrom kind (index + 1) rest

end

/-- The root composes its children in series. -/
def Dag.leaves (dag : Dag) : List Leaf :=
  leavesFrom .series 0 dag.children

/-- The kind of the lowest common ancestor of two different leaves. -/
def lowestCommon : Path → Path → Option Composition
  | (kind, left) :: leftRest, (_, right) :: rightRest =>
      if left = right then lowestCommon leftRest rightRest else some kind
  | _, _ => none

/-! ### Hebrew ranks -/

def rankUnder (kind : Composition) (index : Nat) (ranked : Nat × Leaf) : Nat × Leaf :=
  (ranked.1, ranked.2.under kind index)

mutual

/-- The leaves left to right, each with its Hebrew rank, counting from the given one. -/
def numbered : Node → Nat → List (Nat × Leaf)
  | .strand accesses, hebrew => [(hebrew, { path := [], accesses := accesses })]
  | .series children, hebrew => numberedSeries 0 children hebrew
  | .parallel children, hebrew => numberedParallel 0 children hebrew

def numberedSeries (index : Nat) : List Node → Nat → List (Nat × Leaf)
  | [], _ => []
  | child :: rest, hebrew =>
      (numbered child hebrew).map (rankUnder .series index) ++
        numberedSeries (index + 1) rest (hebrew + countStrands child)

/-- The children further right are ranked first. -/
def numberedParallel (index : Nat) : List Node → Nat → List (Nat × Leaf)
  | [], _ => []
  | child :: rest, hebrew =>
      (numbered child (hebrew + countStrandsAll rest)).map (rankUnder .parallel index) ++
        numberedParallel (index + 1) rest hebrew

end

mutual

theorem numbered_leaves (node : Node) (hebrew : Nat) :
    (numbered node hebrew).map Prod.snd = node.leaves := by
  match node with
  | .strand accesses => simp [numbered, Node.leaves]
  | .series children =>
      simpa only [numbered, Node.leaves] using numberedSeries_leaves 0 children hebrew
  | .parallel children =>
      simpa only [numbered, Node.leaves] using numberedParallel_leaves 0 children hebrew

theorem numberedSeries_leaves (index : Nat) (children : List Node) (hebrew : Nat) :
    (numberedSeries index children hebrew).map Prod.snd = leavesFrom .series index children := by
  match children with
  | [] => rfl
  | child :: rest =>
      simp only [numberedSeries, leavesFrom, List.map_append, numberedSeries_leaves,
        ← numbered_leaves child hebrew, List.map_map]
      rfl

theorem numberedParallel_leaves (index : Nat) (children : List Node) (hebrew : Nat) :
    (numberedParallel index children hebrew).map Prod.snd =
      leavesFrom .parallel index children := by
  match children with
  | [] => rfl
  | child :: rest =>
      simp only [numberedParallel, leavesFrom, List.map_append, numberedParallel_leaves,
        ← numbered_leaves child (hebrew + countStrandsAll rest), List.map_map]
      rfl

end

mutual

theorem leaves_length (node : Node) : node.leaves.length = countStrands node := by
  match node with
  | .strand accesses => simp [Node.leaves, countStrands]
  | .series children =>
      simpa only [Node.leaves, countStrands] using leavesFrom_length .series 0 children
  | .parallel children =>
      simpa only [Node.leaves, countStrands] using leavesFrom_length .parallel 0 children

theorem leavesFrom_length (kind : Composition) (index : Nat) (children : List Node) :
    (leavesFrom kind index children).length = countStrandsAll children := by
  match children with
  | [] => rfl
  | child :: rest =>
      simp only [leavesFrom, List.length_append, List.length_map, leaves_length child,
        leavesFrom_length kind (index + 1) rest, countStrandsAll]

end

theorem numbered_length (node : Node) (hebrew : Nat) :
    (numbered node hebrew).length = countStrands node := by
  rw [← leaves_length, ← numbered_leaves node hebrew, List.length_map]

mutual

theorem numbered_within (node : Node) (hebrew : Nat) :
    ∀ ranked ∈ numbered node hebrew,
      hebrew ≤ ranked.1 ∧ ranked.1 < hebrew + countStrands node := by
  match node with
  | .strand accesses => simp [numbered, countStrands]
  | .series children =>
      simpa only [numbered, countStrands] using numberedSeries_within 0 children hebrew
  | .parallel children =>
      simpa only [numbered, countStrands] using numberedParallel_within 0 children hebrew

theorem numberedSeries_within (index : Nat) (children : List Node) (hebrew : Nat) :
    ∀ ranked ∈ numberedSeries index children hebrew,
      hebrew ≤ ranked.1 ∧ ranked.1 < hebrew + countStrandsAll children := by
  match children with
  | [] => exact fun ranked member => nomatch member
  | child :: rest =>
      intro ranked member
      simp only [numberedSeries, List.mem_append, List.mem_map] at member
      simp only [countStrandsAll]
      rcases member with ⟨inner, innerMember, rfl⟩ | later
      · have within := numbered_within child hebrew inner innerMember
        simp only [rankUnder]
        omega
      · have within := numberedSeries_within (index + 1) rest _ ranked later
        omega

theorem numberedParallel_within (index : Nat) (children : List Node) (hebrew : Nat) :
    ∀ ranked ∈ numberedParallel index children hebrew,
      hebrew ≤ ranked.1 ∧ ranked.1 < hebrew + countStrandsAll children := by
  match children with
  | [] => exact fun ranked member => nomatch member
  | child :: rest =>
      intro ranked member
      simp only [numberedParallel, List.mem_append, List.mem_map] at member
      simp only [countStrandsAll]
      rcases member with ⟨inner, innerMember, rfl⟩ | later
      · have within := numbered_within child _ inner innerMember
        simp only [rankUnder]
        omega
      · have within := numberedParallel_within (index + 1) rest hebrew ranked later
        omega

end

/-- Every leaf below the children starts with the composition and the index of
one of them. -/
theorem leavesFrom_path (kind : Composition) (index : Nat) (children : List Node) :
    ∀ leaf ∈ leavesFrom kind index children,
      ∃ child rest, leaf.path = (kind, child) :: rest ∧ index ≤ child := by
  induction children generalizing index with
  | nil => exact fun leaf member => nomatch member
  | cons child rest ih =>
      intro leaf member
      simp only [leavesFrom, List.mem_append, List.mem_map] at member
      rcases member with ⟨inner, _innerMember, rfl⟩ | later
      · exact ⟨index, inner.path, rfl, Nat.le_refl _⟩
      · obtain ⟨other, path, same, beyond⟩ := ih (index + 1) leaf later
        exact ⟨other, path, same, by omega⟩

/-- Two leaves in their order from left to right, with their Hebrew ranks. -/
def Agree (left right : Nat × Leaf) : Prop :=
  left.1 < right.1 ↔ lowestCommon left.2.path right.2.path ≠ some .parallel

theorem agree_under {left right : Nat × Leaf} (kind : Composition) (index : Nat) :
    Agree (rankUnder kind index left) (rankUnder kind index right) ↔ Agree left right := by
  simp only [Agree, rankUnder, Leaf.under, lowestCommon, if_true]

/-- Leaves below different children meet at the composition itself. -/
theorem lowestCommon_children {kind : Composition} {index : Nat} {rest : List Node}
    {left right : Leaf} (member : right ∈ leavesFrom kind (index + 1) rest) :
    lowestCommon (left.under kind index).path right.path = some kind := by
  obtain ⟨other, path, same, beyond⟩ := leavesFrom_path kind (index + 1) rest right member
  rw [same]
  simp only [Leaf.under, lowestCommon]
  exact if_neg (by omega)

mutual

theorem numbered_agree (node : Node) (hebrew : Nat) : (numbered node hebrew).Pairwise Agree := by
  match node with
  | .strand accesses => simp [numbered]
  | .series children => simpa only [numbered] using numberedSeries_agree 0 children hebrew
  | .parallel children => simpa only [numbered] using numberedParallel_agree 0 children hebrew

theorem numberedSeries_agree (index : Nat) (children : List Node) (hebrew : Nat) :
    (numberedSeries index children hebrew).Pairwise Agree := by
  match children with
  | [] => exact .nil
  | child :: rest =>
      simp only [numberedSeries, List.pairwise_append, List.pairwise_map, agree_under]
      refine ⟨numbered_agree child hebrew, numberedSeries_agree (index + 1) rest _, ?_⟩
      intro left leftMember right rightMember
      obtain ⟨inner, innerMember, rfl⟩ := List.mem_map.mp leftMember
      have before := (numbered_within child hebrew inner innerMember).2
      have behind := (numberedSeries_within (index + 1) rest _ right rightMember).1
      have leaf : right.2 ∈ leavesFrom .series (index + 1) rest := by
        rw [← numberedSeries_leaves (index + 1) rest (hebrew + countStrands child)]
        exact List.mem_map_of_mem rightMember
      simp only [Agree, rankUnder, lowestCommon_children leaf]
      exact iff_of_true (by omega) (by decide)

theorem numberedParallel_agree (index : Nat) (children : List Node) (hebrew : Nat) :
    (numberedParallel index children hebrew).Pairwise Agree := by
  match children with
  | [] => exact .nil
  | child :: rest =>
      simp only [numberedParallel, List.pairwise_append, List.pairwise_map, agree_under]
      refine ⟨numbered_agree child _, numberedParallel_agree (index + 1) rest hebrew, ?_⟩
      intro left leftMember right rightMember
      obtain ⟨inner, innerMember, rfl⟩ := List.mem_map.mp leftMember
      have behind := (numbered_within child _ inner innerMember).1
      have before := (numberedParallel_within (index + 1) rest hebrew right rightMember).2
      have leaf : right.2 ∈ leavesFrom .parallel (index + 1) rest := by
        rw [← numberedParallel_leaves (index + 1) rest hebrew]
        exact List.mem_map_of_mem rightMember
      simp only [Agree, rankUnder, lowestCommon_children leaf]
      exact iff_of_false (by omega) (by decide)

end

end WsDeque.RaceDetection
