import Mathlib.Data.List.Chain
import WsDeque.Bwos.Unbounded

/-
The owner's blocks as a path from the head: `prev` and `next` agree along it,
and every link leads to a later allocation.
-/

namespace WsDeque.Bwos.Unbounded

structure Linked (inner : Inner) (order : List Nat) : Prop where
  path : order.IsChain fun earlier later =>
    inner.next earlier = some later ∧ inner.prev later = some earlier
  start : order.head? = some inner.head
  first : inner.prev inner.head = none
  forward : ∀ blk next, inner.next blk = some next → blk < next ∧ next < inner.allocated
  within : ∀ blk ∈ order, blk < inner.allocated

variable {inner : Inner} {order older : List Nat} {current : Nat}

/-- The links decide, not what is in the blocks. -/
theorem Linked.setBlock (linked : Linked inner order) (blk : Nat) (block : Block) :
    Linked (inner.setBlock blk block) order :=
  ⟨linked.path, linked.start, linked.first, linked.forward, linked.within⟩

theorem Linked.sorted (linked : Linked inner order) : order.Pairwise (· < ·) := by
  rw [← List.isChain_iff_pairwise]
  exact linked.path.imp fun earlier later both => (linked.forward earlier later both.1).1

theorem Linked.le_last (linked : Linked inner (older ++ [current])) {blk : Nat}
    (member : blk ∈ older ++ [current]) : blk ≤ current := by
  have sorted := linked.sorted
  rw [List.pairwise_append] at sorted
  rcases List.mem_append.mp member with behind | here
  · exact Nat.le_of_lt (sorted.2.2 blk behind current (List.mem_singleton_self current))
  · exact Nat.le_of_eq (List.mem_singleton.mp here)

theorem Linked.lt_last (linked : Linked inner (older ++ [current])) {blk : Nat}
    (member : blk ∈ older) : blk < current := by
  have sorted := linked.sorted
  rw [List.pairwise_append] at sorted
  exact sorted.2.2 blk member current (List.mem_singleton_self current)

/-- From a block of the path with a later one, `next` leads along the path. -/
theorem Linked.successor (linked : Linked inner order) {blk later : Nat} (member : blk ∈ order)
    (laterMember : later ∈ order) (before : blk < later) :
    ∃ next, inner.next blk = some next ∧ next ∈ order ∧ next ≤ later := by
  obtain ⟨left, right, rfl⟩ := List.append_of_mem member
  have sorted := linked.sorted
  rw [List.pairwise_append, List.pairwise_cons] at sorted
  have behind : later ∈ right := by
    rcases List.mem_append.mp laterMember with early | late
    · have earlier := sorted.2.2 later early blk List.mem_cons_self
      omega
    · rcases List.mem_cons.mp late with same | there
      · omega
      · exact there
  cases right with
  | nil => cases behind
  | cons next rest =>
      have linkedPair := (List.isChain_append_cons_cons.mp linked.path).2.1
      refine ⟨next, linkedPair.1, by simp, ?_⟩
      rcases List.mem_cons.mp behind with same | further
      · exact Nat.le_of_eq same.symm
      · exact Nat.le_of_lt ((List.pairwise_cons.mp sorted.2.1.2).1 later further)

theorem Linked.prev_first (linked : Linked inner [current]) : inner.prev current = none := by
  have same : current = inner.head := Option.some.inj linked.start
  rw [same]
  exact linked.first

theorem Linked.prev_last {prev : Nat} (linked : Linked inner (older ++ [prev] ++ [current])) :
    inner.prev current = some prev :=
  ((List.isChain_append.mp linked.path).2.2 prev (by simp) current (by simp)).2

/-- The owner steps back along `prev`. -/
theorem Linked.stepBack (linked : Linked inner (older ++ [current])) {prev : Nat}
    (behind : inner.prev current = some prev) :
    ∃ rest, older = rest ++ [prev] ∧ Linked inner older := by
  rcases List.eq_nil_or_concat' older with none | ⟨rest, last, split⟩
  · subst none
    rw [Linked.prev_first linked] at behind
    cases behind
  · subst split
    have pair := List.isChain_append.mp linked.path
    rw [linked.prev_last] at behind
    cases behind
    refine ⟨rest, rfl,
      { path := pair.1
        start := ?_
        first := linked.first
        forward := linked.forward
        within := fun blk member => linked.within blk (List.mem_append_left _ member) }⟩
    have start := linked.start
    rwa [List.head?_append_of_ne_nil _ (by simp)] at start

theorem Linked.alloc (linked : Linked inner order) (prev : Option Nat) :
    Linked (inner.alloc prev) order := by
  have old : ∀ blk, blk < inner.allocated →
      (inner.alloc prev).next blk = inner.next blk ∧
        (inner.alloc prev).prev blk = inner.prev blk := fun blk below =>
    ⟨Function.update_of_ne (Nat.ne_of_lt below) .., Function.update_of_ne (Nat.ne_of_lt below) ..⟩
  refine
    { path := linked.path.imp_of_mem_imp fun earlier later before after link => ?_
      start := linked.start
      first := ?_
      forward := fun blk next link => ?_
      within := fun blk member => Nat.lt_succ_of_lt (linked.within blk member) }
  · rw [(old earlier (linked.within earlier before)).1, (old later (linked.within later after)).2]
    exact link
  · have headWithin : inner.head < inner.allocated :=
      linked.within inner.head (List.mem_of_head? linked.start)
    exact (old inner.head headWithin).2.trans linked.first
  · by_cases fresh : blk = inner.allocated
    · subst fresh
      have none : (inner.alloc prev).next inner.allocated = none := Function.update_self ..
      rw [none] at link
      cases link
    · have same : (inner.alloc prev).next blk = inner.next blk := Function.update_of_ne fresh ..
      rw [same] at link
      obtain ⟨later, below⟩ := linked.forward blk next link
      exact ⟨later, Nat.lt_succ_of_lt below⟩

/-- The owner links a fresh block behind its own and enters it. -/
theorem Linked.setNext (linked : Linked inner (older ++ [current])) {fresh : Nat}
    (back : inner.prev fresh = some current) (later : current < fresh)
    (below : fresh < inner.allocated) :
    Linked (inner.setNext current fresh) (older ++ [current] ++ [fresh]) := by
  have linkHere : (inner.setNext current fresh).next current = some fresh :=
    Function.update_self ..
  have linkThere : ∀ blk, blk ≠ current →
      (inner.setNext current fresh).next blk = inner.next blk :=
    fun blk different => Function.update_of_ne different ..
  refine
    { path := ?_
      start := ?_
      first := linked.first
      forward := fun blk next link => ?_
      within := fun blk member => ?_ }
  · rw [List.append_assoc]
    refine List.isChain_append_cons_cons.mpr ⟨?_, ⟨linkHere, back⟩, .singleton fresh⟩
    have path := List.isChain_append.mp linked.path
    refine .append (path.1.imp_of_mem_imp fun earlier next before after link => ?_)
      (.singleton current) fun last isLast first isFirst => ?_
    · rw [linkThere earlier (Nat.ne_of_lt (linked.lt_last before))]
      exact link
    · have member : last ∈ older := List.mem_of_getLast? isLast
      rw [linkThere last (Nat.ne_of_lt (linked.lt_last member))]
      exact path.2.2 last isLast first isFirst
  · rw [List.head?_append_of_ne_nil _ (by simp)]
    exact linked.start
  · by_cases here : blk = current
    · subst here
      rw [linkHere] at link
      cases link
      exact ⟨later, below⟩
    · rw [linkThere blk here] at link
      exact linked.forward blk next link
  · rcases List.mem_append.mp member with old | new
    · exact linked.within blk old
    · rw [List.mem_singleton.mp new]
      exact below

end WsDeque.Bwos.Unbounded
