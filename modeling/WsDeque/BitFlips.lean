import Mathlib.Combinatorics.SimpleGraph.Metric
import Mathlib.Data.Nat.Bitwise
import Mathlib.Data.Nat.Log

/-
The numbers below a bound as a graph, an edge for each flipped bit. The bound
need not be a power of two: a shortest path clears bits before it sets any.
-/

namespace WsDeque.BitFlips

/-- The bits in which two numbers differ. -/
def differing (left right : Nat) : Finset Nat :=
  (Finset.range (max left right)).filter fun bit => left.testBit bit ≠ right.testBit bit

theorem bit_lt {number bit : Nat} (set : number.testBit bit = true) : bit < number :=
  Nat.lt_of_lt_of_le Nat.lt_two_pow_self (Nat.ge_two_pow_of_testBit set)

theorem mem_differing {left right bit : Nat} :
    bit ∈ differing left right ↔ left.testBit bit ≠ right.testBit bit := by
  unfold differing
  rw [Finset.mem_filter, Finset.mem_range]
  refine ⟨And.right, fun differ => ⟨?_, differ⟩⟩
  cases onLeft : left.testBit bit with
  | true => exact lt_max_of_lt_left (bit_lt onLeft)
  | false =>
      rw [onLeft] at differ
      exact lt_max_of_lt_right (bit_lt (Bool.eq_true_of_not_eq_false (Ne.symm differ)))

theorem differing_eq_empty {left right : Nat} : differing left right = ∅ ↔ left = right := by
  constructor
  · intro none
    apply Nat.eq_of_testBit_eq
    intro bit
    by_contra differ
    have member := mem_differing.mpr differ
    rw [none] at member
    exact Finset.notMem_empty bit member
  · rintro rfl
    ext bit
    simp [mem_differing]

/-! ### One flip -/

theorem testBit_flip (number bit other : Nat) :
    (number ^^^ 2 ^ bit).testBit other =
      if bit = other then !number.testBit other else number.testBit other := by
  rw [Nat.testBit_xor, Nat.testBit_two_pow]
  by_cases same : bit = other <;> simp [same]

theorem flip_flip (number bit : Nat) : number ^^^ 2 ^ bit ^^^ 2 ^ bit = number := by
  rw [Nat.xor_assoc, Nat.xor_self, Nat.xor_zero]

theorem flip_ne (number bit : Nat) : number ^^^ 2 ^ bit ≠ number := by
  intro same
  have flipped := testBit_flip number bit bit
  rw [same, if_pos rfl] at flipped
  exact Bool.self_ne_not _ flipped

theorem flip_injective {number bit other : Nat}
    (same : number ^^^ 2 ^ bit = number ^^^ 2 ^ other) : bit = other := by
  have flipped := testBit_flip number bit bit
  rw [same, testBit_flip, if_pos rfl] at flipped
  by_contra different
  rw [if_neg (Ne.symm different)] at flipped
  exact Bool.self_ne_not _ flipped

/-- One of two neighbours has the flipped bit. -/
theorem two_pow_lt_of_flip {number bit bound : Nat} (below : number < bound)
    (flipped : number ^^^ 2 ^ bit < bound) : 2 ^ bit < bound := by
  cases set : number.testBit bit with
  | true => exact Nat.lt_of_le_of_lt (Nat.ge_two_pow_of_testBit set) below
  | false =>
      have now : (number ^^^ 2 ^ bit).testBit bit = true := by
        rw [testBit_flip, if_pos rfl, set]
        rfl
      exact Nat.lt_of_le_of_lt (Nat.ge_two_pow_of_testBit now) flipped

theorem flip_lt_of_set {number bit : Nat} (set : number.testBit bit = true) :
    number ^^^ 2 ^ bit < number := by
  refine Nat.lt_of_testBit bit ?_ set fun other later => ?_
  · rw [testBit_flip, if_pos rfl, set]
    rfl
  · rw [testBit_flip, if_neg (Nat.ne_of_lt later)]

/-- Every bit of the one is a bit of the other. -/
theorem le_of_bits {left right : Nat}
    (bits : ∀ bit, left.testBit bit = true → right.testBit bit = true) : left ≤ right := by
  have both : left &&& right = left := by
    apply Nat.eq_of_testBit_eq
    intro bit
    rw [Nat.testBit_and]
    cases set : left.testBit bit with
    | true => rw [bits bit set, Bool.true_and]
    | false => rw [Bool.false_and]
  rw [← both]
  exact Nat.and_le_right

theorem differing_flip {left right bit : Nat} (member : bit ∈ differing left right) :
    differing (left ^^^ 2 ^ bit) right = (differing left right).erase bit := by
  ext other
  rw [Finset.mem_erase, mem_differing, mem_differing, testBit_flip]
  by_cases same : bit = other
  · subst same
    rw [mem_differing] at member
    rw [if_pos rfl]
    exact ⟨fun differ => absurd (Bool.not_eq.mpr member) differ, fun both => absurd rfl both.1⟩
  · rw [if_neg same]
    exact ⟨fun differ => ⟨Ne.symm same, differ⟩, And.right⟩

/-- A step towards the goal that stays below the bound. -/
theorem exists_flip {left right bound : Nat} (leftBelow : left < bound) (rightBelow : right < bound)
    (different : left ≠ right) :
    ∃ bit ∈ differing left right, left ^^^ 2 ^ bit < bound := by
  by_cases clears : ∃ bit ∈ differing left right, left.testBit bit = true
  · obtain ⟨bit, member, set⟩ := clears
    exact ⟨bit, member, Nat.lt_trans (flip_lt_of_set set) leftBelow⟩
  · -- Every bit left to flip is one of the goal's, as are those already set.
    obtain ⟨bit, member⟩ := Finset.nonempty_iff_ne_empty.mpr
      (fun none => different (differing_eq_empty.mp none))
    refine ⟨bit, member, Nat.lt_of_le_of_lt (le_of_bits fun other set => ?_) rightBelow⟩
    rw [testBit_flip] at set
    by_contra unset
    by_cases same : bit = other
    · subst same
      exact clears ⟨bit, member, by
        rw [mem_differing] at member
        cases onLeft : left.testBit bit with
        | true => rfl
        | false =>
            rw [onLeft] at member
            exact absurd (Bool.eq_true_of_not_eq_false (Ne.symm member)) unset⟩
    · rw [if_neg same] at set
      refine clears ⟨other, mem_differing.mpr ?_, set⟩
      rw [set]
      exact fun eq => unset eq.symm

/-! ### The graph -/

def flipGraph (bound : Nat) : SimpleGraph (Fin bound) where
  Adj left right := ∃ bit, right.val = left.val ^^^ 2 ^ bit
  symm := ⟨fun left right ⟨bit, flipped⟩ => ⟨bit, by rw [flipped, flip_flip]⟩⟩
  loopless := ⟨fun left ⟨bit, flipped⟩ => flip_ne left.val bit flipped.symm⟩

variable {bound : Nat}

theorem exists_walk (left right : Fin bound) :
    ∃ walk : (flipGraph bound).Walk left right, walk.length = (differing left right).card := by
  induction count : (differing left right).card generalizing left with
  | zero =>
      have same : left = right :=
        Fin.ext (differing_eq_empty.mp (Finset.card_eq_zero.mp count))
      subst same
      exact ⟨.nil, rfl⟩
  | succ rest ih =>
      have different : left.val ≠ right.val := by
        intro same
        rw [differing_eq_empty.mpr same] at count
        cases count
      obtain ⟨bit, member, below⟩ := exists_flip left.isLt right.isLt different
      have fewer : (differing (left.val ^^^ 2 ^ bit) right).card = rest := by
        rw [differing_flip member, Finset.card_erase_of_mem member, count]
        rfl
      obtain ⟨walk, length⟩ := ih ⟨left.val ^^^ 2 ^ bit, below⟩ fewer
      have edge : (flipGraph bound).Adj left ⟨left.val ^^^ 2 ^ bit, below⟩ := ⟨bit, rfl⟩
      exact ⟨.cons edge walk, by rw [SimpleGraph.Walk.length_cons, length]⟩

theorem card_differing_le {left right : Fin bound} (walk : (flipGraph bound).Walk left right) :
    (differing left right).card ≤ walk.length := by
  induction walk with
  | nil =>
      rw [differing_eq_empty.mpr rfl, Finset.card_empty]
      exact Nat.zero_le _
  | @cons left middle right edge rest ih =>
      have flip : ∃ bit, middle.val = left.val ^^^ 2 ^ bit := edge
      obtain ⟨bit, flipped⟩ := flip
      have covered : differing left right ⊆ insert bit (differing middle right) := by
        intro other member
        rw [Finset.mem_insert]
        by_cases same : other = bit
        · exact Or.inl same
        · right
          rw [mem_differing] at member ⊢
          rw [flipped, testBit_flip, if_neg (Ne.symm same)]
          exact member
      rw [SimpleGraph.Walk.length_cons]
      calc (differing left right).card ≤ (insert bit (differing middle right)).card :=
            Finset.card_le_card covered
        _ ≤ (differing middle right).card + 1 := Finset.card_insert_le ..
        _ ≤ rest.length + 1 := Nat.add_le_add_right ih 1

theorem dist_eq (left right : Fin bound) :
    (flipGraph bound).dist left right = (differing left right).card := by
  obtain ⟨walk, length⟩ := exists_walk left right
  apply Nat.le_antisymm
  · rw [← length]
    exact SimpleGraph.dist_le walk
  · obtain ⟨shortest, same⟩ := walk.reachable.exists_walk_length_eq_dist
    rw [← same]
    exact card_differing_le shortest

theorem connected (some : 0 < bound) : (flipGraph bound).Connected where
  preconnected left right := (exists_walk left right).choose.reachable
  nonempty := ⟨⟨0, some⟩⟩

/-- Two numbers differ in no more bits than the bound has. -/
theorem card_differing_le_clog (left right : Fin bound) :
    (differing left right).card ≤ Nat.clog 2 bound := by
  have inside : differing left right ⊆ Finset.range (Nat.clog 2 bound) := by
    intro bit member
    rw [Finset.mem_range]
    rw [mem_differing] at member
    by_contra beyond
    have large : bound ≤ 2 ^ bit :=
      (Nat.clog_le_iff_le_pow Nat.one_lt_two).mp (Nat.le_of_not_lt beyond)
    apply member
    rw [Nat.testBit_lt_two_pow (Nat.lt_of_lt_of_le left.isLt large),
      Nat.testBit_lt_two_pow (Nat.lt_of_lt_of_le right.isLt large)]
  calc (differing left right).card ≤ (Finset.range (Nat.clog 2 bound)).card :=
        Finset.card_le_card inside
    _ = Nat.clog 2 bound := Finset.card_range _

end WsDeque.BitFlips
