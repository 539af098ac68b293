import WsDeque.BitFlips
import WsDeque.Scheduler.Victims

/-
The lifeline graph: who is whose buddy, and how far apart two workers are.
-/

namespace WsDeque.Scheduler

open BitFlips

variable {id n neighbour : Nat}

theorem two_pow_shift (bit : Nat) : 2 ^ bit <<< 1 = 2 ^ (bit + 1) := by
  rw [Nat.shiftLeft_eq, Nat.pow_one, ← Nat.pow_succ]

theorem mem_hypercubeFrom {fuel bit : Nat} :
    neighbour ∈ hypercubeFrom id n fuel (2 ^ bit) ↔
      ∃ later, bit ≤ later ∧ later < bit + fuel ∧ 2 ^ later < n ∧
        neighbour = id ^^^ 2 ^ later ∧ neighbour < n := by
  induction fuel generalizing bit with
  | zero =>
      constructor
      · intro member
        cases member
      · rintro ⟨later, low, high, _⟩
        omega
  | succ fuel ih =>
      unfold hypercubeFrom
      rw [two_pow_shift]
      by_cases inside : 2 ^ bit < n
      · have further : neighbour ∈ hypercubeFrom id n fuel (2 ^ (bit + 1)) ∨
            neighbour = id ^^^ 2 ^ bit ∧ neighbour < n ↔
              ∃ later, bit ≤ later ∧ later < bit + (fuel + 1) ∧ 2 ^ later < n ∧
                neighbour = id ^^^ 2 ^ later ∧ neighbour < n := by
          rw [ih]
          constructor
          · rintro (⟨later, low, high, rest⟩ | ⟨here, below⟩)
            · exact ⟨later, by omega, by omega, rest⟩
            · exact ⟨bit, Nat.le_refl bit, by omega, inside, here, below⟩
          · rintro ⟨later, low, high, small, here, below⟩
            by_cases first : later = bit
            · subst first
              exact Or.inr ⟨here, below⟩
            · exact Or.inl ⟨later, by omega, by omega, small, here, below⟩
        rw [if_pos inside, ← further]
        by_cases listed : id ^^^ 2 ^ bit < n ∧ id ^^^ 2 ^ bit ≠ id
        · simp only [listed, ne_eq, not_false_eq_true, and_self, if_true, List.mem_cons]
          constructor
          · rintro (rfl | member)
            · exact Or.inr ⟨rfl, listed.1⟩
            · exact Or.inl member
          · rintro (member | ⟨rfl, _below⟩)
            · exact Or.inr member
            · exact Or.inl rfl
        · have absent : ¬ id ^^^ 2 ^ bit < n := fun below => listed ⟨below, flip_ne id bit⟩
          simp only [listed, if_false]
          constructor
          · exact Or.inl
          · rintro (member | ⟨rfl, below⟩)
            · exact member
            · exact absurd below absent
      · rw [if_neg inside]
        constructor
        · intro member
          cases member
        · rintro ⟨later, low, _high, small, _⟩
          exact absurd (Nat.lt_of_le_of_lt (Nat.pow_le_pow_right Nat.two_pos low) small) inside

theorem hypercubeFrom_nodup {fuel bit : Nat} : (hypercubeFrom id n fuel (2 ^ bit)).Nodup := by
  induction fuel generalizing bit with
  | zero => exact List.nodup_nil
  | succ fuel ih =>
      unfold hypercubeFrom
      rw [two_pow_shift]
      split
      · simp only
        split
        · refine List.nodup_cons.mpr ⟨fun member => ?_, ih⟩
          obtain ⟨later, low, _high, _small, same, _below⟩ := mem_hypercubeFrom.mp member
          have equal := flip_injective same
          omega
        · exact ih
      · exact List.nodup_nil

theorem hypercubeFrom_length {fuel bit : Nat} :
    (hypercubeFrom id n fuel (2 ^ bit)).length ≤ Nat.clog 2 n - bit := by
  induction fuel generalizing bit with
  | zero => exact Nat.zero_le _
  | succ fuel ih =>
      unfold hypercubeFrom
      rw [two_pow_shift]
      split
      · rename_i inside
        have room : bit < Nat.clog 2 n := by
          by_contra beyond
          have large := (Nat.clog_le_iff_le_pow Nat.one_lt_two).mp (Nat.le_of_not_lt beyond)
          omega
        have rest : (hypercubeFrom id n fuel (2 ^ (bit + 1))).length ≤ _ := ih
        simp only
        split
        · rw [List.length_cons]
          omega
        · omega
      · exact Nat.zero_le _

/-! ### The graph -/

/-- The bound up to which `bit <<= 1` leaves the loop before it overflows. -/
def loopBound : Nat :=
  2 ^ 63

theorem mem_hypercubeNeighbours (inside : id < n) (fits : n ≤ loopBound) :
    neighbour ∈ hypercubeNeighbours id n ↔
      (∃ bit, neighbour = id ^^^ 2 ^ bit) ∧ neighbour < n := by
  have whole : hypercubeNeighbours id n = hypercubeFrom id n 64 (2 ^ 0) := rfl
  rw [whole, mem_hypercubeFrom]
  constructor
  · rintro ⟨bit, _low, _high, _small, same, below⟩
    exact ⟨⟨bit, same⟩, below⟩
  · rintro ⟨⟨bit, same⟩, below⟩
    have small : 2 ^ bit < n := two_pow_lt_of_flip inside (same ▸ below)
    have bounded : bit < 63 :=
      (Nat.pow_lt_pow_iff_right Nat.one_lt_two).mp (Nat.lt_of_lt_of_le small fits)
    exact ⟨bit, Nat.zero_le bit, by omega, small, same, below⟩

/-- An edge for each buddy that one of two workers registers on. -/
def lifelineGraph (n : Nat) : SimpleGraph (Fin n) :=
  .fromRel fun left right => right.val ∈ hypercubeNeighbours left n

theorem lifelineGraph_eq (fits : n ≤ loopBound) : lifelineGraph n = flipGraph n := by
  ext left right
  unfold lifelineGraph
  rw [SimpleGraph.fromRel_adj, mem_hypercubeNeighbours left.isLt fits,
    mem_hypercubeNeighbours right.isLt fits]
  constructor
  · rintro ⟨_different, ⟨edge, _below⟩ | ⟨edge, _below⟩⟩
    · exact edge
    · exact (flipGraph n).symm.symm _ _ edge
  · intro edge
    exact ⟨(flipGraph n).ne_of_adj edge, Or.inl ⟨edge, right.isLt⟩⟩

/-- Buddies are other workers, listed once, few and mutual, and two workers are
as many edges apart as their numbers have different bits. -/
structure SmallWorld (n : Nat) : Prop where
  valid : ∀ id < n, ∀ neighbour ∈ hypercubeNeighbours id n, neighbour < n ∧ neighbour ≠ id
  once : ∀ id < n, (hypercubeNeighbours id n).Nodup
  few : ∀ id < n, (hypercubeNeighbours id n).length ≤ Nat.clog 2 n
  symmetric : ∀ left < n, ∀ right < n,
    right ∈ hypercubeNeighbours left n ↔ left ∈ hypercubeNeighbours right n
  distance : ∀ left right : Fin n,
    (lifelineGraph n).dist left right = (differing left right).card
  connected : (lifelineGraph n).Connected
  diameter : ∀ left right : Fin n, (lifelineGraph n).dist left right ≤ Nat.clog 2 n

/-- The lifeline graph is connected with a low diameter for every number of workers. -/
theorem lifelines_small_world (some : 1 ≤ n) (fits : n ≤ loopBound) : SmallWorld n := by
  constructor
  · intro id _inside neighbour member
    exact hypercubeFrom_valid member
  · intro id _inside
    exact (hypercubeFrom_nodup : (hypercubeFrom id n 64 (2 ^ 0)).Nodup)
  · intro id _inside
    exact (hypercubeFrom_length : (hypercubeFrom id n 64 (2 ^ 0)).length ≤ _)
  · intro left leftInside right rightInside
    rw [mem_hypercubeNeighbours leftInside fits, mem_hypercubeNeighbours rightInside fits]
    constructor
    · rintro ⟨⟨bit, rfl⟩, _below⟩
      exact ⟨⟨bit, (flip_flip left bit).symm⟩, leftInside⟩
    · rintro ⟨⟨bit, rfl⟩, _below⟩
      exact ⟨⟨bit, (flip_flip right bit).symm⟩, rightInside⟩
  · intro left right
    rw [lifelineGraph_eq fits, dist_eq]
  · rw [lifelineGraph_eq fits]
    exact connected some
  · intro left right
    rw [lifelineGraph_eq fits, dist_eq]
    exact card_differing_le_clog left right

theorem lifelines_small_world_six : 6 ≤ loopBound ∧ SmallWorld 6 := by
  have fits : 6 ≤ loopBound := by decide
  exact ⟨fits, lifelines_small_world (by decide) fits⟩

end WsDeque.Scheduler
