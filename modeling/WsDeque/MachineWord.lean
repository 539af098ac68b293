import Mathlib.Data.Int.ModEq
import Mathlib.Data.Nat.Bitwise

/-
Signed and unsigned 64-bit machine words as integers, with wrapping arithmetic.
-/

namespace WsDeque.MachineWord

/-- The two's-complement word that represents an integer modulo `2 ^ 64`. -/
def wrap (value : Int) : Int :=
  (value + 2 ^ 63) % 2 ^ 64 - 2 ^ 63

def wrappingAdd (left right : Int) : Int :=
  wrap (left + right)

def wrappingSub (left right : Int) : Int :=
  wrap (left - right)

/-- The cast of an unsigned word to a signed one. -/
def asIsize (value : Nat) : Int :=
  wrap value

/-- The cast of a signed word to an unsigned one. -/
def asUsize (value : Int) : Nat :=
  (value % 2 ^ 64).toNat

/-- Signed arithmetic with overflow checks. -/
def checkedIsize (value : Int) : Option Int :=
  if -2 ^ 63 ≤ value ∧ value < 2 ^ 63 then some value else none

/-- Unsigned arithmetic with overflow checks. -/
def checkedUsize (value : Nat) : Option Nat :=
  if value < 2 ^ 64 then some value else none

theorem wrap_of_range {value : Int} (low : -2 ^ 63 ≤ value) (high : value < 2 ^ 63) :
    wrap value = value := by
  unfold wrap
  omega

theorem wrappingAdd_of_range {left right : Int} (low : -2 ^ 63 ≤ left + right)
    (high : left + right < 2 ^ 63) : wrappingAdd left right = left + right :=
  wrap_of_range low high

theorem wrappingSub_of_range {left right : Int} (low : -2 ^ 63 ≤ left - right)
    (high : left - right < 2 ^ 63) : wrappingSub left right = left - right :=
  wrap_of_range low high

theorem checkedIsize_of_range {value : Int} (low : -2 ^ 63 ≤ value) (high : value < 2 ^ 63) :
    checkedIsize value = some value :=
  if_pos ⟨low, high⟩

theorem checkedUsize_of_lt {value : Nat} (below : value < 2 ^ 64) :
    checkedUsize value = some value :=
  if_pos below

/-- Words stand for integers modulo the word size, so sums need not be in range. -/
theorem wrappingAdd_wrap (value step : Int) :
    wrappingAdd (wrap value) step = wrap (value + step) := by
  unfold wrappingAdd wrap
  omega

theorem wrappingSub_wrap_one (value : Int) : wrappingSub (wrap value) 1 = wrap (value - 1) := by
  unfold wrappingSub wrap
  omega

/-- The difference of two words is that of the integers, where that fits. -/
theorem wrappingSub_wrap {left right : Int} (low : -2 ^ 63 ≤ left - right)
    (high : left - right < 2 ^ 63) : wrappingSub (wrap left) (wrap right) = left - right := by
  unfold wrappingSub wrap
  omega

theorem wrap_emod_two_pow (value : Int) {exponent : Nat} (small : exponent ≤ 64) :
    wrap value % (2 ^ exponent : Nat) = value % (2 ^ exponent : Nat) := by
  have divides : ((2 ^ exponent : Nat) : Int) ∣ 2 ^ 64 := by
    have natural : 2 ^ exponent ∣ 2 ^ 64 := Nat.pow_dvd_pow 2 small
    exact_mod_cast natural
  have same : ∃ turns : Int, wrap value = value + 2 ^ 64 * turns :=
    ⟨-((value + 2 ^ 63) / 2 ^ 64), by unfold wrap; omega⟩
  obtain ⟨turns, same⟩ := same
  obtain ⟨factor, whole⟩ := divides
  rw [same, whole, Int.mul_assoc, Int.add_mul_emod_self_left]

/-- The largest power of two is negative as a signed word, and one less than it
is again the largest signed word. -/
theorem asIsize_sub_one {value : Nat} (positive : 0 < value) (bound : value ≤ 2 ^ 63) :
    wrappingSub (asIsize value) 1 = value - 1 := by
  unfold wrappingSub asIsize wrap
  omega

/-- Masking with a power of two is the remainder, also for a negative index. -/
theorem asUsize_and_mask (value : Int) {exponent : Nat} (small : exponent ≤ 63) :
    asUsize value &&& (2 ^ exponent - 1) = (value % (2 ^ exponent : Nat)).toNat := by
  rw [Nat.and_two_pow_sub_one_eq_mod]
  unfold asUsize
  have divides : ((2 ^ exponent : Nat) : Int) ∣ 2 ^ 64 := by
    have natural : 2 ^ exponent ∣ 2 ^ 64 := Nat.pow_dvd_pow 2 (by omega)
    exact_mod_cast natural
  have nonneg : 0 ≤ value % 2 ^ 64 := Int.emod_nonneg _ (by decide)
  apply Int.ofNat.inj
  change (((value % 2 ^ 64).toNat % 2 ^ exponent : Nat) : Int) =
    ((value % (2 ^ exponent : Nat)).toNat : Int)
  have positive : (0 : Int) < (2 ^ exponent : Nat) := by exact_mod_cast Nat.two_pow_pos exponent
  rw [Int.natCast_mod, Int.toNat_of_nonneg nonneg,
    Int.toNat_of_nonneg (Int.emod_nonneg _ (by omega)), Int.emod_emod_of_dvd _ divides]

/-- Two indices closer than the modulus that share a remainder are equal. -/
theorem eq_of_toNat_emod_eq {left right : Int} {modulus : Nat}
    (same : (left % modulus).toNat = (right % modulus).toNat) (positive : 0 < modulus)
    (above : right - left < modulus) (below : left - right < modulus) : left = right := by
  have nonzero : (modulus : Int) ≠ 0 := by omega
  have leftNonneg := Int.emod_nonneg left nonzero
  have rightNonneg := Int.emod_nonneg right nonzero
  have remainders : left % modulus = right % modulus := by omega
  have divides : (modulus : Int) ∣ right - left := Int.ModEq.dvd remainders
  have equal := Int.eq_zero_of_abs_lt_dvd divides (abs_lt.mpr ⟨by omega, above⟩)
  omega

end WsDeque.MachineWord
