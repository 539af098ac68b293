import Mathlib.Data.Nat.Notation

/-
Paying for a table that doubles when it is full and halves when it is less than
a third full. Moving an item costs as much as making a cell.
-/

namespace WsDeque.DynamicTable

variable {cap smaller size moved : Nat}

/-- What is saved up when a table of this capacity holds this many items. The first
part pays for halving it, the second for doubling it. A cell costs three. -/
def savings (cap size : Nat) : Nat :=
  5 * cap + 14 * (3 * (size + 1) - 2 * cap)

theorem savings_mono (fewer : size ≤ moved) : savings cap size ≤ savings cap moved := by
  unfold savings
  omega

/-- An item that comes in adds this much. -/
theorem savings_succ (cap size : Nat) : savings cap (size + 1) ≤ savings cap size + 42 := by
  unfold savings
  omega

/-- Doubling a table with one cell left. -/
theorem savings_double (full : size + 1 = cap) :
    savings (2 * cap) size + 3 * (size + 2 * cap) ≤ savings cap size := by
  unfold savings
  omega

/-- Halving a table after at most a third of its cells is moved, some of them in vain. -/
theorem savings_halve (half : 2 * smaller = cap) (third : 3 * (moved + 1) ≤ cap)
    (fewer : size ≤ moved) :
    savings smaller size + 3 * (moved + smaller) ≤ savings cap size := by
  unfold savings
  omega

/-- An empty table is paid for beforehand. -/
theorem savings_zero (positive : 0 < cap) : savings cap 0 ≤ 5 * cap + 14 := by
  unfold savings
  omega

end WsDeque.DynamicTable
