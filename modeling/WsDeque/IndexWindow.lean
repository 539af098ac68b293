import Mathlib.Data.List.Basic
import Mathlib.Data.Int.Basic

/-
The cells of a half-open interval of integer indices, as a list.
-/

namespace WsDeque

variable {Cell : Type*}

/-- `cell low, …, cell (high - 1)`; empty when the interval is. -/
def window (cell : Int → Cell) (low high : Int) : List Cell :=
  (List.range (high - low).toNat).map fun offset : Nat => cell (low + offset)

@[simp] theorem window_length (cell : Int → Cell) (low high : Int) :
    (window cell low high).length = (high - low).toNat := by
  simp [window]

theorem window_empty (cell : Int → Cell) {low high : Int} (crossed : high ≤ low) :
    window cell low high = [] := by
  have none : (high - low).toNat = 0 := by omega
  simp [window, none]

theorem window_snoc (cell : Int → Cell) {low high : Int} (ordered : low ≤ high) :
    window cell low (high + 1) = window cell low high ++ [cell high] := by
  have count : (high + 1 - low).toNat = (high - low).toNat + 1 := by omega
  have last : low + ((high - low).toNat : Int) = high := by omega
  simp only [window, count, List.range_succ, List.map_append, List.map_cons, List.map_nil, last]

theorem window_cons (cell : Int → Cell) {low high : Int} (ordered : low < high) :
    window cell low high = cell low :: window cell (low + 1) high := by
  have count : (high - low).toNat = (high - (low + 1)).toNat + 1 := by omega
  unfold window
  rw [count, List.range_succ_eq_map, List.map_cons, List.map_map]
  congr 1
  · simp
  · apply List.map_congr_left
    intro offset _inside
    simp only [Function.comp_apply, Nat.succ_eq_add_one]
    congr 1
    omega

theorem window_congr {left right : Int → Cell} {low high : Int}
    (agree : ∀ index, low ≤ index → index < high → left index = right index) :
    window left low high = window right low high := by
  apply List.map_congr_left
  intro offset inside
  have bound := List.mem_range.mp inside
  exact agree _ (by omega) (by omega)

theorem mem_window {cell : Int → Cell} {low high : Int} {item : Cell} :
    item ∈ window cell low high ↔ ∃ index, low ≤ index ∧ index < high ∧ cell index = item := by
  simp only [window, List.mem_map, List.mem_range]
  constructor
  · rintro ⟨offset, bound, found⟩
    exact ⟨low + offset, by omega, by omega, found⟩
  · rintro ⟨index, above, below, found⟩
    refine ⟨(index - low).toNat, by omega, ?_⟩
    have same : low + ((index - low).toNat : Int) = index := by omega
    rw [same, found]

theorem window_map {Other : Type*} (f : Cell → Other) (cell : Int → Cell) (low high : Int) :
    (window cell low high).map f = window (fun index => f (cell index)) low high := by
  simp [window]

end WsDeque
