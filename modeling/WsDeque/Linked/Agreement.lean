import WsDeque.Linked.Serial

/-
The two backings of WS-MULT side by side, one call at a time.
-/

namespace WsDeque

open Multiplicity (Call Fifo Reply)
open SerialCalls (Admitted replies serially serially_refines)

variable {ι α : Type*} [DecidableEq ι]

/-- The array and the list return the same, call by call, and as a plain queue. -/
theorem backings_agree (calls : List (Call ι α))
    (admitted : Admitted Call.answer Call.Admits calls (Fifo.new ι α)) :
    ∃ enough, ∀ fuel ≥ enough,
      (serially Idempotent.perform fuel calls (Idempotent.make ι α .growable)).map Prod.fst =
          some (replies Call.answer calls (Fifo.new ι α)) ∧
        (serially Linked.perform fuel calls (Linked.new ι α)).map Prod.fst =
          some (replies Call.answer calls (Fifo.new ι α)) := by
  obtain ⟨array, arrayReturns⟩ := serially_refines Idempotent.perform_fuelOnly
    Idempotent.perform_refines calls Idempotent.represents_make admitted
  obtain ⟨list, listReturns⟩ := serially_refines Linked.perform_fuelOnly
    Linked.perform_refines calls Linked.represents_new admitted
  use max array list
  intro fuel enough
  obtain ⟨arrayAfter, arrayRan⟩ := arrayReturns fuel (Nat.le_trans (Nat.le_max_left _ _) enough)
  obtain ⟨listAfter, listRan⟩ := listReturns fuel (Nat.le_trans (Nat.le_max_right _ _) enough)
  rw [arrayRan, listRan]
  exact ⟨rfl, rfl⟩

/-- Two handles and one task too few. -/
def twoHandles : List (Call Bool Nat) :=
  [.newStealer false, .put 1, .put 2, .steal false, .newStealer true, .take, .steal true]

theorem backings_agree_twoHandles :
    ∃ enough, ∀ fuel ≥ enough,
      (serially Idempotent.perform fuel twoHandles (Idempotent.make Bool Nat .growable)).map
          Prod.fst =
        some [.done, .done, .done, .took (some 1), .done, .took (some 2), .took none] ∧
      (serially Linked.perform fuel twoHandles (Linked.new Bool Nat)).map Prod.fst =
        some [.done, .done, .done, .took (some 1), .done, .took (some 2), .took none] :=
  backings_agree twoHandles (by decide)

end WsDeque
