import Mathlib.Data.BitVec

/-
What the queues of the crate share: the outcome of a steal, and the inline
representation of small values.
-/

namespace WsDeque

inductive Steal (α : Type*)
  | empty
  | retry
  | success (value : α)
  deriving DecidableEq

/-- A `Copy` type of at most eight bytes, stored as the bits of a word. -/
class InlineValue (α : Type*) where
  toBits : α → BitVec 64
  fromBits : BitVec 64 → α
  fromBits_toBits : ∀ value, fromBits (toBits value) = value

attribute [simp] InlineValue.fromBits_toBits

instance : InlineValue (BitVec 64) :=
  { toBits := id
    fromBits := id
    fromBits_toBits := fun _value => rfl }

end WsDeque
