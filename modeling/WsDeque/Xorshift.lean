import Mathlib.Data.Nat.Notation

/-
The generator that idle workers and starving nodes pick their victims with.
-/

namespace WsDeque

def xorshift (x : UInt64) : UInt64 :=
  let x := x ^^^ (x <<< 13)
  let x := x ^^^ (x >>> 7)
  x ^^^ (x <<< 17)

/-- Every party starts from its own index. -/
def seedRng (me : Nat) : UInt64 :=
  0x9E3779B97F4A7C15 ^^^ (UInt64.ofNat me * 0xD1B54A32D192ED03 + 1)

end WsDeque
