import WsDeque.ChaseLev.Model
import WsDeque.IndexWindow

/-
The boxed deque one call at a time: each call as one function of the words and
cells it reads.

Where nobody else runs, a compare-exchange sees what was just read, no steal is
in flight and a resize frees what it retires, so that the buffer is a value here
and no list of old ones is kept. A result of `none` is a panic, be it an overflow
or a failed assertion, or the use of a null box.
-/

namespace WsDeque.ChaseLev

open MachineWord

variable {α : Type*}

namespace Buffer

/-- The copy loop of `resized` up to an index. -/
def copyTo (buffer : Buffer α) (top : Int) (other : Buffer α) : Nat → Buffer α
  | 0 => other
  | k + 1 =>
      let i := wrappingAdd top k
      (buffer.copyTo top other k).write i (buffer.read i)

def resized (buffer : Buffer α) (newCap : Nat) (bottom top : Int) : Option (Buffer α) :=
  let count := wrappingSub bottom top
  if count ≥ 0 ∧ count.toNat ≤ newCap - 1 then
    some (buffer.copyTo top (alloc newCap) count.toNat)
  else none

def grow (buffer : Buffer α) (bottom top : Int) : Option (Buffer α) :=
  (checkedUsize (buffer.cap * 2)).bind fun newCap => buffer.resized newCap bottom top

end Buffer

/-- The fields of `Inner` and `Worker` that a call reads. -/
structure Deque (α : Type*) where
  bottom : Int
  top : Int
  buffer : Buffer α
  fifo : Bool
  cachedTop : Int

namespace Deque

/-- `1usize << log_initial_cap` panics from the word size on. -/
def withStartIndex (α : Type*) (fifo : Bool) (logInitialCap : Nat) (start : Int) :
    Option (Deque α) :=
  if logInitialCap < 64 then
    some
      { bottom := start
        top := start
        buffer := .alloc (2 ^ logInitialCap)
        fifo := fifo
        cachedTop := start }
  else none

def len (deque : Deque α) : Nat :=
  (max (wrappingSub deque.bottom deque.top) 0).toNat

/-- The end of `push`, with the buffer it has settled on. -/
def store (deque : Deque α) (value : α) : Deque α :=
  { deque with
    buffer := deque.buffer.write deque.bottom (some value)
    bottom := wrappingAdd deque.bottom 1 }

def push (deque : Deque α) (value : α) : Option (Deque α) :=
  (checkedIsize (asIsize deque.buffer.cap - 1)).bind fun limit =>
    let t :=
      if wrappingSub deque.bottom deque.cachedTop ≥ limit then deque.top else deque.cachedTop
    let looked := { deque with cachedTop := t }
    if wrappingSub deque.bottom t ≥ limit then
      (deque.buffer.grow deque.bottom t).map fun bigger =>
        { looked with buffer := bigger }.store value
    else some (looked.store value)

def perhapsShrink (deque : Deque α) (bottom top : Int) : Option (Deque α) :=
  let cap := deque.buffer.cap
  let size := (max (wrappingSub bottom top) 0).toNat
  if cap > minCapacity ∧ size < cap / shrinkFactor then
    (deque.buffer.resized (max (cap / 2) minCapacity) bottom top).map fun smaller =>
      { deque with buffer := smaller }
  else some deque

def popLifo (deque : Deque α) : Option (Option α × Deque α) :=
  let b := wrappingSub deque.bottom 1
  let lowered := { deque with bottom := b }
  let t := lowered.top
  let size := wrappingSub b t
  if size < 0 then some (none, { lowered with bottom := t })
  else
    let boxed := lowered.buffer.read b
    if size > 0 then
      (lowered.perhapsShrink b t).bind fun after => boxed.map fun value => (some value, after)
    else
      let won := lowered.top = t
      let settled :=
        { lowered with
          top := if won then wrappingAdd t 1 else lowered.top
          bottom := wrappingAdd t 1 }
      if won then boxed.map fun value => (some value, settled) else some (none, settled)

def stealFrom (deque : Deque α) : Option (Steal α × Deque α) :=
  let t := deque.top
  let b := deque.bottom
  if wrappingSub b t ≤ 0 then some (.empty, deque)
  else
    let boxed := deque.buffer.read t
    if deque.top = t then
      boxed.map fun value => (.success value, { deque with top := wrappingAdd t 1 })
    else some (.retry, deque)

/-- The loop of `pop_fifo`, with fuel. -/
def popFifo : Nat → Deque α → Option (Option α × Deque α)
  | 0, _ => none
  | fuel + 1, deque =>
      deque.stealFrom.bind fun taken =>
        match taken.1 with
        | .success value => some (some value, taken.2)
        | .empty => some (none, taken.2)
        | .retry => popFifo fuel taken.2

def pop (fuel : Nat) (deque : Deque α) : Option (Option α × Deque α) :=
  if deque.fifo then popFifo fuel deque else deque.popLifo

/-! ### Batches -/

/-- The loop of `steal_batch` with this many rounds to go. -/
def batchLoop : Nat → Nat → Deque α → Deque α → Option (Steal Unit × Deque α × Deque α)
  | 0, moved, victim, dest => some (if moved = 0 then .empty else .success (), victim, dest)
  | rounds + 1, moved, victim, dest =>
      victim.stealFrom.bind fun taken =>
        match taken.1 with
        | .success value =>
            (dest.push value).bind fun dest =>
              (checkedUsize (moved + 1)).bind fun moved => batchLoop rounds moved taken.2 dest
        | .empty => some (if moved = 0 then .empty else .success (), taken.2, dest)
        | .retry => some (if moved = 0 then .retry else .success (), taken.2, dest)

/-- Half of what the indices show, rounded up. -/
def wanted (available : Int) : Option Nat :=
  (checkedIsize (available + 1)).map fun more => asUsize (more.tdiv 2)

def stealBatch (victim dest : Deque α) : Option (Steal Unit × Deque α × Deque α) :=
  let available := wrappingSub victim.bottom victim.top
  if available ≤ 0 then some (.empty, victim, dest)
  else (wanted available).bind fun want => batchLoop want 0 victim dest

/-- The loop of `steal_batch_and_pop` with this many rounds to go. -/
def restLoop : Nat → Deque α → Deque α → Option (Deque α × Deque α)
  | 0, victim, dest => some (victim, dest)
  | rounds + 1, victim, dest =>
      victim.stealFrom.bind fun taken =>
        match taken.1 with
        | .success value => (dest.push value).bind fun dest => restLoop rounds taken.2 dest
        | .empty | .retry => some (taken.2, dest)

def stealBatchAndPop (victim dest : Deque α) : Option (Steal α × Deque α × Deque α) :=
  let available := wrappingSub victim.bottom victim.top
  if available ≤ 0 then some (.empty, victim, dest)
  else
    (wanted available).bind fun want =>
      victim.stealFrom.bind fun taken =>
        match taken.1 with
        | .success first =>
            (restLoop (want - 1) taken.2 dest).map fun moved =>
              (.success first, moved.1, moved.2)
        | other => some (other, taken.2, dest)

end Deque

end WsDeque.ChaseLev
