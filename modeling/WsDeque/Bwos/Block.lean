import WsDeque.Common
import WsDeque.IndexProtocol
import WsDeque.Provenance

/-
One block of a BWoS queue. The bounded and the unbounded queue run the same
steps inside a block and differ only in how they move between blocks.

Every atomic access is one step of a sequentially consistent memory; what is
computed between two accesses belongs to the earlier one.
-/

namespace WsDeque.Bwos

open InlineValue

structure Block where
  slots : Nat → BitVec 64
  committed : Nat
  stolen : Nat

def Block.new : Block :=
  { slots := fun _ => 0
    committed := 0
    stolen := 0 }

def Block.slotsWrite (block : Block) (pos : Nat) (bits : BitVec 64) : Block :=
  { block with slots := Function.update block.slots pos bits }

def Block.slotsRead (block : Block) (pos : Nat) : BitVec 64 :=
  block.slots pos

inductive Access (α : Type*)
  | loadProduced
  | storeProduced
  | loadCommitted
  | storeCommitted
  /-- The store of `committed` in `put`: from here on the value can be taken,
  and `put` can only return `true`. -/
  | publish (value : α)
  | loadStolen
  | casStolen (won : Bool)
  | loadSlot
  | storeSlot
  | loadNext
  | storeNext

/-! ### `put` inside a block -/

inductive PutPc (α : Type*)
  | storeSlot (value : α) (bottom : Nat)
  | publish (value : α) (bottom : Nat)

/-- `none` when `put` returns `true`. -/
def putBlock {α : Type*} [InlineValue α] (block : Block) :
    PutPc α → Access α × Block × Option (PutPc α)
  | .storeSlot value bottom =>
      (.storeSlot, block.slotsWrite bottom (toBits value), some (.publish value bottom))
  | .publish value bottom => (.publish value, { block with committed := bottom + 1 }, none)

/-! ### `pop` inside a block -/

inductive PopPc
  | loadCommitted
  | loadStolen (b : Nat)
  | storeCommitted (b : Nat)
  | reloadStolen (b : Nat)
  | loadSlot (newB s : Nat)
  | casStolen (s : Nat) (bits : BitVec 64)
  | settle (s : Nat) (bits : BitVec 64) (won : Bool)
  | restore (b : Nat)

inductive PopOutcome
  | running (pc : PopPc)
  /-- `b <= t`: step to the previous block. -/
  | drained
  | taken (bits : BitVec 64)

def popBlock {α : Type*} (block : Block) : PopPc → Access α × Block × PopOutcome
  | .loadCommitted => (.loadCommitted, block, .running (.loadStolen block.committed))
  | .loadStolen b =>
      (.loadStolen, block,
        if b ≤ block.stolen then .drained else .running (.storeCommitted b))
  | .storeCommitted b =>
      (.storeCommitted, { block with committed := b - 1 }, .running (.reloadStolen b))
  | .reloadStolen b =>
      (.loadStolen, block,
        if block.stolen ≤ b - 1 then .running (.loadSlot (b - 1) block.stolen)
        else .running (.restore b))
  | .loadSlot newB s =>
      (.loadSlot, block,
        if newB > s then .taken (block.slotsRead newB)
        else .running (.casStolen s (block.slotsRead newB)))
  | .casStolen s bits =>
      if block.stolen = s then
        (.casStolen true, { block with stolen := s + 1 }, .running (.settle s bits true))
      else (.casStolen false, block, .running (.settle s bits false))
  | .settle s bits won =>
      (.storeCommitted, { block with committed := s + 1 },
        if won then .taken bits else .running .loadCommitted)
  | .restore b => (.storeCommitted, { block with committed := b }, .running .loadCommitted)

/-! ### `steal` inside a block -/

inductive StealPc
  | loadStolen
  | loadCommitted (t : Nat)
  | loadSlot (t : Nat)
  | casStolen (t : Nat) (bits : BitVec 64)

inductive StealOutcome
  | running (pc : StealPc)
  /-- `t >= b`: nothing to steal in this block. -/
  | drained
  | taken (bits : BitVec 64)
  | lost

def stealBlock {α : Type*} (block : Block) : StealPc → Access α × Block × StealOutcome
  | .loadStolen => (.loadStolen, block, .running (.loadCommitted block.stolen))
  | .loadCommitted t =>
      (.loadCommitted, block,
        if t ≥ block.committed then .drained else .running (.loadSlot t))
  | .loadSlot t => (.loadSlot, block, .running (.casStolen t (block.slotsRead t)))
  | .casStolen t bits =>
      if block.stolen = t then
        (.casStolen true, { block with stolen := t + 1 }, .taken bits)
      else (.casStolen false, block, .lost)

/-! ### What an observer sees -/

inductive OwnerResult (α : Type*)
  | put (accepted : Bool)
  | popped (value : Option α)

inductive Label (ι α : Type*)
  | putCall (value : α)
  | popCall
  | owner (access : Access α)
  | ownerReturn (result : OwnerResult α)
  | newStealer (thief : ι)
  | stealCall (thief : ι)
  | thief (thief : ι) (access : Access α)
  | stealReturn (thief : ι) (result : Steal α)

variable {ι α : Type*}

/-- The value a `put` makes available. -/
def accepted : Label ι α → Option α
  | .owner (.publish value) => some value
  | _ => none

theorem popBlock_silent (block : Block) (pc : PopPc) :
    accepted (.owner (popBlock block pc).1 : Label ι α) = none := by
  cases pc with
  | casStolen s bits =>
      simp only [popBlock]
      split <;> rfl
  | _ => rfl

/-- The value a `pop` or a `steal` returns. -/
def handedOut : Label ι α → Option α
  | .ownerReturn (.popped value) => value
  | .stealReturn _ (.success value) => some value
  | _ => none

end WsDeque.Bwos
