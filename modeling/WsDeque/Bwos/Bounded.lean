import WsDeque.Bwos.Chain
import WsDeque.TransitionSystem

/-
The bounded BWoS queue: `BwosWorker` and its `BwosStealer`s over a fixed row of
blocks.
-/

namespace WsDeque.Bwos.Bounded

open InlineValue

/-- The arguments of `with_blocks`, with what it asserts. -/
structure Shape where
  numBlocks : Nat
  blockSize : Nat
  twoBlocks : 2 ≤ numBlocks
  nonempty : 1 ≤ blockSize

def Shape.capacity (shape : Shape) : Nat :=
  shape.numBlocks * shape.blockSize

structure Inner where
  blocks : Nat → Block
  produced : Nat

def Inner.setBlock (inner : Inner) (blk : Nat) (block : Block) : Inner :=
  { inner with blocks := Function.update inner.blocks blk block }

inductive OwnerPc (α : Type*)
  | idle
  | putLoadCommitted (value : α)
  /-- `owner_block` is already the next block. -/
  | putStoreProduced (value : α)
  | putting (pc : PutPc α)
  | popping (pc : PopPc)
  | returned (result : OwnerResult α)

inductive ThiefPc (α : Type*)
  | absent
  | idle
  | loadProduced
  | scanning (produced blk : Nat) (pc : StealPc)
  | returned (result : Steal α)

structure State (ι α : Type*) where
  inner : Inner
  ownerBlock : Nat
  owner : OwnerPc α
  thief : ι → ThiefPc α

variable {ι α : Type*} [InlineValue α]

/-- Where `pop` goes after a step inside the block. -/
def afterPop (ownerBlock : Nat) : PopOutcome → Nat × OwnerPc α
  | .running pc => (ownerBlock, .popping pc)
  | .drained =>
      if ownerBlock = 0 then (ownerBlock, .returned (.popped none))
      else (ownerBlock - 1, .popping .loadCommitted)
  | .taken bits => (ownerBlock, .returned (.popped (some (fromBits bits))))

def ownerStep (shape : Shape) (inner : Inner) (ownerBlock : Nat) :
    OwnerPc α → Option (Access α × Inner × Nat × OwnerPc α)
  | .putLoadCommitted value =>
      let bottom := (inner.blocks ownerBlock).committed
      if bottom = shape.blockSize then
        if ownerBlock + 1 = shape.numBlocks then
          some (.loadCommitted, inner, ownerBlock, .returned (.put false))
        else some (.loadCommitted, inner, ownerBlock + 1, .putStoreProduced value)
      else some (.loadCommitted, inner, ownerBlock, .putting (.storeSlot value bottom))
  | .putStoreProduced value =>
      some (.storeProduced, { inner with produced := ownerBlock + 1 }, ownerBlock,
        .putting (.storeSlot value 0))
  | .putting pc =>
      let taken := putBlock (inner.blocks ownerBlock) pc
      some (taken.1, inner.setBlock ownerBlock taken.2.1, ownerBlock,
        match taken.2.2 with
        | some pc' => .putting pc'
        | none => .returned (.put true))
  | .popping pc =>
      let taken := popBlock (inner.blocks ownerBlock) pc
      let next := afterPop ownerBlock taken.2.2
      some (taken.1, inner.setBlock ownerBlock taken.2.1, next.1, next.2)
  | .idle | .returned _ => none

/-- The head of the scan. -/
def scan (produced blk : Nat) : ThiefPc α :=
  if blk < produced then .scanning produced blk .loadStolen else .returned .empty

def afterSteal (produced blk : Nat) : StealOutcome → ThiefPc α
  | .running pc => .scanning produced blk pc
  | .drained => scan produced (blk + 1)
  | .taken bits => .returned (.success (fromBits bits))
  | .lost => .returned .retry

def thiefStep (inner : Inner) : ThiefPc α → Option (Access α × Inner × ThiefPc α)
  | .loadProduced => some (.loadProduced, inner, scan inner.produced 0)
  | .scanning produced blk pc =>
      let taken := stealBlock (inner.blocks blk) pc
      some (taken.1, inner.setBlock blk taken.2.1, afterSteal produced blk taken.2.2)
  | .absent | .idle | .returned _ => none

inductive Choice (ι α : Type*)
  | putCall (value : α)
  | popCall
  | owner
  | ownerReturn
  | newStealer (thief : ι)
  | stealCall (thief : ι)
  | thief (thief : ι)
  | stealReturn (thief : ι)

variable [DecidableEq ι]

def State.setThief (state : State ι α) (thief : ι) (pc : ThiefPc α) : State ι α :=
  { state with thief := Function.update state.thief thief pc }

def next (shape : Shape) (state : State ι α) : Choice ι α → Option (Label ι α × State ι α)
  | .putCall value =>
      match state.owner with
      | .idle => some (.putCall value, { state with owner := .putLoadCommitted value })
      | _ => none
  | .popCall =>
      match state.owner with
      | .idle => some (.popCall, { state with owner := .popping .loadCommitted })
      | _ => none
  | .owner =>
      (ownerStep shape state.inner state.ownerBlock state.owner).map fun taken =>
        (.owner taken.1,
          { state with
            inner := taken.2.1
            ownerBlock := taken.2.2.1
            owner := taken.2.2.2 })
  | .ownerReturn =>
      match state.owner with
      | .returned result => some (.ownerReturn result, { state with owner := .idle })
      | _ => none
  | .newStealer thief =>
      match state.thief thief with
      | .absent => some (.newStealer thief, state.setThief thief .idle)
      | _ => none
  | .stealCall thief =>
      match state.thief thief with
      | .idle => some (.stealCall thief, state.setThief thief .loadProduced)
      | _ => none
  | .thief thief =>
      (thiefStep state.inner (state.thief thief)).map fun taken =>
        (.thief thief taken.1, { state with inner := taken.2.1 }.setThief thief taken.2.2)
  | .stealReturn thief =>
      match state.thief thief with
      | .returned result => some (.stealReturn thief result, state.setThief thief .idle)
      | _ => none

omit [InlineValue α] [DecidableEq ι] in
/-- `BwosWorker::with_blocks`. -/
def withBlocks (ι α : Type*) : State ι α :=
  { inner :=
      { blocks := fun _ => Block.new
        produced := 1 }
    ownerBlock := 0
    owner := .idle
    thief := fun _ => .absent }

def system (ι α : Type*) [InlineValue α] [DecidableEq ι] (shape : Shape) :
    TransitionSystem (State ι α) (Label ι α) :=
  .ofNext (fun state => state = withBlocks ι α) (next shape)

omit [InlineValue α] [DecidableEq ι] in
/-- No call is in progress. -/
def State.Quiescent (state : State ι α) : Prop :=
  state.owner = .idle ∧ ∀ thief, state.thief thief = .idle ∨ state.thief thief = .absent

end WsDeque.Bwos.Bounded
