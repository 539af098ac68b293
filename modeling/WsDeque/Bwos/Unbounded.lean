import WsDeque.Bwos.Block
import WsDeque.TransitionSystem

/-
The unbounded BWoS queue: `UnboundedBwosWorker` and its `UnboundedBwosStealer`s
over a growing list of blocks.
-/

namespace WsDeque.Bwos.Unbounded

open InlineValue

/-- The argument of `with_block_size`, with what it asserts. -/
structure Shape where
  blockSize : Nat
  nonempty : 1 ≤ blockSize

def oneSlot : Shape :=
  { blockSize := 1
    nonempty := Nat.one_pos }

/-- The blocks allocated so far, by address; the links stand beside the counters
and slots that both queues share. -/
structure Inner where
  blocks : Nat → Block
  next : Nat → Option Nat
  prev : Nat → Option Nat
  allocated : Nat
  head : Nat

/-- `Block::alloc`; the fresh block is the address `allocated`. -/
def Inner.alloc (inner : Inner) (prev : Option Nat) : Inner :=
  { inner with
    blocks := Function.update inner.blocks inner.allocated Block.new
    next := Function.update inner.next inner.allocated none
    prev := Function.update inner.prev inner.allocated prev
    allocated := inner.allocated + 1 }

def Inner.setBlock (inner : Inner) (blk : Nat) (block : Block) : Inner :=
  { inner with blocks := Function.update inner.blocks blk block }

def Inner.setNext (inner : Inner) (blk next : Nat) : Inner :=
  { inner with next := Function.update inner.next blk (some next) }

inductive OwnerPc (α : Type*)
  | idle
  | putLoadCommitted (value : α)
  | putStoreNext (value : α) (fresh : Nat)
  | putting (pc : PutPc α)
  | popping (pc : PopPc)
  | returned (result : OwnerResult α)

inductive ThiefPc (α : Type*)
  | absent
  | idle
  | scanning (blk : Nat) (pc : StealPc)
  | loadNext (blk : Nat)
  | returned (result : Steal α)

structure State (ι α : Type*) where
  inner : Inner
  ownerBlock : Nat
  owner : OwnerPc α
  thief : ι → ThiefPc α
  cursor : ι → Nat

variable {ι α : Type*} [InlineValue α]

/-- Where `pop` goes after a step inside the block. -/
def afterPop (inner : Inner) (ownerBlock : Nat) : PopOutcome → Nat × OwnerPc α
  | .running pc => (ownerBlock, .popping pc)
  | .drained =>
      match inner.prev ownerBlock with
      | none => (ownerBlock, .returned (.popped none))
      | some prev => (prev, .popping .loadCommitted)
  | .taken bits => (ownerBlock, .returned (.popped (some (fromBits bits))))

def ownerStep (shape : Shape) (inner : Inner) (ownerBlock : Nat) :
    OwnerPc α → Option (Access α × Inner × Nat × OwnerPc α)
  | .putLoadCommitted value =>
      let bottom := (inner.blocks ownerBlock).committed
      if bottom = shape.blockSize then
        some (.loadCommitted, inner.alloc (some ownerBlock), ownerBlock,
          .putStoreNext value inner.allocated)
      else some (.loadCommitted, inner, ownerBlock, .putting (.storeSlot value bottom))
  | .putStoreNext value fresh =>
      some (.storeNext, inner.setNext ownerBlock fresh, fresh, .putting (.storeSlot value 0))
  | .putting pc =>
      let taken := putBlock (inner.blocks ownerBlock) pc
      some (taken.1, inner.setBlock ownerBlock taken.2.1, ownerBlock,
        match taken.2.2 with
        | some pc' => .putting pc'
        | none => .returned (.put true))
  | .popping pc =>
      let taken := popBlock (inner.blocks ownerBlock) pc
      let next := afterPop inner ownerBlock taken.2.2
      some (taken.1, inner.setBlock ownerBlock taken.2.1, next.1, next.2)
  | .idle | .returned _ => none

/-- The cursor and the control point after a step inside a block. -/
def afterSteal (cursor blk : Nat) : StealOutcome → Nat × ThiefPc α
  | .running pc => (cursor, .scanning blk pc)
  | .drained => (cursor, .loadNext blk)
  | .taken bits => (blk, .returned (.success (fromBits bits)))
  | .lost => (cursor, .returned .retry)

/-- A drained block is left behind once it has a successor. -/
def afterNext (cursor : Nat) : Option Nat → Nat × ThiefPc α
  | none => (cursor, .returned .empty)
  | some next => (next, .scanning next .loadStolen)

def thiefStep (inner : Inner) (cursor : Nat) :
    ThiefPc α → Option (Access α × Inner × Nat × ThiefPc α)
  | .scanning blk pc =>
      let taken := stealBlock (inner.blocks blk) pc
      some (taken.1, inner.setBlock blk taken.2.1, afterSteal cursor blk taken.2.2)
  | .loadNext blk => some (.loadNext, inner, afterNext cursor (inner.next blk))
  | .absent | .idle | .returned _ => none

inductive Choice (ι α : Type*)
  | putCall (value : α)
  | popCall
  | owner
  | ownerReturn
  | newStealer (thief : ι)
  | stealCall (thief : ι)
  | thief (thief : ι)
  | stealReturn (thief : ι)

variable [DecidableEq ι]

def State.setThief (state : State ι α) (thief : ι) (cursor : Nat) (pc : ThiefPc α) :
    State ι α :=
  { state with
    thief := Function.update state.thief thief pc
    cursor := Function.update state.cursor thief cursor }

def next (shape : Shape) (state : State ι α) : Choice ι α → Option (Label ι α × State ι α)
  | .putCall value =>
      match state.owner with
      | .idle => some (.putCall value, { state with owner := .putLoadCommitted value })
      | _ => none
  | .popCall =>
      match state.owner with
      | .idle => some (.popCall, { state with owner := .popping .loadCommitted })
      | _ => none
  | .owner =>
      (ownerStep shape state.inner state.ownerBlock state.owner).map fun taken =>
        (.owner taken.1,
          { state with
            inner := taken.2.1
            ownerBlock := taken.2.2.1
            owner := taken.2.2.2 })
  | .ownerReturn =>
      match state.owner with
      | .returned result => some (.ownerReturn result, { state with owner := .idle })
      | _ => none
  -- `stealer` and `clone` both start at the head.
  | .newStealer thief =>
      match state.thief thief with
      | .absent => some (.newStealer thief, state.setThief thief state.inner.head .idle)
      | _ => none
  | .stealCall thief =>
      match state.thief thief with
      | .idle =>
          some (.stealCall thief,
            state.setThief thief (state.cursor thief)
              (.scanning (state.cursor thief) .loadStolen))
      | _ => none
  | .thief thief =>
      (thiefStep state.inner (state.cursor thief) (state.thief thief)).map fun taken =>
        (.thief thief taken.1,
          { state with inner := taken.2.1 }.setThief thief taken.2.2.1 taken.2.2.2)
  | .stealReturn thief =>
      match state.thief thief with
      | .returned result =>
          some (.stealReturn thief result, state.setThief thief (state.cursor thief) .idle)
      | _ => none

omit [InlineValue α] [DecidableEq ι] in
/-- `UnboundedBwosWorker::with_block_size`. -/
def withBlockSize (ι α : Type*) : State ι α :=
  { inner :=
      { blocks := fun _ => Block.new
        next := fun _ => none
        prev := fun _ => none
        allocated := 1
        head := 0 }
    ownerBlock := 0
    owner := .idle
    thief := fun _ => .absent
    cursor := fun _ => 0 }

def system (ι α : Type*) [InlineValue α] [DecidableEq ι] (shape : Shape) :
    TransitionSystem (State ι α) (Label ι α) :=
  .ofNext (fun state => state = withBlockSize ι α) (next shape)

omit [InlineValue α] [DecidableEq ι] in
/-- No call is in progress. -/
def State.Quiescent (state : State ι α) : Prop :=
  state.owner = .idle ∧ ∀ thief, state.thief thief = .idle ∨ state.thief thief = .absent

instance : (owner : OwnerPc α) → Decidable (owner = .idle)
  | .idle => .isTrue rfl
  | .putLoadCommitted _ | .putStoreNext _ _ | .putting _ | .popping _ | .returned _ =>
      .isFalse nofun

instance : (thief : ThiefPc α) → Decidable (thief = .idle ∨ thief = .absent)
  | .idle => .isTrue (Or.inl rfl)
  | .absent => .isTrue (Or.inr rfl)
  | .scanning _ _ | .loadNext _ | .returned _ => .isFalse nofun

instance {thieves : Nat} (state : State (Fin thieves) α) : Decidable state.Quiescent :=
  inferInstanceAs (Decidable (_ ∧ ∀ _thief, _ ∨ _))

end WsDeque.Bwos.Unbounded
