import Mathlib.Data.Fintype.Basic
import WsDeque.Idempotent.Model

/-
The list of WS-MULT: `LinkedWorker` and `LinkedStealer` over nodes of a fixed
size that are never moved.

Steps, boxes and clones are as for the array. A node is known by the order of
its allocation.
-/

namespace WsDeque.Linked

open Idempotent (Take)

def nodeSize : Nat := 64

abbrev NodePtr := Nat

structure Node (α : Type*) where
  cells : Nat → Option α
  next : Option NodePtr
  base : Nat

def Node.new (α : Type*) (base : Nat) : Node α :=
  { cells := fun _ => none
    next := none
    base := base }

structure Inner (α : Type*) where
  head : Nat
  first : NodePtr
  tail : Nat
  nodes : NodePtr → Node α
  allocated : Nat

variable {ι α : Type*}

/-- `Node::new`; the fresh node is the address `allocated`. -/
def Inner.alloc (inner : Inner α) (base : Nat) : Inner α :=
  { inner with
    nodes := Function.update inner.nodes inner.allocated (.new α base)
    allocated := inner.allocated + 1 }

def Inner.setCell (inner : Inner α) (node : NodePtr) (offset : Nat) (boxed : α) : Inner α :=
  { inner with
    nodes := Function.update inner.nodes node
      { inner.nodes node with
        cells := Function.update (inner.nodes node).cells offset (some boxed) } }

def Inner.setNext (inner : Inner α) (node next : NodePtr) : Inner α :=
  { inner with
    nodes := Function.update inner.nodes node { inner.nodes node with next := some next } }

def Inner.maxHead (inner : Inner α) (value : Nat) : Inner α :=
  { inner with head := max inner.head value }

inductive Access (α : Type*)
  | loadHead
  | maxHead
  | loadTail
  | storeTail
  /-- The store that puts a task into the queue. -/
  | storeTask (task : α)
  | storeNext
  | loadNext (linked : Bool)
  | loadCell
  | outOfRange
  deriving DecidableEq

/-! ### The owner -/

inductive OwnerResult (α : Type*)
  | put
  /-- With the local `head` of `take`. -/
  | took (head : Nat) (result : Take α)
  deriving DecidableEq

inductive OwnerPc (α : Type*)
  | idle
  | putStoreTask (task : α)
  | putStoreTail (offset : Nat)
  | putStoreNext (fresh : NodePtr)
  | takeLoadHead
  | takeLoadTail (head : Nat)
  | slotLoadNext (head : Nat) (node : NodePtr)
  | slotLoadCell (head : Nat) (node : NodePtr)
  | takeMaxHead (head : Nat) (task : α)
  | returned (result : OwnerResult α)
  /-- A subtraction below zero or an offset beyond the node. -/
  | panicked
  /-- `load_slot` has followed a null `next`. -/
  | nullNode

/-- The head of the loop of `load_slot`. -/
def slotFrom (inner : Inner α) (head : Nat) (node : NodePtr) : OwnerPc α :=
  if (inner.nodes node).base + nodeSize ≤ head then .slotLoadNext head node
  else if head < (inner.nodes node).base then .panicked
  else .slotLoadCell head node

/-- One access of `put` or `take`, with the private `tail_node` and `tail`. -/
def ownerStep (inner : Inner α) (tailNode : NodePtr) (tail : Nat) :
    OwnerPc α → Option (Access α × Inner α × NodePtr × Nat × OwnerPc α)
  | .putStoreTask task =>
      let base := (inner.nodes tailNode).base
      if tail < base ∨ nodeSize ≤ tail - base then
        some (.outOfRange, inner, tailNode, tail, .panicked)
      else
        some (.storeTask task, inner.setCell tailNode (tail - base) task, tailNode, tail + 1,
          .putStoreTail (tail - base))
  | .putStoreTail offset =>
      let stored := { inner with tail := tail }
      if offset + 1 = nodeSize then
        some (.storeTail, stored.alloc tail, tailNode, tail, .putStoreNext inner.allocated)
      else some (.storeTail, stored, tailNode, tail, .returned .put)
  | .putStoreNext fresh =>
      some (.storeNext, inner.setNext tailNode fresh, fresh, tail, .returned .put)
  | .takeLoadHead => some (.loadHead, inner, tailNode, tail, .takeLoadTail inner.head)
  | .takeLoadTail head =>
      some (.loadTail, inner, tailNode, tail,
        if inner.tail ≤ head then .returned (.took head .empty)
        else slotFrom inner head inner.first)
  | .slotLoadNext head node =>
      match (inner.nodes node).next with
      | none => some (.loadNext false, inner, tailNode, tail, .nullNode)
      | some next => some (.loadNext true, inner, tailNode, tail, slotFrom inner head next)
  | .slotLoadCell head node =>
      some (.loadCell, inner, tailNode, tail,
        match (inner.nodes node).cells (head - (inner.nodes node).base) with
        | none => .returned (.took head .empty)
        | some task => .takeMaxHead head task)
  | .takeMaxHead head task =>
      some (.maxHead, inner.maxHead (head + 1), tailNode, tail,
        .returned (.took head (.got task)))
  | .idle | .returned _ | .panicked | .nullNode => none

/-! ### The thieves -/

/-- `cur_node` and `cur_base` of a handle. -/
structure Cursor where
  node : NodePtr
  base : Nat
  deriving DecidableEq

inductive ThiefPc (α : Type*)
  | absent
  | idle
  | loadHead
  | loadTail (head : Nat)
  | loadNext (head : Nat)
  | loadCell (head : Nat)
  | maxHead (head : Nat) (task : α)
  | returned (head : Nat) (result : Take α)
  /-- The offset `head - cur_base` would be below zero. -/
  | panicked

/-- The head of the loop of `steal`. -/
def walkFrom (head base : Nat) : ThiefPc α :=
  if base + nodeSize ≤ head then .loadNext head
  else if head < base then .panicked
  else .loadCell head

def thiefStep (inner : Inner α) (cursor : Cursor) :
    ThiefPc α → Option (Access α × Inner α × Cursor × ThiefPc α)
  | .loadHead => some (.loadHead, inner, cursor, .loadTail inner.head)
  | .loadTail head =>
      some (.loadTail, inner, cursor,
        if inner.tail ≤ head then .returned head .empty else walkFrom head cursor.base)
  | .loadNext head =>
      match (inner.nodes cursor.node).next with
      | none => some (.loadNext false, inner, cursor, .returned head .empty)
      | some next =>
          some (.loadNext true, inner,
            { node := next
              base := cursor.base + nodeSize },
            walkFrom head (cursor.base + nodeSize))
  | .loadCell head =>
      some (.loadCell, inner, cursor,
        match (inner.nodes cursor.node).cells (head - cursor.base) with
        | none => .returned head .empty
        | some task => .maxHead head task)
  | .maxHead head task =>
      some (.maxHead, inner.maxHead (head + 1), cursor, .returned head (.got task))
  | .absent | .idle | .returned _ _ | .panicked => none

/-! ### The system -/

structure State (ι α : Type*) where
  inner : Inner α
  tailNode : NodePtr
  tail : Nat
  owner : OwnerPc α
  thief : ι → ThiefPc α
  cursor : ι → Cursor

inductive Label (ι α : Type*)
  | putCall (task : α)
  | takeCall
  | owner (access : Access α)
  | ownerReturn (result : OwnerResult α)
  | newStealer (thief : ι)
  | stealCall (thief : ι)
  | thief (thief : ι) (access : Access α)
  | stealReturn (thief : ι) (head : Nat) (result : Take α)
  deriving DecidableEq

inductive Choice (ι α : Type*)
  | putCall (task : α)
  | takeCall
  | owner
  | ownerReturn
  | newStealer (thief : ι)
  | stealCall (thief : ι)
  | thief (thief : ι)
  | stealReturn (thief : ι)

variable [DecidableEq ι]

def State.setThief (state : State ι α) (thief : ι) (cursor : Cursor) (pc : ThiefPc α) :
    State ι α :=
  { state with
    thief := Function.update state.thief thief pc
    cursor := Function.update state.cursor thief cursor }

def next (state : State ι α) : Choice ι α → Option (Label ι α × State ι α)
  | .putCall task =>
      match state.owner with
      | .idle => some (.putCall task, { state with owner := .putStoreTask task })
      | _ => none
  | .takeCall =>
      match state.owner with
      | .idle => some (.takeCall, { state with owner := .takeLoadHead })
      | _ => none
  | .owner =>
      (ownerStep state.inner state.tailNode state.tail state.owner).map fun taken =>
        (.owner taken.1,
          { state with
            inner := taken.2.1
            tailNode := taken.2.2.1
            tail := taken.2.2.2.1
            owner := taken.2.2.2.2 })
  | .ownerReturn =>
      match state.owner with
      | .returned result => some (.ownerReturn result, { state with owner := .idle })
      | _ => none
  -- `stealer` and `clone` both start at the first node.
  | .newStealer thief =>
      match state.thief thief with
      | .absent =>
          some (.newStealer thief,
            state.setThief thief { node := state.inner.first, base := 0 } .idle)
      | _ => none
  | .stealCall thief =>
      match state.thief thief with
      | .idle => some (.stealCall thief, state.setThief thief (state.cursor thief) .loadHead)
      | _ => none
  | .thief thief =>
      (thiefStep state.inner (state.cursor thief) (state.thief thief)).map fun taken =>
        (.thief thief taken.1,
          { state with inner := taken.2.1 }.setThief thief taken.2.2.1 taken.2.2.2)
  | .stealReturn thief =>
      match state.thief thief with
      | .returned head result =>
          some (.stealReturn thief head result,
            state.setThief thief (state.cursor thief) .idle)
      | _ => none

/-- `LinkedWorker::new`. -/
def new (ι α : Type*) : State ι α :=
  { inner :=
      { head := 0
        first := 0
        tail := 0
        nodes := fun _ => .new α 0
        allocated := 1 }
    tailNode := 0
    tail := 0
    owner := .idle
    thief := fun _ => .absent
    cursor := fun _ => { node := 0, base := 0 } }

def system (ι α : Type*) [DecidableEq ι] : TransitionSystem (State ι α) (Label ι α) :=
  .ofNext (fun state => state = new ι α) next

end WsDeque.Linked
