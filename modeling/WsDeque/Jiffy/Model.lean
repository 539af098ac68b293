import Mathlib.Data.List.Basic
import WsDeque.TransitionSystem

/-
The Jiffy channel: many producers, one consumer, and a list of buffers that is
only ever extended.

Every atomic access is one step of a sequentially consistent memory, and so is
each plain write or read of a slot's value. An index is a natural number: its
slot is kept until the queue is dropped, so that memory ends long before a word
does.
-/

namespace WsDeque.Jiffy

inductive SlotState
  | empty
  | set
  | handled
  deriving DecidableEq

/-- A value that is not initialised is `none`. -/
structure Slot (α : Type*) where
  state : SlotState
  value : Option α
  deriving DecidableEq

/-- An address returned by `Box::into_raw`, numbered in order of allocation. -/
abbrev BufferPtr := Nat

structure Buffer (α : Type*) where
  slots : Nat → Slot α
  next : Option BufferPtr
  base : Nat

def Buffer.new (α : Type*) (base : Nat) : Buffer α :=
  { slots := fun _ => { state := .empty, value := none }
    next := none
    base := base }

/-- `Inner`, with the heap and the addresses given back to it so far. -/
structure Inner (α : Type*) where
  tail : Nat
  tailBuf : BufferPtr
  first : BufferPtr
  headBuf : BufferPtr
  head : Nat
  heap : BufferPtr → Buffer α
  allocated : Nat
  freed : List BufferPtr

variable {ι α : Type*}

namespace Inner

/-- What a pointer leads to, unless it dangles. -/
def deref (inner : Inner α) (buf : BufferPtr) : Option (Buffer α) :=
  if buf < inner.allocated ∧ buf ∉ inner.freed then some (inner.heap buf) else none

def setBuffer (inner : Inner α) (buf : BufferPtr) (buffer : Buffer α) : Inner α :=
  { inner with heap := Function.update inner.heap buf buffer }

def setSlot (inner : Inner α) (buf : BufferPtr) (offset : Nat) (slot : Slot α) : Inner α :=
  inner.setBuffer buf
    { inner.heap buf with slots := Function.update (inner.heap buf).slots offset slot }

def setNext (inner : Inner α) (buf next : BufferPtr) : Inner α :=
  inner.setBuffer buf { inner.heap buf with next := some next }

/-- `Buffer::new`; the address is `allocated`. -/
def alloc (inner : Inner α) (base : Nat) : Inner α :=
  { inner.setBuffer inner.allocated (.new α base) with allocated := inner.allocated + 1 }

/-- `drop(Box::from_raw(buf))`. -/
def free (inner : Inner α) (buf : BufferPtr) : Inner α :=
  { inner with freed := inner.freed ++ [buf] }

end Inner

inductive Access (α : Type*)
  /-- The `fetch_add` of an enqueue of this value, and what it returned. -/
  | claim (idx : Nat) (value : α)
  | loadTailBuf
  | loadNext (linked : Bool)
  | linkNext (won : Bool)
  | advanceTailBuf (won : Bool)
  | writeValue
  | storeSet
  | loadHead
  | loadTail
  | loadHeadBuf
  | storeHeadBuf
  | loadState (state : SlotState)
  | readValue
  | storeHandled
  | storeHead
  | dangling
  deriving DecidableEq

/-! ### Producers -/

/-- Where `link_next_buffer` was called. -/
inductive LinkFor (α : Type*)
  | locate (value : α) (idx : Nat)
  | finish

inductive ProducerPc (α : Type*)
  | idle
  | claim (value : α)
  | loadTailBuf (value : α) (idx : Nat)
  | linkLoad (caller : LinkFor α) (buf : BufferPtr)
  | linkCas (caller : LinkFor α) (buf fresh : BufferPtr)
  | loadNext (value : α) (idx : Nat) (buf : BufferPtr)
  | advance (value : α) (idx : Nat) (buf next : BufferPtr)
  | loadHeadBuf (value : α) (idx : Nat)
  | walkNext (value : α) (idx : Nat) (buf : BufferPtr)
  | writeValue (value : α) (idx : Nat) (buf : BufferPtr) (offset : Nat)
  | storeSet (value : α) (idx : Nat) (buf : BufferPtr) (offset : Nat)
  | returned
  /-- `idx - base` below zero, or an offset beyond the slots. -/
  | panicked
  /-- The assertion of `locate_from_head`. -/
  | nullBuffer
  | dangling

/-- `enqueue` with the buffer it was given. -/
def located (size : Nat) (inner : Inner α) (value : α) (idx : Nat) (buf : BufferPtr) :
    ProducerPc α :=
  match inner.deref buf with
  | none => .dangling
  | some buffer =>
      if idx < buffer.base ∨ size ≤ idx - buffer.base then .panicked
      else .writeValue value idx buf (idx - buffer.base)

/-- `locate_tail_buffer` once it has read the tail buffer. -/
def locateIn (size : Nat) (inner : Inner α) (value : α) (idx : Nat) (buf : BufferPtr) :
    ProducerPc α :=
  match inner.deref buf with
  | none => .dangling
  | some buffer =>
      if idx < buffer.base then .loadHeadBuf value idx
      else if idx < buffer.base + size then located size inner value idx buf
      else .linkLoad (.locate value idx) buf

/-- The head of the loop of `locate_from_head`. -/
def walkFrom (size : Nat) (inner : Inner α) (value : α) (idx : Nat) (buf : BufferPtr) :
    ProducerPc α :=
  match inner.deref buf with
  | none => .dangling
  | some buffer =>
      if idx < buffer.base + size then located size inner value idx buf
      else .walkNext value idx buf

/-- Where `link_next_buffer` returns to. -/
def LinkFor.resume (buf : BufferPtr) : LinkFor α → ProducerPc α
  | .locate value idx => .loadNext value idx buf
  | .finish => .returned

/-- One access of `enqueue` to a buffer that is still there. -/
def bufferStep (size : Nat) (inner : Inner α) (buf : BufferPtr) (buffer : Buffer α) :
    ProducerPc α → Option (Access α × Inner α × ProducerPc α)
  | .linkLoad caller _ =>
      match buffer.next with
      | some _ => some (.loadNext true, inner, caller.resume buf)
      | none =>
          some (.loadNext false, inner.alloc (buffer.base + size),
            .linkCas caller buf inner.allocated)
  | .linkCas caller _ fresh =>
      match buffer.next with
      | none => some (.linkNext true, inner.setNext buf fresh, caller.resume buf)
      | some _ =>
          some (.linkNext false, inner.free fresh,
            if (inner.deref fresh).isSome then caller.resume buf else .dangling)
  | .loadNext value idx _ =>
      match buffer.next with
      | none => some (.loadNext false, inner, .loadTailBuf value idx)
      | some next => some (.loadNext true, inner, .advance value idx buf next)
  | .walkNext value idx _ =>
      match buffer.next with
      | none => some (.loadNext false, inner, .nullBuffer)
      | some next => some (.loadNext true, inner, walkFrom size inner value idx next)
  | .writeValue value idx _ offset =>
      some (.writeValue,
        inner.setSlot buf offset { buffer.slots offset with value := some value },
        .storeSet value idx buf offset)
  | .storeSet _ _ _ offset =>
      some (.storeSet, inner.setSlot buf offset { buffer.slots offset with state := .set },
        if offset + 2 = size then .linkLoad .finish buf else .returned)
  | _ => none

/-- The buffer that the next access is made to. -/
def ProducerPc.uses : ProducerPc α → Option BufferPtr
  | .linkLoad _ buf | .linkCas _ buf _ | .loadNext _ _ buf | .walkNext _ _ buf
  | .writeValue _ _ buf _ | .storeSet _ _ buf _ => some buf
  | _ => none

/-- One access of `enqueue`. -/
def producerStep (size : Nat) (inner : Inner α) (pc : ProducerPc α) :
    Option (Access α × Inner α × ProducerPc α) :=
  match pc with
  | .claim value =>
      some (.claim inner.tail value, { inner with tail := inner.tail + 1 },
        .loadTailBuf value inner.tail)
  | .loadTailBuf value idx =>
      some (.loadTailBuf, inner, locateIn size inner value idx inner.tailBuf)
  | .advance value idx buf next =>
      if inner.tailBuf = buf then
        some (.advanceTailBuf true, { inner with tailBuf := next }, .loadTailBuf value idx)
      else some (.advanceTailBuf false, inner, .loadTailBuf value idx)
  | .loadHeadBuf value idx =>
      some (.loadHeadBuf, inner, walkFrom size inner value idx inner.headBuf)
  | other =>
      other.uses.bind fun buf =>
        match inner.deref buf with
        | none => some (.dangling, inner, .dangling)
        | some buffer => bufferStep size inner buf buffer other

/-! ### The consumer -/

inductive ConsumerPc (α : Type*)
  | idle
  | loadHead
  | loadTail (head : Nat)
  | loadHeadBuf (head : Nat)
  | loadNext (buf : BufferPtr)
  | storeHeadBuf (next : BufferPtr)
  | loadState (head : Nat) (buf : BufferPtr) (offset : Nat)
  | readValue (head : Nat) (buf : BufferPtr) (offset : Nat)
  | storeHandled (head : Nat) (buf : BufferPtr) (offset : Nat) (value : α)
  | storeHead (head : Nat) (value : α)
  /-- Over a slot that is already handled. -/
  | skipHead (head : Nat)
  | returned (result : Option α)
  /-- `head - base` below zero. -/
  | panicked
  /-- The value of a slot that was never written. -/
  | uninitialised
  | dangling

/-- `dequeue` once it has read the head buffer. -/
def dequeueIn (size : Nat) (inner : Inner α) (head : Nat) (buf : BufferPtr) : ConsumerPc α :=
  match inner.deref buf with
  | none => .dangling
  | some buffer =>
      if head < buffer.base then .panicked
      else if size ≤ head - buffer.base then .loadNext buf
      else .loadState head buf (head - buffer.base)

/-- One access of `dequeue` to a buffer that is still there. -/
def slotStep (inner : Inner α) (buffer : Buffer α) :
    ConsumerPc α → Option (Access α × Inner α × ConsumerPc α)
  | .loadNext _ =>
      match buffer.next with
      | none => some (.loadNext false, inner, .returned none)
      | some next => some (.loadNext true, inner, .storeHeadBuf next)
  | .loadState head buf offset =>
      some (.loadState (buffer.slots offset).state, inner,
        match (buffer.slots offset).state with
        | .empty => .returned none
        | .handled => .skipHead head
        | .set => .readValue head buf offset)
  | .readValue head buf offset =>
      some (.readValue, inner,
        match (buffer.slots offset).value with
        | none => .uninitialised
        | some value => .storeHandled head buf offset value)
  | .storeHandled head buf offset value =>
      some (.storeHandled,
        inner.setSlot buf offset { buffer.slots offset with state := .handled },
        .storeHead head value)
  | _ => none

def ConsumerPc.uses : ConsumerPc α → Option BufferPtr
  | .loadNext buf | .loadState _ buf _ | .readValue _ buf _ | .storeHandled _ buf _ _ => some buf
  | _ => none

/-- One access of `dequeue`. -/
def consumerStep (size : Nat) (inner : Inner α) (pc : ConsumerPc α) :
    Option (Access α × Inner α × ConsumerPc α) :=
  match pc with
  | .loadHead => some (.loadHead, inner, .loadTail inner.head)
  | .loadTail head =>
      some (.loadTail, inner, if head ≥ inner.tail then .returned none else .loadHeadBuf head)
  | .loadHeadBuf head => some (.loadHeadBuf, inner, dequeueIn size inner head inner.headBuf)
  | .storeHeadBuf next => some (.storeHeadBuf, { inner with headBuf := next }, .loadHead)
  | .storeHead head value =>
      some (.storeHead, { inner with head := head + 1 }, .returned (some value))
  | .skipHead head => some (.storeHead, { inner with head := head + 1 }, .loadHead)
  | other =>
      other.uses.bind fun buf =>
        match inner.deref buf with
        | none => some (.dangling, inner, .dangling)
        | some buffer => slotStep inner buffer other

/-! ### The system -/

structure State (ι α : Type*) where
  inner : Inner α
  producer : ι → ProducerPc α
  consumer : ConsumerPc α

inductive Label (ι α : Type*)
  | enqueueCall (producer : ι) (value : α)
  | producer (producer : ι) (access : Access α)
  | enqueueReturn (producer : ι)
  | dequeueCall
  | consumer (access : Access α)
  | dequeueReturn (result : Option α)
  deriving DecidableEq

inductive Choice (ι α : Type*)
  | enqueueCall (producer : ι) (value : α)
  | producer (producer : ι)
  | enqueueReturn (producer : ι)
  | dequeueCall
  | consumer
  | dequeueReturn

variable [DecidableEq ι]

def State.setProducer (state : State ι α) (producer : ι) (pc : ProducerPc α) : State ι α :=
  { state with producer := Function.update state.producer producer pc }

def next (size : Nat) (state : State ι α) : Choice ι α → Option (Label ι α × State ι α)
  | .enqueueCall producer value =>
      match state.producer producer with
      | .idle => some (.enqueueCall producer value, state.setProducer producer (.claim value))
      | _ => none
  | .producer producer =>
      (producerStep size state.inner (state.producer producer)).map fun taken =>
        (.producer producer taken.1,
          { state with inner := taken.2.1 }.setProducer producer taken.2.2)
  | .enqueueReturn producer =>
      match state.producer producer with
      | .returned => some (.enqueueReturn producer, state.setProducer producer .idle)
      | _ => none
  | .dequeueCall =>
      match state.consumer with
      | .idle => some (.dequeueCall, { state with consumer := .loadHead })
      | _ => none
  | .consumer =>
      (consumerStep size state.inner state.consumer).map fun taken =>
        (.consumer taken.1, { state with inner := taken.2.1, consumer := taken.2.2 })
  | .dequeueReturn =>
      match state.consumer with
      | .returned result => some (.dequeueReturn result, { state with consumer := .idle })
      | _ => none

def channel (ι α : Type*) : State ι α :=
  { inner :=
      { tail := 0
        tailBuf := 0
        first := 0
        headBuf := 0
        head := 0
        heap := fun _ => .new α 0
        allocated := 1
        freed := [] }
    producer := fun _ => .idle
    consumer := .idle }

def system (ι α : Type*) [DecidableEq ι] (size : Nat) :
    TransitionSystem (State ι α) (Label ι α) :=
  .ofNext (fun state => state = channel ι α) (next size)

/-! ### Dropping -/

/-- The values that dropping a buffer drops, unless one was never written. -/
def Buffer.dropSlots (buffer : Buffer α) : Nat → Option (List α)
  | 0 => some []
  | offset + 1 =>
      (buffer.dropSlots offset).bind fun earlier =>
        if (buffer.slots offset).state = .set then
          (buffer.slots offset).value.map fun value => earlier ++ [value]
        else some earlier

/-- The loop of `drop` from a buffer on, with fuel. -/
def Inner.dropFrom (size : Nat) : Nat → Option BufferPtr → Inner α → Option (List α × Inner α)
  | _, none, inner => some ([], inner)
  | 0, some _, _ => none
  | fuel + 1, some buf, inner =>
      (inner.deref buf).bind fun buffer =>
        (buffer.dropSlots size).bind fun values =>
          (dropFrom size fuel buffer.next (inner.free buf)).map fun rest =>
            (values ++ rest.1, rest.2)

def Inner.drop (size fuel : Nat) (inner : Inner α) : Option (List α × Inner α) :=
  inner.dropFrom size fuel (some inner.first)

end WsDeque.Jiffy
