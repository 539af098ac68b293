import WsDeque.ChaseLev.Model

/-
The inline deque: `InlineWorker` and `InlineStealer`, whose cells hold the bytes
of the values themselves.

Steps, accesses and labels are those of the boxed deque, of which this code is a
second copy: without the counter of running thieves, with its own sizes, and
with no reclamation before the last handle is dropped.
-/

namespace WsDeque.Inline

open ChaseLev (Access BufferPtr Label OwnerResult Resize)
open MachineWord

def minCapacity : Nat := 16

def shrinkFactor : Nat := 3

/-! ### Values as bits -/

/-- The bytes of a `u64`, in the order of their addresses. -/
abbrev Bits := Fin 8 → UInt8

/-- A `Copy` type is what its bytes say. -/
structure Payload (α : Type*) where
  size : Nat
  fits : size ≤ 8
  bytes : α → Fin size → UInt8
  ofBytes : (Fin size → UInt8) → α
  ofBytes_bytes : ∀ value, ofBytes (bytes value) = value

variable {ι α : Type*} (payload : Payload α)

/-- Smaller types leave zeros above. -/
def toBits (value : α) : Bits :=
  fun position =>
    if low : position.val < payload.size then payload.bytes value ⟨position.val, low⟩ else 0

def fromBits (bits : Bits) : α :=
  payload.ofBytes fun position => bits (Fin.castLE payload.fits position)

@[simp] theorem fromBits_toBits (value : α) :
    fromBits payload (toBits payload value) = value := by
  unfold fromBits
  rw [← payload.ofBytes_bytes value]
  congr 1
  funext position
  rw [payload.ofBytes_bytes]
  exact dif_pos position.isLt

/-! ### Buffers -/

structure Buffer where
  cells : Nat → Bits
  cap : Nat

namespace Buffer

def alloc (cap : Nat) : Buffer :=
  { cells := fun _ _ => 0
    cap := cap }

def mask (buffer : Buffer) : Nat :=
  buffer.cap - 1

/-- Position of the cell for a logical index. -/
def cell (buffer : Buffer) (index : Int) : Nat :=
  asUsize index &&& buffer.mask

def write (buffer : Buffer) (index : Int) (bits : Bits) : Buffer :=
  { buffer with cells := Function.update buffer.cells (buffer.cell index) bits }

def read (buffer : Buffer) (index : Int) : Bits :=
  buffer.cells (buffer.cell index)

end Buffer

/-- The retired list holds the buffers of the `Retired` nodes, newest first. -/
structure Inner where
  bottom : Int
  top : Int
  buffer : BufferPtr
  retired : List BufferPtr
  heap : BufferPtr → Buffer
  allocated : Nat

def Inner.new (logCap : Nat) : Inner :=
  { bottom := 0
    top := 0
    buffer := 0
    retired := []
    heap := fun _ => Buffer.alloc (2 ^ (logCap % 64))
    allocated := 1 }

/-! ### `resized` and `retire` -/

inductive ResizePc
  | copyLoad (k : Nat)
  | copyStore (k : Nat) (bits : Bits)
  | storeBuffer
  | loadRetired
  | casRetired (head : List BufferPtr)

/-- The head of the copy loop. -/
def copyFrom (resize : Resize) (k : Nat) : ResizePc :=
  if (k : Int) < resize.count then .copyLoad k else .storeBuffer

/-- `none` when the old buffer is retired. -/
def resizeStep (resize : Resize) (inner : Inner) (spurious : Bool) :
    ResizePc → Access × Inner × Option ResizePc
  | .copyLoad k =>
      (.loadCell, inner,
        some (.copyStore k ((inner.heap resize.old).read (wrappingAdd resize.top k))))
  | .copyStore k bits =>
      (.storeCell,
        { inner with
          heap := Function.update inner.heap resize.new
            ((inner.heap resize.new).write (wrappingAdd resize.top k) bits) },
        some (copyFrom resize (k + 1)))
  | .storeBuffer => (.storeBuffer, { inner with buffer := resize.new }, some .loadRetired)
  | .loadRetired => (.loadRetired, inner, some (.casRetired inner.retired))
  | .casRetired head =>
      if spurious = false ∧ inner.retired = head then
        (.casRetired true, { inner with retired := resize.old :: head }, none)
      else (.casRetired false, inner, some .loadRetired)

/-! ### The owner -/

/-- The `push` that goes on in the larger buffer, or the `pop` that returns. -/
inductive After (α : Type*)
  | push (value : α) (b : Int)
  | pop (bits : Bits)

inductive OwnerPc (α : Type*)
  | idle
  | pushLoadBottom (value : α)
  | pushLoadBuffer (value : α) (b : Int)
  | pushLoadTop (value : α) (b : Int) (buf : BufferPtr)
  | resizing (resize : Resize) (pc : ResizePc) (after : After α)
  | pushStoreCell (value : α) (b : Int) (buf : BufferPtr)
  | pushStoreBottom (value : α) (b : Int)
  | popLoadBottom
  | popLoadBuffer (b : Int)
  | popStoreBottom (b : Int) (buf : BufferPtr)
  | popLoadTop (b : Int) (buf : BufferPtr)
  | popRestoreBottom (b t : Int)
  | popLoadCell (b t : Int) (buf : BufferPtr)
  | popCasTop (b t : Int) (bits : Bits)
  | popSettleBottom (b t : Int) (bits : Bits) (won : Bool)
  | returned (result : OwnerResult α)

/-- `(*buf).resized(new_cap, bottom, top)`, up to the head of its loop. -/
def startResize (inner : Inner) (buf : BufferPtr) (newCap : Nat) (bottom top : Int)
    (after : After α) : Inner × OwnerPc α :=
  let resize : Resize :=
    { old := buf
      new := inner.allocated
      bottom := bottom
      top := top }
  ({ inner with
      heap := Function.update inner.heap inner.allocated (Buffer.alloc newCap)
      allocated := inner.allocated + 1 },
    .resizing resize (copyFrom resize 0) after)

def finishResize (resize : Resize) : After α → OwnerPc α
  | .push value b => .pushStoreCell value b resize.new
  | .pop bits => .returned (.popped (some (fromBits payload bits)))

/-- `b.wrapping_sub(t) >= cap - 1` with the capacity cast to `isize`. -/
def mightBeFull (inner : Inner) (buf : BufferPtr) (b t : Int) : Bool :=
  decide (wrappingSub b t ≥ wrappingSub (asIsize (inner.heap buf).cap) 1)

/-- The doubling is one of signed words; without overflow checks it wraps. -/
def pushGrowOrStore (inner : Inner) (value : α) (b : Int) (buf : BufferPtr) (t : Int) :
    Inner × OwnerPc α :=
  if mightBeFull inner buf b t then
    startResize inner buf
      (max (asUsize (wrap (asIsize (inner.heap buf).cap * 2))) minCapacity) b t (.push value b)
  else (inner, .pushStoreCell value b buf)

def perhapsShrink (inner : Inner) (bottom top : Int) (buf : BufferPtr) (bits : Bits) :
    Inner × OwnerPc α :=
  let cap := (inner.heap buf).cap
  let size := (max (wrappingSub bottom top) 0).toNat
  if cap > minCapacity ∧ size < cap / shrinkFactor then
    startResize inner buf (max (cap / 2) minCapacity) bottom top (.pop bits)
  else (inner, .returned (.popped (some (fromBits payload bits))))

/-- One access of `push` or `pop`, with the private `cached_top`. -/
def ownerStep (inner : Inner) (cachedTop : Int) (spurious : Bool) :
    OwnerPc α → Option (Access × Inner × Int × OwnerPc α)
  | .pushLoadBottom value =>
      some (.loadBottom, inner, cachedTop, .pushLoadBuffer value inner.bottom)
  | .pushLoadBuffer value b =>
      let buf := inner.buffer
      if mightBeFull inner buf b cachedTop then
        some (.loadBuffer, inner, cachedTop, .pushLoadTop value b buf)
      else
        let stored := pushGrowOrStore inner value b buf cachedTop
        some (.loadBuffer, stored.1, cachedTop, stored.2)
  | .pushLoadTop value b buf =>
      let stored := pushGrowOrStore inner value b buf inner.top
      some (.loadTop, stored.1, inner.top, stored.2)
  | .resizing resize pc after =>
      match resizeStep resize inner spurious pc with
      | (access, inner', some pc') => some (access, inner', cachedTop, .resizing resize pc' after)
      | (access, inner', none) => some (access, inner', cachedTop, finishResize payload resize after)
  | .pushStoreCell value b buf =>
      some (.storeCell,
        { inner with
          heap := Function.update inner.heap buf
            ((inner.heap buf).write b (toBits payload value)) },
        cachedTop, .pushStoreBottom value b)
  | .pushStoreBottom _value b =>
      some (.storeBottom, { inner with bottom := wrappingAdd b 1 }, cachedTop, .returned .pushed)
  | .popLoadBottom =>
      some (.loadBottom, inner, cachedTop, .popLoadBuffer (wrappingSub inner.bottom 1))
  | .popLoadBuffer b => some (.loadBuffer, inner, cachedTop, .popStoreBottom b inner.buffer)
  | .popStoreBottom b buf =>
      some (.storeBottom, { inner with bottom := b }, cachedTop, .popLoadTop b buf)
  | .popLoadTop b buf =>
      some (.loadTop, inner, cachedTop,
        if wrappingSub b inner.top < 0 then .popRestoreBottom b inner.top
        else .popLoadCell b inner.top buf)
  | .popRestoreBottom _b t =>
      some (.storeBottom, { inner with bottom := t }, cachedTop, .returned (.popped none))
  | .popLoadCell b t buf =>
      let bits := (inner.heap buf).read b
      if wrappingSub b t > 0 then
        let kept := perhapsShrink payload inner b t buf bits
        some (.loadCell, kept.1, cachedTop, kept.2)
      else some (.loadCell, inner, cachedTop, .popCasTop b t bits)
  | .popCasTop b t bits =>
      if inner.top = t then
        some (.casTop true, { inner with top := wrappingAdd t 1 }, cachedTop,
          .popSettleBottom b t bits true)
      else some (.casTop false, inner, cachedTop, .popSettleBottom b t bits false)
  | .popSettleBottom _b t bits won =>
      some (.storeBottom, { inner with bottom := wrappingAdd t 1 }, cachedTop,
        .returned (.popped (if won then some (fromBits payload bits) else none)))
  | .idle | .returned _ => none

/-! ### The thieves -/

inductive ThiefPc (α : Type*)
  /-- A handle not yet made by `stealer` or `clone`. -/
  | absent
  | idle
  | loadTop
  | loadBottom (t : Int)
  | loadBuffer (t : Int)
  | loadCell (t : Int) (buf : BufferPtr)
  | casTop (t : Int) (bits : Bits)
  | returned (result : Steal α)

/-- One access of `steal`. -/
def thiefStep (inner : Inner) : ThiefPc α → Option (Access × Inner × ThiefPc α)
  | .loadTop => some (.loadTop, inner, .loadBottom inner.top)
  | .loadBottom t =>
      some (.loadBottom, inner,
        if wrappingSub inner.bottom t ≤ 0 then .returned .empty else .loadBuffer t)
  | .loadBuffer t => some (.loadBuffer, inner, .loadCell t inner.buffer)
  | .loadCell t buf => some (.loadCell, inner, .casTop t ((inner.heap buf).read t))
  | .casTop t bits =>
      if inner.top = t then
        some (.casTop true, { inner with top := wrappingAdd t 1 },
          .returned (.success (fromBits payload bits)))
      else some (.casTop false, inner, .returned .retry)
  | .absent | .idle | .returned _ => none

/-! ### The whole deque -/

structure State (ι α : Type*) where
  inner : Inner
  cachedTop : Int
  owner : OwnerPc α
  thief : ι → ThiefPc α

inductive Choice (ι α : Type*)
  | pushCall (value : α)
  | popCall
  | owner (spurious : Bool)
  | ownerReturn
  | newStealer (thief : ι)
  | stealCall (thief : ι)
  | thief (thief : ι)
  | stealReturn (thief : ι)

variable [DecidableEq ι]

def State.setThief (state : State ι α) (thief : ι) (pc : ThiefPc α) : State ι α :=
  { state with thief := Function.update state.thief thief pc }

def next (state : State ι α) : Choice ι α → Option (Label ι α × State ι α)
  | .pushCall value =>
      match state.owner with
      | .idle => some (.pushCall value, { state with owner := .pushLoadBottom value })
      | _ => none
  | .popCall =>
      match state.owner with
      | .idle => some (.popCall, { state with owner := .popLoadBottom })
      | _ => none
  | .owner spurious =>
      (ownerStep payload state.inner state.cachedTop spurious state.owner).map fun taken =>
        (.owner taken.1,
          { state with
            inner := taken.2.1
            cachedTop := taken.2.2.1
            owner := taken.2.2.2 })
  | .ownerReturn =>
      match state.owner with
      | .returned result => some (.ownerReturn result, { state with owner := .idle })
      | _ => none
  | .newStealer thief =>
      match state.thief thief with
      | .absent => some (.newStealer thief, state.setThief thief .idle)
      | _ => none
  | .stealCall thief =>
      match state.thief thief with
      | .idle => some (.stealCall thief, state.setThief thief .loadTop)
      | _ => none
  | .thief thief =>
      (thiefStep payload state.inner (state.thief thief)).map fun taken =>
        (.thief thief taken.1, { state with inner := taken.2.1 }.setThief thief taken.2.2)
  | .stealReturn thief =>
      match state.thief thief with
      | .returned result => some (.stealReturn thief result, state.setThief thief .idle)
      | _ => none

/-- `InlineWorker::with_log_capacity`. -/
def withLogCapacity (ι α : Type*) (logCap : Nat) : State ι α :=
  { inner := Inner.new logCap
    cachedTop := 0
    owner := .idle
    thief := fun _ => .absent }

def system (ι : Type*) [DecidableEq ι] (logCap : Nat) :
    TransitionSystem (State ι α) (Label ι α) :=
  .ofNext (fun state => state = withLogCapacity ι α logCap) (next payload)

end WsDeque.Inline
