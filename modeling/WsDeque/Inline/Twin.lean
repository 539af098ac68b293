import WsDeque.ChaseLev.Alone
import WsDeque.Inline.Model

/-
Every state of the inline deque stands for one of a boxed deque that grows as
this one does: the same indices and buffers, and for every box that is there the
bits of its value.
-/

namespace WsDeque.Inline

open ChaseLev (Access Advance BufferPtr Label Resize Storage Worker)
open MachineWord

variable {ι α : Type*} (payload : Payload α)

/-- A cell whose box is null may hold any bits. -/
def Stands (bits : Bits) (boxed : Option α) : Prop :=
  ∀ value, boxed = some value → bits = toBits payload value

structure Buffer.Stands (buffer : Buffer) (boxed : ChaseLev.Buffer α) : Prop where
  cap : boxed.cap = buffer.cap
  cells : ∀ position, Inline.Stands payload (buffer.cells position) (boxed.cells position)

structure Inner.Stands (inner : Inner) (boxed : ChaseLev.Inner α) : Prop where
  bottom : boxed.bottom = inner.bottom
  top : boxed.top = inner.top
  buffer : boxed.buffer = inner.buffer
  allocated : boxed.allocated = inner.allocated
  heap : ∀ ptr, (inner.heap ptr).Stands payload (boxed.heap ptr)
  freed : boxed.freedElements = []

/-- The boxed deque may have other buffers on its retired list. -/
inductive ResizePc.Stands : ResizePc → ChaseLev.ResizePc α → Prop
  | copyLoad (k : Nat) : ResizePc.Stands (.copyLoad k) (.copyLoad k)
  | copyStore (k : Nat) {bits : Bits} {boxed : Option α}
      (same : Inline.Stands payload bits boxed) :
      ResizePc.Stands (.copyStore k bits) (.copyStore k boxed)
  | storeBuffer : ResizePc.Stands .storeBuffer .storeBuffer
  | loadRetired : ResizePc.Stands .loadRetired .loadRetired
  | casRetired (head boxedHead : List BufferPtr) :
      ResizePc.Stands (.casRetired head) (.casRetired boxedHead)

inductive After.Stands : After α → ChaseLev.After α → Prop
  | push (value : α) (b : Int) : After.Stands (.push value b) (.push value b)
  | pop {bits : Bits} {boxed : Option α} (same : Inline.Stands payload bits boxed) :
      After.Stands (.pop bits) (.pop boxed)

inductive OwnerPc.Stands : OwnerPc α → ChaseLev.OwnerPc α → Prop
  | idle : OwnerPc.Stands .idle .idle
  | pushLoadBottom (value : α) : OwnerPc.Stands (.pushLoadBottom value) (.pushLoadBottom value)
  | pushLoadBuffer (value : α) (b : Int) :
      OwnerPc.Stands (.pushLoadBuffer value b) (.pushLoadBuffer value b)
  | pushLoadTop (value : α) (b : Int) (buf : BufferPtr) :
      OwnerPc.Stands (.pushLoadTop value b buf) (.pushLoadTop value b buf)
  | resizing (resize : Resize) {pc : ResizePc} {boxedPc : ChaseLev.ResizePc α}
      {after : After α} {boxedAfter : ChaseLev.After α} (samePc : pc.Stands payload boxedPc)
      (sameAfter : after.Stands payload boxedAfter) :
      OwnerPc.Stands (.resizing resize pc after) (.resizing resize boxedPc boxedAfter)
  | pushStoreCell (value : α) (b : Int) (buf : BufferPtr) :
      OwnerPc.Stands (.pushStoreCell value b buf) (.pushStoreCell value b buf)
  | pushStoreBottom (value : α) (b : Int) :
      OwnerPc.Stands (.pushStoreBottom value b) (.pushStoreBottom value b)
  | popLoadBottom : OwnerPc.Stands .popLoadBottom .popLoadBottom
  | popLoadBuffer (b : Int) : OwnerPc.Stands (.popLoadBuffer b) (.popLoadBuffer b)
  | popStoreBottom (b : Int) (buf : BufferPtr) :
      OwnerPc.Stands (.popStoreBottom b buf) (.popStoreBottom b buf)
  | popLoadTop (b : Int) (buf : BufferPtr) :
      OwnerPc.Stands (.popLoadTop b buf) (.popLoadTop b buf)
  | popRestoreBottom (b t : Int) :
      OwnerPc.Stands (.popRestoreBottom b t) (.popRestoreBottom b t)
  | popLoadCell (b t : Int) (buf : BufferPtr) :
      OwnerPc.Stands (.popLoadCell b t buf) (.popLoadCell b t buf)
  | popCasTop (b t : Int) {bits : Bits} {boxed : Option α}
      (same : Inline.Stands payload bits boxed) :
      OwnerPc.Stands (.popCasTop b t bits) (.popCasTop b t boxed)
  | popSettleBottom (b t : Int) {bits : Bits} {boxed : Option α} (won : Bool)
      (same : Inline.Stands payload bits boxed) :
      OwnerPc.Stands (.popSettleBottom b t bits won) (.popSettleBottom b t boxed won)
  | returned (result : ChaseLev.OwnerResult α) :
      OwnerPc.Stands (.returned result) (.returned result)

/-- The boxed thief is inside its bracket when this one has loaded `bottom`, and
has left it when this one has loaded the cell. -/
inductive ThiefPc.Stands : ThiefPc α → ChaseLev.ThiefPc α → Prop
  | absent : ThiefPc.Stands .absent .absent
  | idle : ThiefPc.Stands .idle .idle
  | loadTop : ThiefPc.Stands .loadTop (.stealing .loadTop)
  | loadBottom (t : Int) : ThiefPc.Stands (.loadBottom t) (.stealing (.loadBottom t))
  | loadBuffer (t : Int) : ThiefPc.Stands (.loadBuffer t) (.stealing (.loadBuffer t))
  | loadCell (t : Int) (buf : BufferPtr) :
      ThiefPc.Stands (.loadCell t buf) (.stealing (.loadCell t buf))
  | casTop (t : Int) {bits : Bits} {boxed : Option α}
      (same : Inline.Stands payload bits boxed) :
      ThiefPc.Stands (.casTop t bits) (.stealing (.casTop t boxed))
  | returned (result : Steal α) : ThiefPc.Stands (.returned result) (.returned result)

structure State.Stands (state : State ι α) (boxed : ChaseLev.State ι α) : Prop where
  inner : state.inner.Stands payload boxed.inner
  cachedTop : boxed.worker.cachedTop = state.cachedTop
  lifo : boxed.worker.fifo = false
  owner : state.owner.Stands payload boxed.owner
  thief : ∀ thief, (state.thief thief).Stands payload (boxed.thief thief)

variable {payload} {bits : Bits} {boxed : Option α}

theorem Stands.fromBits {value : α} (same : Stands payload bits (some value)) :
    fromBits payload bits = value := by
  rw [same value rfl, fromBits_toBits]

theorem stands_toBits (value : α) : Stands payload (toBits payload value) (some value) := by
  rintro other ⟨⟩
  rfl

/-! ### Buffers -/

variable {buffer : Buffer} {boxedBuffer : ChaseLev.Buffer α}

theorem Buffer.Stands.cell (stands : buffer.Stands payload boxedBuffer) (index : Int) :
    boxedBuffer.cell index = buffer.cell index := by
  unfold ChaseLev.Buffer.cell ChaseLev.Buffer.mask
  rw [stands.cap]
  rfl

theorem Buffer.Stands.read (stands : buffer.Stands payload boxedBuffer) (index : Int) :
    Inline.Stands payload (buffer.read index) (boxedBuffer.read index) := by
  unfold ChaseLev.Buffer.read
  rw [stands.cell]
  exact stands.cells (buffer.cell index)

theorem Buffer.Stands.write (stands : buffer.Stands payload boxedBuffer) (index : Int)
    (same : Inline.Stands payload bits boxed) :
    (buffer.write index bits).Stands payload (boxedBuffer.write index boxed) := by
  constructor
  · exact stands.cap
  · intro position
    unfold ChaseLev.Buffer.write
    rw [stands.cell]
    by_cases here : position = buffer.cell index
    · subst here
      simp only [Buffer.write, Function.update_self]
      exact same
    · simp only [Buffer.write, Function.update_of_ne here]
      exact stands.cells position

theorem buffer_alloc_stands (cap : Nat) :
    (Buffer.alloc cap).Stands payload (ChaseLev.Buffer.alloc cap) := by
  constructor
  · rfl
  · intro position value impossible
    cases impossible

variable {inner : Inner} {boxedInner : ChaseLev.Inner α}

theorem Inner.Stands.mightBeFull (stands : inner.Stands payload boxedInner) (buf : BufferPtr)
    (b t : Int) : ChaseLev.mightBeFull boxedInner buf b t = mightBeFull inner buf b t := by
  unfold ChaseLev.mightBeFull Inline.mightBeFull
  rw [(stands.heap buf).cap]

/-- Both copies write a cell of the same buffer. -/
theorem Inner.Stands.write (stands : inner.Stands payload boxedInner) (ptr : BufferPtr)
    (index : Int) (same : Inline.Stands payload bits boxed) :
    Inner.Stands payload
      { inner with heap := Function.update inner.heap ptr ((inner.heap ptr).write index bits) }
      { boxedInner with
        heap := Function.update boxedInner.heap ptr
          ((boxedInner.heap ptr).write index boxed) } := by
  refine { stands with heap := ?_ }
  intro other
  by_cases here : other = ptr
  · subst here
    simp only [Function.update_self]
    exact (stands.heap other).write index same
  · simp only [Function.update_of_ne here]
    exact stands.heap other

theorem Inner.Stands.alloc (stands : inner.Stands payload boxedInner) (cap : Nat) :
    Inner.Stands payload
      { inner with
        heap := Function.update inner.heap inner.allocated (Buffer.alloc cap)
        allocated := inner.allocated + 1 }
      { boxedInner with
        heap := Function.update boxedInner.heap boxedInner.allocated
          (ChaseLev.Buffer.alloc cap)
        allocated := boxedInner.allocated + 1 } := by
  refine
    { stands with
      allocated := congrArg (· + 1) stands.allocated
      heap := ?_ }
  intro other
  rw [stands.allocated]
  by_cases here : other = inner.allocated
  · subst here
    simp only [Function.update_self]
    exact buffer_alloc_stands cap
  · simp only [Function.update_of_ne here]
    exact stands.heap other

theorem copyFrom_stands (resize : Resize) (k : Nat) :
    (copyFrom resize k).Stands payload (resize.copyFrom k) := by
  unfold copyFrom Resize.copyFrom
  split
  · exact .copyLoad k
  · exact .storeBuffer

theorem startResize_stands (stands : inner.Stands payload boxedInner) (buf : BufferPtr)
    (cap : Nat) (bottom top : Int) {after : After α} {boxedAfter : ChaseLev.After α}
    (same : after.Stands payload boxedAfter) :
    (startResize inner buf cap bottom top after).1.Stands payload
        (ChaseLev.startResize boxedInner buf cap bottom top boxedAfter).1 ∧
      (startResize inner buf cap bottom top after).2.Stands payload
        (ChaseLev.startResize boxedInner buf cap bottom top boxedAfter).2 := by
  constructor
  · exact stands.alloc cap
  · unfold startResize ChaseLev.startResize
    rw [stands.allocated]
    exact .resizing _ (copyFrom_stands _ 0) same

end WsDeque.Inline
