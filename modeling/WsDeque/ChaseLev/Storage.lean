import Mathlib.Data.List.ReduceOption
import WsDeque.FiniteUpdate
import WsDeque.IndexProtocol
import WsDeque.ChaseLev.Spec

/-
The deque's memory read as the index protocol, and the facts about buffers,
words and local variables that every step keeps.
-/

namespace WsDeque.ChaseLev

open MachineWord

variable {ι α : Type*}

/-! ### Cells of one buffer -/

namespace Buffer

theorem cell_eq {buffer : Buffer α} {exponent : Nat} (small : exponent ≤ 63)
    (capEq : buffer.cap = 2 ^ exponent) (index : Int) :
    buffer.cell index = (index % buffer.cap).toNat := by
  unfold cell mask
  rw [capEq]
  exact asUsize_and_mask index small

@[simp] theorem write_cap (buffer : Buffer α) (index : Int) (boxed : Option α) :
    (buffer.write index boxed).cap = buffer.cap := rfl

@[simp] theorem alloc_cap (cap : Nat) : (alloc cap : Buffer α).cap = cap := rfl

@[simp] theorem write_cell (buffer : Buffer α) (index other : Int) (boxed : Option α) :
    (buffer.write index boxed).cell other = buffer.cell other := rfl

@[simp] theorem read_write_self (buffer : Buffer α) (index : Int) (boxed : Option α) :
    (buffer.write index boxed).read index = boxed :=
  Function.update_self ..

/-- Two indices less than a capacity apart never share a cell. -/
theorem read_write_of_near {buffer : Buffer α} {exponent : Nat} (small : exponent ≤ 63)
    (capEq : buffer.cap = 2 ^ exponent) {index other : Int} (boxed : Option α)
    (different : other ≠ index) (above : index - other < buffer.cap)
    (below : other - index < buffer.cap) :
    (buffer.write index boxed).read other = buffer.read other := by
  apply Function.update_of_ne
  rw [write_cell, cell_eq small capEq, cell_eq small capEq]
  intro same
  have positive : 0 < buffer.cap := by
    rw [capEq]
    exact Nat.two_pow_pos exponent
  exact different (eq_of_toNat_emod_eq same positive above below)

end Buffer

/-! ### The protocol state of a deque -/

def StealPc.taker : StealPc α → IndexProtocol.Taker (Option α)
  | .loadTop => .away
  | .loadBottom t => .sawTop t
  | .addInFlight t | .loadBuffer t | .loadCell t _ => .entered t
  | .subInFlight t boxed | .casTop t boxed => .holding t boxed

def ThiefPc.taker : ThiefPc α → IndexProtocol.Taker (Option α)
  | .stealing pc => pc.taker
  | _ => .away

/-- A FIFO pop takes like a thief. -/
def OwnerPc.taker : OwnerPc α → IndexProtocol.Taker (Option α)
  | .popFifo pc => pc.taker
  | _ => .away

def OwnerPc.phase : OwnerPc α → IndexProtocol.Owner
  | .popLoadTop b _ => .lowered b
  | .popRestoreBottom b _ => .settling b
  | .popLoadCell b t _ => if t < b then .resting else .contending b
  | .popCasTop b _ _ => .contending b
  | .popSettleBottom b _ _ _ => .settling b
  | _ => .resting

def Inner.active (inner : Inner α) : Buffer α :=
  inner.heap inner.buffer

def State.protocol (state : State ι α) : IndexProtocol.State (Option ι) (Option α) :=
  { top := state.inner.top
    bottom := state.inner.bottom
    cell := state.inner.active.read
    owner := state.owner.phase
    taker := byParty state.owner.taker fun thief => (state.thief thief).taker }

def State.back (state : State ι α) : Int :=
  state.owner.phase.back state.inner.bottom

section

variable [DecidableEq ι]

theorem byParty_setThief (owner : IndexProtocol.Taker (Option α)) (thief : ι → ThiefPc α)
    (party : ι) (pc : ThiefPc α) :
    byParty owner (fun other => (Function.update thief party pc other).taker) =
      Function.update (byParty owner fun other => (thief other).taker) (some party) pc.taker := by
  rw [byParty_update_thief]
  congr 1
  funext other
  by_cases same : other = party
  · subst same
    simp
  · simp [Function.update_of_ne same]

end

/-! ### What the local variables mean -/

/-- A buffer that `resized` is still filling: no thief can have its pointer. -/
def OwnerPc.unpublished : OwnerPc α → Option BufferPtr
  | .resizing resize (.copyLoad _) _ => some resize.new
  | .resizing resize (.copyStore _ _) _ => some resize.new
  | .resizing resize .storeBuffer _ => some resize.new
  | _ => none

/-- A thief that saw the current `top` reads the current cell, also through the
pointer of an older buffer. -/
def StealPc.Meets (inner : Inner α) (unpublished : Option BufferPtr) : StealPc α → Prop
  | .loadBottom t => 0 ≤ t
  | .loadCell t bufPtr =>
      bufPtr < inner.allocated ∧ unpublished ≠ some bufPtr ∧
        (t = inner.top → (inner.heap bufPtr).read t = inner.active.read t)
  | _ => True

def ThiefPc.Meets (inner : Inner α) (unpublished : Option BufferPtr) : ThiefPc α → Prop
  | .stealing pc => pc.Meets inner unpublished
  | .fault => False
  | _ => True

def Copied (inner : Inner α) (resize : Resize) (k : Nat) : Prop :=
  ∀ offset : Nat, offset < k →
    (inner.heap resize.new).read (resize.top + offset) =
      (inner.heap resize.old).read (resize.top + offset)

/-- The live indices are moved in order while the old buffer stays active. -/
def ResizePc.Meets (inner : Inner α) (resize : Resize) : ResizePc α → Prop
  | .copyLoad k =>
      inner.buffer = resize.old ∧ (k : Int) < resize.bottom - resize.top ∧ Copied inner resize k
  | .copyStore k p =>
      inner.buffer = resize.old ∧ (k : Int) < resize.bottom - resize.top ∧ Copied inner resize k ∧
        p = (inner.heap resize.old).read (resize.top + k)
  | .storeBuffer =>
      inner.buffer = resize.old ∧
        ∀ k : Nat, (k : Int) < resize.bottom - resize.top →
          (inner.heap resize.new).read (resize.top + k) =
            (inner.heap resize.old).read (resize.top + k)
  | _ => inner.buffer = resize.new

structure Resize.Meets (inner : Inner α) (resize : Resize) : Prop where
  bottom : resize.bottom = inner.bottom
  topNonneg : 0 ≤ resize.top
  topLe : resize.top ≤ inner.top
  newAllocated : resize.new < inner.allocated
  distinct : resize.new ≠ resize.old

/-- The new capacity fits the live indices; a grow also leaves room for the
element being pushed. -/
def After.Fits (bottom top : Int) (cap : Nat) : After α → Prop
  | .push _ b => b = bottom ∧ bottom - top < (cap : Int) - 1
  | .pop boxed => boxed ≠ none ∧ bottom - top ≤ (cap : Int) - 1

def OwnerPc.Meets (inner : Inner α) : OwnerPc α → Prop
  | .pushLoadBuffer _ b => b = inner.bottom
  | .pushLoadTop _ b bufPtr => b = inner.bottom ∧ bufPtr = inner.buffer
  | .resizing resize pc after =>
      resize.Meets inner ∧ pc.Meets inner resize ∧
        after.Fits resize.bottom resize.top (inner.heap resize.new).cap
  | .pushStoreCell _ b bufPtr =>
      b = inner.bottom ∧ bufPtr = inner.buffer ∧ inner.bottom - inner.top < inner.active.cap - 1
  | .pushStoreBottom value b =>
      b = inner.bottom ∧ inner.active.read b = some value ∧
        inner.bottom - inner.top < inner.active.cap - 1
  | .popLoadBuffer b => b = inner.bottom - 1
  | .popStoreBottom b bufPtr => b = inner.bottom - 1 ∧ bufPtr = inner.buffer
  | .popLoadTop _ bufPtr => bufPtr = inner.buffer
  | .popRestoreBottom b t => t = b + 1
  | .popLoadCell b t bufPtr =>
      bufPtr = inner.buffer ∧ inner.bottom = b ∧ 0 ≤ t ∧ t ≤ b ∧ t ≤ inner.top ∧
        (t < b → inner.active.read b ≠ none)
  | .popCasTop b t boxed => t = b ∧ (inner.top = t → boxed = inner.active.read b)
  | .popSettleBottom b t boxed won => t = b ∧ (won = true → boxed ≠ none)
  | .popFifo pc => pc.Meets inner none
  | .fault => False
  | _ => True

/-- Which calls can be running under a pop discipline. -/
def OwnerPc.Mode (fifo : Bool) : OwnerPc α → Prop
  | .popFifo _ => fifo = true
  | .popLoadBottom | .popLoadBuffer _ | .popStoreBottom _ _ | .popLoadTop _ _
  | .popRestoreBottom _ _ | .popLoadCell _ _ _ | .popCasTop _ _ _ | .popSettleBottom _ _ _ _ =>
      fifo = false
  | _ => True

/-- Pushes that are called but have not stored `bottom` yet. -/
def OwnerPc.pendingPushes : OwnerPc α → Int
  | .pushLoadBottom _ | .pushLoadBuffer _ _ | .pushLoadTop _ _ _ | .pushStoreCell _ _ _
  | .pushStoreBottom _ _ | .resizing _ _ (.push _ _) => 1
  | _ => 0

/-- The part of the invariant that does not look at local variables. -/
structure Window (inner : Inner α) (back : Int) : Prop where
  topNonneg : 0 ≤ inner.top
  powerOfTwo : ∀ bufPtr, ∃ exponent, exponent ≤ 63 ∧ (inner.heap bufPtr).cap = 2 ^ exponent
  room : back - inner.top ≤ inner.active.cap - 1
  filled : ∀ index, inner.top ≤ index → index < back → inner.active.read index ≠ none
  bufferAllocated : inner.buffer < inner.allocated

structure Storage (pushes : Nat) (state : State ι α) : Prop where
  window : Window state.inner state.back
  protocol : IndexProtocol.Invariant state.protocol
  level : state.owner.phase = .resting → state.inner.top ≤ state.inner.bottom
  bound : state.back + state.owner.pendingPushes ≤ pushes
  cachedNonneg : 0 ≤ state.worker.cachedTop
  cachedLe : state.worker.cachedTop ≤ state.inner.top
  mode : state.owner.Mode state.worker.fifo
  owner : state.owner.Meets state.inner
  thief : ∀ thief, (state.thief thief).Meets state.inner state.owner.unpublished

/-! ### The abstract state of a deque -/

def OwnerPc.status (inner : Inner α) : OwnerPc α → Spec.OwnerStatus α
  | .idle => .idle
  | .pushLoadBottom value | .pushLoadBuffer value _ | .pushLoadTop value _ _
  | .pushStoreCell value _ _ | .pushStoreBottom value _ | .resizing _ _ (.push value _) =>
      .pushing value
  | .popLoadBottom | .popLoadBuffer _ | .popStoreBottom _ _ | .popFifo _ => .popping
  | .popLoadTop _ _ | .popCasTop _ _ _ => .contesting
  | .popRestoreBottom _ _ => .done (.popped none)
  | .popLoadCell b t bufPtr =>
      if t < b then .done (.popped ((inner.heap bufPtr).read b)) else .contesting
  | .popSettleBottom _ _ boxed won => .done (.popped (if won then boxed else none))
  | .resizing _ _ (.pop boxed) => .done (.popped boxed)
  | .returned result => .done result
  | .fault => .idle
  | .dropped => .dropped

def ThiefPc.status : ThiefPc α → Spec.ThiefStatus α
  | .absent => .absent
  | .idle => .idle
  | .stealing _ => .stealing
  | .returned result => .done result
  | .fault => .absent

def State.abstract [Fintype ι] (state : State ι α) : Spec.State ι α :=
  { items := if state.shared then state.protocol.live.reduceOption else []
    owner := state.owner.status state.inner
    thief := fun thief => (state.thief thief).status
    freed := state.inner.freedElements }

end WsDeque.ChaseLev
