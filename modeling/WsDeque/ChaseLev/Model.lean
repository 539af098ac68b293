import Mathlib.Data.Fintype.Basic
import WsDeque.Common
import WsDeque.MachineWord
import WsDeque.TransitionSystem

/-
The boxed Chase-Lev deque: `Worker`, `Stealer` and their shared `Inner`.

Every atomic load, store and read-modify-write is one step of a sequentially
consistent memory; a fence orders nothing further there and is no step. What a
function computes between two atomic accesses belongs to the earlier one. A
boxed element is represented by its value, a null cell by `none`.
-/

namespace WsDeque.ChaseLev

open MachineWord

def minCapacity : Nat := 16

def shrinkFactor : Nat := 3

/-! ### Buffers -/

structure Buffer (α : Type*) where
  cells : Nat → Option α
  cap : Nat

namespace Buffer

variable {α : Type*}

def alloc (cap : Nat) : Buffer α :=
  { cells := fun _ => none
    cap := cap }

def mask (buffer : Buffer α) : Nat :=
  buffer.cap - 1

/-- Position of the cell for a logical index. -/
def cell (buffer : Buffer α) (index : Int) : Nat :=
  asUsize index &&& buffer.mask

def write (buffer : Buffer α) (index : Int) (boxed : Option α) : Buffer α :=
  { buffer with cells := Function.update buffer.cells (buffer.cell index) boxed }

def read (buffer : Buffer α) (index : Int) : Option α :=
  buffer.cells (buffer.cell index)

end Buffer

/-- An address returned by `Box::into_raw`. -/
abbrev BufferPtr := Nat

/-- `Inner`, with the heap its pointers lead into. The retired list holds the
buffers of the `Retired` nodes, newest first. -/
structure Inner (α : Type*) where
  bottom : Int
  top : Int
  buffer : BufferPtr
  retired : List BufferPtr
  inFlight : Int
  heap : BufferPtr → Buffer α
  allocated : Nat
  freed : List BufferPtr
  freedElements : List α

/-- Without overflow checks a shift takes its amount modulo the word size; with
them a larger amount panics and there is no deque. -/
def Inner.new (α : Type*) (logInitialCap : Nat) : Inner α :=
  { bottom := 0
    top := 0
    buffer := 0
    retired := []
    inFlight := 0
    heap := fun _ => Buffer.alloc (2 ^ (logInitialCap % 64))
    allocated := 1
    freed := []
    freedElements := [] }

/-- `Drop for Inner`: the last handle is gone and nobody else is running. -/
def Inner.drop {α : Type*} (inner : Inner α) : Inner α :=
  let count := max (wrappingSub inner.bottom inner.top) 0
  let elements := (List.range count.toNat).filterMap fun k : Nat =>
    (inner.heap inner.buffer).read (wrappingAdd inner.top k)
  { inner with
    freedElements := inner.freedElements ++ elements
    freed := inner.freed ++ inner.buffer :: inner.retired
    retired := [] }

/-- The kinds of atomic access, with the outcome of a compare-exchange. -/
inductive Access
  | loadBottom
  | storeBottom
  | loadTop
  | casTop (won : Bool)
  | loadBuffer
  | storeBuffer
  | loadCell
  | storeCell
  | addInFlight
  | subInFlight
  | loadInFlight
  | loadRetired
  | casRetired (won : Bool)
  | swapRetired
  /-- The owner frees one buffer; no other party can observe it. -/
  | freeBuffer
  deriving DecidableEq

/-! ### `steal_from` -/

/-- The point reached inside `steal_from`, with the local variables in scope. -/
inductive StealPc (α : Type*)
  | loadTop
  | loadBottom (t : Int)
  | addInFlight (t : Int)
  | loadBuffer (t : Int)
  | loadCell (t : Int) (bufPtr : BufferPtr)
  | subInFlight (t : Int) (boxed : Option α)
  | casTop (t : Int) (boxed : Option α)

inductive Outcome (α : Type*)
  | running (pc : StealPc α)
  | returned (result : Steal α)
  /-- `Box::from_raw` of a null pointer. -/
  | fault

def takeOwnership {α : Type*} : Option α → Outcome α
  | some value => .returned (.success value)
  | none => .fault

def stealFrom {α : Type*} (inner : Inner α) : StealPc α → Access × Inner α × Outcome α
  | .loadTop => (.loadTop, inner, .running (.loadBottom inner.top))
  | .loadBottom t =>
      (.loadBottom, inner,
        if wrappingSub inner.bottom t ≤ 0 then .returned .empty else .running (.addInFlight t))
  | .addInFlight t =>
      (.addInFlight, { inner with inFlight := inner.inFlight + 1 }, .running (.loadBuffer t))
  | .loadBuffer t => (.loadBuffer, inner, .running (.loadCell t inner.buffer))
  | .loadCell t bufPtr =>
      (.loadCell, inner, .running (.subInFlight t ((inner.heap bufPtr).read t)))
  | .subInFlight t boxed =>
      (.subInFlight, { inner with inFlight := inner.inFlight - 1 }, .running (.casTop t boxed))
  | .casTop t boxed =>
      if inner.top = t then
        (.casTop true, { inner with top := wrappingAdd t 1 }, takeOwnership boxed)
      else (.casTop false, inner, .returned .retry)

/-! ### `resized`, `retire` and `try_reclaim` -/

/-- The arguments of one replacement of the active buffer: both the call of
`resized` and the `store`, `retire` and `try_reclaim` after it. -/
structure Resize where
  old : BufferPtr
  new : BufferPtr
  bottom : Int
  top : Int

def Resize.count (resize : Resize) : Int :=
  wrappingSub resize.bottom resize.top

inductive ResizePc (α : Type*)
  | copyLoad (k : Nat)
  | copyStore (k : Nat) (p : Option α)
  | storeBuffer
  | loadRetired
  | casRetired (head : List BufferPtr)
  | loadInFlight
  | swapRetired
  | free (node : List BufferPtr)

/-- The head of the copy loop. -/
def Resize.copyFrom {α : Type*} (resize : Resize) (k : Nat) : ResizePc α :=
  if (k : Int) < resize.count then .copyLoad k else .storeBuffer

/-- `none` when the resize is finished. A weak compare-exchange may fail for no
reason, and then it is `spurious`. -/
def Resize.step {α : Type*} (resize : Resize) (inner : Inner α) (spurious : Bool) :
    ResizePc α → Access × Inner α × Option (ResizePc α)
  | .copyLoad k =>
      (.loadCell, inner,
        some (.copyStore k ((inner.heap resize.old).read (wrappingAdd resize.top k))))
  | .copyStore k p =>
      (.storeCell,
        { inner with
          heap := Function.update inner.heap resize.new
            ((inner.heap resize.new).write (wrappingAdd resize.top k) p) },
        some (resize.copyFrom (k + 1)))
  | .storeBuffer => (.storeBuffer, { inner with buffer := resize.new }, some .loadRetired)
  | .loadRetired => (.loadRetired, inner, some (.casRetired inner.retired))
  | .casRetired head =>
      if spurious = false ∧ inner.retired = head then
        (.casRetired true, { inner with retired := resize.old :: head }, some .loadInFlight)
      else (.casRetired false, inner, some .loadRetired)
  | .loadInFlight =>
      (.loadInFlight, inner, if inner.inFlight ≠ 0 then none else some .swapRetired)
  | .swapRetired =>
      (.swapRetired, { inner with retired := [] },
        if inner.retired = [] then none else some (.free inner.retired))
  | .free [] => (.freeBuffer, inner, none)
  | .free (buffer :: next) =>
      (.freeBuffer, { inner with freed := inner.freed ++ [buffer] },
        if next = [] then none else some (.free next))

/-! ### The owner -/

/-- What a resize was started for: a `push` that still has to store its value,
or a `pop` that already has its box. -/
inductive After (α : Type*)
  | push (value : α) (b : Int)
  | pop (boxed : Option α)

inductive OwnerResult (α : Type*)
  | pushed
  | popped (value : Option α)
  deriving DecidableEq

inductive OwnerPc (α : Type*)
  | idle
  | pushLoadBottom (value : α)
  | pushLoadBuffer (value : α) (b : Int)
  | pushLoadTop (value : α) (b : Int) (bufPtr : BufferPtr)
  | resizing (resize : Resize) (pc : ResizePc α) (after : After α)
  | pushStoreCell (value : α) (b : Int) (bufPtr : BufferPtr)
  | pushStoreBottom (value : α) (b : Int)
  | popLoadBottom
  | popLoadBuffer (b : Int)
  | popStoreBottom (b : Int) (bufPtr : BufferPtr)
  | popLoadTop (b : Int) (bufPtr : BufferPtr)
  | popRestoreBottom (b t : Int)
  | popLoadCell (b t : Int) (bufPtr : BufferPtr)
  | popCasTop (b t : Int) (boxed : Option α)
  | popSettleBottom (b t : Int) (boxed : Option α) (won : Bool)
  | popFifo (pc : StealPc α)
  | returned (result : OwnerResult α)
  | fault
  | dropped

/-- `Worker`, the owner's handle. -/
structure Worker where
  fifo : Bool
  cachedTop : Int

def popReturn {α : Type*} : Option α → OwnerPc α
  | some value => .returned (.popped (some value))
  | none => .fault

/-- `(*buf_ptr).resized(new_cap, bottom, top)`, up to the head of its loop. -/
def startResize {α : Type*} (inner : Inner α) (bufPtr : BufferPtr) (newCap : Nat)
    (bottom top : Int) (after : After α) : Inner α × OwnerPc α :=
  let resize : Resize :=
    { old := bufPtr
      new := inner.allocated
      bottom := bottom
      top := top }
  ({ inner with
      heap := Function.update inner.heap inner.allocated (Buffer.alloc newCap)
      allocated := inner.allocated + 1 },
    .resizing resize (resize.copyFrom 0) after)

def finishResize {α : Type*} (resize : Resize) : After α → OwnerPc α
  | .push value b => .pushStoreCell value b resize.new
  | .pop boxed => popReturn boxed

/-- `push` needs the real `top` only when the cached one says the buffer might
be full. -/
def mightBeFull {α : Type*} (inner : Inner α) (bufPtr : BufferPtr) (b t : Int) : Bool :=
  decide (wrappingSub b t ≥ wrappingSub (asIsize (inner.heap bufPtr).cap) 1)

def pushGrowOrStore {α : Type*} (inner : Inner α) (value : α) (b : Int) (bufPtr : BufferPtr)
    (t : Int) : Inner α × OwnerPc α :=
  if mightBeFull inner bufPtr b t then
    startResize inner bufPtr ((inner.heap bufPtr).cap * 2 % 2 ^ 64) b t (.push value b)
  else (inner, .pushStoreCell value b bufPtr)

def perhapsShrink {α : Type*} (inner : Inner α) (bottom top : Int) (bufPtr : BufferPtr)
    (boxed : Option α) : Inner α × OwnerPc α :=
  let cap := (inner.heap bufPtr).cap
  let size := (max (wrappingSub bottom top) 0).toNat
  if cap > minCapacity ∧ size < cap / shrinkFactor then
    startResize inner bufPtr (max (cap / 2) minCapacity) bottom top (.pop boxed)
  else (inner, popReturn boxed)

/-- One step of the owner inside `push` or `pop`. -/
def ownerStep {α : Type*} (worker : Worker) (inner : Inner α) (spurious : Bool) :
    OwnerPc α → Option (Access × Worker × Inner α × OwnerPc α)
  | .pushLoadBottom value =>
      some (.loadBottom, worker, inner, .pushLoadBuffer value inner.bottom)
  | .pushLoadBuffer value b =>
      let bufPtr := inner.buffer
      if mightBeFull inner bufPtr b worker.cachedTop then
        some (.loadBuffer, worker, inner, .pushLoadTop value b bufPtr)
      else
        some (.loadBuffer, worker, pushGrowOrStore inner value b bufPtr worker.cachedTop)
  | .pushLoadTop value b bufPtr =>
      some (.loadTop, { worker with cachedTop := inner.top },
        pushGrowOrStore inner value b bufPtr inner.top)
  | .resizing resize pc after =>
      match resize.step inner spurious pc with
      | (access, inner', some pc') => some (access, worker, inner', .resizing resize pc' after)
      | (access, inner', none) => some (access, worker, inner', finishResize resize after)
  | .pushStoreCell value b bufPtr =>
      some (.storeCell, worker,
        { inner with
          heap := Function.update inner.heap bufPtr
            ((inner.heap bufPtr).write b (some value)) },
        .pushStoreBottom value b)
  | .pushStoreBottom _value b =>
      some (.storeBottom, worker, { inner with bottom := wrappingAdd b 1 }, .returned .pushed)
  | .popLoadBottom =>
      some (.loadBottom, worker, inner, .popLoadBuffer (wrappingSub inner.bottom 1))
  | .popLoadBuffer b => some (.loadBuffer, worker, inner, .popStoreBottom b inner.buffer)
  | .popStoreBottom b bufPtr =>
      some (.storeBottom, worker, { inner with bottom := b }, .popLoadTop b bufPtr)
  | .popLoadTop b bufPtr =>
      some (.loadTop, worker, inner,
        if wrappingSub b inner.top < 0 then .popRestoreBottom b inner.top
        else .popLoadCell b inner.top bufPtr)
  | .popRestoreBottom _b t =>
      some (.storeBottom, worker, { inner with bottom := t }, .returned (.popped none))
  | .popLoadCell b t bufPtr =>
      let boxed := (inner.heap bufPtr).read b
      if wrappingSub b t > 0 then
        some (.loadCell, worker, perhapsShrink inner b t bufPtr boxed)
      else some (.loadCell, worker, inner, .popCasTop b t boxed)
  | .popCasTop b t boxed =>
      if inner.top = t then
        some (.casTop true, worker, { inner with top := wrappingAdd t 1 },
          .popSettleBottom b t boxed true)
      else some (.casTop false, worker, inner, .popSettleBottom b t boxed false)
  | .popSettleBottom _b t boxed won =>
      some (.storeBottom, worker, { inner with bottom := wrappingAdd t 1 },
        if won then popReturn boxed else .returned (.popped none))
  | .popFifo pc =>
      match stealFrom inner pc with
      | (access, inner', .running pc') => some (access, worker, inner', .popFifo pc')
      | (access, inner', .returned (.success value)) =>
          some (access, worker, inner', .returned (.popped (some value)))
      | (access, inner', .returned .empty) =>
          some (access, worker, inner', .returned (.popped none))
      | (access, inner', .returned .retry) => some (access, worker, inner', .popFifo .loadTop)
      | (access, inner', .fault) => some (access, worker, inner', .fault)
  | .idle | .returned _ | .fault | .dropped => none

/-! ### The whole deque -/

inductive ThiefPc (α : Type*)
  /-- No `Stealer` handle: not yet made, or dropped. -/
  | absent
  | idle
  | stealing (pc : StealPc α)
  | returned (result : Steal α)
  | fault

def ThiefPc.afterOutcome {α : Type*} : Outcome α → ThiefPc α
  | .running pc => .stealing pc
  | .returned result => .returned result
  | .fault => .fault

structure State (ι α : Type*) where
  inner : Inner α
  worker : Worker
  owner : OwnerPc α
  thief : ι → ThiefPc α

inductive Label (ι α : Type*)
  | pushCall (value : α)
  | popCall
  | owner (access : Access)
  | ownerReturn (result : OwnerResult α)
  | stealCall (thief : ι)
  | thief (thief : ι) (access : Access)
  | stealReturn (thief : ι) (result : Steal α)
  | newStealer (thief : ι)
  | dropStealer (thief : ι)
  | dropWorker

inductive Choice (ι α : Type*)
  | pushCall (value : α)
  | popCall
  | owner (spurious : Bool)
  | ownerReturn
  | stealCall (thief : ι)
  | thief (thief : ι)
  | stealReturn (thief : ι)
  | newStealer (thief : ι)
  | dropStealer (thief : ι)
  | dropWorker

variable {ι α : Type*} [Fintype ι] [DecidableEq ι]

def OwnerPc.isDropped : OwnerPc α → Bool
  | .dropped => true
  | _ => false

def ThiefPc.isAbsent : ThiefPc α → Bool
  | .absent => true
  | _ => false

/-- Some handle still shares the `Arc`. -/
def State.shared (state : State ι α) : Bool :=
  decide (state.owner.isDropped = false ∨ ∃ thief, (state.thief thief).isAbsent = false)

omit [DecidableEq ι] in
theorem State.shared_of_owner {state : State ι α} (present : state.owner.isDropped = false) :
    state.shared = true := by
  simp [State.shared, present]

omit [DecidableEq ι] in
theorem State.shared_of_thief {state : State ι α} (thief : ι)
    (present : (state.thief thief).isAbsent = false) : state.shared = true := by
  simp only [State.shared, decide_eq_true_eq]
  exact Or.inr ⟨thief, present⟩

def State.setThief (state : State ι α) (thief : ι) (pc : ThiefPc α) : State ι α :=
  { state with thief := Function.update state.thief thief pc }

theorem State.shared_setThief (state : State ι α) (thief : ι) {pc : ThiefPc α}
    (present : pc.isAbsent = false) : (state.setThief thief pc).shared = true := by
  refine State.shared_of_thief thief ?_
  simpa [State.setThief] using present

/-- Dropping a handle runs `Drop for Inner` when it was the last one. -/
def State.release (state : State ι α) : State ι α :=
  if state.shared then state else { state with inner := state.inner.drop }

def next (state : State ι α) : Choice ι α → Option (Label ι α × State ι α)
  | .pushCall value =>
      match state.owner with
      | .idle => some (.pushCall value, { state with owner := .pushLoadBottom value })
      | _ => none
  | .popCall =>
      match state.owner with
      | .idle =>
          some (.popCall,
            { state with
              owner := if state.worker.fifo then .popFifo .loadTop else .popLoadBottom })
      | _ => none
  | .owner spurious =>
      (ownerStep state.worker state.inner spurious state.owner).map fun taken =>
        (.owner taken.1,
          { state with worker := taken.2.1, inner := taken.2.2.1, owner := taken.2.2.2 })
  | .ownerReturn =>
      match state.owner with
      | .returned result => some (.ownerReturn result, { state with owner := .idle })
      | _ => none
  | .stealCall thief =>
      match state.thief thief with
      | .idle => some (.stealCall thief, state.setThief thief (.stealing .loadTop))
      | _ => none
  | .thief thief =>
      match state.thief thief with
      | .stealing pc =>
          let taken := stealFrom state.inner pc
          some (.thief thief taken.1,
            { state with inner := taken.2.1 }.setThief thief
              (ThiefPc.afterOutcome taken.2.2))
      | _ => none
  | .stealReturn thief =>
      match state.thief thief with
      | .returned result => some (.stealReturn thief result, state.setThief thief .idle)
      | _ => none
  | .newStealer thief =>
      match state.thief thief with
      | .absent =>
          if state.shared then some (.newStealer thief, state.setThief thief .idle) else none
      | _ => none
  | .dropStealer thief =>
      match state.thief thief with
      | .idle => some (.dropStealer thief, (state.setThief thief .absent).release)
      | _ => none
  | .dropWorker =>
      match state.owner with
      | .idle => some (.dropWorker, { state with owner := .dropped }.release)
      | _ => none

/-- `Worker::with_log_capacity`, with the pop discipline of `Worker::new` or
`Worker::new_fifo`. -/
def withLogCapacity (ι α : Type*) (fifo : Bool) (logInitialCap : Nat) : State ι α :=
  { inner := Inner.new α logInitialCap
    worker :=
      { fifo := fifo
        cachedTop := 0 }
    owner := .idle
    thief := fun _ => .absent }

def system (ι α : Type*) [Fintype ι] [DecidableEq ι] (fifo : Bool) (logInitialCap : Nat) :
    TransitionSystem (State ι α) (Label ι α) :=
  .ofNext (fun state => state = withLogCapacity ι α fifo logInitialCap) next

end WsDeque.ChaseLev
