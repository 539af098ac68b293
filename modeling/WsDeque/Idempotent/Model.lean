import Mathlib.Data.Fintype.Basic
import WsDeque.TransitionSystem

/-
The array of WS-MULT: `IdempotentWorker` and the handles `IdempotentStealer` and
`WeakStealer`, growable or bounded.

Every atomic load, store and read-modify-write is one step of a sequentially
consistent memory. A boxed task is represented by its value and cloning returns
the same value; a null cell is `none`.
-/

namespace WsDeque.Idempotent

def initialCapacity : Nat := 16

inductive Take (α : Type*)
  | empty
  | got (task : α)
  deriving DecidableEq

/-- The two constructors `new` and `bounded`. -/
inductive Shape
  | growable
  | bounded (capacity : Nat)
  deriving DecidableEq

def Shape.isBounded : Shape → Bool
  | .growable => false
  | .bounded _ => true

/-- The length of the first array, with two trailing null cells in a bounded one. -/
def Shape.len : Shape → Nat
  | .growable => initialCapacity
  | .bounded capacity => capacity + 2

/-- A growable worker has the largest word for its `cap` and never looks at it. -/
def Shape.isFull (tail : Nat) : Shape → Bool
  | .growable => false
  | .bounded capacity => decide (capacity ≤ tail)

structure Tasks (α : Type*) where
  cells : Nat → Option α
  claimed : Nat → Bool
  len : Nat

def Tasks.withLen (α : Type*) (len : Nat) : Tasks α :=
  { cells := fun _ => none
    claimed := fun _ => false
    len := len }

/-- An address returned by `Box::into_raw`. -/
abbrev TasksPtr := Nat

/-- `Inner`, with the arrays its pointers lead to. The retired list holds the
arrays of the `Retired` nodes, newest first. -/
structure Inner (α : Type*) where
  head : Nat
  tasks : TasksPtr
  retired : List TasksPtr
  arrays : TasksPtr → Tasks α
  allocated : Nat

variable {ι α : Type*}

def Inner.setCell (inner : Inner α) (arr : TasksPtr) (index : Nat) (boxed : Option α) :
    Inner α :=
  { inner with
    arrays := Function.update inner.arrays arr
      { inner.arrays arr with
        cells := Function.update (inner.arrays arr).cells index boxed } }

def Inner.claim (inner : Inner α) (arr : TasksPtr) (index : Nat) : Inner α :=
  { inner with
    arrays := Function.update inner.arrays arr
      { inner.arrays arr with
        claimed := Function.update (inner.arrays arr).claimed index true } }

/-- `head.fetch_max(value)`. -/
def Inner.maxHead (inner : Inner α) (value : Nat) : Inner α :=
  { inner with head := max inner.head value }

inductive Access (α : Type*)
  | loadHead
  | maxHead
  | storeHead (replaced value : Nat)
  | loadTasks
  | storeTasks
  | loadCell
  /-- The store that puts a task into the queue. -/
  | storeTask (task : α)
  | storeNull
  | copyLoad
  | copyStore
  | loadRetired
  | casRetired (won : Bool)
  | claim (won : Bool)
  | outOfRange
  deriving DecidableEq

/-! ### The owner -/

/-- The local variables of one `grow`, and the task that `put` stores after it. -/
structure Growth (α : Type*) where
  task : α
  old : TasksPtr
  bigger : TasksPtr

inductive OwnerResult (α : Type*)
  | put (accepted : Bool)
  /-- With the local `head` of `take`. -/
  | took (head : Nat) (result : Take α)
  deriving DecidableEq

inductive OwnerPc (α : Type*)
  | idle
  | putLoadTasks (task : α)
  | growLoad (growth : Growth α) (i : Nat)
  | growStore (growth : Growth α) (i : Nat) (p : Option α)
  | growPublish (growth : Growth α)
  | retireLoad (growth : Growth α)
  | retireCas (growth : Growth α) (head : List TasksPtr)
  | putStoreTask (task : α) (arr : TasksPtr)
  | putStoreNull (arr : TasksPtr)
  | takeLoadHead
  | takeLoadTasks (head : Nat)
  | takeLoadCell (head : Nat) (arr : TasksPtr)
  | takeMaxHead (head : Nat) (task : α)
  | returned (result : OwnerResult α)
  | panicked

/-- The head of the copy loop of `grow`. -/
def growFrom (inner : Inner α) (growth : Growth α) (i : Nat) : OwnerPc α :=
  if i < (inner.arrays growth.old).len then .growLoad growth i else .growPublish growth

/-- `grow`, up to the head of its loop. -/
def grow (inner : Inner α) (task : α) (old : TasksPtr) : Inner α × OwnerPc α :=
  let growth : Growth α :=
    { task := task
      old := old
      bigger := inner.allocated }
  let allocated :=
    { inner with
      arrays := Function.update inner.arrays inner.allocated
        (.withLen α ((inner.arrays old).len * 2))
      allocated := inner.allocated + 1 }
  (allocated, growFrom allocated growth 0)

/-- One access of `put` or `take`, with the private `tail`. A weak
compare-exchange may fail for no reason, and then it is `spurious`. -/
def ownerStep (inner : Inner α) (tail : Nat) (spurious : Bool) :
    OwnerPc α → Option (Access α × Inner α × Nat × OwnerPc α)
  | .putLoadTasks task =>
      let arr := inner.tasks
      if (inner.arrays arr).len ≤ tail + 1 then
        let grown := grow inner task arr
        some (.loadTasks, grown.1, tail, grown.2)
      else some (.loadTasks, inner, tail, .putStoreTask task arr)
  | .growLoad growth i =>
      some (.copyLoad, inner, tail, .growStore growth i ((inner.arrays growth.old).cells i))
  | .growStore growth i p =>
      some (.copyStore, inner.setCell growth.bigger i p, tail, growFrom inner growth (i + 1))
  | .growPublish growth =>
      some (.storeTasks, { inner with tasks := growth.bigger }, tail, .retireLoad growth)
  | .retireLoad growth => some (.loadRetired, inner, tail, .retireCas growth inner.retired)
  | .retireCas growth head =>
      if spurious = false ∧ inner.retired = head then
        some (.casRetired true, { inner with retired := growth.old :: head }, tail,
          .putStoreTask growth.task growth.bigger)
      else some (.casRetired false, inner, tail, .retireLoad growth)
  | .putStoreTask task arr =>
      if tail < (inner.arrays arr).len then
        some (.storeTask task, inner.setCell arr tail (some task), tail, .putStoreNull arr)
      else some (.outOfRange, inner, tail, .panicked)
  | .putStoreNull arr =>
      if tail + 1 < (inner.arrays arr).len then
        some (.storeNull, inner.setCell arr (tail + 1) none, tail + 1, .returned (.put true))
      else some (.outOfRange, inner, tail, .panicked)
  | .takeLoadHead =>
      let head := inner.head
      some (.loadHead, inner, tail,
        if tail ≤ head then .returned (.took head .empty) else .takeLoadTasks head)
  | .takeLoadTasks head => some (.loadTasks, inner, tail, .takeLoadCell head inner.tasks)
  | .takeLoadCell head arr =>
      if head < (inner.arrays arr).len then
        some (.loadCell, inner, tail,
          match (inner.arrays arr).cells head with
          | none => .returned (.took head .empty)
          | some task => .takeMaxHead head task)
      else some (.outOfRange, inner, tail, .panicked)
  | .takeMaxHead head task =>
      some (.maxHead, inner.maxHead (head + 1), tail, .returned (.took head (.got task)))
  | .idle | .returned _ | .panicked => none

/-! ### The thieves -/

/-- What a thread calls on its handle: `steal`, `steal_exclusive` or `steal_weak`. -/
inductive Method
  | steal
  | stealExclusive
  | stealWeak
  deriving DecidableEq

inductive ThiefPc (α : Type*)
  | idle
  | loadHead
  | loadTasks (head : Nat)
  | loadCell (head : Nat) (arr : TasksPtr)
  | claim (head : Nat) (arr : TasksPtr) (task : α)
  | maxHead (head : Nat) (task : α)
  | nudgeHead (head : Nat)
  /-- The load of `rmax_write`. -/
  | reloadHead (head : Nat) (task : α)
  | storeHead (head : Nat) (task : α)
  | returned (head : Nat) (result : Take α)
  /-- The debug assertion of `steal_exclusive`. -/
  | panicked

/-- `rmax_read` and the first half of `rmax_write`: the larger of the two. -/
def refresh (shared r : Nat) : Nat :=
  if r < shared then shared else r

/-- Where a thief goes with the task it has read. -/
def Method.afterCell (method : Method) (head : Nat) (arr : TasksPtr) (task : α) : ThiefPc α :=
  match method with
  | .steal => .maxHead head task
  | .stealExclusive => .claim head arr task
  | .stealWeak => .reloadHead head task

/-- One access of a steal, with the private `r` of a `WeakStealer`. -/
def thiefStep (method : Method) (inner : Inner α) (r : Nat) :
    ThiefPc α → Option (Access α × Inner α × Nat × ThiefPc α)
  | .loadHead =>
      match method with
      | .stealWeak =>
          some (.loadHead, inner, refresh inner.head r, .loadTasks (refresh inner.head r))
      | .steal | .stealExclusive => some (.loadHead, inner, r, .loadTasks inner.head)
  | .loadTasks head => some (.loadTasks, inner, r, .loadCell head inner.tasks)
  | .loadCell head arr =>
      some (.loadCell, inner, r,
        if head < (inner.arrays arr).len then
          match (inner.arrays arr).cells head with
          | none => .returned head .empty
          | some task => method.afterCell head arr task
        else .returned head .empty)
  | .claim head arr task =>
      if (inner.arrays arr).claimed head = false then
        some (.claim true, inner.claim arr head, r, .maxHead head task)
      else some (.claim false, inner, r, .nudgeHead head)
  | .maxHead head task =>
      some (.maxHead, inner.maxHead (head + 1), r, .returned head (.got task))
  | .nudgeHead head => some (.maxHead, inner.maxHead (head + 1), r, .returned head .empty)
  | .reloadHead head task =>
      let known := refresh inner.head r
      if known < head + 1 then some (.loadHead, inner, head + 1, .storeHead head task)
      else some (.loadHead, inner, known, .returned head (.got task))
  | .storeHead head task =>
      some (.storeHead inner.head (head + 1), { inner with head := head + 1 }, r,
        .returned head (.got task))
  | .idle | .returned _ _ | .panicked => none

/-! ### The system -/

structure State (ι α : Type*) where
  inner : Inner α
  tail : Nat
  owner : OwnerPc α
  thief : ι → ThiefPc α
  r : ι → Nat

inductive Label (ι α : Type*)
  | putCall (task : α)
  | takeCall
  | owner (access : Access α)
  | ownerReturn (result : OwnerResult α)
  | stealCall (thief : ι)
  | thief (thief : ι) (access : Access α)
  | stealReturn (thief : ι) (head : Nat) (result : Take α)
  deriving DecidableEq

inductive Choice (ι α : Type*)
  | putCall (task : α)
  | takeCall
  | owner (spurious : Bool)
  | ownerReturn
  | stealCall (thief : ι)
  | thief (thief : ι)
  | stealReturn (thief : ι)

variable [DecidableEq ι]

def State.setThief (state : State ι α) (thief : ι) (r : Nat) (pc : ThiefPc α) : State ι α :=
  { state with
    thief := Function.update state.thief thief pc
    r := Function.update state.r thief r }

def next (shape : Shape) (method : ι → Method) (state : State ι α) :
    Choice ι α → Option (Label ι α × State ι α)
  | .putCall task =>
      match state.owner with
      | .idle =>
          some (.putCall task,
            { state with
              owner :=
                if shape.isFull state.tail then .returned (.put false)
                else .putLoadTasks task })
      | _ => none
  | .takeCall =>
      match state.owner with
      | .idle => some (.takeCall, { state with owner := .takeLoadHead })
      | _ => none
  | .owner spurious =>
      (ownerStep state.inner state.tail spurious state.owner).map fun taken =>
        (.owner taken.1,
          { state with
            inner := taken.2.1
            tail := taken.2.2.1
            owner := taken.2.2.2 })
  | .ownerReturn =>
      match state.owner with
      | .returned result => some (.ownerReturn result, { state with owner := .idle })
      | _ => none
  | .stealCall thief =>
      match state.thief thief with
      | .idle =>
          some (.stealCall thief,
            state.setThief thief (state.r thief)
              (if method thief = .stealExclusive ∧ shape.isBounded = false then .panicked
                else .loadHead))
      | _ => none
  | .thief thief =>
      (thiefStep (method thief) state.inner (state.r thief) (state.thief thief)).map fun taken =>
        (.thief thief taken.1,
          { state with inner := taken.2.1 }.setThief thief taken.2.2.1 taken.2.2.2)
  | .stealReturn thief =>
      match state.thief thief with
      | .returned head result =>
          some (.stealReturn thief head result, state.setThief thief (state.r thief) .idle)
      | _ => none

/-- `IdempotentWorker::make`. A `WeakStealer` starts with nothing observed. -/
def make (ι α : Type*) (shape : Shape) : State ι α :=
  { inner :=
      { head := 0
        tasks := 0
        retired := []
        arrays := fun _ => .withLen α shape.len
        allocated := 1 }
    tail := 0
    owner := .idle
    thief := fun _ => .idle
    r := fun _ => 0 }

def system (ι α : Type*) [DecidableEq ι] (shape : Shape) (method : ι → Method) :
    TransitionSystem (State ι α) (Label ι α) :=
  .ofNext (fun state => state = make ι α shape) (next shape method)

/-- No call is in progress. -/
def State.Quiescent (state : State ι α) : Prop :=
  state.owner = .idle ∧ ∀ thief, state.thief thief = .idle

instance : (owner : OwnerPc α) → Decidable (owner = .idle)
  | .idle => .isTrue rfl
  | .putLoadTasks _ | .growLoad _ _ | .growStore _ _ _ | .growPublish _ | .retireLoad _
  | .retireCas _ _ | .putStoreTask _ _ | .putStoreNull _ | .takeLoadHead | .takeLoadTasks _
  | .takeLoadCell _ _ | .takeMaxHead _ _ | .returned _ | .panicked => .isFalse nofun

instance : (thief : ThiefPc α) → Decidable (thief = .idle)
  | .idle => .isTrue rfl
  | .loadHead | .loadTasks _ | .loadCell _ _ | .claim _ _ _ | .maxHead _ _ | .nudgeHead _
  | .reloadHead _ _ | .storeHead _ _ | .returned _ _ | .panicked => .isFalse nofun

instance [Fintype ι] (state : State ι α) : Decidable state.Quiescent :=
  inferInstanceAs (Decidable (_ ∧ ∀ _thief, _))

end WsDeque.Idempotent
