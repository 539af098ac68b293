import Mathlib.Data.Multiset.AddSub
import WsDeque.ChaseLev.Model
import WsDeque.FiniteUpdate

/-
What the deque is for: a double-ended list that the owner and the thieves
change in single steps. The machine takes the labels of the code, so that a
refinement also says at which access an operation takes effect.
-/

namespace WsDeque.ChaseLev.Spec

variable {ι α : Type*}

inductive OwnerStatus (α : Type*)
  | idle
  | pushing (value : α)
  | popping
  /-- A LIFO pop has lowered `bottom` and has not yet taken effect. -/
  | contesting
  | done (result : OwnerResult α)
  | dropped

inductive ThiefStatus (α : Type*)
  | absent
  | idle
  | stealing
  | done (result : Steal α)

@[ext] structure State (ι α : Type*) where
  items : List α
  owner : OwnerStatus α
  thief : ι → ThiefStatus α
  freed : List α

def State.Shared (state : State ι α) : Prop :=
  state.owner ≠ .dropped ∨ ∃ thief, state.thief thief ≠ .absent

/-- Nothing observable happens, or the last handle is gone and the elements
still in the list are freed. -/
inductive Released (state : State ι α) : State ι α → Prop
  | kept (shared : state.Shared) : Released state state
  | freed (unshared : ¬ state.Shared) :
      Released state { state with items := [], freed := state.freed ++ state.items }

variable [DecidableEq ι]

def State.setThief (state : State ι α) (thief : ι) (status : ThiefStatus α) : State ι α :=
  { state with thief := Function.update state.thief thief status }

inductive Step (fifo : Bool) (state : State ι α) : Label ι α → State ι α → Prop
  | pushCall (value : α) (idle : state.owner = .idle) :
      Step fifo state (.pushCall value) { state with owner := .pushing value }
  | pushAppend (value : α) (pushing : state.owner = .pushing value) :
      Step fifo state (.owner .storeBottom)
        { state with items := state.items ++ [value], owner := .done .pushed }
  | pushInternal (value : α) (access : Access) (pushing : state.owner = .pushing value)
      (early : access ≠ .storeBottom) : Step fifo state (.owner access) state
  | popCall (idle : state.owner = .idle) :
      Step fifo state .popCall { state with owner := .popping }
  | popInternal (access : Access) (popping : state.owner = .popping)
      (early : access ≠ .storeBottom ∧ access ≠ .casTop true) :
      Step fifo state (.owner access) state
  -- LIFO: the owner contests the back, and takes it when it reads `top`, or by
  -- its compare-exchange when it is the last element.
  | popContest (lifo : fifo = false) (popping : state.owner = .popping) :
      Step fifo state (.owner .storeBottom) { state with owner := .contesting }
  | popBack (rest : List α) (value : α) (lifo : fifo = false)
      (contesting : state.owner = .contesting) (back : state.items = rest ++ [value]) :
      Step fifo state (.owner .loadTop)
        { state with items := rest, owner := .done (.popped (some value)) }
  | popEmpty (lifo : fifo = false) (contesting : state.owner = .contesting)
      (empty : state.items = []) :
      Step fifo state (.owner .loadTop) { state with owner := .done (.popped none) }
  | popLast (value : α) (lifo : fifo = false) (contesting : state.owner = .contesting)
      (last : state.items = [value]) : Step fifo state (.owner .loadTop) state
  | popLoadCell (lifo : fifo = false) (contesting : state.owner = .contesting) :
      Step fifo state (.owner .loadCell) state
  | popWin (value : α) (lifo : fifo = false) (contesting : state.owner = .contesting)
      (last : state.items = [value]) :
      Step fifo state (.owner (.casTop true))
        { state with items := [], owner := .done (.popped (some value)) }
  | popLose (lifo : fifo = false) (contesting : state.owner = .contesting)
      (empty : state.items = []) :
      Step fifo state (.owner (.casTop false)) { state with owner := .done (.popped none) }
  -- FIFO: the owner takes the front by a compare-exchange, like a thief.
  | popFront (value : α) (rest : List α) (isFifo : fifo = true)
      (popping : state.owner = .popping) (front : state.items = value :: rest) :
      Step fifo state (.owner (.casTop true))
        { state with items := rest, owner := .done (.popped (some value)) }
  | popFrontEmpty (isFifo : fifo = true) (popping : state.owner = .popping)
      (empty : state.items = []) :
      Step fifo state (.owner .loadBottom) { state with owner := .done (.popped none) }
  | ownerTail (access : Access) (result : OwnerResult α) (done : state.owner = .done result) :
      Step fifo state (.owner access) state
  | ownerReturn (result : OwnerResult α) (done : state.owner = .done result) :
      Step fifo state (.ownerReturn result) { state with owner := .idle }
  | stealCall (thief : ι) (idle : state.thief thief = .idle) :
      Step fifo state (.stealCall thief) (state.setThief thief .stealing)
  | stealInternal (thief : ι) (access : Access) (stealing : state.thief thief = .stealing)
      (early : ∀ won, access ≠ .casTop won) : Step fifo state (.thief thief access) state
  | stealFront (thief : ι) (value : α) (rest : List α)
      (stealing : state.thief thief = .stealing) (front : state.items = value :: rest) :
      Step fifo state (.thief thief (.casTop true))
        ({ state with items := rest }.setThief thief (.done (.success value)))
  | stealRetry (thief : ι) (stealing : state.thief thief = .stealing) :
      Step fifo state (.thief thief (.casTop false)) (state.setThief thief (.done .retry))
  | stealEmpty (thief : ι) (stealing : state.thief thief = .stealing)
      (nothing : state.items = [] ∨ ∃ value, state.items = [value] ∧ state.owner = .contesting) :
      Step fifo state (.thief thief .loadBottom) (state.setThief thief (.done .empty))
  | stealReturn (thief : ι) (result : Steal α) (done : state.thief thief = .done result) :
      Step fifo state (.stealReturn thief result) (state.setThief thief .idle)
  | newStealer (thief : ι) (absent : state.thief thief = .absent) (shared : state.Shared) :
      Step fifo state (.newStealer thief) (state.setThief thief .idle)
  | dropStealer (thief : ι) (after : State ι α) (idle : state.thief thief = .idle)
      (released : Released (state.setThief thief .absent) after) :
      Step fifo state (.dropStealer thief) after
  | dropWorker (after : State ι α) (idle : state.owner = .idle)
      (released : Released { state with owner := .dropped } after) :
      Step fifo state .dropWorker after

def initial (ι α : Type*) : State ι α :=
  { items := []
    owner := .idle
    thief := fun _ => .absent
    freed := [] }

def system (ι α : Type*) [DecidableEq ι] (fifo : Bool) :
    TransitionSystem (State ι α) (Label ι α) :=
  { initial := fun state => state = initial ι α
    step := Step fifo }

/-! ### Every element is in one place -/

omit [DecidableEq ι]

/-- The values of the `push` calls, in order. -/
def pushed : List (Label ι α) → List α
  | [] => []
  | .pushCall value :: rest => value :: pushed rest
  | _ :: rest => pushed rest

/-- The values returned by `pop` and `steal`, in order. -/
def handedOut : List (Label ι α) → List α
  | [] => []
  | .ownerReturn (.popped (some value)) :: rest => value :: handedOut rest
  | .stealReturn _ (.success value) :: rest => value :: handedOut rest
  | _ :: rest => handedOut rest

theorem pushed_append (first second : List (Label ι α)) :
    pushed (first ++ second) = pushed first ++ pushed second := by
  induction first with
  | nil => rfl
  | cons label rest ih => cases label <;> simp [pushed, ih]

theorem handedOut_append (first second : List (Label ι α)) :
    handedOut (first ++ second) = handedOut first ++ handedOut second := by
  induction first with
  | nil => rfl
  | cons label rest ih =>
      cases label with
      | ownerReturn result =>
          cases result with
          | pushed => simp [handedOut, ih]
          | popped value => cases value <;> simp [handedOut, ih]
      | stealReturn thief result => cases result <;> simp [handedOut, ih]
      | _ => simp [handedOut, ih]

/-- The element an unfinished or unreturned call has in hand. -/
def OwnerStatus.inHand : OwnerStatus α → Multiset α
  | .pushing value => {value}
  | .done (.popped (some value)) => {value}
  | _ => 0

def ThiefStatus.inHand : ThiefStatus α → Multiset α
  | .done (.success value) => {value}
  | _ => 0

def State.inHand [Fintype ι] (state : State ι α) : Multiset α :=
  state.owner.inHand + ∑ thief, (state.thief thief).inHand

theorem State.inHand_setThief [Fintype ι] [DecidableEq ι] (state : State ι α) (thief : ι)
    (status : ThiefStatus α) :
    (state.setThief thief status).inHand + (state.thief thief).inHand =
      state.inHand + status.inHand := by
  simp only [State.inHand, State.setThief, add_assoc]
  rw [sum_update_add ThiefStatus.inHand]

/-- Pushed elements are waiting in the list, held by a call, handed out once,
or freed once by the final drop. -/
def Conserved [Fintype ι] (labels : List (Label ι α)) (state : State ι α) : Prop :=
  (pushed labels : Multiset α) =
    state.items + state.inHand + handedOut labels + state.freed

theorem Released.conserved [Fintype ι] {labels : List (Label ι α)} {state after : State ι α}
    (released : Released state after) (conserved : Conserved labels state) :
    Conserved labels after := by
  cases released with
  | kept _shared => exact conserved
  | freed _unshared =>
      unfold Conserved at conserved ⊢
      rw [conserved]
      simp only [State.inHand, Multiset.coe_nil, zero_add, ← Multiset.coe_add]
      ac_rfl

/-- A label that neither pushes nor hands out leaves the account as it was. -/
theorem Conserved.silent [Fintype ι] {labels : List (Label ι α)} {label : Label ι α}
    {state after : State ι α} (conserved : Conserved labels state)
    (noPush : pushed [label] = []) (noHandOut : handedOut [label] = [])
    (items : (after.items : Multiset α) + after.inHand = state.items + state.inHand)
    (freed : after.freed = state.freed) : Conserved (labels ++ [label]) after := by
  unfold Conserved at conserved ⊢
  rw [pushed_append, handedOut_append, noPush, noHandOut, List.append_nil, List.append_nil,
    items, freed]
  exact conserved

theorem Step.conserved [Fintype ι] [DecidableEq ι] {fifo : Bool} {labels : List (Label ι α)}
    {label : Label ι α} {state after : State ι α} (taken : Step fifo state label after)
    (conserved : Conserved labels state) : Conserved (labels ++ [label]) after := by
  cases taken with
  | pushCall value idle =>
      unfold Conserved at conserved ⊢
      rw [pushed_append, handedOut_append]
      simp only [pushed, handedOut, List.append_nil, ← Multiset.coe_add, Multiset.coe_singleton,
        conserved, State.inHand, idle, OwnerStatus.inHand, zero_add]
      ac_rfl
  | pushAppend value pushing =>
      refine conserved.silent rfl rfl ?_ rfl
      simp only [State.inHand, pushing, OwnerStatus.inHand, ← Multiset.coe_add,
        Multiset.coe_singleton, zero_add]
      ac_rfl
  | pushInternal value access pushing early => exact conserved.silent rfl rfl rfl rfl
  | popCall idle =>
      refine conserved.silent rfl rfl ?_ rfl
      simp only [State.inHand, idle, OwnerStatus.inHand]
  | popInternal access popping early => exact conserved.silent rfl rfl rfl rfl
  | popContest lifo popping =>
      refine conserved.silent rfl rfl ?_ rfl
      simp only [State.inHand, popping, OwnerStatus.inHand]
  | popBack rest value lifo contesting back =>
      refine conserved.silent rfl rfl ?_ rfl
      simp only [State.inHand, contesting, OwnerStatus.inHand, back, ← Multiset.coe_add,
        Multiset.coe_singleton, zero_add]
      ac_rfl
  | popEmpty lifo contesting empty =>
      refine conserved.silent rfl rfl ?_ rfl
      simp only [State.inHand, contesting, OwnerStatus.inHand]
  | popLast value lifo contesting last => exact conserved.silent rfl rfl rfl rfl
  | popLoadCell lifo contesting => exact conserved.silent rfl rfl rfl rfl
  | popWin value lifo contesting last =>
      refine conserved.silent rfl rfl ?_ rfl
      simp only [State.inHand, contesting, OwnerStatus.inHand, last, Multiset.coe_nil,
        Multiset.coe_singleton, zero_add]
  | popLose lifo contesting empty =>
      refine conserved.silent rfl rfl ?_ rfl
      simp only [State.inHand, contesting, OwnerStatus.inHand]
  | popFront value rest isFifo popping front =>
      refine conserved.silent rfl rfl ?_ rfl
      simp only [State.inHand, popping, OwnerStatus.inHand, front, ← Multiset.cons_coe,
        ← Multiset.singleton_add, zero_add]
      ac_rfl
  | popFrontEmpty isFifo popping empty =>
      refine conserved.silent rfl rfl ?_ rfl
      simp only [State.inHand, popping, OwnerStatus.inHand]
  | ownerTail access result done => exact conserved.silent rfl rfl rfl rfl
  | ownerReturn result done =>
      unfold Conserved at conserved ⊢
      rw [pushed_append, handedOut_append]
      rcases result with _ | _ | value <;>
        simp only [pushed, handedOut, List.append_nil, ← Multiset.coe_add,
          Multiset.coe_singleton, conserved, State.inHand, done, OwnerStatus.inHand, zero_add]
      ac_rfl
  | stealCall thief idle =>
      refine conserved.silent rfl rfl ?_ rfl
      have moved := state.inHand_setThief thief .stealing
      simp only [idle, ThiefStatus.inHand, add_zero] at moved
      rw [moved]
      rfl
  | stealInternal thief access stealing early => exact conserved.silent rfl rfl rfl rfl
  | stealFront thief value rest stealing front =>
      refine conserved.silent rfl rfl ?_ rfl
      have moved := { state with items := rest }.inHand_setThief thief (.done (.success value))
      simp only [stealing, ThiefStatus.inHand, add_zero] at moved
      rw [moved, front, ← Multiset.cons_coe, ← Multiset.singleton_add]
      simp only [State.setThief, State.inHand]
      ac_rfl
  | stealRetry thief stealing =>
      refine conserved.silent rfl rfl ?_ rfl
      have moved := state.inHand_setThief thief (.done .retry)
      simp only [stealing, ThiefStatus.inHand, add_zero] at moved
      rw [moved]
      rfl
  | stealEmpty thief stealing nothing =>
      refine conserved.silent rfl rfl ?_ rfl
      have moved := state.inHand_setThief thief (.done .empty)
      simp only [stealing, ThiefStatus.inHand, add_zero] at moved
      rw [moved]
      rfl
  | stealReturn thief result done =>
      have moved := state.inHand_setThief thief .idle
      unfold Conserved at conserved ⊢
      rw [pushed_append, handedOut_append]
      cases result <;>
        simp only [done, ThiefStatus.inHand, add_zero] at moved <;>
        simp only [pushed, handedOut, List.append_nil, ← Multiset.coe_add,
          Multiset.coe_singleton, conserved, ← moved] <;>
        simp only [State.setThief]
      ac_rfl
  | newStealer thief absent shared =>
      refine conserved.silent rfl rfl ?_ rfl
      have moved := state.inHand_setThief thief .idle
      simp only [absent, ThiefStatus.inHand, add_zero] at moved
      rw [moved]
      rfl
  | dropStealer thief after idle released =>
      have moved := state.inHand_setThief thief .absent
      simp only [idle, ThiefStatus.inHand, add_zero] at moved
      refine released.conserved (conserved.silent rfl rfl ?_ rfl)
      rw [moved]
      rfl
  | dropWorker after idle released =>
      refine released.conserved (conserved.silent rfl rfl ?_ rfl)
      simp only [State.inHand, idle, OwnerStatus.inHand]

theorem conserved_of_reaches [Fintype ι] [DecidableEq ι] {fifo : Bool}
    {labels : List (Label ι α)} {state : State ι α}
    (reached : (system ι α fifo).Reaches labels state) : Conserved labels state := by
  refine TransitionSystem.Reaches.induction ?_ ?_ reached
  · intro start isInitial
    subst isInitial
    simp [Conserved, initial, State.inHand, pushed, handedOut, OwnerStatus.inHand,
      ThiefStatus.inHand]
  · intro labels before label after _reached conserved taken
    exact taken.conserved conserved

end WsDeque.ChaseLev.Spec
