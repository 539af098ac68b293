import Mathlib.Algebra.Order.BigOperators.Group.Finset
import Mathlib.Data.Multiset.Range
import WsDeque.ChaseLev.Model
import WsDeque.FiniteUpdate

/-
Reclamation of replaced buffers. Every allocated buffer is installed, retired,
held by the owner, or freed; the owner takes the retired list only after it has
seen that no party can still read through an older pointer.
-/

namespace WsDeque.ChaseLev

variable {ι α : Type*} {state : State ι α}

/-! ### Who holds a buffer -/

/-- Between the increment and the decrement of `in_flight`. -/
def StealPc.inCritical : StealPc α → Bool
  | .loadBuffer _ | .loadCell _ _ | .subInFlight _ _ => true
  | _ => false

def ThiefPc.inCritical : ThiefPc α → Bool
  | .stealing pc => pc.inCritical
  | _ => false

def OwnerPc.inCritical : OwnerPc α → Bool
  | .popFifo pc => pc.inCritical
  | _ => false

/-- The pointer a thief has loaded and still reads through. -/
def StealPc.loaded : StealPc α → Option BufferPtr
  | .loadCell _ bufPtr => some bufPtr
  | _ => none

def ThiefPc.loaded : ThiefPc α → Option BufferPtr
  | .stealing pc => pc.loaded
  | _ => none

/-- Buffers only the owner knows: one it is filling, one it is about to retire,
or the list it is freeing. -/
def ResizePc.held (resize : Resize) : ResizePc α → List BufferPtr
  | .copyLoad _ | .copyStore _ _ | .storeBuffer => [resize.new]
  | .loadRetired | .casRetired _ => [resize.old]
  | .free node => node
  | _ => []

def OwnerPc.held : OwnerPc α → List BufferPtr
  | .resizing resize pc _ => pc.held resize
  | _ => []

/-- Pointers the owner may still dereference in the current call. -/
def OwnerPc.dereferences : OwnerPc α → List BufferPtr
  | .pushLoadTop _ _ bufPtr | .pushStoreCell _ _ bufPtr | .popStoreBottom _ bufPtr
  | .popLoadTop _ bufPtr | .popLoadCell _ _ bufPtr => [bufPtr]
  | .resizing resize (.copyLoad _) _ | .resizing resize (.copyStore _ _) _ =>
      [resize.old, resize.new]
  | .resizing resize _ _ => [resize.new]
  | .popFifo pc => pc.loaded.toList
  | _ => []

/-- Pointers a party inside its critical section may hold. -/
def ResizePc.readable (inner : Inner α) (resize : Resize) : ResizePc α → List BufferPtr
  | .loadRetired | .casRetired _ => inner.buffer :: resize.old :: inner.retired
  | .swapRetired | .free _ => [inner.buffer]
  | _ => inner.buffer :: inner.retired

def OwnerPc.readable (inner : Inner α) : OwnerPc α → List BufferPtr
  | .resizing resize pc _ => pc.readable inner resize
  | _ => inner.buffer :: inner.retired

theorem OwnerPc.buffer_mem_readable (inner : Inner α) (pc : OwnerPc α) :
    inner.buffer ∈ pc.readable inner := by
  cases pc with
  | resizing resize resizePc after => cases resizePc <;> exact List.mem_cons_self
  | _ => exact List.mem_cons_self

def ResizePc.Placed (inner : Inner α) (resize : Resize) : ResizePc α → Prop
  | .copyLoad _ | .copyStore _ _ | .storeBuffer => inner.buffer = resize.old
  | _ => inner.buffer = resize.new

def OwnerPc.Placed (inner : Inner α) : OwnerPc α → Prop
  | .resizing resize pc _ => pc.Placed inner resize
  | pc => ∀ bufPtr ∈ pc.dereferences, bufPtr = inner.buffer

theorem OwnerPc.held_of_dropped {pc : OwnerPc α} (dropped : pc.isDropped = true) :
    pc.held = [] := by
  cases pc with
  | resizing resize resizePc after => cases dropped
  | _ => rfl

def Inner.accounted (inner : Inner α) (held : List BufferPtr) : Multiset BufferPtr :=
  {inner.buffer} + inner.retired + held + inner.freed

def share (critical : Bool) : Int :=
  if critical then 1 else 0

variable [Fintype ι]

/-- While some handle is left. -/
structure Reclaim (state : State ι α) : Prop where
  accounted : state.inner.accounted state.owner.held = Multiset.range state.inner.allocated
  placed : state.owner.Placed state.inner
  counter : state.inner.inFlight =
    share state.owner.inCritical + ∑ thief, share (state.thief thief).inCritical
  loaded : ∀ thief bufPtr, (state.thief thief).loaded = some bufPtr →
    bufPtr ∈ state.owner.readable state.inner

/-- Every buffer is freed when the last handle is gone. -/
def Reclaimed (state : State ι α) : Prop :=
  (state.shared = true → Reclaim state) ∧
    (state.shared = false →
      (state.inner.freed : Multiset BufferPtr) = Multiset.range state.inner.allocated)

/-! ### One step of the owner -/

/-- What a step of the owner must show. -/
structure Reclaim.OwnerMove (state : State ι α) (inner : Inner α) (owner : OwnerPc α) : Prop where
  present : owner.isDropped = false
  accounted : state.inner.accounted state.owner.held = Multiset.range state.inner.allocated →
    inner.accounted owner.held = Multiset.range inner.allocated
  placed : owner.Placed inner
  counter : inner.inFlight - share owner.inCritical =
    state.inner.inFlight - share state.owner.inCritical
  readable : ∀ bufPtr, bufPtr ∈ state.owner.readable state.inner →
    bufPtr ∈ owner.readable inner ∨
      ∀ thief, (state.thief thief).inCritical = false

theorem ThiefPc.loaded_inCritical {pc : ThiefPc α} {bufPtr : BufferPtr}
    (loaded : pc.loaded = some bufPtr) : pc.inCritical = true := by
  cases pc with
  | stealing pc =>
      cases pc with
      | loadCell t loadedPtr => rfl
      | _ => cases loaded
  | _ => cases loaded

theorem Reclaim.ownerMove (reclaim : Reclaim state) {inner : Inner α} {owner : OwnerPc α}
    (worker : Worker) (move : Reclaim.OwnerMove state inner owner) :
    Reclaim { state with inner := inner, worker := worker, owner := owner } :=
  { accounted := move.accounted reclaim.accounted
    placed := move.placed
    counter := by
      have counter := reclaim.counter
      have moved := move.counter
      dsimp only
      omega
    loaded := by
      intro thief bufPtr loaded
      rcases move.readable bufPtr (reclaim.loaded thief bufPtr loaded) with still | nobody
      · exact still
      · have critical := ThiefPc.loaded_inCritical loaded
        rw [nobody thief] at critical
        cases critical }

/-- With the counter at zero nobody is inside the critical section. -/
theorem Reclaim.nobody_of_zero (reclaim : Reclaim state) (zero : state.inner.inFlight = 0)
    (thief : ι) : (state.thief thief).inCritical = false := by
  have nonneg : ∀ critical : Bool, 0 ≤ share critical := by
    intro critical
    cases critical <;> decide
  have counter := reclaim.counter
  have owner := nonneg state.owner.inCritical
  have others := Finset.sum_nonneg fun (other : ι) (_member : other ∈ Finset.univ) =>
    nonneg (state.thief other).inCritical
  have none : ∑ other, share (state.thief other).inCritical = 0 := by omega
  have mine := (Finset.sum_eq_zero_iff_of_nonneg fun (other : ι) _member =>
    nonneg (state.thief other).inCritical).mp none thief (Finset.mem_univ thief)
  cases critical : (state.thief thief).inCritical with
  | false => rfl
  | true =>
      rw [critical] at mine
      cases mine

/-- Outside a resize the owner knows no buffer that others do not. -/
structure OwnerPc.Plain (pc : OwnerPc α) : Prop where
  present : pc.isDropped = false
  held : pc.held = []
  readable : ∀ inner, pc.readable inner = inner.buffer :: inner.retired
  placed : ∀ inner, pc.Placed inner ↔ ∀ bufPtr ∈ pc.dereferences, bufPtr = inner.buffer

/-- Neither inside a resize nor inside `steal_from`. -/
def OwnerPc.isQuiet : OwnerPc α → Bool
  | .resizing _ _ _ | .popFifo _ | .dropped => false
  | _ => true

theorem OwnerPc.plain_of_quiet {pc : OwnerPc α} (quiet : pc.isQuiet = true) :
    pc.Plain ∧ pc.inCritical = false := by
  cases pc with
  | resizing resize resizePc after => cases quiet
  | popFifo stealPc => cases quiet
  | dropped => cases quiet
  | _ => exact ⟨⟨rfl, rfl, fun _inner => rfl, fun _inner => Iff.rfl⟩, rfl⟩

omit [Fintype ι] in
theorem Reclaim.OwnerMove.plain {owner : OwnerPc α} (bottom top inFlight : Int)
    (heap : BufferPtr → Buffer α) (before : state.owner.Plain) (after : owner.Plain)
    (placed : ∀ bufPtr ∈ owner.dereferences, bufPtr = state.inner.buffer)
    (counter : inFlight - share owner.inCritical =
      state.inner.inFlight - share state.owner.inCritical) :
    Reclaim.OwnerMove state
      { state.inner with bottom := bottom, top := top, inFlight := inFlight, heap := heap }
      owner :=
  { present := after.present
    accounted := by
      rw [before.held, after.held]
      exact id
    placed := (after.placed _).mpr placed
    counter := counter
    readable := by
      intro bufPtr member
      rw [before.readable] at member
      rw [after.readable]
      exact Or.inl member }

omit [Fintype ι] in
/-- A step of `push` or of a LIFO `pop` that neither starts nor runs a resize. -/
theorem Reclaim.OwnerMove.quiet {owner : OwnerPc α} (bottom top : Int)
    (heap : BufferPtr → Buffer α) (before : state.owner.isQuiet = true)
    (after : owner.isQuiet = true)
    (placed : ∀ bufPtr ∈ owner.dereferences, bufPtr = state.inner.buffer) :
    Reclaim.OwnerMove state { state.inner with bottom := bottom, top := top, heap := heap }
      owner := by
  obtain ⟨plainBefore, outsideBefore⟩ := OwnerPc.plain_of_quiet before
  obtain ⟨plainAfter, outsideAfter⟩ := OwnerPc.plain_of_quiet after
  exact .plain bottom top state.inner.inFlight heap plainBefore plainAfter placed
    (by rw [outsideBefore, outsideAfter])

theorem Resize.copyFrom_cases (resize : Resize) (k : Nat) :
    (resize.copyFrom k : ResizePc α) = .copyLoad k ∨
      (resize.copyFrom k : ResizePc α) = .storeBuffer := by
  unfold Resize.copyFrom
  split
  · exact Or.inl rfl
  · exact Or.inr rfl

omit [Fintype ι] in
theorem Reclaim.OwnerMove.startResize (newCap : Nat) (bottom top : Int) (after : After α)
    (quiet : state.owner.isQuiet = true) :
    Reclaim.OwnerMove state
      (ChaseLev.startResize state.inner state.inner.buffer newCap bottom top after).1
      (ChaseLev.startResize state.inner state.inner.buffer newCap bottom top after).2 := by
  obtain ⟨before, outside⟩ := OwnerPc.plain_of_quiet quiet
  simp only [ChaseLev.startResize]
  generalize sameResize : (⟨state.inner.buffer, state.inner.allocated, bottom, top⟩ : Resize) =
    resize
  have old : resize.old = state.inner.buffer := by rw [← sameResize]
  have new : resize.new = state.inner.allocated := by rw [← sameResize]
  refine
    { present := rfl
      accounted := ?_
      placed := ?_
      counter := by rw [outside]; rfl
      readable := ?_ }
  · rw [before.held]
    intro known
    have held : (resize.copyFrom 0 : ResizePc α).held resize = [state.inner.allocated] := by
      rcases resize.copyFrom_cases (α := α) 0 with pc | pc <;> rw [pc, ← new] <;> rfl
    simp only [Inner.accounted, OwnerPc.held, held, Multiset.range_succ, ← known,
      Multiset.coe_singleton, ← Multiset.singleton_add, Multiset.coe_nil, add_zero]
    ac_rfl
  · rcases resize.copyFrom_cases (α := α) 0 with pc | pc <;> rw [pc] <;> exact old.symm
  · intro bufPtr member
    rw [before.readable] at member
    left
    rcases resize.copyFrom_cases (α := α) 0 with pc | pc <;> rw [pc] <;> exact member

theorem finishResize_quiet (resize : Resize) (after : After α) :
    (finishResize resize after).isQuiet = true ∧
      ∀ bufPtr ∈ (finishResize resize after).dereferences, bufPtr = resize.new := by
  cases after with
  | push value b => exact ⟨rfl, by simp [finishResize, OwnerPc.dereferences]⟩
  | pop boxed =>
      cases boxed <;> exact ⟨rfl, by simp [finishResize, popReturn, OwnerPc.dereferences]⟩

omit [Fintype ι] in
/-- The last step of a resize leaves the new buffer installed. -/
theorem Reclaim.OwnerMove.finish {resize : Resize} {pc : ResizePc α} {after : After α}
    {inner : Inner α} (atPc : state.owner = .resizing resize pc after)
    (accounted : state.inner.accounted (pc.held resize) = inner.accounted [])
    (allocated : inner.allocated = state.inner.allocated)
    (buffer : inner.buffer = resize.new) (inFlight : inner.inFlight = state.inner.inFlight)
    (readable : ∀ bufPtr, bufPtr ∈ pc.readable state.inner resize →
      bufPtr ∈ inner.buffer :: inner.retired) :
    Reclaim.OwnerMove state inner (finishResize resize after) := by
  obtain ⟨quiet, derefs⟩ := finishResize_quiet resize after
  obtain ⟨plain, outside⟩ := OwnerPc.plain_of_quiet quiet
  refine
    { present := plain.present
      accounted := ?_
      placed := (plain.placed inner).mpr fun bufPtr member =>
        (derefs bufPtr member).trans buffer.symm
      counter := by rw [outside, inFlight, atPc]; rfl
      readable := ?_ }
  · rw [atPc, plain.held, allocated]
    exact fun known => accounted.symm.trans known
  · intro bufPtr member
    rw [atPc] at member
    rw [plain.readable]
    exact Or.inl (readable bufPtr member)

omit [Fintype ι] in
theorem Reclaim.OwnerMove.resizing {resize : Resize} {pc : ResizePc α} {after : After α}
    {inner : Inner α} {pc' : ResizePc α} (atPc : state.owner = .resizing resize pc after)
    (accounted : state.inner.accounted (pc.held resize) = inner.accounted (pc'.held resize))
    (allocated : inner.allocated = state.inner.allocated)
    (placed : pc'.Placed inner resize) (inFlight : inner.inFlight = state.inner.inFlight)
    (readable : ∀ bufPtr, bufPtr ∈ pc.readable state.inner resize →
      bufPtr ∈ pc'.readable inner resize ∨ ∀ thief, (state.thief thief).inCritical = false) :
    Reclaim.OwnerMove state inner (.resizing resize pc' after) := by
  refine
    { present := rfl
      accounted := ?_
      placed := placed
      counter := by rw [inFlight, atPc]; rfl
      readable := ?_ }
  · rw [atPc, allocated]
    exact fun known => accounted.symm.trans known
  · intro bufPtr member
    rw [atPc] at member
    exact readable bufPtr member

/-- Every step of a running resize. -/
theorem Reclaim.resizeStep (reclaim : Reclaim state) {resize : Resize} {pc : ResizePc α}
    {after : After α} (spurious : Bool) (atPc : state.owner = .resizing resize pc after) :
    Reclaim.OwnerMove state (resize.step state.inner spurious pc).2.1
      (match (resize.step state.inner spurious pc).2.2 with
        | some pc' => .resizing resize pc' after
        | none => finishResize resize after) := by
  have placed := reclaim.placed
  rw [atPc] at placed
  cases pc with
  | copyLoad k =>
      exact .resizing atPc rfl rfl placed rfl fun _bufPtr member => Or.inl member
  | copyStore k p =>
      rcases resize.copyFrom_cases (α := α) (k + 1) with next | next <;>
        simp only [Resize.step, next] <;>
        exact .resizing atPc rfl rfl placed rfl fun _bufPtr member => Or.inl member
  | storeBuffer =>
      have placedOld : state.inner.buffer = resize.old := placed
      refine .resizing atPc ?_ rfl rfl rfl ?_
      · simp only [Inner.accounted, ResizePc.held, Resize.step, placedOld,
          Multiset.coe_singleton]
        ac_rfl
      · intro bufPtr member
        left
        simp only [ResizePc.readable, Resize.step, placedOld, List.mem_cons] at member ⊢
        exact Or.inr member
  | loadRetired =>
      exact .resizing atPc rfl rfl placed rfl fun _bufPtr member => Or.inl member
  | casRetired head =>
      by_cases swaps : spurious = false ∧ state.inner.retired = head
      · simp only [Resize.step, if_pos swaps]
        refine .resizing atPc ?_ rfl placed rfl ?_
        · simp only [Inner.accounted, ResizePc.held, ← swaps.2, Multiset.coe_nil,
            ← Multiset.cons_coe, ← Multiset.singleton_add]
          ac_rfl
        · intro bufPtr member
          left
          simp only [ResizePc.readable, swaps.2] at member ⊢
          exact member
      · simp only [Resize.step, if_neg swaps]
        exact .resizing atPc rfl rfl placed rfl fun _bufPtr member => Or.inl member
  | loadInFlight =>
      by_cases zero : state.inner.inFlight = 0
      · simp only [Resize.step, ne_eq, zero, not_true_eq_false, if_false]
        exact .resizing atPc rfl rfl placed rfl fun _bufPtr _member =>
          Or.inr (reclaim.nobody_of_zero zero)
      · simp only [Resize.step, ne_eq, zero, not_false_eq_true, if_true]
        exact .finish atPc rfl rfl placed rfl fun _bufPtr member => member
  | swapRetired =>
      have placedNew : state.inner.buffer = resize.new := placed
      by_cases nothing : state.inner.retired = []
      · simp only [Resize.step, nothing, if_true]
        refine .finish atPc ?_ rfl placedNew rfl fun _bufPtr member => member
        simp only [Inner.accounted, ResizePc.held, nothing]
      · simp only [Resize.step, nothing, if_false]
        refine .resizing atPc ?_ rfl placedNew rfl fun _bufPtr member => Or.inl member
        simp only [Inner.accounted, ResizePc.held, Multiset.coe_nil]
        ac_rfl
  | free node =>
      have placedNew : state.inner.buffer = resize.new := placed
      cases node with
      | nil =>
          refine .finish atPc rfl rfl placedNew rfl fun bufPtr member => ?_
          exact List.mem_cons.mpr (Or.inl (List.mem_singleton.mp member))
      | cons buffer next =>
          by_cases last : next = []
          · simp only [Resize.step, last, if_true]
            refine .finish atPc ?_ rfl placedNew rfl fun bufPtr member =>
              List.mem_cons.mpr (Or.inl (List.mem_singleton.mp member))
            simp only [Inner.accounted, ResizePc.held, last, ← Multiset.coe_add,
              Multiset.coe_singleton, Multiset.coe_nil]
            ac_rfl
          · simp only [Resize.step, last, if_false]
            refine .resizing atPc ?_ rfl placedNew rfl fun _bufPtr member => Or.inl member
            simp only [Inner.accounted, ResizePc.held, ← Multiset.coe_add, ← Multiset.cons_coe,
              ← Multiset.singleton_add]
            ac_rfl

omit [Fintype ι] in
theorem Reclaim.OwnerMove.pushGrowOrStore (value : α) (b t : Int)
    (before : state.owner.isQuiet = true) :
    Reclaim.OwnerMove state
      (ChaseLev.pushGrowOrStore state.inner value b state.inner.buffer t).1
      (ChaseLev.pushGrowOrStore state.inner value b state.inner.buffer t).2 := by
  unfold ChaseLev.pushGrowOrStore
  split
  · exact .startResize _ b t (.push value b) before
  · exact .quiet state.inner.bottom state.inner.top state.inner.heap before rfl
      (by simp [OwnerPc.dereferences])

theorem popReturn_quiet (boxed : Option α) :
    (popReturn boxed).isQuiet = true ∧ (popReturn boxed).dereferences = [] := by
  cases boxed <;> exact ⟨rfl, rfl⟩

omit [Fintype ι] in
theorem Reclaim.OwnerMove.popReturn (bottom top : Int) (heap : BufferPtr → Buffer α)
    (boxed : Option α) (before : state.owner.isQuiet = true) :
    Reclaim.OwnerMove state { state.inner with bottom := bottom, top := top, heap := heap }
      (ChaseLev.popReturn boxed) := by
  obtain ⟨quiet, none⟩ := popReturn_quiet boxed
  exact .quiet bottom top heap before quiet (by rw [none]; simp)

omit [Fintype ι] in
theorem Reclaim.OwnerMove.perhapsShrink (boxed : Option α) (bottom top : Int)
    (before : state.owner.isQuiet = true) :
    Reclaim.OwnerMove state
      (ChaseLev.perhapsShrink state.inner bottom top state.inner.buffer boxed).1
      (ChaseLev.perhapsShrink state.inner bottom top state.inner.buffer boxed).2 := by
  unfold ChaseLev.perhapsShrink
  dsimp only
  split
  · exact .startResize _ bottom top (.pop boxed) before
  · exact .popReturn state.inner.bottom state.inner.top state.inner.heap boxed before

/-! ### One step of a thief -/

def Outcome.inCritical : Outcome α → Bool
  | .running pc => pc.inCritical
  | _ => false

def Outcome.loaded : Outcome α → Option BufferPtr
  | .running pc => pc.loaded
  | _ => none

/-- A step of `steal_from` counts itself in and out, and loads only the
installed buffer. -/
structure StealFrame (inner : Inner α) (pc : StealPc α) (after : Inner α)
    (outcome : Outcome α) : Prop where
  frame : ∃ top, after = { inner with top := top, inFlight := after.inFlight }
  counter : after.inFlight - share outcome.inCritical = inner.inFlight - share pc.inCritical
  loaded : ∀ bufPtr, outcome.loaded = some bufPtr → bufPtr = inner.buffer

theorem stealFrom_frame (inner : Inner α) (pc : StealPc α) :
    StealFrame inner pc (stealFrom inner pc).2.1 (stealFrom inner pc).2.2 := by
  cases pc with
  | loadTop => exact ⟨⟨inner.top, rfl⟩, rfl, fun _ loaded => by cases loaded⟩
  | loadBottom t =>
      simp only [stealFrom]
      split <;> exact ⟨⟨inner.top, rfl⟩, rfl, fun _ loaded => by cases loaded⟩
  | addInFlight t =>
      refine ⟨⟨inner.top, rfl⟩, ?_, fun _ loaded => by cases loaded⟩
      simp only [stealFrom, Outcome.inCritical, StealPc.inCritical, share]
      simp
  | loadBuffer t =>
      refine ⟨⟨inner.top, rfl⟩, rfl, fun _ loaded => ?_⟩
      exact (Option.some.inj loaded).symm
  | loadCell t bufPtr => exact ⟨⟨inner.top, rfl⟩, rfl, fun _ loaded => by cases loaded⟩
  | subInFlight t boxed =>
      refine ⟨⟨inner.top, rfl⟩, ?_, fun _ loaded => by cases loaded⟩
      simp only [stealFrom, Outcome.inCritical, StealPc.inCritical, share]
      simp
  | casTop t boxed =>
      by_cases current : inner.top = t
      · simp only [stealFrom, if_pos current]
        cases boxed <;> exact ⟨⟨_, rfl⟩, rfl, fun _ loaded => by cases loaded⟩
      · simp only [stealFrom, if_neg current]
        exact ⟨⟨inner.top, rfl⟩, rfl, fun _ loaded => by cases loaded⟩

theorem Reclaim.thiefMove [DecidableEq ι] (reclaim : Reclaim state) (thief : ι) {inner : Inner α}
    (pc : ThiefPc α)
    (frame : ∃ top, inner = { state.inner with top := top, inFlight := inner.inFlight })
    (counter : inner.inFlight - share pc.inCritical =
      state.inner.inFlight - share (state.thief thief).inCritical)
    (loaded : ∀ bufPtr, pc.loaded = some bufPtr → bufPtr = state.inner.buffer) :
    Reclaim ({ state with inner := inner }.setThief thief pc) := by
  obtain ⟨top, same⟩ := frame
  have readable : state.owner.readable inner = state.owner.readable state.inner := by
    rw [same]
    cases state.owner with
    | resizing resize resizePc after => cases resizePc <;> rfl
    | _ => rfl
  refine
    { accounted := ?_
      placed := ?_
      counter := ?_
      loaded := ?_ }
  · change inner.accounted state.owner.held = Multiset.range inner.allocated
    rw [same]
    exact reclaim.accounted
  · have placed := reclaim.placed
    change state.owner.Placed inner
    rw [same]
    cases owner : state.owner with
    | resizing resize resizePc after =>
        rw [owner] at placed
        cases resizePc <;> exact placed
    | _ =>
        rw [owner] at placed
        exact placed
  · have before := reclaim.counter
    have moved := sum_update_add (fun pc : ThiefPc α => share pc.inCritical) state.thief
      thief pc
    change inner.inFlight = share state.owner.inCritical +
      ∑ other, share (Function.update state.thief thief pc other).inCritical
    omega
  · intro other bufPtr holds
    change bufPtr ∈ state.owner.readable inner
    rw [readable]
    change (Function.update state.thief thief pc other).loaded = some bufPtr at holds
    by_cases mine : other = thief
    · subst mine
      rw [Function.update_self] at holds
      rw [loaded bufPtr holds]
      exact OwnerPc.buffer_mem_readable state.inner state.owner
    · rw [Function.update_of_ne mine] at holds
      exact reclaim.loaded other bufPtr holds

theorem ThiefPc.afterOutcome_inCritical (outcome : Outcome α) :
    (ThiefPc.afterOutcome outcome).inCritical = outcome.inCritical := by
  cases outcome <;> rfl

theorem ThiefPc.afterOutcome_loaded (outcome : Outcome α) :
    (ThiefPc.afterOutcome outcome).loaded = outcome.loaded := by
  cases outcome <;> rfl

end WsDeque.ChaseLev
