import WsDeque.Idempotent.Model

/-
What the arrays hold: no cell has anything but the task put at its position, the
active array has all of them, and a bounded queue never gets a second array.
-/

namespace WsDeque.Idempotent

variable {ι α : Type*}

def Access.task : Access α → Option α
  | .storeTask task => some task
  | _ => none

def published : Label ι α → Option α
  | .owner access => access.task
  | _ => none

/-- The tasks put so far; the store of the box is what puts one. -/
def puts (labels : List (Label ι α)) : List α :=
  labels.filterMap published

theorem puts_snoc (labels : List (Label ι α)) (label : Label ι α) :
    puts (labels ++ [label]) = puts labels ++ (published label).toList := by
  unfold puts
  rw [List.filterMap_append]
  cases given : published label <;> simp [given]

/-! ### The cells -/

/-- The arrays without their claim flags. -/
structure Shelf (α : Type*) where
  tasks : TasksPtr
  allocated : Nat
  cells : TasksPtr → Nat → Option α
  len : TasksPtr → Nat

def Inner.shelf (inner : Inner α) : Shelf α :=
  { tasks := inner.tasks
    allocated := inner.allocated
    cells := fun arr => (inner.arrays arr).cells
    len := fun arr => (inner.arrays arr).len }

def Shelf.setCell (shelf : Shelf α) (arr : TasksPtr) (index : Nat) (boxed : Option α) :
    Shelf α :=
  { shelf with
    cells := Function.update shelf.cells arr (Function.update (shelf.cells arr) index boxed) }

def Shelf.alloc (shelf : Shelf α) (len : Nat) : Shelf α :=
  { shelf with
    allocated := shelf.allocated + 1
    cells := Function.update shelf.cells shelf.allocated fun _ => none
    len := Function.update shelf.len shelf.allocated len }

theorem Inner.shelf_setCell (inner : Inner α) (arr : TasksPtr) (index : Nat)
    (boxed : Option α) :
    (inner.setCell arr index boxed).shelf = inner.shelf.setCell arr index boxed := by
  have cells : (fun other => ((inner.setCell arr index boxed).arrays other).cells) =
      (inner.shelf.setCell arr index boxed).cells := by
    funext other
    by_cases same : other = arr
    · subst same
      simp only [Inner.setCell, Shelf.setCell, Inner.shelf, Function.update_self]
    · simp only [Inner.setCell, Shelf.setCell, Inner.shelf, Function.update_of_ne same]
  have len : (fun other => ((inner.setCell arr index boxed).arrays other).len) =
      inner.shelf.len := by
    funext other
    by_cases same : other = arr
    · subst same
      simp only [Inner.setCell, Inner.shelf, Function.update_self]
    · simp only [Inner.setCell, Inner.shelf, Function.update_of_ne same]
  unfold Inner.shelf at cells len ⊢
  simp only [cells, len]
  rfl

theorem Inner.shelf_claim (inner : Inner α) (arr : TasksPtr) (index : Nat) :
    (inner.claim arr index).shelf = inner.shelf := by
  have cells : (fun other => ((inner.claim arr index).arrays other).cells) =
      inner.shelf.cells := by
    funext other
    by_cases same : other = arr
    · subst same
      simp only [Inner.claim, Inner.shelf, Function.update_self]
    · simp only [Inner.claim, Inner.shelf, Function.update_of_ne same]
  have len : (fun other => ((inner.claim arr index).arrays other).len) = inner.shelf.len := by
    funext other
    by_cases same : other = arr
    · subst same
      simp only [Inner.claim, Inner.shelf, Function.update_self]
    · simp only [Inner.claim, Inner.shelf, Function.update_of_ne same]
  unfold Inner.shelf at cells len ⊢
  simp only [cells, len]
  rfl

theorem shelf_grow (inner : Inner α) (task : α) (old : TasksPtr) :
    (grow inner task old).1.shelf = inner.shelf.alloc (inner.shelf.len old * 2) := by
  have cells : (fun other => ((grow inner task old).1.arrays other).cells) =
      (inner.shelf.alloc (inner.shelf.len old * 2)).cells := by
    funext other
    by_cases same : other = inner.allocated
    · subst same
      simp only [grow, Shelf.alloc, Inner.shelf, Function.update_self, Tasks.withLen]
    · simp only [grow, Shelf.alloc, Inner.shelf, Function.update_of_ne same]
  have len : (fun other => ((grow inner task old).1.arrays other).len) =
      (inner.shelf.alloc (inner.shelf.len old * 2)).len := by
    funext other
    by_cases same : other = inner.allocated
    · subst same
      simp only [grow, Shelf.alloc, Inner.shelf, Function.update_self, Tasks.withLen]
    · simp only [grow, Shelf.alloc, Inner.shelf, Function.update_of_ne same]
  unfold Inner.shelf at cells len ⊢
  simp only [cells, len]
  rfl

theorem Shelf.cells_setCell (shelf : Shelf α) (arr other : TasksPtr) (index position : Nat)
    (boxed : Option α) :
    (shelf.setCell arr index boxed).cells other position =
      if other = arr ∧ position = index then boxed else shelf.cells other position := by
  by_cases same : other = arr
  · subst same
    by_cases here : position = index
    · subst here
      simp only [Shelf.setCell, Function.update_self, and_self, if_true]
    · simp only [Shelf.setCell, Function.update_self, Function.update_of_ne here, here,
        and_false, if_false]
  · simp only [Shelf.setCell, Function.update_of_ne same, same, false_and, if_false]

structure Shelf.Holds (shelf : Shelf α) (tasks : List α) (tail : Nat) : Prop where
  active : shelf.tasks < shelf.allocated
  sound : ∀ arr index task, shelf.cells arr index = some task → tasks[index]? = some task
  full : ∀ index, index < tasks.length → shelf.cells shelf.tasks index = tasks[index]?
  room : tail + 1 ≤ shelf.len shelf.tasks

variable {shelf : Shelf α} {tasks : List α} {tail : Nat}

theorem Shelf.Holds.put (holds : shelf.Holds tasks tail) (atTail : tasks.length = tail)
    (task : α) : (shelf.setCell shelf.tasks tail (some task)).Holds (tasks ++ [task]) tail := by
  subst atTail
  constructor
  · exact holds.active
  · intro arr index other there
    rw [Shelf.cells_setCell] at there
    split at there
    · rename_i here
      rw [here.2, List.getElem?_append_right (Nat.le_refl _), Nat.sub_self]
      exact there
    · have before := holds.sound _ _ _ there
      rw [List.getElem?_append_left (List.getElem?_eq_some_iff.mp before).1]
      exact before
  · intro index within
    simp only [Shelf.setCell, Function.update_self]
    rw [List.length_append, List.length_singleton] at within
    rcases Nat.lt_succ_iff_lt_or_eq.mp within with earlier | rfl
    · rw [Function.update_of_ne (Nat.ne_of_lt earlier), List.getElem?_append_left earlier]
      exact holds.full index earlier
    · rw [Function.update_self, List.getElem?_append_right (Nat.le_refl _), Nat.sub_self]
      rfl
  · exact holds.room

/-- The null cell behind the last task. -/
theorem Shelf.Holds.null (holds : shelf.Holds tasks tail) (behind : tasks.length = tail + 1)
    (more : tail + 1 < shelf.len shelf.tasks) :
    (shelf.setCell shelf.tasks (tail + 1) none).Holds tasks (tail + 1) := by
  constructor
  · exact holds.active
  · intro arr index other there
    rw [Shelf.cells_setCell] at there
    split at there
    · cases there
    · exact holds.sound _ _ _ there
  · intro index within
    simp only [Shelf.setCell, Function.update_self]
    rw [Function.update_of_ne (by omega)]
    exact holds.full index within
  · exact more

theorem Shelf.Holds.alloc (holds : shelf.Holds tasks tail) (len : Nat) :
    (shelf.alloc len).Holds tasks tail := by
  have different : shelf.tasks ≠ shelf.allocated := Nat.ne_of_lt holds.active
  constructor
  · exact Nat.lt_succ_of_lt holds.active
  · intro arr index other there
    simp only [Shelf.alloc, Function.update_apply] at there
    split at there
    · cases there
    · exact holds.sound _ _ _ there
  · intro index within
    simp only [Shelf.alloc, Function.update_of_ne different]
    exact holds.full index within
  · simp only [Shelf.alloc, Function.update_of_ne different]
    exact holds.room

/-! ### A growth -/

structure Growing (shelf : Shelf α) (growth : Growth α) (i : Nat) : Prop where
  old : growth.old = shelf.tasks
  fresh : growth.bigger ≠ shelf.tasks
  allocated : growth.bigger < shelf.allocated
  doubled : shelf.len growth.bigger = shelf.len shelf.tasks * 2
  copied : ∀ index, index < i → shelf.cells growth.bigger index = shelf.cells shelf.tasks index

variable {growth : Growth α} {i : Nat}

theorem Growing.start (holds : shelf.Holds tasks tail) (task : α) :
    Growing (shelf.alloc (shelf.len shelf.tasks * 2))
      { task := task
        old := shelf.tasks
        bigger := shelf.allocated } 0 := by
  have different : shelf.tasks ≠ shelf.allocated := Nat.ne_of_lt holds.active
  constructor
  · rfl
  · exact different.symm
  · exact Nat.lt_succ_self _
  · simp only [Shelf.alloc, Function.update_self, Function.update_of_ne different]
  · exact fun _index impossible => absurd impossible (Nat.not_lt_zero _)

theorem Growing.copy (growing : Growing shelf growth i) :
    Growing (shelf.setCell growth.bigger i (shelf.cells growth.old i)) growth (i + 1) := by
  constructor
  · exact growing.old
  · exact growing.fresh
  · exact growing.allocated
  · exact growing.doubled
  · intro index within
    simp only [Shelf.setCell, Function.update_self, Function.update_of_ne growing.fresh.symm]
    rcases Nat.lt_succ_iff_lt_or_eq.mp within with earlier | rfl
    · rw [Function.update_of_ne (Nat.ne_of_lt earlier)]
      exact growing.copied index earlier
    · rw [Function.update_self, growing.old]

theorem Shelf.Holds.copy (holds : shelf.Holds tasks tail) (growing : Growing shelf growth i) :
    (shelf.setCell growth.bigger i (shelf.cells growth.old i)).Holds tasks tail := by
  constructor
  · exact holds.active
  · intro arr index other there
    rw [Shelf.cells_setCell] at there
    split at there
    · rename_i here
      rw [here.2]
      exact holds.sound _ _ _ there
    · exact holds.sound _ _ _ there
  · intro index within
    simp only [Shelf.setCell, Function.update_of_ne growing.fresh.symm]
    exact holds.full index within
  · exact holds.room

theorem Shelf.Holds.publish (holds : shelf.Holds tasks tail)
    (growing : Growing shelf growth (shelf.len shelf.tasks)) (atTail : tasks.length = tail) :
    ({ shelf with tasks := growth.bigger } : Shelf α).Holds tasks tail := by
  have room := holds.room
  constructor
  · exact growing.allocated
  · exact holds.sound
  · intro index within
    change shelf.cells growth.bigger index = _
    rw [growing.copied index (by omega)]
    exact holds.full index within
  · change tail + 1 ≤ shelf.len growth.bigger
    rw [growing.doubled]
    omega

/-! ### Who is where -/

/-- What the owner knows at its control point. -/
def OwnerPc.Meets (shape : Shape) (shelf : Shelf α) (tasks : List α) (tail : Nat) :
    OwnerPc α → Prop
  | .putLoadTasks _ => tasks.length = tail ∧ shape.isFull tail = false
  | .growLoad growth i =>
      tasks.length = tail ∧ shape.isBounded = false ∧ Growing shelf growth i ∧
        i < shelf.len growth.old
  | .growStore growth i p =>
      tasks.length = tail ∧ shape.isBounded = false ∧ Growing shelf growth i ∧
        i < shelf.len growth.old ∧ p = shelf.cells growth.old i
  | .growPublish growth =>
      tasks.length = tail ∧ shape.isBounded = false ∧
        Growing shelf growth (shelf.len shelf.tasks)
  | .retireLoad growth | .retireCas growth _ =>
      tasks.length = tail ∧ growth.bigger = shelf.tasks ∧ tail + 1 < shelf.len shelf.tasks
  | .putStoreTask _ arr =>
      tasks.length = tail ∧ arr = shelf.tasks ∧ tail + 1 < shelf.len shelf.tasks
  | .putStoreNull arr =>
      tasks.length = tail + 1 ∧ arr = shelf.tasks ∧ tail + 1 < shelf.len shelf.tasks
  | .takeLoadTasks head => tasks.length = tail ∧ head < tail
  | .takeLoadCell head arr => tasks.length = tail ∧ head < tail ∧ arr = shelf.tasks
  | .idle | .takeLoadHead | .takeMaxHead _ _ | .returned _ => tasks.length = tail
  | .panicked => False

/-- What a thief knows; only an exclusive one minds which array it reads. -/
def ThiefPc.Meets (shape : Shape) (tasks : List α) (method : Method) : ThiefPc α → Prop
  | .loadHead | .loadTasks _ => method = .stealExclusive → shape.isBounded = true
  | .loadCell _ arr => method = .stealExclusive → shape.isBounded = true ∧ arr = 0
  | .claim head arr task =>
      method = .stealExclusive ∧ shape.isBounded = true ∧ arr = 0 ∧ tasks[head]? = some task
  | .maxHead _ _ => method ≠ .stealWeak
  | .nudgeHead _ => method = .stealExclusive
  | .reloadHead _ _ | .storeHead _ _ => method = .stealWeak
  | .idle | .returned _ _ | .panicked => True

/-- The arrays and the owner together. -/
structure Stocked (shape : Shape) (tasks : List α) (inner : Inner α) (tail : Nat)
    (owner : OwnerPc α) : Prop where
  holds : inner.shelf.Holds tasks tail
  single : shape.isBounded = true → inner.shelf.tasks = 0 ∧ inner.shelf.len 0 = shape.len
  owner : owner.Meets shape inner.shelf tasks tail

structure Stored (shape : Shape) (method : ι → Method) (tasks : List α) (state : State ι α) :
    Prop where
  stocked : Stocked shape tasks state.inner state.tail state.owner
  thief : ∀ thief, (state.thief thief).Meets shape tasks (method thief)

/-! ### The owner's steps -/

variable {shape : Shape} {inner after : Inner α} {tail' : Nat} {pc pc' : OwnerPc α}
  {access : Access α} {spurious : Bool}

theorem Stocked.move (stocked : Stocked shape tasks inner tail pc)
    (meets : pc'.Meets shape inner.shelf tasks tail) : Stocked shape tasks inner tail pc' :=
  { stocked with owner := meets }

/-- Whatever a step changes, the cells stay as they are. -/
theorem Stocked.reshelve (stocked : Stocked shape tasks inner tail pc) (after : Inner α)
    (same : after.shelf = inner.shelf) : Stocked shape tasks after tail pc := by
  constructor
  · rw [same]
    exact stocked.holds
  · rw [same]
    exact stocked.single
  · rw [same]
    exact stocked.owner

theorem Shape.not_full {shape : Shape} (bounded : shape.isBounded = true)
    (space : shape.isFull tail = false) : tail + 1 < shape.len := by
  cases shape with
  | growable => cases bounded
  | bounded capacity =>
      simp only [Shape.isFull, decide_eq_false_iff_not, Nat.not_le] at space
      simp only [Shape.len]
      omega

theorem growFrom_meets (atTail : tasks.length = tail) (unbounded : shape.isBounded = false)
    (growing : Growing shelf growth i) (length : inner.shelf.len growth.old = shelf.len growth.old)
    (within : i ≤ shelf.len growth.old) :
    (growFrom inner growth i).Meets shape shelf tasks tail := by
  unfold growFrom
  split
  · rename_i more
    change i < inner.shelf.len growth.old at more
    rw [length] at more
    exact ⟨atTail, unbounded, growing, more⟩
  · rename_i done
    change ¬i < inner.shelf.len growth.old at done
    have all : i = shelf.len growth.old := by omega
    rw [all, growing.old] at growing
    exact ⟨atTail, unbounded, growing⟩

theorem Stocked.grow (stocked : Stocked shape tasks inner tail pc) (task : α)
    (atTail : tasks.length = tail) (unbounded : shape.isBounded = false) :
    Stocked shape tasks (grow inner task inner.tasks).1 tail (grow inner task inner.tasks).2 := by
  have shelf := shelf_grow inner task inner.tasks
  constructor
  · rw [shelf]
    exact stocked.holds.alloc _
  · rw [unbounded]
    exact fun impossible => nomatch impossible
  · apply growFrom_meets atTail unbounded _ rfl (Nat.zero_le _)
    rw [shelf]
    exact .start stocked.holds task

theorem Stocked.step (stocked : Stocked shape tasks inner tail pc)
    (moved : ownerStep inner tail spurious pc = some (access, after, tail', pc')) :
    Stocked shape (tasks ++ access.task.toList) after tail' pc' := by
  have meets := stocked.owner
  cases pc with
  | idle => cases moved
  | returned result => cases moved
  | panicked => cases moved
  | putLoadTasks task =>
      obtain ⟨atTail, space⟩ := meets
      simp only [ownerStep] at moved
      split at moved
      · rename_i outOfRoom
        have unbounded : shape.isBounded = false := by
          cases bounded : shape.isBounded with
          | false => rfl
          | true =>
              obtain ⟨first, length⟩ := stocked.single bounded
              change inner.shelf.len inner.shelf.tasks ≤ tail + 1 at outOfRoom
              rw [first, length] at outOfRoom
              exact absurd (Shape.not_full bounded space) (Nat.not_lt.mpr outOfRoom)
        cases moved
        simp only [Access.task, Option.toList_none, List.append_nil]
        exact stocked.grow task atTail unbounded
      · rename_i room
        cases moved
        simp only [Access.task, Option.toList_none, List.append_nil]
        exact stocked.move ⟨atTail, rfl, Nat.not_le.mp room⟩
  | growLoad growth i =>
      obtain ⟨atTail, unbounded, growing, within⟩ := meets
      cases moved
      simp only [Access.task, Option.toList_none, List.append_nil]
      exact stocked.move ⟨atTail, unbounded, growing, within, rfl⟩
  | growStore growth i p =>
      obtain ⟨atTail, unbounded, growing, within, rfl⟩ := meets
      cases moved
      simp only [Access.task, Option.toList_none, List.append_nil]
      have shelf := inner.shelf_setCell growth.bigger i (inner.shelf.cells growth.old i)
      constructor
      · rw [shelf]
        exact stocked.holds.copy growing
      · rw [unbounded]
        exact fun impossible => nomatch impossible
      · rw [shelf]
        exact growFrom_meets atTail unbounded growing.copy rfl within
  | growPublish growth =>
      obtain ⟨atTail, unbounded, growing⟩ := meets
      cases moved
      simp only [Access.task, Option.toList_none, List.append_nil]
      constructor
      · exact stocked.holds.publish growing atTail
      · rw [unbounded]
        exact fun impossible => nomatch impossible
      · refine ⟨atTail, rfl, ?_⟩
        have room := stocked.holds.room
        have doubled := growing.doubled
        change tail + 1 < inner.shelf.len growth.bigger
        omega
  | retireLoad growth =>
      cases moved
      simp only [Access.task, Option.toList_none, List.append_nil]
      exact stocked.move meets
  | retireCas growth head =>
      simp only [ownerStep] at moved
      split at moved
      · cases moved
        simp only [Access.task, Option.toList_none, List.append_nil]
        exact (stocked.reshelve { inner with retired := growth.old :: head } rfl).move meets
      · cases moved
        simp only [Access.task, Option.toList_none, List.append_nil]
        exact stocked.move meets
  | putStoreTask task arr =>
      obtain ⟨atTail, rfl, room⟩ := meets
      have inRange : tail < (inner.arrays inner.shelf.tasks).len := Nat.lt_of_succ_lt room
      simp only [ownerStep, if_pos inRange] at moved
      cases moved
      have shelf := inner.shelf_setCell inner.shelf.tasks tail (some task)
      constructor
      · rw [shelf]
        exact stocked.holds.put atTail task
      · rw [shelf]
        exact stocked.single
      · rw [shelf]
        refine ⟨?_, rfl, room⟩
        rw [Access.task, Option.toList_some, List.length_append, List.length_singleton, atTail]
  | putStoreNull arr =>
      obtain ⟨behind, rfl, room⟩ := meets
      have inRange : tail + 1 < (inner.arrays inner.shelf.tasks).len := room
      simp only [ownerStep, if_pos inRange] at moved
      cases moved
      simp only [Access.task, Option.toList_none, List.append_nil]
      have shelf := inner.shelf_setCell inner.shelf.tasks (tail + 1) none
      constructor
      · rw [shelf]
        exact stocked.holds.null behind room
      · rw [shelf]
        exact stocked.single
      · exact behind
  | takeLoadHead =>
      cases moved
      simp only [Access.task, Option.toList_none, List.append_nil]
      apply stocked.move
      split
      · exact meets
      · rename_i more
        exact ⟨meets, Nat.not_le.mp more⟩
  | takeLoadTasks head =>
      cases moved
      simp only [Access.task, Option.toList_none, List.append_nil]
      exact stocked.move ⟨meets.1, meets.2, rfl⟩
  | takeLoadCell head arr =>
      obtain ⟨atTail, below, rfl⟩ := meets
      have inRange : head < (inner.arrays inner.shelf.tasks).len := by
        have room := stocked.holds.room
        change head < inner.shelf.len inner.shelf.tasks
        omega
      simp only [ownerStep, if_pos inRange] at moved
      cases moved
      simp only [Access.task, Option.toList_none, List.append_nil]
      apply stocked.move
      split <;> exact atTail
  | takeMaxHead head task =>
      cases moved
      simp only [Access.task, Option.toList_none, List.append_nil]
      exact (stocked.reshelve (inner.maxHead (head + 1)) rfl).move meets

/-! ### The thieves' steps -/

variable {method : ι → Method} {how : Method} {r r' : Nat} {thiefPc thiefPc' : ThiefPc α}

theorem thiefStep_shelf
    (moved : thiefStep how inner r thiefPc = some (access, after, r', thiefPc')) :
    after.shelf = inner.shelf := by
  cases thiefPc with
  | idle => cases moved
  | returned head result => cases moved
  | panicked => cases moved
  | loadHead => cases how <;> cases moved <;> rfl
  | claim head arr task =>
      simp only [thiefStep] at moved
      split at moved
      · cases moved
        exact inner.shelf_claim arr head
      · cases moved
        rfl
  | reloadHead head task =>
      simp only [thiefStep] at moved
      split at moved <;> cases moved <;> rfl
  | _ =>
      cases moved
      rfl

theorem ThiefPc.Meets.append (meets : thiefPc.Meets shape tasks how) (more : List α) :
    thiefPc.Meets shape (tasks ++ more) how := by
  cases thiefPc with
  | claim head arr task =>
      obtain ⟨exclusive, bounded, first, there⟩ := meets
      refine ⟨exclusive, bounded, first, ?_⟩
      rw [List.getElem?_append_left (List.getElem?_eq_some_iff.mp there).1]
      exact there
  | _ => exact meets

theorem thiefStep_meets (stocked : Stocked shape tasks inner tail pc)
    (meets : thiefPc.Meets shape tasks how)
    (moved : thiefStep how inner r thiefPc = some (access, after, r', thiefPc')) :
    thiefPc'.Meets shape tasks how := by
  cases thiefPc with
  | idle => cases moved
  | returned head result => cases moved
  | panicked => cases moved
  | loadHead => cases how <;> cases moved <;> exact meets
  | loadTasks head =>
      cases moved
      exact fun exclusive => ⟨meets exclusive, (stocked.single (meets exclusive)).1⟩
  | loadCell head arr =>
      cases moved
      split
      · split
        · trivial
        · rename_i task there
          have put := stocked.holds.sound arr head task there
          cases how with
          | steal => exact nofun
          | stealWeak => rfl
          | stealExclusive => exact ⟨rfl, (meets rfl).1, (meets rfl).2, put⟩
      · trivial
  | claim head arr task =>
      simp only [thiefStep] at moved
      split at moved
      · cases moved
        rw [meets.1]
        exact nofun
      · cases moved
        exact meets.1
  | maxHead head task =>
      cases moved
      trivial
  | nudgeHead head =>
      cases moved
      trivial
  | reloadHead head task =>
      simp only [thiefStep] at moved
      split at moved
      · cases moved
        exact meets
      · cases moved
        trivial
  | storeHead head task =>
      cases moved
      trivial

/-! ### Whole runs -/

variable {state state' : State ι α} {label : Label ι α} {choice : Choice ι α} [DecidableEq ι]

theorem Stored.setThief (stored : Stored shape method tasks state) {thief : ι} (r : Nat)
    (meets : thiefPc.Meets shape tasks (method thief)) :
    Stored shape method tasks (state.setThief thief r thiefPc) := by
  constructor
  · exact stored.stocked
  · intro other
    by_cases same : other = thief
    · subst same
      simp only [State.setThief, Function.update_self]
      exact meets
    · simp only [State.setThief, Function.update_of_ne same]
      exact stored.thief other

/-- What one step of the deque can be. -/
inductive NextMoves (shape : Shape) (method : ι → Method) (before : State ι α) :
    Label ι α → State ι α → Prop
  | putCall (task : α) (atPc : before.owner = .idle) :
      NextMoves shape method before (.putCall task)
        { before with
          owner :=
            if shape.isFull before.tail then .returned (.put false) else .putLoadTasks task }
  | takeCall (atPc : before.owner = .idle) :
      NextMoves shape method before .takeCall { before with owner := .takeLoadHead }
  | owner (spurious : Bool) (access : Access α) (inner : Inner α) (tail : Nat) (pc : OwnerPc α)
      (stepped : ownerStep before.inner before.tail spurious before.owner =
        some (access, inner, tail, pc)) :
      NextMoves shape method before (.owner access)
        { before with
          inner := inner
          tail := tail
          owner := pc }
  | ownerReturn (result : OwnerResult α) (atPc : before.owner = .returned result) :
      NextMoves shape method before (.ownerReturn result) { before with owner := .idle }
  | stealCall (thief : ι) (atPc : before.thief thief = .idle) :
      NextMoves shape method before (.stealCall thief)
        (before.setThief thief (before.r thief)
          (if method thief = .stealExclusive ∧ shape.isBounded = false then .panicked
            else .loadHead))
  | thief (thief : ι) (access : Access α) (inner : Inner α) (r : Nat) (pc : ThiefPc α)
      (stepped : thiefStep (method thief) before.inner (before.r thief) (before.thief thief) =
        some (access, inner, r, pc)) :
      NextMoves shape method before (.thief thief access)
        ({ before with inner := inner }.setThief thief r pc)
  | stealReturn (thief : ι) (head : Nat) (result : Take α)
      (atPc : before.thief thief = .returned head result) :
      NextMoves shape method before (.stealReturn thief head result)
        (before.setThief thief (before.r thief) .idle)

theorem next_moves (taken : next shape method state choice = some (label, state')) :
    NextMoves shape method state label state' := by
  cases choice with
  | putCall task =>
      simp only [next] at taken
      split at taken <;> cases taken
      rename_i atPc
      exact .putCall task atPc
  | takeCall =>
      simp only [next] at taken
      split at taken <;> cases taken
      rename_i atPc
      exact .takeCall atPc
  | owner spurious =>
      obtain ⟨moved, stepped, same⟩ := Option.map_eq_some_iff.mp taken
      cases same
      exact .owner spurious _ _ _ _ stepped
  | ownerReturn =>
      simp only [next] at taken
      split at taken <;> cases taken
      rename_i result atPc
      exact .ownerReturn result atPc
  | stealCall thief =>
      simp only [next] at taken
      split at taken <;> cases taken
      rename_i atPc
      exact .stealCall thief atPc
  | thief thief =>
      obtain ⟨moved, stepped, same⟩ := Option.map_eq_some_iff.mp taken
      cases same
      exact .thief thief _ _ _ _ stepped
  | stealReturn thief =>
      simp only [next] at taken
      split at taken <;> cases taken
      rename_i head result atPc
      exact .stealReturn thief head result atPc

theorem Stored.step (stored : Stored shape method tasks state)
    (moved : next shape method state choice = some (label, state')) :
    Stored shape method (tasks ++ (published label).toList) state' := by
  have meets := stored.stocked.owner
  cases next_moves moved with
  | putCall task atPc =>
      rw [atPc] at meets
      simp only [published, Option.toList_none, List.append_nil]
      refine { stocked := stored.stocked.move ?_, thief := stored.thief }
      cases full : shape.isFull state.tail with
      | true => exact meets
      | false => exact ⟨meets, full⟩
  | takeCall atPc =>
      rw [atPc] at meets
      simp only [published, Option.toList_none, List.append_nil]
      exact { stocked := stored.stocked.move meets, thief := stored.thief }
  | owner spurious access inner tail pc stepped =>
      exact
        { stocked := stored.stocked.step stepped
          thief := fun thief => (stored.thief thief).append _ }
  | ownerReturn result atPc =>
      rw [atPc] at meets
      simp only [published, Option.toList_none, List.append_nil]
      exact { stocked := stored.stocked.move meets, thief := stored.thief }
  | stealCall thief atPc =>
      simp only [published, Option.toList_none, List.append_nil]
      apply stored.setThief
      split
      · trivial
      · rename_i allowed
        intro exclusive
        cases bounded : shape.isBounded with
        | true => rfl
        | false => exact absurd ⟨exclusive, bounded⟩ allowed
  | thief thief access inner r pc stepped =>
      simp only [published, Option.toList_none, List.append_nil]
      have reshelved : Stored shape method tasks { state with inner := inner } :=
        { stocked := stored.stocked.reshelve inner (thiefStep_shelf stepped)
          thief := stored.thief }
      exact reshelved.setThief r (thiefStep_meets stored.stocked (stored.thief thief) stepped)
  | stealReturn thief head result atPc =>
      simp only [published, Option.toList_none, List.append_nil]
      exact stored.setThief _ trivial

omit [DecidableEq ι] in
theorem stored_make (shape : Shape) (method : ι → Method) :
    Stored shape method [] (make ι α shape) := by
  constructor
  · constructor
    · constructor
      · exact Nat.zero_lt_one
      · exact fun _arr _index _task impossible => nomatch impossible
      · exact fun _index impossible => absurd impossible (Nat.not_lt_zero _)
      · cases shape with
        | growable => exact (by decide : 0 + 1 ≤ initialCapacity)
        | bounded capacity => exact Nat.le_add_left 1 (capacity + 1)
    · exact fun _bounded => ⟨rfl, rfl⟩
    · rfl
  · exact fun _thief => trivial

end WsDeque.Idempotent
