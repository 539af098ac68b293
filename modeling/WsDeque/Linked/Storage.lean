import WsDeque.Linked.Model

/-
The list: which node holds which positions, and that every reader is at a node
that is already linked.
-/

namespace WsDeque.Linked

variable {ι α : Type*}

def Access.task : Access α → Option α
  | .storeTask task => some task
  | _ => none

def published : Label ι α → Option α
  | .owner access => access.task
  | _ => none

/-- The tasks put so far; the store of the box is what puts one. -/
def puts (labels : List (Label ι α)) : List α :=
  labels.filterMap published

theorem puts_snoc (labels : List (Label ι α)) (label : Label ι α) :
    puts (labels ++ [label]) = puts labels ++ (published label).toList := by
  unfold puts
  rw [List.filterMap_append]
  cases given : published label <;> simp [given]

/-! ### The linked nodes -/

/-- The nodes up to the owner's one, which is the last that `next` leads to. -/
structure Nodes (inner : Inner α) (tailNode : Nat) (tasks : List α) : Prop where
  first : inner.first = 0
  allocated : tailNode < inner.allocated
  base : ∀ node : Nat, node ≤ tailNode → (inner.nodes node).base = node * nodeSize
  linked : ∀ node : Nat, node < tailNode → (inner.nodes node).next = some (node + 1)
  cells : ∀ node : Nat, node ≤ tailNode → ∀ offset, offset < nodeSize →
    (inner.nodes node).cells offset = tasks[node * nodeSize + offset]?
  published : inner.tail ≤ tasks.length
  room : inner.tail ≤ (tailNode + 1) * nodeSize

variable {inner : Inner α} {tailNode : Nat} {tasks : List α} {tail offset : Nat}

theorem Nodes.put (nodes : Nodes inner tailNode tasks) (within : offset < nodeSize)
    (atTail : tasks.length = tailNode * nodeSize + offset) (task : α) :
    Nodes (inner.setCell tailNode offset task) tailNode (tasks ++ [task]) := by
  have base : ∀ node, ((inner.setCell tailNode offset task).nodes node).base =
      (inner.nodes node).base := by
    intro node
    by_cases same : node = tailNode
    · subst same
      simp only [Inner.setCell, Function.update_self]
    · simp only [Inner.setCell, Function.update_of_ne same]
  have next : ∀ node, ((inner.setCell tailNode offset task).nodes node).next =
      (inner.nodes node).next := by
    intro node
    by_cases same : node = tailNode
    · subst same
      simp only [Inner.setCell, Function.update_self]
    · simp only [Inner.setCell, Function.update_of_ne same]
  constructor
  · exact nodes.first
  · exact nodes.allocated
  · intro node upTo
    rw [base]
    exact nodes.base node upTo
  · intro node before
    rw [next]
    exact nodes.linked node before
  · intro node upTo other otherWithin
    have old := nodes.cells node upTo other otherWithin
    rw [List.getElem?_append, atTail]
    unfold nodeSize at *
    by_cases same : node = tailNode
    · subst same
      simp only [Inner.setCell, Function.update_self]
      by_cases here : other = offset
      · subst here
        rw [Function.update_self, if_neg (Nat.lt_irrefl _), Nat.sub_self]
        rfl
      · rw [Function.update_of_ne here, old]
        by_cases earlier : other < offset
        · rw [if_pos (by omega)]
        · rw [if_neg (by omega)]
          have beyond : tasks[node * 64 + other]? = none :=
            List.getElem?_eq_none_iff.mpr (by omega)
          rw [beyond, List.getElem?_singleton, if_neg (by omega)]
    · simp only [Inner.setCell, Function.update_of_ne same]
      rw [old, if_pos (by omega)]
  · rw [List.length_append]
    exact Nat.le_trans nodes.published (Nat.le_add_right _ _)
  · exact nodes.room

theorem Nodes.storeTail (nodes : Nodes inner tailNode tasks) (atTail : tasks.length = tail)
    (room : tail ≤ (tailNode + 1) * nodeSize) :
    Nodes { inner with tail := tail } tailNode tasks :=
  { nodes with
    published := Nat.le_of_eq atTail.symm
    room := room }

/-- A fresh node is not yet on the list. -/
theorem Nodes.alloc (nodes : Nodes inner tailNode tasks) (base : Nat) :
    Nodes (inner.alloc base) tailNode tasks := by
  have old : ∀ node, node ≤ tailNode → (inner.alloc base).nodes node = inner.nodes node := by
    intro node upTo
    have different : node ≠ inner.allocated :=
      Nat.ne_of_lt (Nat.lt_of_le_of_lt upTo nodes.allocated)
    exact Function.update_of_ne different ..
  constructor
  · exact nodes.first
  · exact Nat.lt_succ_of_lt nodes.allocated
  · intro node upTo
    rw [old node upTo]
    exact nodes.base node upTo
  · intro node before
    rw [old node (Nat.le_of_lt before)]
    exact nodes.linked node before
  · intro node upTo
    rw [old node upTo]
    exact nodes.cells node upTo
  · exact nodes.published
  · exact nodes.room

/-- The owner moves on to the node that it links. -/
theorem Nodes.link (nodes : Nodes inner tailNode tasks)
    (allocated : tailNode + 1 < inner.allocated)
    (fresh : inner.nodes (tailNode + 1) = .new α tail)
    (filled : tail = (tailNode + 1) * nodeSize) (atTail : tasks.length = tail) :
    Nodes (inner.setNext tailNode (tailNode + 1)) (tailNode + 1) tasks := by
  have next : (inner.setNext tailNode (tailNode + 1)).nodes (tailNode + 1) = .new α tail := by
    rw [← fresh]
    exact Function.update_of_ne (Nat.succ_ne_self tailNode) ..
  have base : ∀ node, ((inner.setNext tailNode (tailNode + 1)).nodes node).base =
      (inner.nodes node).base := by
    intro node
    by_cases same : node = tailNode
    · subst same
      simp only [Inner.setNext, Function.update_self]
    · simp only [Inner.setNext, Function.update_of_ne same]
  have cells : ∀ node, ((inner.setNext tailNode (tailNode + 1)).nodes node).cells =
      (inner.nodes node).cells := by
    intro node
    by_cases same : node = tailNode
    · subst same
      simp only [Inner.setNext, Function.update_self]
    · simp only [Inner.setNext, Function.update_of_ne same]
  constructor
  · exact nodes.first
  · exact allocated
  · intro node upTo
    rcases Nat.le_succ_iff.mp upTo with before | rfl
    · rw [base]
      exact nodes.base node before
    · rw [next]
      exact filled
  · intro node before
    rcases Nat.lt_succ_iff_lt_or_eq.mp before with earlier | rfl
    · have different : node ≠ tailNode := Nat.ne_of_lt earlier
      simp only [Inner.setNext, Function.update_of_ne different]
      exact nodes.linked node earlier
    · simp only [Inner.setNext, Function.update_self]
  · intro node upTo offset within
    rw [cells]
    rcases Nat.le_succ_iff.mp upTo with before | rfl
    · exact nodes.cells node before offset within
    · rw [fresh]
      have beyond : tasks.length ≤ (tailNode + 1) * nodeSize + offset := by
        rw [atTail, filled]
        exact Nat.le_add_right _ _
      exact (List.getElem?_eq_none_iff.mpr beyond).symm
  · exact nodes.published
  · exact Nat.le_trans nodes.room (Nat.mul_le_mul_right nodeSize (Nat.le_succ _))

/-- Before the published tail every node is linked to the next one. -/
theorem Nodes.next_of_lt (nodes : Nodes inner tailNode tasks) {node : Nat} {head : Nat}
    (behind : (node + 1) * nodeSize ≤ head) (below : head < inner.tail) :
    node + 1 ≤ tailNode ∧ (inner.nodes node).next = some (node + 1) := by
  have room := nodes.room
  unfold nodeSize at behind room
  have before : node < tailNode := by omega
  exact ⟨before, nodes.linked node before⟩

theorem Nodes.cell (nodes : Nodes inner tailNode tasks) {node : Nat} {head : Nat}
    (upTo : node ≤ tailNode) (above : node * nodeSize ≤ head)
    (within : head < (node + 1) * nodeSize) :
    (inner.nodes node).cells (head - node * nodeSize) = tasks[head]? := by
  rw [nodes.cells node upTo _ (by unfold nodeSize at *; omega)]
  congr 1
  omega

/-! ### Who is where -/

/-- Between two calls of the owner. -/
structure Ready (inner : Inner α) (tailNode : Nat) (tasks : List α) (tail : Nat) : Prop where
  atTail : tasks.length = tail
  stored : inner.tail = tail
  last : inner.allocated = tailNode + 1
  above : tailNode * nodeSize ≤ tail
  below : tail < (tailNode + 1) * nodeSize

/-- What the owner knows at its control point. -/
def OwnerPc.Meets (inner : Inner α) (tailNode : Nat) (tasks : List α) (tail : Nat) :
    OwnerPc α → Prop
  | .idle | .putStoreTask _ | .takeLoadHead | .takeLoadTail _ | .takeMaxHead _ _ | .returned _ =>
      Ready inner tailNode tasks tail
  | .putStoreTail offset =>
      tasks.length = tail ∧ inner.allocated = tailNode + 1 ∧ offset < nodeSize ∧
        tail = tailNode * nodeSize + offset + 1
  | .putStoreNext fresh =>
      tasks.length = tail ∧ inner.tail = tail ∧ fresh = tailNode + 1 ∧
        inner.allocated = tailNode + 2 ∧ tail = (tailNode + 1) * nodeSize ∧
          inner.nodes (tailNode + 1) = .new α tail
  | .slotLoadNext head node =>
      Ready inner tailNode tasks tail ∧ head < inner.tail ∧ node ≤ tailNode ∧
        (node + 1) * nodeSize ≤ head
  | .slotLoadCell head node =>
      Ready inner tailNode tasks tail ∧ head < inner.tail ∧ node ≤ tailNode ∧
        node * nodeSize ≤ head ∧ head < (node + 1) * nodeSize
  | .panicked | .nullNode => False

structure Cursor.Meets (inner : Inner α) (tailNode : Nat) (cursor : Cursor) : Prop where
  upTo : cursor.node ≤ tailNode
  base : cursor.base = cursor.node * nodeSize
  behind : cursor.base ≤ inner.head

/-- What a thief knows; the published tail is ahead of any position it walks to. -/
def ThiefPc.Meets (inner : Inner α) (cursor : Cursor) : ThiefPc α → Prop
  | .loadTail head => cursor.base ≤ head ∧ head ≤ inner.head
  | .loadNext head =>
      cursor.base + nodeSize ≤ head ∧ head ≤ inner.head ∧ head < inner.tail
  | .loadCell head =>
      cursor.base ≤ head ∧ head < cursor.base + nodeSize ∧ head < inner.tail
  | .absent | .idle | .loadHead | .maxHead _ _ | .returned _ _ => True
  | .panicked => False

structure Stocked (tasks : List α) (inner : Inner α) (tailNode tail : Nat) (owner : OwnerPc α) :
    Prop where
  nodes : Nodes inner tailNode tasks
  owner : owner.Meets inner tailNode tasks tail

structure Stored (tasks : List α) (state : State ι α) : Prop where
  stocked : Stocked tasks state.inner state.tailNode state.tail state.owner
  cursor : ∀ thief, (state.cursor thief).Meets state.inner state.tailNode
  thief : ∀ thief, (state.thief thief).Meets state.inner (state.cursor thief)

/-! ### The owner's steps -/

variable {after : Inner α} {tailNode' tail' : Nat} {pc pc' : OwnerPc α} {access : Access α}

theorem slotFrom_meets (nodes : Nodes inner tailNode tasks)
    (ready : Ready inner tailNode tasks tail) {node head : Nat} (upTo : node ≤ tailNode)
    (above : node * nodeSize ≤ head) (below : head < inner.tail) :
    (slotFrom inner head node).Meets inner tailNode tasks tail := by
  unfold slotFrom
  rw [nodes.base node upTo]
  have next : node * nodeSize + nodeSize = (node + 1) * nodeSize :=
    (Nat.succ_mul node nodeSize).symm
  rw [next]
  split
  · rename_i further
    exact ⟨ready, below, upTo, further⟩
  · rename_i here
    rw [if_neg (Nat.not_lt.mpr above)]
    exact ⟨ready, below, upTo, above, Nat.not_le.mp here⟩

theorem Stocked.head (stocked : Stocked tasks inner tailNode tail pc) (head : Nat) :
    Stocked tasks { inner with head := head } tailNode tail pc := by
  constructor
  · obtain ⟨first, allocated, base, linked, cells, published, room⟩ := stocked.nodes
    exact ⟨first, allocated, base, linked, cells, published, room⟩
  · have meets := stocked.owner
    have ready : Ready inner tailNode tasks tail →
        Ready { inner with head := head } tailNode tasks tail :=
      fun before => ⟨before.atTail, before.stored, before.last, before.above, before.below⟩
    cases pc with
    | putStoreTail offset => exact meets
    | putStoreNext fresh => exact meets
    | slotLoadNext head node => exact ⟨ready meets.1, meets.2⟩
    | slotLoadCell head node => exact ⟨ready meets.1, meets.2⟩
    | panicked => exact meets
    | nullNode => exact meets
    | _ => exact ready meets

theorem Stocked.move (stocked : Stocked tasks inner tailNode tail pc)
    (meets : pc'.Meets inner tailNode tasks tail) : Stocked tasks inner tailNode tail pc' :=
  { stocked with owner := meets }

theorem Stocked.step (stocked : Stocked tasks inner tailNode tail pc)
    (moved : ownerStep inner tailNode tail pc = some (access, after, tailNode', tail', pc')) :
    Stocked (tasks ++ access.task.toList) after tailNode' tail' pc' := by
  have meets := stocked.owner
  have nodes := stocked.nodes
  cases pc with
  | idle => cases moved
  | returned result => cases moved
  | panicked => cases moved
  | nullNode => cases moved
  | putStoreTask task =>
      have base := nodes.base tailNode (Nat.le_refl _)
      have above := meets.above
      have below := meets.below
      have within : tail - tailNode * nodeSize < nodeSize := by
        unfold nodeSize at *
        omega
      have inside : ¬(tail < (inner.nodes tailNode).base ∨
          nodeSize ≤ tail - (inner.nodes tailNode).base) := by
        rw [base]
        omega
      simp only [ownerStep, if_neg inside] at moved
      cases moved
      rw [base]
      constructor
      · apply nodes.put within
        rw [meets.atTail, Nat.add_sub_cancel' above]
      · refine ⟨?_, meets.last, within, ?_⟩
        · rw [Access.task, Option.toList_some, List.length_append, List.length_singleton,
            meets.atTail]
        · rw [Nat.add_sub_cancel' above]
  | putStoreTail offset =>
      obtain ⟨atTail, last, within, filled⟩ := meets
      have room : tail ≤ (tailNode + 1) * nodeSize := by
        unfold nodeSize at *
        omega
      simp only [ownerStep] at moved
      split at moved
      · rename_i full
        cases moved
        simp only [Access.task, Option.toList_none, List.append_nil]
        constructor
        · exact (nodes.storeTail atTail room).alloc tail
        · have address : inner.allocated + 1 = tailNode + 2 := by rw [last]
          refine ⟨atTail, rfl, last, address, ?_, ?_⟩
          · unfold nodeSize at *
            omega
          · rw [← last]
            exact Function.update_self ..
      · rename_i space
        cases moved
        simp only [Access.task, Option.toList_none, List.append_nil]
        constructor
        · exact nodes.storeTail atTail room
        · constructor
          · exact atTail
          · rfl
          · exact last
          · unfold nodeSize at *
            omega
          · unfold nodeSize at *
            omega
  | putStoreNext fresh =>
      obtain ⟨atTail, stored, rfl, allocated, filled, isNew⟩ := meets
      cases moved
      simp only [Access.task, Option.toList_none, List.append_nil]
      constructor
      · apply nodes.link _ isNew filled atTail
        rw [allocated]
        exact Nat.lt_succ_self _
      · constructor
        · exact atTail
        · exact stored
        · exact allocated
        · exact Nat.le_of_eq filled.symm
        · unfold nodeSize at *
          omega
  | takeLoadHead =>
      cases moved
      simp only [Access.task, Option.toList_none, List.append_nil]
      exact stocked.move meets
  | takeLoadTail head =>
      cases moved
      simp only [Access.task, Option.toList_none, List.append_nil]
      apply stocked.move
      split
      · exact meets
      · rename_i more
        rw [nodes.first]
        exact slotFrom_meets nodes meets (Nat.zero_le _) (by rw [Nat.zero_mul]; exact Nat.zero_le _)
          (Nat.not_le.mp more)
  | slotLoadNext head node =>
      obtain ⟨ready, below, upTo, further⟩ := meets
      obtain ⟨nextUpTo, next⟩ := nodes.next_of_lt further below
      simp only [ownerStep, next] at moved
      cases moved
      simp only [Access.task, Option.toList_none, List.append_nil]
      exact stocked.move (slotFrom_meets nodes ready nextUpTo further below)
  | slotLoadCell head node =>
      obtain ⟨ready, _rest⟩ := meets
      cases moved
      simp only [Access.task, Option.toList_none, List.append_nil]
      apply stocked.move
      split <;> exact ready
  | takeMaxHead head task =>
      cases moved
      simp only [Access.task, Option.toList_none, List.append_nil]
      have raised : Stocked tasks inner tailNode tail (.returned (.took head (.got task))) :=
        stocked.move meets
      exact raised.head (max inner.head (head + 1))

/-- The owner only adds to what the thieves rely on. -/
theorem Stocked.grows (stocked : Stocked tasks inner tailNode tail pc)
    (moved : ownerStep inner tailNode tail pc = some (access, after, tailNode', tail', pc')) :
    inner.head ≤ after.head ∧ inner.tail ≤ after.tail ∧ tailNode ≤ tailNode' := by
  have kept := And.intro (Nat.le_refl inner.head)
    (And.intro (Nat.le_refl inner.tail) (Nat.le_refl tailNode))
  cases pc with
  | idle => cases moved
  | returned result => cases moved
  | panicked => cases moved
  | nullNode => cases moved
  | putStoreTask task =>
      simp only [ownerStep] at moved
      split at moved <;> cases moved <;> exact kept
  | putStoreTail offset =>
      have raised : inner.tail ≤ tail := by
        rw [← stocked.owner.1]
        exact stocked.nodes.published
      simp only [ownerStep] at moved
      split at moved <;> cases moved <;> exact ⟨Nat.le_refl _, raised, Nat.le_refl _⟩
  | putStoreNext fresh =>
      have fresh := stocked.owner.2.2.1
      cases moved
      refine ⟨Nat.le_refl _, Nat.le_refl _, ?_⟩
      rw [fresh]
      exact Nat.le_succ tailNode
  | takeMaxHead head task =>
      cases moved
      exact ⟨Nat.le_max_left .., Nat.le_refl _, Nat.le_refl _⟩
  | slotLoadNext head node =>
      simp only [ownerStep] at moved
      split at moved <;> cases moved <;> exact kept
  | _ =>
      cases moved
      exact kept

/-! ### The steps of a thief -/

variable {cursor cursor' : Cursor} {thiefPc thiefPc' : ThiefPc α}

theorem Cursor.Meets.mono (meets : cursor.Meets inner tailNode)
    (head : inner.head ≤ after.head) (nodes : tailNode ≤ tailNode') :
    cursor.Meets after tailNode' :=
  { upTo := Nat.le_trans meets.upTo nodes
    base := meets.base
    behind := Nat.le_trans meets.behind head }

theorem ThiefPc.Meets.mono (meets : thiefPc.Meets inner cursor)
    (head : inner.head ≤ after.head) (tail : inner.tail ≤ after.tail) :
    thiefPc.Meets after cursor := by
  cases thiefPc with
  | loadTail seen => exact ⟨meets.1, Nat.le_trans meets.2 head⟩
  | loadNext seen =>
      obtain ⟨further, known, below⟩ := meets
      exact ⟨further, Nat.le_trans known head, Nat.lt_of_lt_of_le below tail⟩
  | loadCell seen =>
      obtain ⟨above, within, below⟩ := meets
      exact ⟨above, within, Nat.lt_of_lt_of_le below tail⟩
  | panicked => exact meets
  | _ => trivial

theorem walkFrom_meets {head : Nat} (above : cursor.base ≤ head) (known : head ≤ inner.head)
    (below : head < inner.tail) : (walkFrom head cursor.base : ThiefPc α).Meets inner cursor := by
  unfold walkFrom
  split
  · rename_i further
    exact ⟨further, known, below⟩
  · rename_i here
    rw [if_neg (Nat.not_lt.mpr above)]
    exact ⟨above, Nat.not_le.mp here, below⟩

/-- Where a thief is told to walk to, the node is linked. -/
theorem Nodes.next_of_meets (nodes : Nodes inner tailNode tasks)
    (cursorMeets : cursor.Meets inner tailNode) {head : Nat}
    (meets : (ThiefPc.loadNext head : ThiefPc α).Meets inner cursor) :
    cursor.node + 1 ≤ tailNode ∧ (inner.nodes cursor.node).next = some (cursor.node + 1) := by
  apply nodes.next_of_lt _ meets.2.2
  rw [Nat.succ_mul, ← cursorMeets.base]
  exact meets.1

/-- What one step of a thief leaves behind. -/
structure ThiefMoved (inner after : Inner α) (tailNode : Nat) (cursor : Cursor)
    (pc : ThiefPc α) : Prop where
  only : after = { inner with head := after.head }
  raised : inner.head ≤ after.head
  walked : cursor.Meets after tailNode
  meets : pc.Meets after cursor

theorem ThiefMoved.load (cursorMeets : cursor.Meets inner tailNode)
    (meets : thiefPc.Meets inner cursor) : ThiefMoved inner inner tailNode cursor thiefPc :=
  { only := rfl
    raised := Nat.le_refl _
    walked := cursorMeets
    meets := meets }

theorem Nodes.thief_step (nodes : Nodes inner tailNode tasks)
    (cursorMeets : cursor.Meets inner tailNode) (meets : thiefPc.Meets inner cursor)
    (moved : thiefStep inner cursor thiefPc = some (access, after, cursor', thiefPc')) :
    ThiefMoved inner after tailNode cursor' thiefPc' := by
  cases thiefPc with
  | absent => cases moved
  | idle => cases moved
  | returned head result => cases moved
  | panicked => cases moved
  | loadHead =>
      cases moved
      exact .load cursorMeets ⟨cursorMeets.behind, Nat.le_refl _⟩
  | loadTail head =>
      obtain ⟨above, known⟩ := meets
      cases moved
      apply ThiefMoved.load cursorMeets
      split
      · trivial
      · rename_i more
        exact walkFrom_meets above known (Nat.not_le.mp more)
  | loadNext head =>
      obtain ⟨upTo, next⟩ := nodes.next_of_meets cursorMeets meets
      obtain ⟨further, known, below⟩ := meets
      simp only [thiefStep, next] at moved
      cases moved
      have walked : Cursor.Meets inner tailNode
          { node := cursor.node + 1
            base := cursor.base + nodeSize } := by
        constructor
        · exact upTo
        · rw [cursorMeets.base, Nat.succ_mul]
        · exact Nat.le_trans further known
      exact .load walked (walkFrom_meets further known below)
  | loadCell head =>
      cases moved
      apply ThiefMoved.load cursorMeets
      split <;> trivial
  | maxHead head task =>
      cases moved
      have raised : inner.head ≤ (inner.maxHead (head + 1)).head := Nat.le_max_left ..
      exact
        { only := rfl
          raised := raised
          walked := cursorMeets.mono raised (Nat.le_refl _)
          meets := trivial }

/-! ### Every step -/

variable {state state' : State ι α} [DecidableEq ι]

omit [DecidableEq ι] in
theorem Stored.owner_step (stored : Stored tasks state)
    (moved : ownerStep state.inner state.tailNode state.tail state.owner =
      some (access, after, tailNode', tail', pc')) :
    Stored (tasks ++ access.task.toList)
      { state with
        inner := after
        tailNode := tailNode'
        tail := tail'
        owner := pc' } := by
  obtain ⟨head, tail, nodes⟩ := stored.stocked.grows moved
  constructor
  · exact stored.stocked.step moved
  · intro thief
    exact (stored.cursor thief).mono head nodes
  · intro thief
    exact (stored.thief thief).mono head tail

theorem Stored.setThief (stored : Stored tasks state) {thief : ι}
    (left : ThiefMoved state.inner after state.tailNode cursor thiefPc) :
    Stored tasks ({ state with inner := after }.setThief thief cursor thiefPc) := by
  have tail : after.tail = state.inner.tail := by
    rw [left.only]
  constructor
  · have kept := stored.stocked.head after.head
    rw [← left.only] at kept
    exact kept
  · intro other
    by_cases same : other = thief
    · subst same
      simp only [State.setThief, Function.update_self]
      exact left.walked
    · simp only [State.setThief, Function.update_of_ne same]
      exact (stored.cursor other).mono left.raised (Nat.le_refl _)
  · intro other
    by_cases same : other = thief
    · subst same
      simp only [State.setThief, Function.update_self]
      exact left.meets
    · simp only [State.setThief, Function.update_of_ne same]
      exact (stored.thief other).mono left.raised (Nat.le_of_eq tail.symm)

/-- Between its calls a thief only keeps its cursor. -/
theorem Stored.turn (stored : Stored tasks state) (thief : ι)
    (meets : thiefPc.Meets state.inner (state.cursor thief)) :
    Stored tasks (state.setThief thief (state.cursor thief) thiefPc) :=
  stored.setThief (.load (stored.cursor thief) meets)

omit [DecidableEq ι] in
theorem Stored.call (stored : Stored tasks state)
    (meets : pc'.Meets state.inner state.tailNode tasks state.tail) :
    Stored tasks { state with owner := pc' } :=
  { stored with stocked := stored.stocked.move meets }

/-- What one step of the deque can be. -/
inductive NextMoves (before : State ι α) : Label ι α → State ι α → Prop
  | putCall (task : α) (atPc : before.owner = .idle) :
      NextMoves before (.putCall task) { before with owner := .putStoreTask task }
  | takeCall (atPc : before.owner = .idle) :
      NextMoves before .takeCall { before with owner := .takeLoadHead }
  | owner (access : Access α) (inner : Inner α) (tailNode tail : Nat) (pc : OwnerPc α)
      (stepped : ownerStep before.inner before.tailNode before.tail before.owner =
        some (access, inner, tailNode, tail, pc)) :
      NextMoves before (.owner access)
        { before with
          inner := inner
          tailNode := tailNode
          tail := tail
          owner := pc }
  | ownerReturn (result : OwnerResult α) (atPc : before.owner = .returned result) :
      NextMoves before (.ownerReturn result) { before with owner := .idle }
  | newStealer (thief : ι) (atPc : before.thief thief = .absent) :
      NextMoves before (.newStealer thief)
        (before.setThief thief
          { node := before.inner.first
            base := 0 }
          .idle)
  | stealCall (thief : ι) (atPc : before.thief thief = .idle) :
      NextMoves before (.stealCall thief)
        (before.setThief thief (before.cursor thief) .loadHead)
  | thief (thief : ι) (access : Access α) (inner : Inner α) (cursor : Cursor) (pc : ThiefPc α)
      (stepped : thiefStep before.inner (before.cursor thief) (before.thief thief) =
        some (access, inner, cursor, pc)) :
      NextMoves before (.thief thief access)
        ({ before with inner := inner }.setThief thief cursor pc)
  | stealReturn (thief : ι) (head : Nat) (result : Idempotent.Take α)
      (atPc : before.thief thief = .returned head result) :
      NextMoves before (.stealReturn thief head result)
        (before.setThief thief (before.cursor thief) .idle)

theorem next_moves {choice : Choice ι α} {label : Label ι α}
    (taken : next state choice = some (label, state')) : NextMoves state label state' := by
  cases choice with
  | putCall task =>
      simp only [next] at taken
      split at taken <;> cases taken
      rename_i atPc
      exact .putCall task atPc
  | takeCall =>
      simp only [next] at taken
      split at taken <;> cases taken
      rename_i atPc
      exact .takeCall atPc
  | owner =>
      obtain ⟨moved, stepped, same⟩ := Option.map_eq_some_iff.mp taken
      cases same
      exact .owner _ _ _ _ _ stepped
  | ownerReturn =>
      simp only [next] at taken
      split at taken <;> cases taken
      rename_i result atPc
      exact .ownerReturn result atPc
  | newStealer thief =>
      simp only [next] at taken
      split at taken <;> cases taken
      rename_i atPc
      exact .newStealer thief atPc
  | stealCall thief =>
      simp only [next] at taken
      split at taken <;> cases taken
      rename_i atPc
      exact .stealCall thief atPc
  | thief thief =>
      obtain ⟨moved, stepped, same⟩ := Option.map_eq_some_iff.mp taken
      cases same
      exact .thief thief _ _ _ _ stepped
  | stealReturn thief =>
      simp only [next] at taken
      split at taken <;> cases taken
      rename_i head result atPc
      exact .stealReturn thief head result atPc

theorem Stored.step {choice : Choice ι α} {label : Label ι α} (stored : Stored tasks state)
    (moved : next state choice = some (label, state')) :
    Stored (tasks ++ (published label).toList) state' := by
  have meets := stored.stocked.owner
  cases next_moves moved with
  | putCall task atPc | takeCall atPc | ownerReturn result atPc =>
      rw [atPc] at meets
      simp only [published, Option.toList_none, List.append_nil]
      exact stored.call meets
  | owner access inner tailNode tail pc stepped => exact stored.owner_step stepped
  | newStealer thief atPc =>
      simp only [published, Option.toList_none, List.append_nil]
      have start : Cursor.Meets state.inner state.tailNode
          { node := state.inner.first
            base := 0 } := by
        rw [stored.stocked.nodes.first]
        constructor
        · exact Nat.zero_le _
        · exact (Nat.zero_mul nodeSize).symm
        · exact Nat.zero_le _
      exact stored.setThief (.load start trivial)
  | stealCall thief atPc | stealReturn thief head result atPc =>
      simp only [published, Option.toList_none, List.append_nil]
      exact stored.turn thief trivial
  | thief thief access inner cursor pc stepped =>
      simp only [published, Option.toList_none, List.append_nil]
      exact stored.setThief
        (stored.stocked.nodes.thief_step (stored.cursor thief) (stored.thief thief) stepped)

omit [DecidableEq ι] in
theorem stored_new (ι α : Type*) : Stored [] (new ι α) := by
  have nodes : Nodes (new ι α).inner 0 [] := by
    constructor
    · rfl
    · exact Nat.one_pos
    · intro node upTo
      rw [Nat.le_zero.mp upTo, Nat.zero_mul]
      rfl
    · intro node before
      exact absurd before (Nat.not_lt_zero node)
    · intro node upTo offset within
      exact List.getElem?_nil.symm
    · exact Nat.zero_le _
    · exact Nat.zero_le _
  constructor
  · constructor
    · exact nodes
    · constructor
      · rfl
      · rfl
      · rfl
      · exact Nat.le_of_eq (Nat.zero_mul nodeSize)
      · change 0 < (0 + 1) * nodeSize
        decide
  · intro thief
    constructor
    · exact Nat.le_refl _
    · exact (Nat.zero_mul nodeSize).symm
    · exact Nat.zero_le _
  · intro thief
    trivial

end WsDeque.Linked
