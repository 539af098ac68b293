import WsDeque.Idempotent.Dropping
import WsDeque.Linked.Runs

/-
Dropping the list queue: the walk along the links frees every node, and with
each the tasks that were put there.
-/

namespace WsDeque.Linked

variable {ι α : Type*}

/-- What `Drop for Inner` frees from a node on, or `none` when the fuel runs out first. -/
def Inner.dropFrom (inner : Inner α) : Nat → Option NodePtr → Option (List α × List NodePtr)
  | _, none => some ([], [])
  | 0, some _ => none
  | fuel + 1, some node =>
      (inner.dropFrom fuel (inner.nodes node).next).map fun later =>
        ((List.range nodeSize).filterMap (inner.nodes node).cells ++ later.1, node :: later.2)

variable {inner after : Inner α} {tailNode tailNode' tail tail' : Nat} {tasks : List α}
  {access : Access α} {pc pc' : OwnerPc α}

/-! ### The end of the list -/

/-- No link leads on from the owner's node. -/
def Inner.Ends (inner : Inner α) (tailNode : Nat) : Prop :=
  ∀ node, tailNode ≤ node → (inner.nodes node).next = none

theorem Inner.Ends.setCell (ends : inner.Ends tailNode) (node : NodePtr) (offset : Nat)
    (boxed : α) : (inner.setCell node offset boxed).Ends tailNode := by
  intro other upTo
  by_cases same : other = node
  · subst same
    simp only [Inner.setCell, Function.update_self]
    exact ends other upTo
  · simp only [Inner.setCell, Function.update_of_ne same]
    exact ends other upTo

theorem Inner.Ends.alloc (ends : inner.Ends tailNode) (base : Nat) :
    (inner.alloc base).Ends tailNode := by
  intro other upTo
  by_cases same : other = inner.allocated
  · subst same
    simp only [Inner.alloc, Function.update_self]
    rfl
  · simp only [Inner.alloc, Function.update_of_ne same]
    exact ends other upTo

theorem Inner.Ends.setNext (ends : inner.Ends tailNode) :
    (inner.setNext tailNode (tailNode + 1)).Ends (tailNode + 1) := by
  intro other upTo
  have different : other ≠ tailNode := Nat.ne_of_gt upTo
  simp only [Inner.setNext, Function.update_of_ne different]
  exact ends other (Nat.le_of_succ_le upTo)

theorem Inner.Ends.step (ends : inner.Ends tailNode) (meets : pc.Meets inner tailNode tasks tail)
    (moved : ownerStep inner tailNode tail pc = some (access, after, tailNode', tail', pc')) :
    after.Ends tailNode' := by
  cases pc with
  | idle => cases moved
  | returned result => cases moved
  | panicked => cases moved
  | nullNode => cases moved
  | putStoreTask task =>
      simp only [ownerStep] at moved
      split at moved
      · cases moved
        exact ends
      · cases moved
        exact Inner.Ends.setCell ends _ _ _
  | putStoreTail offset =>
      simp only [ownerStep] at moved
      split at moved
      · cases moved
        exact Inner.Ends.alloc ends tail
      · cases moved
        exact ends
  | putStoreNext fresh =>
      obtain ⟨_atTail, _stored, rfl, _rest⟩ := meets
      cases moved
      exact Inner.Ends.setNext ends
  | slotLoadNext head node =>
      simp only [ownerStep] at moved
      split at moved <;> cases moved <;> exact ends
  | _ =>
      cases moved
      exact ends

theorem thiefStep_nodes {cursor cursor' : Cursor} {thiefPc thiefPc' : ThiefPc α}
    (moved : thiefStep inner cursor thiefPc = some (access, after, cursor', thiefPc')) :
    after.nodes = inner.nodes := by
  cases thiefPc with
  | absent => cases moved
  | idle => cases moved
  | returned head result => cases moved
  | panicked => cases moved
  | loadNext head =>
      simp only [thiefStep] at moved
      split at moved <;> cases moved <;> rfl
  | _ =>
      cases moved
      rfl

variable [DecidableEq ι] {labels : List (Label ι α)} {state : State ι α}

theorem ends_of_reaches (reached : (system ι α).Reaches labels state) :
    state.inner.Ends state.tailNode := by
  obtain ⟨start, isInitial, run⟩ := reached
  induction run with
  | refl =>
      obtain rfl : start = new ι α := isInitial
      intro node _upTo
      rfl
  | snoc prior last ih =>
      obtain ⟨choice, taken⟩ := last
      have stored := (follows_of_reaches ⟨start, isInitial, prior⟩).stored
      cases next_moves taken with
      | owner access inner tailNode tail pc stepped => exact ih.step stored.stocked.owner stepped
      | thief thief access inner cursor pc stepped =>
          intro node upTo
          change (inner.nodes node).next = none
          rw [thiefStep_nodes stepped]
          exact ih node upTo
      | _ => exact ih

/-! ### The walk -/

omit [DecidableEq ι] in
/-- One node is freed with the tasks at its positions. -/
theorem Nodes.slice (nodes : Nodes inner tailNode tasks) {node : Nat} (upTo : node ≤ tailNode) :
    (List.range nodeSize).filterMap (inner.nodes node).cells =
      (tasks.drop (node * nodeSize)).take nodeSize := by
  rw [← Idempotent.filterMap_getElem?]
  refine List.filterMap_congr fun offset member => ?_
  rw [nodes.cells node upTo offset (List.mem_range.mp member), List.getElem?_drop]

omit [DecidableEq ι] in
theorem Nodes.dropFrom (nodes : Nodes inner tailNode tasks) (ends : inner.Ends tailNode)
    (whole : tasks.length < (tailNode + 1) * nodeSize) (rest : Nat) :
    ∀ node fuel, node + rest = tailNode → rest < fuel →
      inner.dropFrom fuel (some node) =
        some (tasks.drop (node * nodeSize), List.range' node (rest + 1)) := by
  induction rest with
  | zero =>
      rintro node (_ | fuel) here enough
      · cases enough
      · obtain rfl : node = tailNode := here
        have last : (tasks.drop (node * nodeSize)).length ≤ nodeSize := by
          rw [List.length_drop]
          rw [Nat.succ_mul] at whole
          omega
        have noMore : inner.dropFrom fuel none = some ([], []) := by
          cases fuel <;> rfl
        rw [Inner.dropFrom, ends node (Nat.le_refl _), noMore, nodes.slice (Nat.le_refl _),
          List.take_of_length_le last]
        simp [List.range'_succ]
  | succ rest ih =>
      rintro node (_ | fuel) here enough
      · cases enough
      · rw [Inner.dropFrom, nodes.linked node (by omega), ih (node + 1) fuel (by omega) (by omega),
          nodes.slice (by omega), Option.map_some, Nat.succ_mul, ← List.drop_drop,
          List.take_append_drop, List.range'_succ, List.range'_succ]
        rw [List.range'_succ]

/-- After the last call every task put is freed, once and in order, and every node. -/
theorem list_drop_frees_all (reached : (system ι α).Reaches labels state)
    (ended : state.owner = .idle) :
    state.inner.dropFrom state.inner.allocated (some state.inner.first) =
      some (puts labels, List.range state.inner.allocated) := by
  have stocked := (follows_of_reaches reached).stored.stocked
  have ready := stocked.owner
  rw [ended] at ready
  change Ready state.inner state.tailNode (puts labels) state.tail at ready
  have whole : (puts labels).length < (state.tailNode + 1) * nodeSize := by
    rw [ready.atTail]
    exact ready.below
  rw [ready.last, stocked.nodes.first, stocked.nodes.dropFrom (ends_of_reaches reached) whole
    state.tailNode 0 _ (Nat.zero_add _) (Nat.lt_succ_self _), List.range_eq_range',
    Nat.zero_mul, List.drop_zero]

instance : (owner : OwnerPc α) → Decidable (owner = .idle)
  | .idle => .isTrue rfl
  | .putStoreTask _ | .putStoreTail _ | .putStoreNext _ | .takeLoadHead | .takeLoadTail _
  | .slotLoadNext _ _ | .slotLoadCell _ _ | .takeMaxHead _ _ | .returned _ | .panicked
  | .nullNode => .isFalse nofun

/-- Two nodes, of which the second holds one task. -/
def fillsOneNode : List (Choice Bool Nat) :=
  (List.range 63).flatMap (fun task => [.putCall task, .owner, .owner, .ownerReturn]) ++
    [.putCall 63, .owner, .owner, .owner, .ownerReturn, .putCall 64, .owner, .owner, .ownerReturn]

theorem list_drop_frees_all_fillsOneNode :
    ∃ labels state, (system Bool Nat).Reaches labels state ∧ state.inner.allocated = 2 ∧
      state.inner.dropFrom state.inner.allocated (some state.inner.first) =
        some (puts labels, List.range state.inner.allocated) := by
  obtain ⟨labels, state, run, allocated, ended⟩ :=
    TransitionSystem.execute_finds next (new Bool Nat) fillsOneNode
      (fun _labels state => state.inner.allocated = 2 ∧ state.owner = .idle) (by decide +kernel)
  have reached : (system Bool Nat).Reaches labels state := ⟨_, rfl, run⟩
  exact ⟨labels, state, reached, allocated, list_drop_frees_all reached ended⟩

end WsDeque.Linked
