import WsDeque.Linked.Storage
import WsDeque.Multiplicity.Contract

/-
The list is an instance of work-stealing with multiplicity in which every party
is strong, and no reader leaves it.
-/

namespace WsDeque.Linked

open Multiplicity (Contract Moves Step timesDelivered)

variable {ι α : Type*}

def delivery : Label ι α → Option (Multiplicity.Delivery (Option ι) α)
  | .ownerReturn (.took head (.got task)) =>
      some
        { party := none
          position := head
          item := task }
  | .stealReturn thief head (.got task) =>
      some
        { party := some thief
          position := head
          item := task }
  | _ => none

/-- What was returned, by whom and from where; the owner is `none`. -/
def deliveries (labels : List (Label ι α)) : List (Multiplicity.Delivery (Option ι) α) :=
  labels.filterMap delivery

theorem deliveries_snoc (labels : List (Label ι α)) (label : Label ι α) :
    deliveries (labels ++ [label]) = deliveries labels ++ (delivery label).toList := by
  unfold deliveries
  rw [List.filterMap_append]
  cases given : delivery label <;> simp [given]

/-! ### The view of a state -/

def OwnerPc.phase : OwnerPc α → Multiplicity.Phase α
  | .takeLoadTail head | .slotLoadNext head _ | .slotLoadCell head _ => .saw head
  | .takeMaxHead head task => .holding head task
  | .returned (.took head (.got task)) => .returning head task
  | _ => .away

def ThiefPc.phase : ThiefPc α → Multiplicity.Phase α
  | .loadTail head | .loadNext head | .loadCell head => .saw head
  | .maxHead head task => .holding head task
  | .returned head (.got task) => .returning head task
  | _ => .away

def State.view (state : State ι α) (tasks : List α)
    (delivered : List (Multiplicity.Delivery (Option ι) α)) :
    Multiplicity.State (Option ι) α :=
  { head := state.inner.head
    items := tasks
    delivered := delivered
    register := fun _ => 0
    claimed := fun _ => false
    phase := Multiplicity.withOwner state.owner.phase fun thief => (state.thief thief).phase }

def kind (_party : Option ι) : Multiplicity.Kind :=
  .strong

variable {state : State ι α} {tasks tasks' : List α}
  {delivered delivered' : List (Multiplicity.Delivery (Option ι) α)} {inner : Inner α}
  {tailNode tail : Nat} {pc : OwnerPc α} {thief : ι} {cursor : Cursor} {thiefPc : ThiefPc α}
  [DecidableEq ι]

theorem State.view_owner (state : State ι α) (inner : Inner α) (tailNode tail : Nat)
    (pc : OwnerPc α) (tasks : List α)
    (delivered : List (Multiplicity.Delivery (Option ι) α)) :
    State.view
        { state with
          inner := inner
          tailNode := tailNode
          tail := tail
          owner := pc }
        tasks delivered =
      { state.view tasks delivered with
        head := inner.head
        phase := Function.update (state.view tasks delivered).phase none pc.phase } := by
  unfold State.view
  rw [Multiplicity.withOwner_owner state.owner.phase pc.phase]

theorem State.view_thief (state : State ι α) (inner : Inner α) (thief : ι) (cursor : Cursor)
    (pc : ThiefPc α) (tasks : List α)
    (delivered : List (Multiplicity.Delivery (Option ι) α)) :
    State.view ({ state with inner := inner }.setThief thief cursor pc) tasks delivered =
      { state.view tasks delivered with
        head := inner.head
        phase := Function.update (state.view tasks delivered).phase (some thief) pc.phase } := by
  have phase : (fun other => (Function.update state.thief thief pc other).phase) =
      Function.update (fun other => (state.thief other).phase) thief pc.phase :=
    Function.comp_update ThiefPc.phase state.thief thief pc
  unfold State.view State.setThief
  simp only [phase, Multiplicity.withOwner_other]

/-- A step of the owner that the protocol does not see. -/
theorem State.view_quiet (phase : pc.phase = state.owner.phase)
    (head : inner.head = state.inner.head) :
    State.view
        { state with
          inner := inner
          tailNode := tailNode
          tail := tail
          owner := pc }
        tasks delivered = state.view tasks delivered := by
  rw [State.view_owner, phase, head]
  have same : Function.update (state.view tasks delivered).phase none state.owner.phase =
      (state.view tasks delivered).phase :=
    Function.update_eq_self none (state.view tasks delivered).phase
  rw [same]
  rfl

theorem State.view_quiet_thief (phase : thiefPc.phase = (state.thief thief).phase)
    (head : inner.head = state.inner.head) :
    State.view ({ state with inner := inner }.setThief thief cursor thiefPc) tasks delivered =
      state.view tasks delivered := by
  rw [State.view_thief, phase, head]
  have same : Function.update (state.view tasks delivered).phase (some thief)
      (state.thief thief).phase = (state.view tasks delivered).phase :=
    Function.update_eq_self (some thief) (state.view tasks delivered).phase
  rw [same]
  rfl

/-! ### The steps of the protocol -/

theorem State.owner_step
    (step : Step kind (state.view tasks delivered)
      { state.view tasks delivered with
        head := inner.head
        delivered := delivered'
        phase := Function.update (state.view tasks delivered).phase none pc.phase }) :
    Moves kind (state.view tasks delivered)
      (State.view
        { state with
          inner := inner
          tailNode := tailNode
          tail := tail
          owner := pc }
        tasks delivered') := by
  apply Or.inr
  rw [State.view_owner state inner tailNode tail pc tasks delivered']
  exact step

theorem State.thief_step
    (step : Step kind (state.view tasks delivered)
      { state.view tasks delivered with
        head := inner.head
        delivered := delivered'
        phase := Function.update (state.view tasks delivered).phase (some thief)
          thiefPc.phase }) :
    Moves kind (state.view tasks delivered)
      (State.view ({ state with inner := inner }.setThief thief cursor thiefPc) tasks
        delivered') := by
  apply Or.inr
  rw [State.view_thief state inner thief cursor thiefPc tasks delivered']
  exact step

omit [DecidableEq ι] in
theorem kind_not_weak (party : Option ι) : kind party ≠ .weak := by
  intro weak
  cases weak

omit [DecidableEq ι] in
theorem kind_not_exclusive (party : Option ι) : kind party ≠ .exclusive := by
  intro exclusive
  cases exclusive

theorem slotFrom_phase (nodes : Nodes inner tailNode tasks) {node head : Nat}
    (upTo : node ≤ tailNode) (above : node * nodeSize ≤ head) :
    (slotFrom inner head node).phase = .saw head := by
  have base : (inner.nodes node).base ≤ head := by
    rw [nodes.base node upTo]
    exact above
  unfold slotFrom
  rw [if_neg (Nat.not_lt.mpr base)]
  split <;> rfl

theorem walkFrom_phase {head base : Nat} (above : base ≤ head) :
    (walkFrom head base : ThiefPc α).phase = .saw head := by
  unfold walkFrom
  rw [if_neg (Nat.not_lt.mpr above)]
  split <;> rfl

variable {access : Access α}

theorem owner_moves
    (stocked : Stocked tasks state.inner state.tailNode state.tail state.owner)
    (moved : ownerStep state.inner state.tailNode state.tail state.owner =
      some (access, inner, tailNode, tail, pc)) :
    Moves kind (state.view tasks delivered)
      (State.view
        { state with
          inner := inner
          tailNode := tailNode
          tail := tail
          owner := pc }
        (tasks ++ access.task.toList) delivered) := by
  have phase : (state.view tasks delivered).phase none = state.owner.phase := rfl
  have meets := stocked.owner
  have nodes := stocked.nodes
  cases atPc : state.owner with
  | idle =>
      rw [atPc] at moved
      cases moved
  | returned result =>
      rw [atPc] at moved
      cases moved
  | panicked =>
      rw [atPc] at moved
      cases moved
  | nullNode =>
      rw [atPc] at moved
      cases moved
  | putStoreTask task =>
      rw [atPc] at moved phase meets
      have base := nodes.base state.tailNode (Nat.le_refl _)
      have above := meets.above
      have below := meets.below
      have inside : ¬(state.tail < (state.inner.nodes state.tailNode).base ∨
          nodeSize ≤ state.tail - (state.inner.nodes state.tailNode).base) := by
        rw [base]
        unfold nodeSize at *
        omega
      simp only [ownerStep, if_neg inside] at moved
      cases moved
      change (state.view tasks delivered).phase none = .away at phase
      have same : Function.update (state.view tasks delivered).phase none .away =
          (state.view tasks delivered).phase := by
        rw [← phase]
        exact Function.update_eq_self ..
      apply Or.inr
      rw [State.view_owner state _ _ _ (.putStoreTail _)]
      change Step kind (state.view tasks delivered)
        { state.view (tasks ++ [task]) delivered with
          phase := Function.update (state.view tasks delivered).phase none .away }
      rw [same]
      exact .publish task
  | putStoreTail offset =>
      rw [atPc] at moved
      simp only [ownerStep] at moved
      split at moved
      all_goals
        cases moved
        simp only [Access.task, Option.toList_none, List.append_nil]
        apply Or.inl
        exact State.view_quiet (by rw [atPc]; rfl) rfl
  | putStoreNext fresh =>
      rw [atPc] at moved
      cases moved
      simp only [Access.task, Option.toList_none, List.append_nil]
      apply Or.inl
      exact State.view_quiet (by rw [atPc]; rfl) rfl
  | takeLoadHead =>
      rw [atPc] at moved phase
      cases moved
      simp only [Access.task, Option.toList_none, List.append_nil]
      exact State.owner_step (.see none (kind_not_weak none) phase)
  | takeLoadTail head =>
      rw [atPc] at moved phase meets
      cases moved
      simp only [Access.task, Option.toList_none, List.append_nil]
      split
      · exact State.owner_step (.leave none head phase)
      · rename_i more
        apply Or.inl
        apply State.view_quiet _ rfl
        rw [atPc, nodes.first]
        exact slotFrom_phase nodes (Nat.zero_le _) (by rw [Nat.zero_mul]; exact Nat.zero_le _)
  | slotLoadNext head node =>
      rw [atPc] at moved phase meets
      obtain ⟨_ready, below, _upTo, further⟩ := meets
      obtain ⟨nextUpTo, next⟩ := nodes.next_of_lt further below
      simp only [ownerStep, next] at moved
      cases moved
      simp only [Access.task, Option.toList_none, List.append_nil]
      apply Or.inl
      apply State.view_quiet _ rfl
      rw [atPc]
      exact slotFrom_phase nodes nextUpTo further
  | slotLoadCell head node =>
      rw [atPc] at moved phase meets
      obtain ⟨_ready, _below, upTo, above, within⟩ := meets
      have cell := nodes.cell upTo above within
      rw [← nodes.base node upTo] at cell
      cases moved
      simp only [Access.task, Option.toList_none, List.append_nil]
      split
      · exact State.owner_step (.leave none head phase)
      · rename_i task there
        have put : tasks[head]? = some task := cell.symm.trans there
        exact State.owner_step (.hold none head task (kind_not_exclusive none) phase put)
  | takeMaxHead head task =>
      rw [atPc] at moved phase
      cases moved
      simp only [Access.task, Option.toList_none, List.append_nil]
      exact State.owner_step (.raise none head task (kind_not_weak none) phase)

theorem thief_moves (stored : Stored tasks state)
    (moved : thiefStep state.inner (state.cursor thief) (state.thief thief) =
      some (access, inner, cursor, thiefPc)) :
    Moves kind (state.view tasks delivered)
      (State.view ({ state with inner := inner }.setThief thief cursor thiefPc) tasks
        delivered) := by
  have phase : (state.view tasks delivered).phase (some thief) = (state.thief thief).phase := rfl
  have meets := stored.thief thief
  have at_cursor := stored.cursor thief
  have nodes := stored.stocked.nodes
  cases atPc : state.thief thief with
  | absent =>
      rw [atPc] at moved
      cases moved
  | idle =>
      rw [atPc] at moved
      cases moved
  | returned head result =>
      rw [atPc] at moved
      cases moved
  | panicked =>
      rw [atPc] at moved
      cases moved
  | loadHead =>
      rw [atPc] at moved phase
      cases moved
      exact State.thief_step (.see (some thief) (kind_not_weak _) phase)
  | loadTail head =>
      rw [atPc] at moved phase meets
      cases moved
      split
      · exact State.thief_step (.leave (some thief) head phase)
      · apply Or.inl
        apply State.view_quiet_thief _ rfl
        rw [atPc]
        exact walkFrom_phase meets.1
  | loadNext head =>
      rw [atPc] at moved phase meets
      obtain ⟨_upTo, next⟩ := nodes.next_of_meets at_cursor meets
      simp only [thiefStep, next] at moved
      cases moved
      apply Or.inl
      apply State.view_quiet_thief _ rfl
      rw [atPc]
      exact walkFrom_phase meets.1
  | loadCell head =>
      rw [atPc] at moved phase meets
      obtain ⟨above, within, _below⟩ := meets
      have cell : (state.inner.nodes (state.cursor thief).node).cells
          (head - (state.cursor thief).base) = tasks[head]? := by
        rw [at_cursor.base] at above within ⊢
        apply nodes.cell at_cursor.upTo above
        rw [Nat.succ_mul]
        exact within
      cases moved
      split
      · exact State.thief_step (.leave (some thief) head phase)
      · rename_i task there
        have put : tasks[head]? = some task := cell.symm.trans there
        exact State.thief_step (.hold (some thief) head task (kind_not_exclusive _) phase put)
  | maxHead head task =>
      rw [atPc] at moved phase
      cases moved
      exact State.thief_step (.raise (some thief) head task (kind_not_weak _) phase)

/-! ### Whole runs -/

variable {state' : State ι α} {choice : Choice ι α} {label : Label ι α}

theorem Stored.next_moves (stored : Stored tasks state)
    (delivered : List (Multiplicity.Delivery (Option ι) α))
    (moved : next state choice = some (label, state')) :
    Moves kind (state.view tasks delivered)
      (state'.view (tasks ++ (published label).toList)
        (delivered ++ (delivery label).toList)) := by
  cases Linked.next_moves moved with
  | putCall task atPc | takeCall atPc =>
      simp only [published, delivery, Option.toList_none, List.append_nil]
      exact Or.inl (State.view_quiet (by rw [atPc]; rfl) rfl)
  | owner access inner tailNode tail pc stepped =>
      simp only [published, delivery, Option.toList_none, List.append_nil]
      exact owner_moves stored.stocked stepped
  | ownerReturn result atPc =>
      have phase : (state.view tasks delivered).phase none = OwnerPc.phase (.returned result) :=
        congrArg OwnerPc.phase atPc
      rcases result with accepted | ⟨head, _ | task⟩
      · simp only [published, delivery, Option.toList_none, List.append_nil]
        exact Or.inl (State.view_quiet (by rw [atPc]; rfl) rfl)
      · simp only [published, delivery, Option.toList_none, List.append_nil]
        exact Or.inl (State.view_quiet (by rw [atPc]; rfl) rfl)
      · simp only [published, delivery, Option.toList_none, Option.toList_some,
          List.append_nil]
        exact State.owner_step (.deliver none head task phase)
  | newStealer thief atPc | stealCall thief atPc =>
      simp only [published, delivery, Option.toList_none, List.append_nil]
      exact Or.inl (State.view_quiet_thief (by rw [atPc]; rfl) rfl)
  | thief thief access inner cursor pc stepped =>
      simp only [published, delivery, Option.toList_none, List.append_nil]
      exact thief_moves stored stepped
  | stealReturn thief head result atPc =>
      have phase : (state.view tasks delivered).phase (some thief) =
          ThiefPc.phase (.returned head result) := congrArg ThiefPc.phase atPc
      cases result with
      | empty =>
          simp only [published, delivery, Option.toList_none, List.append_nil]
          exact Or.inl (State.view_quiet_thief (by rw [atPc]; rfl) rfl)
      | got task =>
          simp only [published, delivery, Option.toList_none, Option.toList_some,
            List.append_nil]
          exact State.thief_step (.deliver (some thief) head task phase)

omit [DecidableEq ι] in
theorem view_new (ι α : Type*) :
    (new ι α).view [] [] = Multiplicity.State.start (Option ι) α := by
  have phases : Multiplicity.withOwner (OwnerPc.phase (.idle : OwnerPc α))
      (fun _thief : ι => ThiefPc.phase (.absent : ThiefPc α)) = fun _ => .away := by
    funext party
    cases party <;> rfl
  unfold State.view new
  simp only [phases]
  rfl

/-- The list and the protocol at the end of a run. -/
structure Follows (labels : List (Label ι α)) (state : State ι α) : Prop where
  stored : Stored (puts labels) state
  reachable : Multiplicity.Reachable kind true (state.view (puts labels) (deliveries labels))

theorem follows_of_reaches {labels : List (Label ι α)}
    (reached : (system ι α).Reaches labels state) : Follows labels state := by
  apply reached.induction
  · rintro start rfl
    constructor
    · exact stored_new ι α
    · change Multiplicity.Reachable kind true ((new ι α).view [] [])
      rw [view_new]
      exact .refl
  · rintro labels before label after _reached follows ⟨choice, moved⟩
    constructor
    · rw [puts_snoc]
      exact follows.stored.step moved
    · rw [puts_snoc, deliveries_snoc]
      rcases follows.stored.next_moves (deliveries labels) moved with same | step
      · rw [same]
        exact follows.reachable
      · exact Relation.ReflTransGen.tail follows.reachable
          ⟨step, fun _monotone => step.head_le kind_not_weak⟩

/-! ### The contract -/

/-- A consumer is between its `fetch_max` and its return. -/
def State.Returning (state : State ι α) (position : Nat) : Prop :=
  (∃ task, state.owner = .returned (.took position (.got task))) ∨
    ∃ thief task, state.thief thief = .returned position (.got task)

omit [DecidableEq ι] in
theorem State.returning_of_view {position : Nat}
    (held : ∃ party, ((state.view tasks delivered).phase party).held true = some position) :
    state.Returning position := by
  obtain ⟨party, held⟩ := held
  cases party with
  | none =>
      change state.owner.phase.held true = some position at held
      cases atPc : state.owner with
      | returned result =>
          rw [atPc] at held
          rcases result with _ | ⟨head, _ | task⟩ <;> cases held
          exact .inl ⟨task, atPc⟩
      | _ =>
          rw [atPc] at held
          cases held
  | some thief =>
      change (state.thief thief).phase.held true = some position at held
      cases atPc : state.thief thief with
      | returned head result =>
          rw [atPc] at held
          cases result <;> cases held
          exact .inr ⟨thief, _, atPc⟩
      | _ =>
          rw [atPc] at held
          cases held

/-- No reader follows a null `next` or reads beside the cells of a node. -/
structure State.OnList (state : State ι α) : Prop where
  walk : ∀ thief head, state.thief thief = .loadNext head →
    (state.inner.nodes (state.cursor thief).node).next ≠ none
  offset : ∀ thief head, state.thief thief = .loadCell head →
    (state.cursor thief).base ≤ head ∧ head - (state.cursor thief).base < nodeSize
  thief : ∀ thief, state.thief thief ≠ .panicked
  slotWalk : ∀ head node, state.owner = .slotLoadNext head node →
    (state.inner.nodes node).next ≠ none
  slotOffset : ∀ head node, state.owner = .slotLoadCell head node →
    (state.inner.nodes node).base ≤ head ∧ head - (state.inner.nodes node).base < nodeSize
  owner : state.owner ≠ .nullNode ∧ state.owner ≠ .panicked

omit [DecidableEq ι] in
theorem Stored.onList (stored : Stored tasks state) : state.OnList := by
  have nodes := stored.stocked.nodes
  have atOwner := stored.stocked.owner
  constructor
  · intro thief head atPc
    have meets := stored.thief thief
    rw [atPc] at meets
    rw [(nodes.next_of_meets (stored.cursor thief) meets).2]
    exact Option.some_ne_none _
  · intro thief head atPc
    have meets := stored.thief thief
    rw [atPc] at meets
    obtain ⟨above, within, _below⟩ := meets
    exact ⟨above, Nat.sub_lt_left_of_lt_add above within⟩
  · intro thief atPc
    have meets := stored.thief thief
    rw [atPc] at meets
    exact meets
  · intro head node atPc
    rw [atPc] at atOwner
    obtain ⟨_ready, below, _upTo, further⟩ := atOwner
    rw [(nodes.next_of_lt further below).2]
    exact Option.some_ne_none _
  · intro head node atPc
    rw [atPc] at atOwner
    obtain ⟨_ready, _below, upTo, above, within⟩ := atOwner
    rw [nodes.base node upTo]
    rw [Nat.succ_mul] at within
    exact ⟨above, Nat.sub_lt_left_of_lt_add above within⟩
  · constructor
    · intro atPc
      rw [atPc] at atOwner
      exact atOwner
    · intro atPc
      rw [atPc] at atOwner
      exact atOwner

theorem head_le {labels : List (Label ι α)} (follows : Follows labels state)
    {after : State ι α} (moved : (system ι α).step state label after) :
    state.inner.head ≤ after.inner.head := by
  obtain ⟨choice, taken⟩ := moved
  rcases follows.stored.next_moves (deliveries labels) taken with same | step
  · exact Nat.le_of_eq (congrArg Multiplicity.State.head same).symm
  · exact step.head_le kind_not_weak

/-- The list keeps the contract of the arrays, and its walks stay on it. -/
theorem linked_multiplicity [Fintype ι] {labels : List (Label ι α)}
    (reached : (system ι α).Reaches labels state) :
    (∀ label after, (system ι α).step state label after →
      state.inner.head ≤ after.inner.head) ∧
    Contract state.inner.head (puts labels) (deliveries labels) state.Returning
      (Fintype.card ι + 1) ∧
    state.OnList := by
  have follows := follows_of_reaches reached
  have contract := Multiplicity.contract_of_reachable (fun _party => rfl) follows.reachable
  rw [Fintype.card_option] at contract
  refine ⟨?_, contract.weaken fun position => State.returning_of_view, follows.stored.onList⟩
  exact fun label after moved => head_le follows moved

/-- A late handle walks over the first node while the owner takes through `load_slot`. -/
def walkToSecondNode : List (Choice Bool Nat) :=
  (List.range 63).flatMap (fun task => [.putCall task, .owner, .owner, .ownerReturn]) ++
    [.newStealer false, .putCall 63, .owner, .owner, .owner, .ownerReturn,
      .putCall 64, .owner, .owner, .ownerReturn] ++
    (List.replicate 64 [.takeCall, .owner, .owner, .owner, .owner, .ownerReturn]).flatten ++
    [.newStealer true, .stealCall true, .thief true, .thief true, .takeCall, .owner, .owner,
      .owner, .owner, .owner, .ownerReturn, .thief true, .thief true, .thief true,
      .stealReturn true]

theorem linked_multiplicity_secondNode :
    ∃ labels state, (system Bool Nat).Reaches labels state ∧
      (state.cursor true).node = 1 ∧ timesDelivered (deliveries labels) 64 = 2 ∧
      Contract state.inner.head (puts labels) (deliveries labels) state.Returning
        (Fintype.card Bool + 1) := by
  obtain ⟨labels, state, run, walked, twice⟩ :=
    TransitionSystem.execute_finds next (new Bool Nat) walkToSecondNode
      (fun labels state => (state.cursor true).node = 1 ∧
        timesDelivered (deliveries labels) 64 = 2)
      (by decide +kernel)
  exact ⟨labels, state, ⟨_, rfl, run⟩, walked, twice, (linked_multiplicity ⟨_, rfl, run⟩).2.1⟩

end WsDeque.Linked
