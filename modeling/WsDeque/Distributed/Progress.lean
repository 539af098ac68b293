import WsDeque.Distributed.Requests

/-
Work is not passed around without being run: a node that has absorbed tasks
keeps one through its mailbox, and must finish one before it asks again.
-/

namespace WsDeque.Distributed

variable {Task : Type*} {nodes : Nat} {me other : Id nodes}
  {before after : State (Id nodes) Task} {event : Event (Id nodes) Task} {initial : List Task}
  {labels : List (Label (Id nodes) Task)} {state : State (Id nodes) Task}

/-! ### A node keeps a task -/

def Event.starts {Id : Type*} : Event Id Task → Bool
  | .started _ => true
  | _ => false

/-- Half of the surplus is less than all. -/
theorem give_lt {surplus : Nat} (some : 0 < surplus) : give surplus < surplus := by
  unfold give
  omega

/-- Only the start of a task takes the last one from a node. -/
theorem Moves.keepsTask (moved : Moves nodes me before event after)
    (idle : other = me → event.starts = false) (stocked : before.pool other ≠ []) :
    after.pool other ≠ [] := by
  have own : ∀ tasks : List Task, (other = me → tasks ≠ []) →
      Function.update before.pool me tasks other ≠ [] := by
    intro tasks some
    by_cases same : other = me
    · subst same
      rw [Function.update_self]
      exact some rfl
    · rw [Function.update_of_ne same]
      exact stocked
  cases moved with
  | takesRequest sender thief rest stay batch atPc channel split half =>
      refine own stay ?_
      rintro rfl rfl
      have positive := List.length_pos_of_ne_nil stocked
      have fewer := give_lt positive
      rw [split, List.nil_append] at half fewer
      omega
  | absorbs sender batch rest atPc channel =>
      refine own _ ?_
      rintro rfl
      exact List.append_ne_nil_of_left_ne_nil stocked batch
  | starts task rest atPc pool =>
      refine own rest ?_
      intro same
      cases idle same
  | pushes task child atPc =>
      refine own _ ?_
      rintro rfl
      exact List.append_ne_nil_of_left_ne_nil stocked [child]
  | _ => exact stocked

theorem keepsTask_of_run {rest : List (Label (Id nodes) Task)}
    (run : (system nodes initial).Run before rest after) {node : Id nodes}
    (idle : ∀ label ∈ rest, label.node = node → label.event.starts = false)
    (stocked : before.pool node ≠ []) : after.pool node ≠ [] := by
  induction run with
  | refl => exact stocked
  | snoc _prior last ih =>
      obtain ⟨choice, taken⟩ := last
      refine (next_moves taken).keepsTask (fun same => ?_)
        (ih fun label member => idle label (List.mem_append_left _ member))
      exact idle _ (List.mem_append_right _ (List.mem_singleton_self _)) same.symm

/-! ### A node with a task to finish -/

/-- The node serves its mailbox. -/
def NodePc.serves {Id : Type*} : NodePc Id Task → Bool
  | .drainMailbox => true
  | .replying _ _ => true
  | .migrating _ => true
  | _ => false

/-- The node is inside a closure. -/
def NodePc.works {Id : Type*} : NodePc Id Task → Bool
  | .running _ => true
  | .spawnPush _ _ => true
  | _ => false

def State.Owes (state : State (Id nodes) Task) (node : Id nodes) : Prop :=
  (state.node node).works = true ∨
    (state.node node).serves = true ∧ state.pool node ≠ []

def Event.completes {Id : Type*} : Event Id Task → Bool
  | .finished _ => true
  | _ => false

theorem Moves.owes_self (moved : Moves nodes me before event after)
    (calm : event.isPanic = false) (unfinished : event.completes = false)
    (owes : before.Owes me) : after.Owes me := by
  rcases owes with works | ⟨serves, stocked⟩
  · cases moved with
    | spawns task child atPc => exact Or.inl (by rw [goto_self]; rfl)
    | pushes task child atPc => exact Or.inl (by rw [goto_self]; rfl)
    | finishes task atPc => cases unfinished
    | panics task atPc => cases calm
    | _ => simp only [*, NodePc.works, Bool.false_eq_true] at works
  · cases moved with
    | starts task rest atPc pool => exact Or.inl (by rw [goto_self]; rfl)
    | starves atPc empty => exact absurd empty stocked
    | takesRequest sender thief rest stay batch atPc channel split half =>
        exact Or.inr ⟨by rw [goto_self]; rfl,
          Moves.keepsTask (.takesRequest sender thief rest stay batch atPc channel split half)
            (fun _same => rfl) stocked⟩
    | absorbs sender batch rest atPc channel =>
        exact Or.inr ⟨by rw [goto_self]; rfl,
          Moves.keepsTask (.absorbs sender batch rest atPc channel) (fun _same => rfl) stocked⟩
    | answers thief batch atPc reachable => exact Or.inr ⟨by rw [goto_self]; rfl, stocked⟩
    | drops thief batch atPc dropped => exact Or.inr ⟨by rw [goto_self]; rfl, stocked⟩
    | migrates count atPc => exact Or.inr ⟨by rw [goto_self]; rfl, stocked⟩
    | _ => simp only [*, NodePc.serves, Bool.false_eq_true] at serves

theorem Moves.owes_other (moved : Moves nodes me before event after) (different : other ≠ me)
    (owes : before.Owes other) : after.Owes other := by
  unfold State.Owes at *
  rw [moved.others different]
  exact owes.imp_right fun ⟨serves, stocked⟩ =>
    ⟨serves, moved.keepsTask (fun same => absurd same different) stocked⟩

theorem owes_of_run {rest : List (Label (Id nodes) Task)}
    (run : (system nodes initial).Run before rest after) (calm : Calm rest) {node : Id nodes}
    (unfinished : ∀ label ∈ rest, label.node = node → label.event.completes = false)
    (owes : before.Owes node) : after.Owes node := by
  induction run with
  | refl => exact owes
  | @snoc _ final labels label _prior last ih =>
      obtain ⟨choice, taken⟩ := last
      have moved := next_moves taken
      have earlier := ih calm.front fun label member =>
        unfinished label (List.mem_append_left _ member)
      by_cases same : node = label.node
      · subst same
        exact moved.owes_self calm.last
          (unfinished label (List.mem_append_right _ (List.mem_singleton_self label)) rfl) earlier
      · exact moved.owes_other same earlier

theorem not_owes_of_victim {node victim : Id nodes}
    (asks : (state.node node).victim = some victim) : ¬ state.Owes node := by
  unfold State.Owes
  cases atPc : state.node node with
  | countRequest other => rintro (works | ⟨serves, _stocked⟩) <;> contradiction
  | requesting other => rintro (works | ⟨serves, _stocked⟩) <;> contradiction
  | _ =>
      rw [atPc] at asks
      cases asks

/-! ### What a node has absorbed and finished -/

/-- The node absorbs a batch with a task in it. -/
def Event.gains {Id : Type*} : Event Id Task → Bool
  | .absorbs batch => !batch.isEmpty
  | _ => false

theorem Moves.owes_of_gains (moved : Moves nodes me before event after)
    (gains : event.gains = true) : after.Owes me := by
  cases moved with
  | absorbs sender batch rest atPc channel =>
      refine Or.inr ⟨by rw [goto_self]; rfl, ?_⟩
      change Function.update before.pool me (before.pool me ++ batch) me ≠ []
      rw [Function.update_self]
      refine List.append_ne_nil_of_right_ne_nil _ ?_
      rintro rfl
      cases gains
  | _ => cases gains

/-- A reply with a task in it answers a pending request. -/
theorem Moves.pending_of_gains (moved : Moves nodes me before event after)
    (gains : event.gains = true) (reached : (system nodes initial).Reaches labels before)
    (calm : Calm labels) :
    before.pendingRequest me = true ∧ after.pendingRequest me = false := by
  cases moved with
  | absorbs sender batch rest atPc channel =>
      constructor
      · have taken := State.exchange_taken me channel
        change _ + (decide (me = me)).toNat = _ at taken
        rw [decide_eq_true rfl] at taken
        change _ + 1 = _ at taken
        have unfinished : 0 < before.outstanding := by
          by_contra finished
          have zero : before.outstanding = 0 := by omega
          have sent : .work batch ∈ before.channel (sender, me) := by
            rw [channel]
            exact List.mem_cons_self
          obtain rfl := unread_of_waiting sent
            ((covered_of_reaches reached).empty_of_zero zero).1
          cases gains
        have paired := exchange_of_reaches reached calm unfinished me
        by_contra idle
        rw [Bool.not_eq_true] at idle
        rw [idle] at paired
        change _ = 0 at paired
        omega
      · exact Function.update_self ..
  | _ => cases gains

/-- Only a request raises the flag. -/
theorem Moves.pending_self (moved : Moves nodes me before event after)
    (owes : before.Owes me) (idle : before.pendingRequest me = false) :
    after.pendingRequest me = false := by
  cases moved with
  | absorbs sender batch rest atPc channel => exact Function.update_self ..
  | requests victim atPc reachable =>
      have asks : (before.node me).victim = some victim := by rw [atPc]; rfl
      exact absurd owes (not_owes_of_victim asks)
  | _ => exact idle

/-- A node is at most one batch ahead of the tasks it has finished; when it is,
it has none to expect and a task to finish. -/
structure Backlog (labels : List (Label (Id nodes) Task)) (state : State (Id nodes) Task)
    (node : Id nodes) : Prop where
  bounded : stepsOf node Event.gains labels ≤ stepsOf node Event.completes labels + 1
  ahead : stepsOf node Event.gains labels = stepsOf node Event.completes labels + 1 →
    state.pendingRequest node = false ∧ state.Owes node

theorem Backlog.step_self {label : Label (Id nodes) Task}
    (backlog : Backlog labels before label.node)
    (moved : Moves nodes label.node before label.event after)
    (reached : (system nodes initial).Reaches labels before) (calm : Calm (labels ++ [label])) :
    Backlog (labels ++ [label]) after label.node := by
  have gained : stepsOf label.node Event.gains (labels ++ [label]) = _ := stepsOf_self _ label
  have finished : stepsOf label.node Event.completes (labels ++ [label]) = _ :=
    stepsOf_self _ label
  obtain ⟨bounded, ahead⟩ := backlog
  by_cases gains : label.event.gains = true
  · obtain ⟨expected, answered⟩ := moved.pending_of_gains gains reached calm.front
    have level : stepsOf label.node Event.gains labels ≠
        stepsOf label.node Event.completes labels + 1 := by
      intro same
      rw [(ahead same).1] at expected
      cases expected
    have busy : label.event.completes = false := by
      cases event : label.event with
      | finished task =>
          rw [event] at gains
          cases gains
      | _ => rfl
    rw [gains, Bool.toNat_true] at gained
    rw [busy, Bool.toNat_false] at finished
    exact ⟨by omega, fun _same => ⟨answered, moved.owes_of_gains gains⟩⟩
  · rw [Bool.not_eq_true] at gains
    rw [gains, Bool.toNat_false] at gained
    by_cases done : label.event.completes = true
    · rw [done, Bool.toNat_true] at finished
      exact ⟨by omega, fun same => by omega⟩
    · rw [Bool.not_eq_true] at done
      rw [done, Bool.toNat_false] at finished
      refine ⟨by omega, fun same => ?_⟩
      obtain ⟨idle, owes⟩ := ahead (by omega)
      exact ⟨moved.pending_self owes idle, moved.owes_self calm.last done owes⟩

theorem backlog_of_reaches (reached : (system nodes initial).Reaches labels state)
    (calm : Calm labels) (node : Id nodes) : Backlog labels state node := by
  obtain ⟨start, isInitial, run⟩ := reached
  induction run with
  | refl =>
      exact ⟨Nat.zero_le _, fun same => by cases same⟩
  | @snoc before final labels label prior last ih =>
      obtain ⟨choice, taken⟩ := last
      have moved := next_moves taken
      have earlier := ih calm.front
      by_cases same : node = label.node
      · subst same
        exact earlier.step_self moved ⟨start, isInitial, prior⟩ calm
      · obtain ⟨bounded, ahead⟩ := earlier
        constructor
        · rw [stepsOf_other _ same, stepsOf_other _ same]
          exact bounded
        · rw [stepsOf_other _ same, stepsOf_other _ same, moved.pendingRequest_other same]
          intro level
          exact (ahead level).imp_right (moved.owes_other same)

/-- A node with a task keeps one until it starts it, finishes one between a
batch and its next request, and is at most one batch ahead of its finished tasks. -/
structure RunsWhatItTakes (initial : List Task) (labels : List (Label (Id nodes) Task))
    (state : State (Id nodes) Task) : Prop where
  keeps : ∀ node rest later, (system nodes initial).Run state rest later →
    (∀ label ∈ rest, label.node = node → label.event.starts = false) →
      state.pool node ≠ [] → later.pool node ≠ []
  between : ∀ earlier absorb middle ask later victim,
    labels = earlier ++ [absorb] ++ middle ++ [ask] ++ later → absorb.event.gains = true →
      ask.event = .requests victim → ask.node = absorb.node →
        ∃ label ∈ middle, label.node = absorb.node ∧ label.event.completes = true
  bounded : ∀ node, stepsOf node Event.gains labels ≤ stepsOf node Event.completes labels + 1

theorem Moves.victim_of_requests (moved : Moves nodes me before event after) {victim : Id nodes}
    (requests : event = .requests victim) : (before.node me).victim = some victim := by
  cases moved with
  | requests other atPc reachable =>
      cases requests
      rw [atPc]
      rfl
  | _ => cases requests

/-- Work migration always makes progress. -/
theorem migration_progresses (reached : (system nodes initial).Reaches labels state)
    (calm : Calm labels) : RunsWhatItTakes initial labels state := by
  constructor
  · intro node rest later run idle stocked
    exact keepsTask_of_run run idle stocked
  · intro earlier absorb middle ask later victim whole gains requests same
    by_contra nothing
    obtain ⟨start, isInitial, run⟩ := reached
    obtain ⟨asked, upTo, _after⟩ := run.split whole
    obtain ⟨asking, front, lastAsk⟩ := upTo.last rfl
    obtain ⟨absorbed, first, between⟩ := front.split rfl
    obtain ⟨absorbing, _prior, lastAbsorb⟩ := first.last rfl
    obtain ⟨_choice, absorbs⟩ := lastAbsorb
    obtain ⟨_choice', asks⟩ := lastAsk
    have owes := (next_moves absorbs).owes_of_gains gains
    have calmBetween : Calm middle := by
      intro label member
      refine calm label ?_
      rw [whole]
      simp [member]
    have still : asking.Owes absorb.node := by
      refine owes_of_run between calmBetween (fun label member here => ?_) owes
      by_contra completes
      exact nothing ⟨label, member, here, Bool.not_eq_false _ ▸ completes⟩
    rw [← same] at still
    exact not_owes_of_victim ((next_moves asks).victim_of_requests requests) still
  · intro node
    exact (backlog_of_reaches reached calm node).bounded

theorem migration_progresses_stealsOnce :
    ∃ labels state, (system 2 [1, 2, 3, 4, 5, 6]).Reaches labels state ∧
      stepsOf secondNode Event.gains labels = 1 ∧
      RunsWhatItTakes [1, 2, 3, 4, 5, 6] labels state := by
  have found : ∃ labels state,
      (system 2 [1, 2, 3, 4, 5, 6]).Run (start 2 [1, 2, 3, 4, 5, 6]) labels state ∧
        Calm labels ∧ stepsOf secondNode Event.gains labels = 1 :=
    TransitionSystem.execute_finds (next 2) (start 2 [1, 2, 3, 4, 5, 6]) stealsOnce
      (fun labels _state => (∀ label ∈ labels, label.event.isPanic = false) ∧
        stepsOf secondNode Event.gains labels = 1)
      (by decide +kernel)
  obtain ⟨labels, state, run, calm, gained⟩ := found
  have reached : (system 2 [1, 2, 3, 4, 5, 6]).Reaches labels state :=
    ⟨_, ⟨List.cons_ne_nil _ _, rfl⟩, run⟩
  exact ⟨labels, state, reached, gained, migration_progresses reached calm⟩

end WsDeque.Distributed
