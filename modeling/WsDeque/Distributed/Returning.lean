import Mathlib.Algebra.Order.BigOperators.Group.Finset
import WsDeque.Distributed.Panic

/-
That no node is stranded without a panic: whatever has been asked for, answered
or left in a mailbox, some continuation runs every task and lets all nodes
return.
-/

namespace WsDeque.Distributed

open TaskPool

section

variable {Id Task : Type*}

/-- How many steps a message still calls for, with the tasks it brings. -/
def Message.away : Message Id Task → Nat
  | .stealRequest _ => 4
  | .work batch => 2 * batch.length + 1

def backlog (messages : List (Message Id Task)) : Nat :=
  (messages.map Message.away).sum

/-- How many steps the node is away from its mailbox, with the messages it is
about to send. -/
def NodePc.away : NodePc Id Task → Nat
  | .replying _ batch => 2 * batch.length + 3
  | .migrating _ => 1
  | .running _ => 1
  | .spawnPush _ _ => 4
  | .loadOutstanding => 7
  | .countRequest _ => 6
  | .requesting _ => 5
  | _ => 0

theorem backlog_cons (message : Message Id Task) (rest : List (Message Id Task)) :
    backlog (message :: rest) = message.away + backlog rest := by
  unfold backlog
  rw [List.map_cons, List.sum_cons]

theorem backlog_snoc (messages : List (Message Id Task)) (message : Message Id Task) :
    backlog (messages ++ [message]) = backlog messages + message.away := by
  unfold backlog
  rw [List.map_append, List.sum_append, List.map_singleton, List.sum_singleton]

variable [Fintype Id] [DecidableEq Id]

/-- How many steps empty every pool and every mailbox. -/
def State.burden (state : State Id Task) : Nat :=
  (∑ node, 2 * (state.pool node).length) + (∑ link, backlog (state.channel link)) +
    ∑ node, (state.node node).away

theorem State.burden_goto (state : State Id Task) (me : Id) (pc : NodePc Id Task) :
    (state.goto me pc).burden + (state.node me).away = state.burden + pc.away :=
  (sum_update_shifts NodePc.away state.node me pc).add_left _

theorem State.burden_setPool (state : State Id Task) (me : Id) (tasks : List Task) :
    (state.setPool me tasks).burden + 2 * (state.pool me).length =
      state.burden + 2 * tasks.length :=
  ((sum_update_shifts (fun tasks : List Task => 2 * tasks.length) state.pool me
    tasks).add_right _).add_right _

theorem State.burden_setChannel (state : State Id Task) (link : Id × Id)
    (messages : List (Message Id Task)) :
    Shifts state.burden (backlog (state.channel link)) (backlog messages)
      (state.setChannel link messages).burden :=
  ((sum_update_shifts backlog state.channel link messages).add_left _).add_right _

theorem State.burden_taken {state : State Id Task} {link : Id × Id}
    {message : Message Id Task} {rest : List (Message Id Task)}
    (channel : state.channel link = message :: rest) :
    (state.setChannel link rest).burden + message.away = state.burden := by
  apply (state.burden_setChannel link rest).loses
  rw [channel, backlog_cons, add_comm]

theorem State.burden_post (state : State Id Task) (link : Id × Id)
    (message : Message Id Task) :
    (state.post link message).burden = state.burden + message.away := by
  apply (state.burden_setChannel link _).gains
  rw [backlog_snoc]

end

variable {Task : Type*} {nodes : Nat} {me : Id nodes} {before after : State (Id nodes) Task}
  {event : Event (Id nodes) Task} {initial : List Task}
  {labels : List (Label (Id nodes) Task)} {state : State (Id nodes) Task}

/-! ### One step closer -/

/-- Some step of the node brings all of them closer to empty pools. -/
def Advances (me : Id nodes) (before : State (Id nodes) Task) : Prop :=
  ∃ act event after, step nodes me before act = some (event, after) ∧ event.isPanic = false ∧
    after.burden < before.burden

/-- The node goes on without a change of its pool or a channel. -/
theorem burden_lt_goto {shifted : State (Id nodes) Task} {old pc : NodePc (Id nodes) Task}
    (atPc : before.node me = old) (node : shifted.node = before.node)
    (same : shifted.burden = before.burden) (closer : pc.away < old.away) :
    (shifted.goto me pc).burden < before.burden := by
  have moved := shifted.burden_goto me pc
  rw [node, atPc, same] at moved
  omega

theorem advances_receives {sender : Id nodes} (atPc : before.node me = .drainMailbox)
    (waits : before.channel (sender, me) ≠ []) : Advances me before := by
  cases channel : before.channel (sender, me) with
  | nil => exact absurd channel waits
  | cons message rest =>
      have taken := State.burden_taken channel
      cases message with
      | stealRequest thief =>
          let kept := (before.pool me).length - give (before.pool me).length
          let shifted := (before.setChannel (sender, me) rest).setPool me
            ((before.pool me).take kept)
          refine ⟨.receive sender, .takesRequest thief, shifted.goto me
            (.replying thief ((before.pool me).drop kept)), ?_, rfl, ?_⟩
          · simp only [step, atPc, receiveStep, channel]
            rfl
          · have pool := (before.setChannel (sender, me) rest).burden_setPool me
              ((before.pool me).take kept)
            have moved := shifted.burden_goto me (.replying thief ((before.pool me).drop kept))
            have parts : (before.pool me).length =
                ((before.pool me).take kept).length + ((before.pool me).drop kept).length := by
              rw [← List.length_append, List.take_append_drop]
            change shifted.burden + 2 * (before.pool me).length = _ at pool
            change _ + (before.node me).away = _ at moved
            rw [atPc] at moved
            simp only [NodePc.away, Message.away] at moved taken
            omega
      | work batch =>
          let shifted := ((before.setChannel (sender, me) rest).setPool me
            (before.pool me ++ batch)).setPending me false
          refine ⟨.receive sender, .absorbs batch, shifted.goto me .drainMailbox, ?_, rfl, ?_⟩
          · simp only [step, atPc, receiveStep, channel]
            rfl
          · have pool := (before.setChannel (sender, me) rest).burden_setPool me
              (before.pool me ++ batch)
            have moved := shifted.burden_goto me .drainMailbox
            change shifted.burden + 2 * (before.pool me).length = _ at pool
            change _ + (before.node me).away = _ at moved
            rw [atPc] at moved
            rw [List.length_append] at pool
            simp only [NodePc.away, Message.away] at moved taken
            omega

theorem advances_pops {task : Task} {rest : List Task} (atPc : before.node me = .drainMailbox)
    (pool : before.pool me = rest ++ [task]) : Advances me before := by
  refine ⟨.go, .started task, (before.setPool me rest).goto me (.running task), ?_, rfl, ?_⟩
  · simp only [step, atPc, pool, List.getLast?_append, List.getLast?_singleton, Option.some_or,
      List.dropLast_concat]
  · have popped := before.burden_setPool me rest
    have moved := (before.setPool me rest).burden_goto me (.running task)
    change _ + (before.node me).away = _ at moved
    rw [pool, List.length_append] at popped
    rw [atPc] at moved
    simp only [NodePc.away, List.length_singleton] at moved popped
    omega

theorem advances_replying {thief : Id nodes} {batch : List Task}
    (atPc : before.node me = .replying thief batch) : Advances me before := by
  by_cases reachable : (before.node thief).receives = true
  · refine ⟨.go, _, _, by simp only [step, atPc, if_pos reachable]; rfl, rfl, ?_⟩
    have posted := before.burden_post (me, thief) (.work batch)
    have moved := (before.post (me, thief) (.work batch)).burden_goto me
      (.migrating batch.length)
    change _ + (before.node me).away = _ at moved
    rw [atPc] at moved
    simp only [NodePc.away, Message.away] at moved posted
    omega
  · refine ⟨.go, _, _, by simp only [step, atPc, if_neg reachable]; rfl, rfl, ?_⟩
    exact burden_lt_goto atPc rfl rfl (Nat.succ_pos _)

theorem advances_spawnPush {task child : Task} (atPc : before.node me = .spawnPush task child) :
    Advances me before := by
  refine ⟨.go, _, _, by simp only [step, atPc]; rfl, rfl, ?_⟩
  have pushed := before.burden_setPool me (before.pool me ++ [child])
  have moved := (before.setPool me (before.pool me ++ [child])).burden_goto me (.running task)
  change _ + (before.node me).away = _ at moved
  rw [List.length_append] at pushed
  rw [atPc] at moved
  simp only [NodePc.away, List.length_singleton] at moved pushed
  omega

theorem advances_loadOutstanding (atPc : before.node me = .loadOutstanding) :
    Advances me before := by
  by_cases zero : before.outstanding = 0
  · refine ⟨.go, _, _, by simp only [step, atPc, if_pos zero]; rfl, rfl, ?_⟩
    exact burden_lt_goto atPc rfl rfl (Nat.succ_pos _)
  · by_cases starving : before.pendingRequest me = false ∧ 1 < max nodes 1
    · by_cases own : (⟨(xorshift (before.rng me)).toNat % max nodes 1,
          Nat.mod_lt _ (someNode nodes)⟩ : Id nodes) = me
      · refine ⟨.go, _, _, by
          simp only [step, atPc, if_neg zero, if_pos starving, if_pos own]; rfl, rfl, ?_⟩
        exact burden_lt_goto atPc rfl rfl (Nat.succ_pos _)
      · refine ⟨.go, _, _, by
          simp only [step, atPc, if_neg zero, if_pos starving, if_neg own]; rfl, rfl, ?_⟩
        exact burden_lt_goto atPc rfl rfl (Nat.lt_succ_self _)
    · refine ⟨.go, _, _, by simp only [step, atPc, if_neg zero, if_neg starving]; rfl, rfl, ?_⟩
      exact burden_lt_goto atPc rfl rfl (Nat.succ_pos _)

theorem advances_requesting {victim : Id nodes} (atPc : before.node me = .requesting victim) :
    Advances me before := by
  by_cases reachable : (before.node victim).receives = true
  · refine ⟨.go, _, _, by simp only [step, atPc, if_pos reachable]; rfl, rfl, ?_⟩
    have posted := before.burden_post (me, victim) (.stealRequest me)
    have moved := ((before.post (me, victim) (.stealRequest me)).setPending me true).burden_goto me
      .drainMailbox
    change _ + (before.node me).away = (before.post (me, victim) (.stealRequest me)).burden + _
      at moved
    rw [atPc] at moved
    simp only [NodePc.away, Message.away] at moved posted
    omega
  · refine ⟨.go, _, _, by simp only [step, atPc, if_neg reachable]; rfl, rfl, ?_⟩
    exact burden_lt_goto atPc rfl rfl (Nat.succ_pos _)

/-- At its mailbox, with nothing in it and nothing in the pool. -/
def State.Idle (state : State (Id nodes) Task) (me : Id nodes) : Prop :=
  state.node me = .drainMailbox ∧ state.pool me = [] ∧
    ∀ sender, state.channel (sender, me) = []

/-- Every node that is not idle, has not returned and has not panicked has
something to do. -/
theorem advances_of_busy (alive : (before.node me).isPanicked = false)
    (stays : (before.node me).returned = false) (busy : ¬ before.Idle me) :
    Advances me before := by
  cases atPc : before.node me with
  | drainMailbox =>
      by_cases read : ∀ sender, before.channel (sender, me) = []
      · rcases List.eq_nil_or_concat (before.pool me) with empty | ⟨rest, task, pool⟩
        · exact absurd ⟨atPc, empty, read⟩ busy
        · exact advances_pops atPc (pool.trans List.concat_eq_append)
      · obtain ⟨sender, waits⟩ := not_forall.mp read
        exact advances_receives atPc waits
  | replying thief batch => exact advances_replying atPc
  | migrating count =>
      refine ⟨.go, _, _, by simp only [step, atPc]; rfl, rfl, ?_⟩
      exact burden_lt_goto atPc rfl rfl (Nat.succ_pos _)
  | running task =>
      refine ⟨.finish, _, _, by simp only [step, atPc]; rfl, rfl, ?_⟩
      exact burden_lt_goto atPc rfl rfl (Nat.succ_pos _)
  | spawnPush task child => exact advances_spawnPush atPc
  | loadOutstanding => exact advances_loadOutstanding atPc
  | countRequest victim =>
      refine ⟨.go, _, _, by simp only [step, atPc]; rfl, rfl, ?_⟩
      exact burden_lt_goto atPc rfl rfl (Nat.lt_succ_self _)
  | requesting victim => exact advances_requesting atPc
  | returning | exited =>
      rw [atPc] at stays
      cases stays
  | unwinding task | unwound task =>
      rw [atPc] at alive
      cases alive

/-! ### First every task is run, then everyone sees that -/

/-- Nothing has panicked so far. -/
def Ready (nodes : Nat) (initial : List Task) (state : State (Id nodes) Task) : Prop :=
  ∃ labels, (system nodes initial).Reaches labels state ∧ Calm labels

theorem Ready.step {act : Act (Id nodes) Task} (ready : Ready nodes initial before)
    (taken : step nodes me before act = some (event, after)) (calmly : event.isPanic = false) :
    (system nodes initial).step before { node := me, event := event } after ∧
      Ready nodes initial after := by
  obtain ⟨labels, reached, calm⟩ := ready
  have stepped : (system nodes initial).step before { node := me, event := event } after :=
    ⟨(me, act), Option.map_eq_some_iff.mpr ⟨_, taken, rfl⟩⟩
  refine ⟨stepped, _, reached.snoc stepped, fun label member => ?_⟩
  rcases List.mem_append.mp member with earlier | now
  · exact calm label earlier
  · rw [List.mem_singleton.mp now]
    exact calmly

theorem leads_idle :
    (system nodes initial).Leads (Ready nodes initial) fun state =>
      Ready nodes initial state ∧
        ∀ node, (state.node node).returned = true ∨ state.Idle node := by
  apply TransitionSystem.Leads.of_measure State.burden
  intro before ready
  by_cases done : ∀ node, (before.node node).returned = true ∨ before.Idle node
  · exact Or.inl done
  · obtain ⟨me, neither⟩ := not_forall.mp done
    obtain ⟨stays, busy⟩ := not_or.mp neither
    have alive : (before.node me).isPanicked = false := by
      obtain ⟨labels, reached, calm⟩ := ready
      exact not_panicked_of_calm reached calm me
    obtain ⟨act, event, after, taken, calmly, less⟩ :=
      advances_of_busy alive (Bool.not_eq_true _ ▸ stays) busy
    obtain ⟨stepped, still⟩ := ready.step taken calmly
    exact Or.inr ⟨_, after, stepped, still, less⟩

/-- What all nodes have run out of is finished. -/
theorem zero_of_idle (ready : Ready nodes initial state)
    (idle : ∀ node, (state.node node).returned = true ∨ state.Idle node) :
    state.outstanding = 0 := by
  obtain ⟨labels, reached, calm⟩ := ready
  by_cases someone : ∃ node, (state.node node).returned = true
  · obtain ⟨node, returned⟩ := someone
    exact zero_of_returned reached returned
  · have everyone : ∀ node, state.Idle node := fun node =>
      (idle node).resolve_left (not_exists.mp someone node)
    have waiting : state.waiting = 0 := by
      have pools : ∀ node, state.pool node = [] := fun node => (everyone node).2.1
      have channels : ∀ link, state.channel link = [] := fun link => (everyone link.2).2.2 link.1
      have nodes : ∀ node, state.node node = .drainMailbox := fun node => (everyone node).1
      simp [State.waiting, pools, channels, nodes, inFlight, NodePc.carried]
    have running : state.active = 0 := by
      have nodes : ∀ node, state.node node = .drainMailbox := fun node => (everyone node).1
      simp [State.active, nodes, NodePc.runs]
    have counted := (balance_of_calm reached calm).outstanding
    change state.outstanding = (state.waiting + state.active).card at counted
    rw [waiting, running] at counted
    exact counted

/-- The steps to the end of `node_main`, once nothing is left. -/
def NodePc.toReturn {Id : Type*} : NodePc Id Task → Nat
  | .drainMailbox => 2
  | .loadOutstanding => 1
  | _ => 0

/-- Nothing is unfinished, and everyone is about to see that or has seen it. -/
structure Finished (nodes : Nat) (initial : List Task) (state : State (Id nodes) Task) : Prop where
  ready : Ready nodes initial state
  outstanding : state.outstanding = 0
  looks : ∀ node, (state.node node).returned = true ∨ 0 < (state.node node).toReturn

theorem Finished.pool (finished : Finished nodes initial state) : state.pool me = [] := by
  obtain ⟨labels, reached, calm⟩ := finished.ready
  have waiting := ((balance_of_calm reached calm).empty_of_zero finished.outstanding).1
  change state.waiting = 0 at waiting
  have pools : ∑ node, (state.pool node : Multiset Task) = 0 := by
    refine Multiset.le_zero.mp (le_trans ?_ (le_of_eq waiting))
    exact le_trans (Multiset.le_add_right _ _) (Multiset.le_add_right _ _)
  exact (Multiset.coe_eq_zero _).mp (Finset.sum_eq_zero_iff.mp pools me (Finset.mem_univ me))

theorem toReturn_step (finished : Finished nodes initial before)
    (looks : 0 < (before.node me).toReturn) :
    ∃ event after, step nodes me before .go = some (event, after) ∧ event.isPanic = false ∧
      after.outstanding = 0 ∧ (after.node me).toReturn + 1 = (before.node me).toReturn ∧
      ((after.node me).returned = true ∨ 0 < (after.node me).toReturn) := by
  cases atPc : before.node me with
  | drainMailbox =>
      refine ⟨.internal, before.goto me .loadOutstanding, ?_, rfl, finished.outstanding, ?_, ?_⟩
      · simp only [step, atPc, finished.pool, List.getLast?_nil]
      · rw [goto_self]
        rfl
      · rw [goto_self]
        exact Or.inr Nat.one_pos
  | loadOutstanding =>
      refine ⟨.returns, before.goto me .returning, ?_, rfl, finished.outstanding, ?_, ?_⟩
      · simp only [step, atPc, if_pos finished.outstanding]
      · rw [goto_self]
        rfl
      · rw [goto_self]
        exact Or.inl rfl
  | _ =>
      rw [atPc] at looks
      cases looks

theorem leads_returned :
    (system nodes initial).Leads (Finished nodes initial) fun state =>
      Finished nodes initial state ∧ ∀ node, (state.node node).returned = true := by
  apply TransitionSystem.Leads.of_measure fun state => ∑ node, (state.node node).toReturn
  intro before finished
  by_cases done : ∀ node, (before.node node).returned = true
  · exact Or.inl done
  · obtain ⟨me, stays⟩ := not_forall.mp done
    obtain ⟨event, after, taken, calmly, zero, fewer, looks⟩ :=
      toReturn_step finished ((finished.looks me).resolve_left stays)
    have others := fun other (different : other ≠ me) => (step_moves taken).others different
    obtain ⟨stepped, ready⟩ := finished.ready.step taken calmly
    have lower : (∑ node, (after.node node).toReturn) + 1 ≤
        ∑ node, (before.node node).toReturn := by
      refine sum_add_le me (Nat.le_of_eq fewer) fun other different => ?_
      rw [others other different]
    refine Or.inr ⟨_, after, stepped, ⟨ready, zero, fun node => ?_⟩, lower⟩
    by_cases same : node = me
    · rw [same]
      exact looks
    · rw [others node same]
      exact finished.looks node

/-- Without a panic no node is ever stranded: some continuation lets all of them
return. -/
theorem calm_can_return (reached : (system nodes initial).Reaches labels state)
    (calm : Calm labels) : CanReturn nodes initial state := by
  obtain ⟨first, middle, emptied, ready, idle⟩ := leads_idle state ⟨labels, reached, calm⟩
  have finished : Finished nodes initial middle := by
    refine ⟨ready, zero_of_idle ready idle, fun node => (idle node).imp_right fun idles => ?_⟩
    rw [idles.1]
    exact Nat.two_pos
  obtain ⟨second, final, returned, _finished, all⟩ := leads_returned middle finished
  exact ⟨first ++ second, final, emptied.append returned, fun node _alive => all node⟩

/-- The second node has run its seeds and waits for a reply. -/
def awaitsReply : List (Id 2 × Act (Id 2) Nat) :=
  runsAll secondNode 3 ++ List.replicate 14 (secondNode, .go)

theorem calm_can_return_awaitsReply :
    ∃ labels state, (system 2 [1, 2, 3, 4, 5, 6]).Reaches labels state ∧
      state.pendingRequest secondNode = true ∧ state.outstanding = 3 ∧
      CanReturn 2 [1, 2, 3, 4, 5, 6] state := by
  have found : ∃ labels state,
      (system 2 [1, 2, 3, 4, 5, 6]).Run (start 2 [1, 2, 3, 4, 5, 6]) labels state ∧
        Calm labels ∧ state.pendingRequest secondNode = true ∧ state.outstanding = 3 :=
    TransitionSystem.execute_finds (next 2) (start 2 [1, 2, 3, 4, 5, 6]) awaitsReply
      (fun labels state => (∀ label ∈ labels, label.event.isPanic = false) ∧
        state.pendingRequest secondNode = true ∧ state.outstanding = 3)
      (by decide +kernel)
  obtain ⟨labels, state, run, calm, pending, unfinished⟩ := found
  have reached : (system 2 [1, 2, 3, 4, 5, 6]).Reaches labels state :=
    ⟨_, ⟨List.cons_ne_nil _ _, rfl⟩, run⟩
  exact ⟨labels, state, reached, pending, unfinished, calm_can_return reached calm⟩

end WsDeque.Distributed
