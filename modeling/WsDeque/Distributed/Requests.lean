import WsDeque.Distributed.Termination

/-
Requests and replies: while something is unfinished, a node's pending flag
stands for exactly one message of its exchange, wherever that message is.
-/

namespace WsDeque.Distributed

section

variable {Id Task : Type*} [DecidableEq Id]

/-- The message to the receiver belongs to the exchange of the node. -/
def Message.concerns (node receiver : Id) : Message Id Task → Bool
  | .stealRequest thief => thief = node
  | .work _ => receiver = node

/-- A request of the node has been taken and is being answered. -/
def NodePc.answering (node : Id) : NodePc Id Task → Nat
  | .replying thief _ => (decide (thief = node)).toNat
  | _ => 0

variable [Fintype Id]

/-- The messages of the exchange of a node. -/
def State.exchange (state : State Id Task) (node : Id) : Nat :=
  (∑ link, (state.channel link).countP (Message.concerns node link.2)) +
    ∑ other, (state.node other).answering node

variable (state : State Id Task) (node : Id)

theorem State.exchange_goto {me : Id} {old : NodePc Id Task} (atPc : state.node me = old)
    (pc : NodePc Id Task) :
    (state.goto me pc).exchange node + old.answering node =
      state.exchange node + pc.answering node := by
  rw [← atPc]
  exact (sum_update_shifts (NodePc.answering node) state.node me pc).add_left _

theorem State.exchange_setChannel (link : Id × Id) (messages : List (Message Id Task)) :
    Shifts (state.exchange node) ((state.channel link).countP (Message.concerns node link.2))
      (messages.countP (Message.concerns node link.2))
      ((state.setChannel link messages).exchange node) :=
  (sum_update_shifts_at (fun link => List.countP (Message.concerns node link.2)) state.channel
    link messages).add_right _

variable {state}

theorem State.exchange_taken {link : Id × Id} {message : Message Id Task}
    {rest : List (Message Id Task)} (channel : state.channel link = message :: rest) :
    (state.setChannel link rest).exchange node + (message.concerns node link.2).toNat =
      state.exchange node := by
  apply (state.exchange_setChannel node link rest).loses
  rw [channel, List.countP_cons]
  cases message.concerns node link.2 <;> rfl

variable (state)

theorem State.exchange_post (link : Id × Id) (message : Message Id Task) :
    (state.post link message).exchange node =
      state.exchange node + (message.concerns node link.2).toNat := by
  apply (state.exchange_setChannel node link _).gains
  rw [List.countP_append, List.countP_singleton]
  cases message.concerns node link.2 <;> rfl

end

variable {Task : Type*} {nodes : Nat} {me other : Id nodes}
  {before after : State (Id nodes) Task} {event : Event (Id nodes) Task} {initial : List Task}
  {labels : List (Label (Id nodes) Task)} {state : State (Id nodes) Task}

/-! ### Whom a node asks -/

/-- The victim a starving node has chosen. -/
def NodePc.victim {Id : Type*} : NodePc Id Task → Option Id
  | .countRequest victim => some victim
  | .requesting victim => some victim
  | _ => none

/-- A node asks another one, and only when it is not waiting for a reply. -/
theorem Moves.asks (moved : Moves nodes me before event after) {victim : Id nodes}
    (asks : (after.node me).victim = some victim) :
    after.pendingRequest = before.pendingRequest ∧
      ((before.node me).victim = some victim ∨
        before.pendingRequest me = false ∧ victim ≠ me) := by
  cases moved with
  | chooses chosen rng atPc idle other =>
      rw [goto_self] at asks
      cases asks
      exact ⟨rfl, Or.inr ⟨idle, other⟩⟩
  | counts chosen atPc =>
      rw [goto_self] at asks
      cases asks
      exact ⟨rfl, Or.inl (by rw [atPc]; rfl)⟩
  | _ =>
      rw [goto_self] at asks
      cases asks

theorem Moves.pendingRequest_other (moved : Moves nodes me before event after)
    (different : other ≠ me) : after.pendingRequest other = before.pendingRequest other := by
  cases moved with
  | absorbs sender batch rest atPc channel => exact Function.update_of_ne different ..
  | requests victim atPc reachable => exact Function.update_of_ne different ..
  | _ => rfl

theorem asks_of_reaches (reached : (system nodes initial).Reaches labels state)
    {victim : Id nodes} (asks : (state.node me).victim = some victim) :
    state.pendingRequest me = false ∧ victim ≠ me := by
  obtain ⟨start, isInitial, run⟩ := reached
  induction run with
  | refl =>
      rw [isInitial.2] at asks
      cases asks
  | @snoc before final labels label _prior last ih =>
      obtain ⟨choice, taken⟩ := last
      have moved := next_moves taken
      by_cases same : me = label.node
      · subst same
        obtain ⟨unchanged, earlier⟩ := moved.asks asks
        rw [unchanged]
        rcases earlier with asked | chosen
        · exact ih asked
        · exact chosen
      · rw [moved.others same] at asks
        rw [moved.pendingRequest_other same]
        exact ih asks

/-- Requests travel from their thief to somebody else. -/
def State.Addressed (state : State (Id nodes) Task) : Prop :=
  ∀ link thief, .stealRequest thief ∈ state.channel link → thief = link.1 ∧ thief ≠ link.2

theorem Addressed.setChannel {link : Id nodes × Id nodes} {rest : List (Message (Id nodes) Task)}
    (addressed : before.Addressed)
    (messages : ∀ thief, .stealRequest thief ∈ rest →
      .stealRequest thief ∈ before.channel link ∨ thief = link.1 ∧ thief ≠ link.2) :
    (before.setChannel link rest).Addressed := by
  intro other thief sent
  by_cases same : other = link
  · subst same
    simp only [State.setChannel, Function.update_self] at sent
    rcases messages thief sent with earlier | now
    · exact addressed other thief earlier
    · exact now
  · simp only [State.setChannel, Function.update_of_ne same] at sent
    exact addressed other thief sent

theorem Moves.addressed (moved : Moves nodes me before event after)
    (chosen : ∀ victim, (before.node me).victim = some victim → victim ≠ me)
    (addressed : before.Addressed) : after.Addressed := by
  cases moved with
  | takesRequest sender thief rest stay batch atPc channel split half =>
      refine Addressed.setChannel addressed fun other sent => Or.inl ?_
      rw [channel]
      exact List.mem_cons_of_mem _ sent
  | absorbs sender batch rest atPc channel =>
      refine Addressed.setChannel addressed fun other sent => Or.inl ?_
      rw [channel]
      exact List.mem_cons_of_mem _ sent
  | answers thief batch atPc reachable =>
      refine Addressed.setChannel addressed fun other sent => ?_
      rcases List.mem_append.mp sent with earlier | now
      · exact Or.inl earlier
      · cases List.mem_singleton.mp now
  | requests victim atPc reachable =>
      refine Addressed.setChannel addressed fun other sent => ?_
      rcases List.mem_append.mp sent with earlier | now
      · exact Or.inl earlier
      · cases List.mem_singleton.mp now
        exact Or.inr ⟨rfl, (chosen victim (by rw [atPc]; rfl)).symm⟩
  | _ => exact addressed

theorem addressed_of_reaches (reached : (system nodes initial).Reaches labels state) :
    state.Addressed := by
  obtain ⟨start, isInitial, run⟩ := reached
  induction run with
  | refl =>
      rw [isInitial.2]
      intro link thief sent
      cases sent
  | snoc prior last ih =>
      obtain ⟨choice, taken⟩ := last
      exact (next_moves taken).addressed
        (fun _victim asks => (asks_of_reaches ⟨start, isInitial, prior⟩ asks).2) ih

/-! ### One message for a pending flag -/

theorem Moves.exchange (moved : Moves nodes me before event after)
    (chosen : ∀ victim, (before.node me).victim = some victim → before.pendingRequest me = false)
    (reachable : ∀ node, (before.node node).receives = true)
    (paired : ∀ node, before.exchange node = (before.pendingRequest node).toNat)
    (node : Id nodes) : after.exchange node = (after.pendingRequest node).toNat := by
  have here := paired node
  cases moved with
  | takesRequest sender thief rest stay batch atPc channel split half =>
      have taken := State.exchange_taken node channel
      have went := State.exchange_goto
        ((before.setChannel (sender, me) rest).setPool me stay) node atPc (.replying thief batch)
      change _ + 0 = (before.setChannel (sender, me) rest).exchange node +
        (decide (thief = node)).toNat at went
      change _ + (decide (thief = node)).toNat = _ at taken
      exact (went.trans taken).trans here
  | absorbs sender batch rest atPc channel =>
      have taken := State.exchange_taken node channel
      have went := State.exchange_goto
        (((before.setChannel (sender, me) rest).setPool me (before.pool me ++ batch)).setPending
          me false) node atPc .drainMailbox
      change _ + 0 = (before.setChannel (sender, me) rest).exchange node + 0 at went
      change _ + (decide (me = node)).toNat = _ at taken
      change _ = (Function.update before.pendingRequest me false node).toNat
      by_cases same : node = me
      · -- The reply is the one message of the exchange.
        subst same
        rw [Function.update_self]
        rw [decide_eq_true rfl] at taken
        have bound := Bool.toNat_le (before.pendingRequest node)
        change _ + 1 = _ at taken
        change _ = 0
        omega
      · rw [Function.update_of_ne same]
        rw [decide_eq_false (Ne.symm same)] at taken
        exact (went.trans taken).trans here
  | answers thief batch atPc _reachable =>
      have posted := before.exchange_post node (me, thief) (.work batch)
      have went := State.exchange_goto (before.post (me, thief) (.work batch)) node atPc
        (.migrating batch.length)
      change _ + (decide (thief = node)).toNat = _ + 0 at went
      change _ = _ + (decide (thief = node)).toNat at posted
      refine Eq.trans ?_ here
      omega
  | drops thief batch atPc dropped =>
      rw [reachable thief] at dropped
      cases dropped
  | requests victim atPc _reachable =>
      have posted := before.exchange_post node (me, victim) (.stealRequest me)
      have went := State.exchange_goto
        ((before.post (me, victim) (.stealRequest me)).setPending me true) node atPc .drainMailbox
      change _ + 0 = (before.post (me, victim) (.stealRequest me)).exchange node + 0 at went
      change _ = _ + (decide (me = node)).toNat at posted
      change _ = (Function.update before.pendingRequest me true node).toNat
      by_cases same : node = me
      · subst same
        rw [Function.update_self]
        rw [decide_eq_true rfl] at posted
        rw [chosen victim (by rw [atPc]; rfl)] at here
        change _ = _ + 1 at posted
        change _ = 0 at here
        change _ = 1
        omega
      · rw [Function.update_of_ne same]
        rw [decide_eq_false (Ne.symm same)] at posted
        exact (went.trans posted).trans here
  | missesVictim victim atPc dropped =>
      rw [reachable victim] at dropped
      cases dropped
  | spawns task child atPc | pushes task child atPc | starts task rest atPc pool
  | starves atPc empty | migrates count atPc | finishes task atPc | panics task atPc
  | unwinds task atPc | finds atPc zero | waits atPc rng | chooses victim rng atPc idle other
  | counts victim atPc | leaves atPc => exact (State.exchange_goto _ node atPc _).trans here

/-- While something is unfinished, nobody has dropped a receiver. -/
theorem receives_of_unfinished (reached : (system nodes initial).Reaches labels state)
    (calm : Calm labels) (unfinished : 0 < state.outstanding) (node : Id nodes) :
    (state.node node).receives = true := by
  by_contra dropped
  have zero := zero_of_returned reached (NodePc.returned_of_dropped
    (Bool.not_eq_true _ ▸ dropped) (not_panicked_of_calm reached calm node))
  omega

/-- What is unfinished now was so before. -/
theorem Moves.unfinished (moved : Moves nodes me before event after)
    (reached : (system nodes initial).Reaches labels before)
    (unfinished : 0 < after.outstanding) : 0 < before.outstanding := by
  by_contra finished
  have zero := moved.stays_zero (covered_of_reaches reached) (by omega)
  omega

theorem exchange_of_reaches (reached : (system nodes initial).Reaches labels state)
    (calm : Calm labels) (unfinished : 0 < state.outstanding) :
    ∀ node, state.exchange node = (state.pendingRequest node).toNat := by
  obtain ⟨start, isInitial, run⟩ := reached
  induction run with
  | refl =>
      rw [isInitial.2]
      intro node
      simp [State.exchange, Distributed.start, NodePc.answering]
  | snoc prior last ih =>
      obtain ⟨choice, taken⟩ := last
      have moved := next_moves taken
      have reached : (system nodes initial).Reaches _ _ := ⟨start, isInitial, prior⟩
      have earlier := moved.unfinished reached unfinished
      exact moved.exchange (fun _victim asks => (asks_of_reaches reached asks).1)
        (receives_of_unfinished reached calm.front earlier) (ih calm.front earlier)

/-! ### One reply for a request taken -/

def Event.takes {Id : Type*} [DecidableEq Id] (thief : Id) : Event Id Task → Bool
  | .takesRequest other => other = thief
  | _ => false

def Event.replies {Id : Type*} [DecidableEq Id] (thief : Id) : Event Id Task → Bool
  | .answers other => other = thief
  | _ => false

/-- How often a node took a step of one kind. -/
def stepsOf (node : Id nodes) (kind : Event (Id nodes) Task → Bool)
    (labels : List (Label (Id nodes) Task)) : Nat :=
  labels.countP fun label => decide (label.node = node) && kind label.event

theorem stepsOf_self (kind : Event (Id nodes) Task → Bool) (label : Label (Id nodes) Task) :
    stepsOf label.node kind (labels ++ [label]) =
      stepsOf label.node kind labels + (kind label.event).toNat := by
  unfold stepsOf
  rw [List.countP_append, List.countP_singleton, decide_eq_true rfl, Bool.true_and]
  cases kind label.event <;> rfl

theorem stepsOf_other (kind : Event (Id nodes) Task → Bool) {node : Id nodes}
    {label : Label (Id nodes) Task} (different : node ≠ label.node) :
    stepsOf node kind (labels ++ [label]) = stepsOf node kind labels := by
  unfold stepsOf
  rw [List.countP_append, List.countP_singleton, decide_eq_false (Ne.symm different),
    Bool.false_and]
  rfl

theorem Moves.answering (moved : Moves nodes me before event after)
    (reachable : ∀ node, (before.node node).receives = true) (thief : Id nodes) :
    (after.node me).answering thief + (event.replies thief).toNat =
      (before.node me).answering thief + (event.takes thief).toNat := by
  cases moved with
  | takesRequest sender other rest stay batch atPc channel split half =>
      rw [goto_self, atPc]
      exact (Nat.zero_add _).symm
  | answers other batch atPc _reachable =>
      rw [goto_self, atPc]
      exact Nat.zero_add _
  | drops other batch atPc dropped =>
      rw [reachable other] at dropped
      cases dropped
  | _ =>
      rw [goto_self]
      simp only [*]
      rfl

theorem answered_of_reaches (reached : (system nodes initial).Reaches labels state)
    (calm : Calm labels) (unfinished : 0 < state.outstanding) (node thief : Id nodes) :
    stepsOf node (Event.takes thief) labels =
      stepsOf node (Event.replies thief) labels + (state.node node).answering thief := by
  obtain ⟨start, isInitial, run⟩ := reached
  induction run with
  | refl =>
      rw [isInitial.2]
      rfl
  | @snoc before final labels label prior last ih =>
      obtain ⟨choice, taken⟩ := last
      have moved := next_moves taken
      have reached : (system nodes initial).Reaches _ _ := ⟨start, isInitial, prior⟩
      have earlier := moved.unfinished reached unfinished
      have counted := ih calm.front earlier
      by_cases same : node = label.node
      · subst same
        have balance := moved.answering (receives_of_unfinished reached calm.front earlier) thief
        rw [stepsOf_self, stepsOf_self]
        omega
      · rw [stepsOf_other _ same, stepsOf_other _ same, moved.others same, counted]

/-- The flag of a node stands for the one message of its exchange, a request is
with somebody else, and every request taken is answered once or being answered. -/
structure Paired (labels : List (Label (Id nodes) Task)) (state : State (Id nodes) Task) :
    Prop where
  flagged : ∀ node, state.pendingRequest node = true ↔ state.exchange node = 1
  single : ∀ node, state.exchange node ≤ 1
  elsewhere : ∀ link thief, .stealRequest thief ∈ state.channel link →
    thief = link.1 ∧ thief ≠ link.2
  answered : ∀ node thief, stepsOf node (Event.takes thief) labels =
    stepsOf node (Event.replies thief) labels + (state.node node).answering thief

/-- Requests and replies pair up while something is unfinished. -/
theorem requests_pair_up (reached : (system nodes initial).Reaches labels state)
    (calm : Calm labels) (unfinished : 0 < state.outstanding) : Paired labels state := by
  have exchange := exchange_of_reaches reached calm unfinished
  constructor
  · intro node
    rw [exchange]
    cases state.pendingRequest node <;> decide
  · intro node
    rw [exchange]
    exact Bool.toNat_le _
  · exact addressed_of_reaches reached
  · exact answered_of_reaches reached calm unfinished

/-- The second node has asked the first one, which is answering. -/
def asksOnce : List (Id 2 × Act (Id 2) Nat) :=
  runsAll secondNode 3 ++ List.replicate 14 (secondNode, .go) ++
    [(firstNode, .receive secondNode)]

theorem requests_pair_up_asksOnce :
    ∃ labels state, (system 2 [1, 2, 3, 4, 5, 6]).Reaches labels state ∧
      state.pendingRequest secondNode = true ∧ Paired labels state := by
  have found : ∃ labels state,
      (system 2 [1, 2, 3, 4, 5, 6]).Run (start 2 [1, 2, 3, 4, 5, 6]) labels state ∧
        Calm labels ∧ 0 < state.outstanding ∧ state.pendingRequest secondNode = true :=
    TransitionSystem.execute_finds (next 2) (start 2 [1, 2, 3, 4, 5, 6]) asksOnce
      (fun labels state => (∀ label ∈ labels, label.event.isPanic = false) ∧
        0 < state.outstanding ∧ state.pendingRequest secondNode = true)
      (by decide +kernel)
  obtain ⟨labels, state, run, calm, unfinished, pending⟩ := found
  have reached : (system 2 [1, 2, 3, 4, 5, 6]).Reaches labels state :=
    ⟨_, ⟨List.cons_ne_nil _ _, rfl⟩, run⟩
  exact ⟨labels, state, reached, pending, requests_pair_up reached calm unfinished⟩

end WsDeque.Distributed
