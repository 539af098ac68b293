import WsDeque.Distributed.Tasks

/-
When the nodes return: only once no task is unfinished. Without a panic no
batch with a task in it is ever dropped or left unread.
-/

namespace WsDeque.Distributed

open TaskPool

variable {Task : Type*} {nodes : Nat} {me other : Id nodes}
  {before after : State (Id nodes) Task} {event : Event (Id nodes) Task} {initial : List Task}
  {labels : List (Label (Id nodes) Task)} {state : State (Id nodes) Task}

/-! ### With panics too -/

theorem Moves.covered (moved : Moves nodes me before event after)
    (covered : before.tasks.Covered) : after.tasks.Covered := by
  by_cases kept : ∀ batch, event = .drops batch → batch = []
  · exact covered.step (moved.tasks kept)
  · cases moved with
    | drops thief batch atPc dropped =>
        have lost := waiting_drops atPc
        have active := (before.active_goto me .drainMailbox).same (by rw [atPc]; rfl)
        unfold Pool.Covered at *
        change (before.waiting + before.active).card ≤ before.outstanding at covered
        rw [← lost, Multiset.card_add, Multiset.card_add] at covered
        change ((before.goto me .drainMailbox).waiting +
          (before.goto me .drainMailbox).active).card ≤ before.outstanding
        rw [active, Multiset.card_add]
        omega
    | _ => exact absurd (fun _batch drops => by cases drops) kept

theorem covered_of_reaches (reached : (system nodes initial).Reaches labels state) :
    state.tasks.Covered := by
  obtain ⟨start, isInitial, run⟩ := reached
  induction run with
  | refl =>
      rw [isInitial.2, start_tasks]
      exact Pool.covered_start initial
  | snoc _prior last ih =>
      obtain ⟨choice, taken⟩ := last
      exact (next_moves taken).covered ih

theorem Moves.stays_zero (moved : Moves nodes me before event after)
    (covered : before.tasks.Covered) (zero : before.outstanding = 0) :
    after.outstanding = 0 := by
  by_cases kept : ∀ batch, event = .drops batch → batch = []
  · exact covered.stays_zero zero (moved.tasks kept)
  · cases moved with
    | drops thief batch atPc dropped => exact zero
    | _ => exact absurd (fun _batch drops => by cases drops) kept

theorem Moves.returned (moved : Moves nodes me before event after)
    (returned : (after.node other).returned = true) :
    (before.node other).returned = true ∨ before.outstanding = 0 := by
  by_cases same : other = me
  · subst same
    cases moved with
    | finds atPc zero => exact Or.inr zero
    | leaves atPc => exact Or.inl (by rw [atPc]; rfl)
    | _ =>
        rw [goto_self] at returned
        exact absurd returned Bool.false_ne_true
  · rw [moved.others same] at returned
    exact Or.inl returned

/-- A node returns only when nothing is unfinished. -/
theorem zero_of_returned (reached : (system nodes initial).Reaches labels state)
    (returned : (state.node me).returned = true) : state.outstanding = 0 := by
  obtain ⟨start, isInitial, run⟩ := reached
  induction run with
  | refl =>
      rw [isInitial.2] at returned
      cases returned
  | snoc prior last ih =>
      obtain ⟨choice, taken⟩ := last
      have moved := next_moves taken
      have covered := covered_of_reaches ⟨start, isInitial, prior⟩
      rcases moved.returned returned with earlier | zero
      · exact moved.stays_zero covered (ih earlier)
      · exact moved.stays_zero covered zero

/-! ### Without a panic -/

def Event.isPanic {Id : Type*} : Event Id Task → Bool
  | .panics => true
  | _ => false

/-- No closure has panicked so far. -/
def Calm (labels : List (Label (Id nodes) Task)) : Prop :=
  ∀ label ∈ labels, label.event.isPanic = false

theorem Calm.front {label : Label (Id nodes) Task} (calm : Calm (labels ++ [label])) :
    Calm labels :=
  fun earlier member => calm earlier (List.mem_append_left _ member)

theorem Calm.last {label : Label (Id nodes) Task} (calm : Calm (labels ++ [label])) :
    label.event.isPanic = false :=
  calm label (List.mem_append_right _ (List.mem_singleton_self label))

theorem Moves.isPanicked (moved : Moves nodes me before event after) :
    (after.node me).isPanicked = (event.isPanic || (before.node me).isPanicked) := by
  cases moved <;> rw [goto_self] <;> simp only [*] <;> rfl

theorem not_panicked_of_calm (reached : (system nodes initial).Reaches labels state)
    (calm : Calm labels) (node : Id nodes) : (state.node node).isPanicked = false := by
  obtain ⟨start, isInitial, run⟩ := reached
  induction run with
  | refl =>
      rw [isInitial.2]
      rfl
  | @snoc before final labels label _prior last ih =>
      obtain ⟨choice, taken⟩ := last
      have moved := next_moves taken
      by_cases same : node = label.node
      · subst same
        rw [moved.isPanicked, calm.last, ih calm.front]
        rfl
      · rw [moved.others same, ih calm.front]

theorem NodePc.returned_of_dropped {Id : Type*} {pc : NodePc Id Task}
    (dropped : pc.receives = false) (alive : pc.isPanicked = false) : pc.returned = true := by
  cases pc with
  | exited => rfl
  | unwound task => cases alive
  | _ => cases dropped

/-- A send fails only when nothing is left to send. -/
theorem Moves.keeps (moved : Moves nodes me before event after)
    (reached : (system nodes initial).Reaches labels before) (calm : Calm labels) :
    ∀ batch, event = .drops batch → batch = [] := by
  intro batch drops
  cases moved with
  | drops thief batch' atPc dropped =>
      cases drops
      have zero := zero_of_returned reached
        (NodePc.returned_of_dropped dropped (not_panicked_of_calm reached calm thief))
      have empty := ((covered_of_reaches reached).empty_of_zero zero).1
      change before.waiting = 0 at empty
      rw [← waiting_drops atPc] at empty
      have below : (batch : Multiset Task) ≤ 0 := by
        rw [← empty]
        exact Multiset.le_add_left _ _
      exact (Multiset.coe_eq_zero batch).mp (Multiset.le_zero.mp below)
  | _ => cases drops

theorem balance_of_calm (reached : (system nodes initial).Reaches labels state)
    (calm : Calm labels) : Balance initial (poolEvents labels) state.tasks := by
  obtain ⟨start, isInitial, run⟩ := reached
  induction run with
  | refl =>
      rw [isInitial.2, start_tasks]
      exact .initial initial
  | snoc prior last ih =>
      obtain ⟨choice, taken⟩ := last
      have moved := next_moves taken
      have keeps := moved.keeps ⟨start, isInitial, prior⟩ calm.front
      unfold poolEvents
      rw [List.map_append]
      exact (ih calm.front).step (moved.tasks keeps)

/-! ### Every task exactly once -/

theorem mem_inFlight {Id : Type*} {messages : List (Message Id Task)} {batch : List Task}
    {task : Task} (sent : .work batch ∈ messages) (member : task ∈ batch) :
    task ∈ inFlight messages := by
  induction messages with
  | nil => cases sent
  | cons message rest ih =>
      rw [inFlight_cons, Multiset.mem_add]
      rcases List.mem_cons.mp sent with rfl | further
      · exact Or.inl (Multiset.mem_coe.mpr member)
      · exact Or.inr (ih further)

theorem unread_of_waiting {link : Id nodes × Id nodes} {batch : List Task}
    (sent : .work batch ∈ state.channel link) (nothing : state.waiting = 0) : batch = [] := by
  cases batch with
  | nil => rfl
  | cons task rest =>
      have member : task ∈ ∑ link, inFlight (state.channel link) :=
        Multiset.mem_sum.mpr ⟨link, Finset.mem_univ link, mem_inFlight sent List.mem_cons_self⟩
      have waits : task ∈ state.waiting :=
        Multiset.mem_add.mpr (Or.inl (Multiset.mem_add.mpr (Or.inr member)))
      rw [nothing] at waits
      exact absurd waits (Multiset.notMem_zero task)

theorem kept_of_calm (reached : (system nodes initial).Reaches labels state)
    (calm : Calm labels) {label : Label (Id nodes) Task} (member : label ∈ labels)
    {batch : List Task} (drops : label.event = .drops batch) : batch = [] := by
  obtain ⟨start, isInitial, run⟩ := reached
  induction run with
  | refl => cases member
  | snoc prior last ih =>
      obtain ⟨choice, taken⟩ := last
      rcases List.mem_append.mp member with earlier | now
      · exact ih calm.front earlier
      · obtain rfl := List.mem_singleton.mp now
        exact (next_moves taken).keeps ⟨start, isInitial, prior⟩ calm.front batch drops

/-- Every task seeded or announced is waiting, running or finished, each as often
as the other, and `outstanding` counts the first two; no task is dropped with a
batch or left behind in a mailbox; and a node returns only when all are done. -/
structure Conserved (initial : List Task) (labels : List (Label (Id nodes) Task))
    (state : State (Id nodes) Task) : Prop where
  balance : Balance initial (poolEvents labels) state.tasks
  kept : ∀ label ∈ labels, ∀ batch, label.event = .drops batch → batch = []
  read : ∀ node, (state.node node).returned = true →
    ∀ sender batch, .work batch ∈ state.channel (sender, node) → batch = []
  ended : (∃ node, (state.node node).returned = true) →
    state.waiting = 0 ∧ state.active = 0 ∧
      (initial : Multiset Task) + tasks TaskPool.Event.announced (poolEvents labels) =
        tasks TaskPool.Event.finished (poolEvents labels)

/-- The distributed runtime runs every task exactly once. -/
theorem distributed_exactly_once (reached : (system nodes initial).Reaches labels state)
    (calm : Calm labels) : Conserved initial labels state := by
  have balance := balance_of_calm reached calm
  constructor
  · exact balance
  · intro label member batch drops
    exact kept_of_calm reached calm member drops
  · intro node returned sender batch sent
    exact unread_of_waiting sent (balance.empty_of_zero (zero_of_returned reached returned)).1
  · rintro ⟨node, returned⟩
    have zero : state.tasks.outstanding = 0 := zero_of_returned reached returned
    obtain ⟨waiting, running⟩ := balance.empty_of_zero zero
    exact ⟨waiting, running, balance.all_finished zero⟩

/-! ### Two nodes and six seeds -/

def firstNode : Id 2 :=
  ⟨0, Nat.two_pos⟩

def secondNode : Id 2 :=
  ⟨1, Nat.one_lt_two⟩

def runsAll (node : Id 2) (tasks : Nat) : List (Id 2 × Act (Id 2) Nat) :=
  (List.replicate tasks [(node, .go), (node, .finish)]).flatten

/-- The second node runs its seeds, asks the first one for more, and runs what
it is given; the first one runs the rest and returns. -/
def stealsOnce : List (Id 2 × Act (Id 2) Nat) :=
  runsAll secondNode 3 ++ List.replicate 14 (secondNode, .go) ++
    [(firstNode, .receive secondNode), (firstNode, .go), (firstNode, .go),
      (secondNode, .receive firstNode)] ++
    runsAll secondNode 1 ++ runsAll firstNode 2 ++ List.replicate 2 (firstNode, .go)

theorem distributed_exactly_once_stealsOnce :
    ∃ labels state, (system 2 [1, 2, 3, 4, 5, 6]).Reaches labels state ∧
      (state.node firstNode).returned = true ∧ state.migrated = 1 ∧
      Conserved [1, 2, 3, 4, 5, 6] labels state := by
  have found : ∃ labels state,
      (system 2 [1, 2, 3, 4, 5, 6]).Run (start 2 [1, 2, 3, 4, 5, 6]) labels state ∧
        Calm labels ∧ (state.node firstNode).returned = true ∧ state.migrated = 1 :=
    TransitionSystem.execute_finds (next 2) (start 2 [1, 2, 3, 4, 5, 6]) stealsOnce
      (fun labels state => (∀ label ∈ labels, label.event.isPanic = false) ∧
        (state.node firstNode).returned = true ∧ state.migrated = 1)
      (by decide +kernel)
  obtain ⟨labels, state, run, calm, returned, migrated⟩ := found
  have reached : (system 2 [1, 2, 3, 4, 5, 6]).Reaches labels state :=
    ⟨_, ⟨List.cons_ne_nil _ _, rfl⟩, run⟩
  exact ⟨labels, state, reached, returned, migrated, distributed_exactly_once reached calm⟩

end WsDeque.Distributed
