import WsDeque.Scheduler.Tasks

/-
When the scheduler ends: termination is declared, and a worker leaves its loop,
only once no task is unfinished. A task whose closure panicked stays unfinished.
-/

namespace WsDeque.Scheduler

open TaskPool

/-- The worker has found the scheduler done. -/
def WorkerPc.sawEnd {Id Task : Type*} : WorkerPc Id Task → Bool
  | .declare _ => true
  | .notifyDone _ => true
  | .exited => true
  | _ => false

theorem WorkerPc.notify_sawEnd {Id Task : Type*} (pc : WorkerPc Id Task) :
    pc.notify.sawEnd = pc.sawEnd := by
  cases pc <;> rfl

theorem Origin.resume_sawEnd {Id Task : Type*} (origin : Origin) :
    (origin.resume : WorkerPc Id Task).sawEnd = false := by
  cases origin <;> rfl

def State.Ended {Id Task : Type*} (state : State Id Task) : Prop :=
  state.terminated = true ∨ ∃ worker, (state.worker worker).sawEnd = true

variable {Task : Type*} {config : Config} {me : config.Id}
  {before after shifted : State config.Id Task} {event : Event config.Id Task}
  {initial : List Task} {labels : List (Label config.Id Task)} {state : State config.Id Task}

theorem State.Ended.of_goto {pc : WorkerPc config.Id Task} (running : pc.sawEnd = false)
    (ended : (shifted.goto me pc).Ended) : shifted.Ended := by
  rcases ended with declared | ⟨worker, saw⟩
  · exact Or.inl declared
  · refine Or.inr ⟨worker, ?_⟩
    by_cases same : worker = me
    · subst same
      simp only [State.goto, Function.update_self, running] at saw
      cases saw
    · simpa only [State.goto, Function.update_of_ne same] using saw

theorem State.Ended.of_notifyAll (ended : before.notifyAll.Ended) : before.Ended := by
  rcases ended with declared | ⟨worker, saw⟩
  · exact Or.inl declared
  · refine Or.inr ⟨worker, ?_⟩
    simpa only [State.notifyAll, WorkerPc.notify_sawEnd] using saw

theorem ClosureMoves.ended {origin : Origin} {task : Task}
    (moved : ClosureMoves config me before origin task event after) (ended : after.Ended) :
    before.Ended ∨ after.outstanding = 0 := by
  cases moved with
  | spawn child | promote child due | spawnAt child target other | panic =>
      exact Or.inl (ended.of_goto rfl)
  | inline child early | answer answer count => exact Or.inl ended
  | finishLast last =>
      right
      change before.outstanding - 1 = 0
      omega
  | finish more => exact Or.inl (ended.of_goto origin.resume_sawEnd)

/-- Only the end itself is seen as the end. -/
theorem Moves.ended (moved : Moves config me before event after) (ended : after.Ended) :
    before.Ended ∨ after.outstanding = 0 := by
  cases moved with
  | closure origin task atPc moved => exact moved.ended ended
  | allDone atPc zero | parkDone atPc zero => exact Or.inr zero
  | findsTerminated atPc free terminated | wakesTerminated gen notified atPc free terminated =>
      exact Or.inl (Or.inl terminated)
  | declare caller atPc free | leaves atPc =>
      exact Or.inl (Or.inr ⟨me, by rw [atPc]; rfl⟩)
  | notifyWork origin task atPc => exact Or.inl (ended.of_goto rfl).of_notifyAll
  | resumes origin atPc => exact Or.inl (ended.of_goto origin.resume_sawEnd).of_notifyAll
  | _ => exact Or.inl (ended.of_goto rfl)

/-- What has ended is finished. -/
theorem zero_of_ended (reached : (config.system initial).Reaches labels state)
    (ended : state.Ended) : state.outstanding = 0 := by
  obtain ⟨start, isInitial, run⟩ := reached
  induction run with
  | refl =>
      obtain rfl : start = config.start initial := isInitial
      rcases ended with declared | ⟨worker, saw⟩
      · cases declared
      · cases saw
  | snoc prior last ih =>
      obtain ⟨choice, taken⟩ := last
      have moved := next_moves taken
      rcases moved.ended ended with earlier | zero
      · have balance := balance_of_reaches ⟨start, isInitial, prior⟩
        exact balance.stays_zero (ih earlier) moved.pool
      · exact zero

/-! ### Every task exactly once -/

/-- A task given to `spawn`, `spawn_at` or `spawn_or_call`. -/
def Event.given {Id Task : Type*} : Event Id Task → Option Task
  | .announced child => some child
  | .inlined child => some child
  | _ => none

/-- A task whose code starts to run, as a task of its own or inline. -/
def Event.executed {Id Task : Type*} : Event Id Task → Option Task
  | .started _ task => some task
  | .inlined child => some child
  | _ => none

/-- A task that leaves its deque to run. -/
def Event.begun {Id Task : Type*} : Event Id Task → Option Task
  | .started _ task => some task
  | _ => none

def Event.completed {Id Task : Type*} : Event Id Task → Option Task
  | .finished task => some task
  | _ => none

def Event.spawned {Id Task : Type*} : Event Id Task → Option Task
  | .announced child => some child
  | _ => none

/-- The tasks that the steps of one kind name. -/
def tasksOf (kind : Event config.Id Task → Option Task) (labels : List (Label config.Id Task)) :
    Multiset Task :=
  (labels.filterMap fun label => kind label.event : List Task)

theorem tasksOf_pool {kind : Event config.Id Task → Option Task}
    {poolKind : TaskPool.Event Task → Option Task}
    (same : ∀ event : Event config.Id Task, poolKind event.pool = kind event)
    (labels : List (Label config.Id Task)) :
    tasks poolKind (poolEvents labels) = tasksOf kind labels := by
  unfold tasks poolEvents tasksOf
  rw [List.filterMap_map]
  congr 2
  funext label
  exact same label.event

theorem tasksOf_cons (kind : Event config.Id Task → Option Task) (label : Label config.Id Task)
    (rest : List (Label config.Id Task)) :
    tasksOf kind (label :: rest) = tasksOf kind rest + (kind label.event).elim 0 ({·}) := by
  unfold tasksOf
  cases named : kind label.event with
  | none => simp [named]
  | some task =>
      simp only [List.filterMap_cons, named, coe_cons]
      rfl

/-- A task run inline is given and executed in one. -/
theorem given_add_begun (labels : List (Label config.Id Task)) :
    tasksOf Event.given labels + tasksOf Event.begun labels =
      tasksOf Event.spawned labels + tasksOf Event.executed labels := by
  induction labels with
  | nil => rfl
  | cons label rest ih =>
      have share : ((label.event.given).elim 0 ({·}) : Multiset Task) +
          (label.event.begun).elim 0 ({·}) =
          (label.event.spawned).elim 0 ({·}) + (label.event.executed).elim 0 ({·}) := by
        cases label.event <;>
          simp [Event.given, Event.begun, Event.spawned, Event.executed]
      simp only [tasksOf_cons]
      rw [add_add_add_comm, ih, share, add_add_add_comm]

/-- Every task seeded or given is waiting or was executed, each as often as the
other; `outstanding` counts the unfinished ones; and nothing ends before them. -/
structure Conserved (initial : List Task) (labels : List (Label config.Id Task))
    (state : State config.Id Task) : Prop where
  once : (initial : Multiset Task) + tasksOf Event.given labels =
    state.waiting + tasksOf Event.executed labels
  located : state.outstanding = state.waiting.card + state.running.card
  counted : state.outstanding + (tasksOf Event.completed labels).card =
    initial.length + (tasksOf Event.spawned labels).card
  ended : (state.terminated = true ∨ ∃ worker, state.worker worker = .exited) →
    state.waiting = 0 ∧ state.running = 0

/-- The scheduler runs every task exactly once and ends only when all are done. -/
theorem tasks_exactly_once (reached : (config.system initial).Reaches labels state) :
    Conserved initial labels state := by
  have balance := balance_of_reaches reached
  have spawned : tasks TaskPool.Event.announced (poolEvents labels) =
      tasksOf Event.spawned labels := tasksOf_pool (fun event => by cases event <;> rfl) labels
  have completed : tasks TaskPool.Event.finished (poolEvents labels) =
      tasksOf Event.completed labels := tasksOf_pool (fun event => by cases event <;> rfl) labels
  have begun : tasks TaskPool.Event.started (poolEvents labels) = tasksOf Event.begun labels :=
    tasksOf_pool (fun event => by cases event <;> rfl) labels
  have announced := balance.announced
  have started := balance.started
  have located := balance.outstanding
  rw [spawned, begun] at announced
  rw [completed, begun] at started
  rw [Multiset.card_add] at located
  constructor
  · apply add_right_cancel (b := tasksOf Event.begun labels)
    rw [add_assoc, given_add_begun, ← add_assoc, announced]
    change state.waiting + _ + _ = _
    abel
  · exact located
  · have cards := congrArg Multiset.card announced
    have starts := congrArg Multiset.card started
    simp only [Multiset.card_add, Multiset.coe_card] at cards starts
    change state.pool.outstanding + _ = _
    omega
  · intro done
    refine balance.empty_of_zero (zero_of_ended reached ?_)
    rcases done with declared | ⟨worker, gone⟩
    · exact Or.inl declared
    · exact Or.inr ⟨worker, by rw [gone]; rfl⟩

/-- One worker and a seed that calls one task inline and spawns another. -/
def inlineThenSpawn : List ((Config.clamp 1 1 2).Id × Act Nat) :=
  [.go, .go, .spawnOrCall 5, .spawn 7, .go, .go, .go, .go, .finish, .go, .finish, .go, .go, .go,
    .go, .go, .go, .go, .go].map fun act => (⟨0, Nat.one_pos⟩, act)

theorem tasks_exactly_once_inlineThenSpawn :
    ∃ labels state, ((Config.clamp 1 1 2).system [3]).Reaches labels state ∧
      state.worker ⟨0, Nat.one_pos⟩ = .exited ∧
      tasksOf Event.executed labels = ([3, 5, 7] : List Nat) ∧ Conserved [3] labels state := by
  have reached : ((Config.clamp 1 1 2).system [3]).Reaches _ _ :=
    ⟨_, rfl, TransitionSystem.execute_run inlineThenSpawn rfl⟩
  exact ⟨_, _, reached, rfl, rfl, tasks_exactly_once reached⟩

end WsDeque.Scheduler
