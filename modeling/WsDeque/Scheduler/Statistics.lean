import WsDeque.Scheduler.Panic

/-
The statistics that `run_with_config` returns: its count of tasks adds the
steals to the seeds, whatever was spawned and whatever was stolen.
-/

namespace WsDeque.Scheduler

open TaskPool

structure Stats where
  tasks : Nat
  steals : Nat
  stealAttempts : Nat

variable {Task : Type*} {config : Config} {me : config.Id}
  {before after : State config.Id Task} {event : Event config.Id Task}
  {initial : List Task} {labels : List (Label config.Id Task)} {state : State config.Id Task}

/-- What `run_with_config` returns when its threads have left this state behind;
it starts none without a seed. -/
def Config.stats (config : Config) (initial : List Task) (state : State config.Id Task) : Stats :=
  if initial.isEmpty then
    { tasks := 0
      steals := 0
      stealAttempts := 0 }
  else
    { tasks := initial.length + state.steals
      steals := state.steals
      stealAttempts := state.stealAttempts }

/-- A task that its worker popped from its own deque. -/
def Event.popped {Id : Type*} : Event Id Task → Option Task
  | .started .popped task => some task
  | _ => none

def Event.stolen {Id : Type*} : Event Id Task → Option Task
  | .started .stolen task => some task
  | _ => none

theorem Moves.steals (moved : Moves config me before event after) :
    after.steals = before.steals + (event.stolen.elim 0 fun _task => 1) := by
  cases moved with
  | closure origin task atPc moved => cases moved <;> rfl
  | _ => rfl

theorem tasksOf_snoc (kind : Event config.Id Task → Option Task)
    (labels : List (Label config.Id Task)) (label : Label config.Id Task) :
    tasksOf kind (labels ++ [label]) =
      tasksOf kind labels + (kind label.event).elim 0 ({·}) := by
  unfold tasksOf
  rw [List.filterMap_append, ← Multiset.coe_add]
  cases named : kind label.event with
  | none => simp [named]
  | some task => simp [named]

theorem steals_of_reaches (reached : (config.system initial).Reaches labels state) :
    state.steals = (tasksOf Event.stolen labels).card := by
  obtain ⟨start, isInitial, run⟩ := reached
  induction run with
  | refl =>
      obtain rfl : start = config.start initial := isInitial
      rfl
  | @snoc before final labels label _prior last ih =>
      obtain ⟨choice, taken⟩ := last
      rw [(next_moves taken).steals, ih, tasksOf_snoc, Multiset.card_add]
      cases label.event.stolen <;> rfl

/-- A task starts after a pop or after a steal. -/
theorem begun_eq (labels : List (Label config.Id Task)) :
    tasksOf Event.begun labels = tasksOf Event.popped labels + tasksOf Event.stolen labels := by
  induction labels with
  | nil => rfl
  | cons label rest ih =>
      have share : ((label.event.begun).elim 0 ({·}) : Multiset Task) =
          (label.event.popped).elim 0 ({·}) + (label.event.stolen).elim 0 ({·}) := by
        cases label.event with
        | started origin task => cases origin <;> rfl
        | _ => rfl
      simp only [tasksOf_cons]
      rw [ih, share, add_add_add_comm]

/-- At the end what was started is what was seeded or spawned. -/
theorem begun_at_end (reached : (config.system initial).Reaches labels state)
    (exited : ∀ worker, state.worker worker = .exited) :
    (tasksOf Event.begun labels).card = initial.length + (tasksOf Event.spawned labels).card := by
  have balance := balance_of_reaches reached
  have spawned : tasks TaskPool.Event.announced (poolEvents labels) =
      tasksOf Event.spawned labels := tasksOf_pool (fun event => by cases event <;> rfl) labels
  have begun : tasks TaskPool.Event.started (poolEvents labels) = tasksOf Event.begun labels :=
    tasksOf_pool (fun event => by cases event <;> rfl) labels
  have announced := balance.announced
  have ended : state.Ended := by
    refine Or.inr ⟨⟨0, config.someWorker⟩, ?_⟩
    rw [exited]
    rfl
  rw [spawned, begun, (balance.empty_of_zero (zero_of_ended reached ended)).1, zero_add]
    at announced
  rw [← announced, Multiset.card_add, Multiset.coe_card]

/-- Without a seed nothing is ever spawned. -/
theorem spawned_of_empty (reached : (config.system ([] : List Task)).Reaches labels state) :
    state.outstanding = 0 ∧ tasksOf Event.spawned labels = 0 := by
  obtain ⟨start, isInitial, run⟩ := reached
  induction run with
  | refl =>
      obtain rfl : start = config.start [] := isInitial
      exact ⟨rfl, rfl⟩
  | @snoc before final labels label prior last ih =>
      obtain ⟨choice, taken⟩ := last
      obtain ⟨zero, nothing⟩ := ih
      have moved := (next_moves taken).pool
      have balance := balance_of_reaches ⟨start, isInitial, prior⟩
      refine ⟨balance.stays_zero zero moved, ?_⟩
      rw [tasksOf_snoc, nothing]
      cases event : label.event with
      | announced child =>
          rw [event] at moved
          cases moved with
          | announce child working => exact absurd (balance.empty_of_zero zero).2 working
      | _ => rfl

/-- The returned count of tasks is the number of tasks executed, and of seeds and
spawns. -/
structure Stats.Counts (stats : Stats) (initial : List Task)
    (labels : List (Label config.Id Task)) : Prop where
  executed : stats.tasks = (tasksOf Event.begun labels).card
  given : stats.tasks = initial.length + (tasksOf Event.spawned labels).card

/-- The count is right exactly when the workers popped as many tasks from their
own deques as there were seeds. -/
theorem stats_count_iff (reached : (config.system initial).Reaches labels state)
    (exited : ∀ worker, state.worker worker = .exited) :
    (config.stats initial state).Counts initial labels ↔
      (tasksOf Event.popped labels).card = initial.length := by
  have ended := begun_at_end reached exited
  have steals := steals_of_reaches reached
  have split := congrArg Multiset.card (begun_eq labels)
  rw [Multiset.card_add] at split
  have counted : (config.stats initial state).tasks = initial.length + state.steals := by
    unfold Config.stats
    cases initial with
    | nil =>
        have nothing := (spawned_of_empty reached).2
        rw [nothing] at ended
        change _ = 0 at ended
        change 0 = 0 + state.steals
        omega
    | cons seed rest => rfl
  constructor
  · intro counts
    have executed := counts.executed
    omega
  · intro popped
    exact ⟨by omega, by omega⟩

/-- The second worker steals the task that the seed spawns, and all work is done. -/
def spawnStolen : List (twoWorkers.Id × Act Nat) :=
  [(firstWorker, .go), (firstWorker, .go), (firstWorker, .spawn 5)] ++
    List.replicate 4 (firstWorker, .go) ++ List.replicate 5 (secondWorker, .go) ++
    [(secondWorker, .finish), (firstWorker, .finish)] ++
    List.replicate 27 (firstWorker, .go) ++ List.replicate 24 (secondWorker, .go)

def WorkerPc.isExited {Id : Type*} : WorkerPc Id Task → Bool
  | .exited => true
  | _ => false

theorem WorkerPc.eq_exited {Id : Type*} {pc : WorkerPc Id Task} (gone : pc.isExited = true) :
    pc = .exited := by
  cases pc <;> first | rfl | cases gone

theorem stats_count_iff_spawnStolen :
    ∃ labels state, (twoWorkers.system [3]).Reaches labels state ∧
      (twoWorkers.stats [3] state).tasks = 2 ∧
      ((twoWorkers.stats [3] state).Counts [3] labels ↔
        (tasksOf Event.popped labels).card = [3].length) := by
  have found : ∃ labels state,
      (twoWorkers.system [3]).Run (twoWorkers.start [3]) labels state ∧
        (∀ worker, (state.worker worker).isExited = true) ∧
          (twoWorkers.stats [3] state).tasks = 2 :=
    TransitionSystem.execute_finds twoWorkers.next (twoWorkers.start [3]) spawnStolen
      (fun _labels state => (∀ worker, (state.worker worker).isExited = true) ∧
        (twoWorkers.stats [3] state).tasks = 2)
      (by decide +kernel)
  obtain ⟨labels, state, run, exited, counted⟩ := found
  have reached : (twoWorkers.system [3]).Reaches labels state := ⟨_, rfl, run⟩
  exact ⟨labels, state, reached, counted,
    stats_count_iff reached fun worker => WorkerPc.eq_exited (exited worker)⟩

/-- A single worker, whose seed spawns one task. -/
def spawnsAlone : List ((Config.clamp 1 1 1).Id × Act Nat) :=
  ([.go, .go, .spawn 5, .go, .go, .go, .go, .finish, .go, .finish, .go, .go, .go, .go, .go, .go,
    .go, .go] : List (Act Nat)).map fun act => (⟨0, Nat.one_pos⟩, act)

theorem not_stats_count :
    ¬ ∀ (labels : List (Label (Config.clamp 1 1 1).Id Nat))
        (state : State (Config.clamp 1 1 1).Id Nat),
      ((Config.clamp 1 1 1).system [3]).Reaches labels state →
        (∀ worker, state.worker worker = .exited) →
          ((Config.clamp 1 1 1).stats [3] state).Counts [3] labels := by
  intro claim
  have found : ∃ labels state,
      ((Config.clamp 1 1 1).system [3]).Run ((Config.clamp 1 1 1).start [3]) labels state ∧
        (∀ worker, (state.worker worker).isExited = true) ∧
          ((Config.clamp 1 1 1).stats [3] state).tasks ≠
            [3].length + (labels.filterMap fun label => label.event.spawned).length :=
    TransitionSystem.execute_finds (Config.clamp 1 1 1).next ((Config.clamp 1 1 1).start [3])
      spawnsAlone
      (fun labels state => (∀ worker, (state.worker worker).isExited = true) ∧
        ((Config.clamp 1 1 1).stats [3] state).tasks ≠
          [3].length + (labels.filterMap fun label => label.event.spawned).length)
      (by decide +kernel)
  obtain ⟨labels, state, run, exited, wrong⟩ := found
  exact wrong (claim labels state ⟨_, rfl, run⟩
    fun worker => WorkerPc.eq_exited (exited worker)).given

end WsDeque.Scheduler
