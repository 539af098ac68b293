import WsDeque.Scheduler.Parking

/-
Sleeping with work left: a worker that deposits a task signals afterwards, so a
worker that sleeps on its inbox still has a signal to come, until the generation
has come round.
-/

namespace WsDeque.Scheduler

variable {Task : Type*} {config : Config} {me other : config.Id}
  {before after : State config.Id Task} {event : Event config.Id Task}
  {initial : List Task} {labels : List (Label config.Id Task)} {state : State config.Id Task}

/-- In `wait_while`, with the generation it has blocked on. -/
def WorkerPc.asleep {Id : Type*} (generation : UInt64) : WorkerPc Id Task → Bool
  | .waiting gen _ => gen = generation
  | _ => false

theorem WorkerPc.waiting_of_asleep {Id : Type*} {generation : UInt64} {pc : WorkerPc Id Task}
    (asleep : pc.asleep generation = true) : ∃ notified, pc = .waiting generation notified := by
  cases pc with
  | waiting gen notified =>
      obtain rfl : gen = generation := of_decide_eq_true asleep
      exact ⟨notified, rfl⟩
  | _ => exact absurd asleep Bool.false_ne_true

/-- Some deposit for the worker still has its signal to come. -/
def State.Pending (state : State config.Id Task) (worker : config.Id) : Prop :=
  ∃ depositor origin task, state.worker depositor = .signal origin task (some worker)

/-- Somebody is awake for what is unfinished, and nobody sleeps on a deposit
that was signalled. -/
structure State.Watched (state : State config.Id Task) : Prop where
  someoneAwake : 0 < state.outstanding →
    ∃ worker, (state.worker worker).asleep state.generation = false
  signalled : ∀ worker, (state.worker worker).asleep state.generation = true →
    state.inbox worker ≠ [] → state.Pending worker

/-- A worker goes to sleep with an empty inbox, or was asleep before. -/
theorem Moves.waits (moved : Moves config me before event after) {gen : UInt64}
    {notified : Bool} (atPc : after.worker me = .waiting gen notified) :
    after.inbox = before.inbox ∧ event.isSignal = false ∧
      (gen = after.generation ∧ before.inbox me = [] ∧ event = .blocks ∨
        event ≠ .blocks ∧ ∃ flag, before.worker me = .waiting gen flag) := by
  cases moved with
  | closure origin task atPc' moved =>
      cases moved with
      | inline child early | answer answer count =>
          change before.worker me = _ at atPc
          rw [atPc'] at atPc
          cases atPc
      | finish more =>
          rw [goto_self] at atPc
          cases origin <;> cases atPc
      | _ =>
          rw [goto_self] at atPc
          cases atPc
  | resumes origin atPc' =>
      rw [goto_self] at atPc
      cases origin <;> cases atPc
  | blocks atPc' empty =>
      rw [goto_self] at atPc
      cases atPc
      exact ⟨rfl, rfl, Or.inl ⟨rfl, empty, rfl⟩⟩
  | waitsOn earlier flag atPc' free running same =>
      rw [goto_self] at atPc
      cases atPc
      refine ⟨rfl, rfl, Or.inr ⟨?_, flag, atPc'⟩⟩
      intro blocks
      cases blocks
  | _ =>
      rw [goto_self] at atPc
      cases atPc

/-- Others only deposit into an inbox. -/
theorem Moves.inbox_other (moved : Moves config me before event after) (different : other ≠ me) :
    after.inbox other = before.inbox other ∨ after.inbox other ≠ [] ∧
      ∃ origin task, after.worker me = .signal origin task (some other) := by
  cases moved with
  | closure origin task atPc moved => cases moved <;> exact Or.inl rfl
  | drains atPc task rest inbox => exact Or.inl (Function.update_of_ne different ..)
  | enqueue origin task child target atPc =>
      by_cases same : other = target
      · subst same
        refine Or.inr ⟨?_, origin, task, goto_self⟩
        change Function.update before.inbox other _ other ≠ []
        rw [Function.update_self]
        exact List.append_ne_nil_of_right_ne_nil _ (List.cons_ne_nil child [])
      · exact Or.inl (Function.update_of_ne same ..)
  | _ => exact Or.inl rfl

/-- Nothing else follows a deposit. -/
theorem Moves.isSignal (moved : Moves config me before event after) {origin : Origin}
    {task : Task} {deposit : Option config.Id}
    (atPc : before.worker me = .signal origin task deposit) : event.isSignal = true := by
  cases moved with
  | signal origin task deposit atPc' free => rfl
  | closure origin' task' atPc' moved =>
      rw [atPc'] at atPc
      cases atPc
  | _ => simp only [*, reduceCtorEq] at atPc

theorem State.Pending.step {worker : config.Id} (moved : Moves config me before event after)
    (unsignalled : event.isSignal = false) (pending : before.Pending worker) :
    after.Pending worker := by
  obtain ⟨depositor, origin, task, atPc⟩ := pending
  refine ⟨depositor, origin, task, ?_⟩
  by_cases same : depositor = me
  · subst same
    rw [moved.isSignal atPc] at unsignalled
    cases unsignalled
  · rcases moved.others same with kept | notified
    · rw [kept, atPc]
    · rw [notified, atPc]
      rfl

/-- The generation tells how many signals there were since a worker fell
asleep, up to the width of its counter. -/
structure SleepNoted (labels : List (Label config.Id Task)) (state : State config.Id Task)
    (worker : config.Id) (gen : UInt64) : Prop where
  generation : state.generation = gen + UInt64.ofNat (signalsSince (blocking worker) labels)
  pending : signalsSince (blocking worker) labels = 0 → state.inbox worker ≠ [] →
    state.Pending worker

theorem blocking_self {label : Label config.Id Task} (blocks : label.event = .blocks) :
    blocking label.worker label = true := by
  simp only [blocking, blocks, decide_true]

theorem not_blocking {worker : config.Id} {label : Label config.Id Task}
    (other : worker = label.worker → label.event ≠ .blocks) : blocking worker label = false := by
  unfold blocking
  split
  · rename_i blocks
    rw [decide_eq_false_iff_not]
    intro same
    exact other same.symm blocks
  · rfl

theorem sleepNoted_of_blocks {label : Label config.Id Task} (blocks : label.event = .blocks)
    (empty : after.inbox label.worker = []) :
    SleepNoted (labels ++ [label]) after label.worker after.generation := by
  have marked : signalsSince (blocking label.worker) (labels ++ [label]) = 0 := by
    rw [signalsSince_snoc, blocking_self blocks]
    rfl
  constructor
  · rw [marked]
    exact (UInt64.add_zero _).symm
  · intro _none stocked
    exact absurd empty stocked

theorem SleepNoted.signal {label : Label config.Id Task} {worker : config.Id} {gen : UInt64}
    (noted : SleepNoted labels before worker gen)
    (moved : Moves config label.worker before label.event after)
    (unmarked : blocking worker label = false) (signals : label.event.isSignal = true) :
    SleepNoted (labels ++ [label]) after worker gen := by
  have generation := moved.generation
  have count := signalsSince_snoc (blocking worker) labels label
  rw [signals] at generation count
  rw [unmarked] at count
  change _ = signalsSince (blocking worker) labels + 1 at count
  constructor
  · refine generation.trans ?_
    rw [count, noted.generation, UInt64.ofNat_add, ← UInt64.add_assoc]
    rfl
  · intro none
    rw [count] at none
    cases none

theorem SleepNoted.silent {label : Label config.Id Task} {worker : config.Id} {gen : UInt64}
    (noted : SleepNoted labels before worker gen)
    (moved : Moves config label.worker before label.event after)
    (unmarked : blocking worker label = false) (unsignalled : label.event.isSignal = false)
    (inbox : after.inbox worker = before.inbox worker ∨ after.inbox worker ≠ [] ∧
      ∃ origin task, after.worker label.worker = .signal origin task (some worker)) :
    SleepNoted (labels ++ [label]) after worker gen := by
  have generation := moved.generation
  have count : signalsSince (blocking worker) (labels ++ [label]) = _ :=
    signalsSince_silent unmarked unsignalled
  rw [unsignalled] at generation
  constructor
  · rw [count]
    exact generation.trans noted.generation
  · intro none stocked
    rw [count] at none
    rcases inbox with unchanged | ⟨_stocked, origin, task, deposited⟩
    · rw [unchanged] at stocked
      exact (noted.pending none stocked).step moved unsignalled
    · exact ⟨label.worker, origin, task, deposited⟩

theorem WorkerPc.waiting_of_notify {Id : Type*} {pc : WorkerPc Id Task} {gen : UInt64}
    {notified : Bool} (atPc : pc.notify = .waiting gen notified) :
    ∃ flag, pc = .waiting gen flag := by
  cases pc with
  | waiting gen' flag =>
      cases atPc
      exact ⟨flag, rfl⟩
  | _ => cases atPc

theorem sleepNoted_of_reaches (reached : (config.system initial).Reaches labels state)
    {worker : config.Id} {gen : UInt64} {notified : Bool}
    (atPc : state.worker worker = .waiting gen notified) :
    SleepNoted labels state worker gen := by
  obtain ⟨start, isInitial, run⟩ := reached
  induction run generalizing gen notified with
  | refl =>
      obtain rfl : start = config.start initial := isInitial
      cases atPc
  | @snoc before final labels label _prior last ih =>
      obtain ⟨choice, taken⟩ := last
      have moved := next_moves taken
      by_cases same : worker = label.worker
      · subst same
        obtain ⟨inbox, unsignalled, asleep⟩ := moved.waits atPc
        rcases asleep with ⟨rfl, empty, blocks⟩ | ⟨notBlocks, flag, earlier⟩
        · exact sleepNoted_of_blocks blocks (by rw [inbox, empty])
        · exact (ih earlier).silent moved (not_blocking fun _same => notBlocks) unsignalled
            (Or.inl (congrFun inbox label.worker))
      · obtain ⟨flag, earlier⟩ : ∃ flag, before.worker worker = .waiting gen flag := by
          rcases moved.others same with kept | woken
          · exact ⟨notified, kept ▸ atPc⟩
          · exact WorkerPc.waiting_of_notify (woken ▸ atPc)
        have unmarked := not_blocking fun same' : worker = label.worker => absurd same' same
        by_cases signals : label.event.isSignal = true
        · exact (ih earlier).signal moved unmarked signals
        · exact (ih earlier).silent moved unmarked (Bool.not_eq_true _ ▸ signals)
            (moved.inbox_other same)

/-- Without a wrap of the counter, the generation is unchanged only before the
first signal. -/
theorem signalsSince_eq_zero (reached : (config.system initial).Reaches labels state)
    {worker : config.Id} (asleep : (state.worker worker).asleep state.generation = true)
    (fewer : signalsSince (blocking worker) labels < UInt64.size) :
    signalsSince (blocking worker) labels = 0 := by
  obtain ⟨notified, atPc⟩ := WorkerPc.waiting_of_asleep asleep
  have noted := (sleepNoted_of_reaches reached atPc).generation
  have zero : UInt64.ofNat (signalsSince (blocking worker) labels) = 0 := by
    simpa using noted.symm
  rw [← UInt64.toNat_ofNat_of_lt' fewer, zero]
  rfl

/-- The scheduler never sleeps with work left, unless the generation comes round
to the value that a sleeping worker has blocked on. -/
theorem watched_before_wrap (reached : (config.system initial).Reaches labels state)
    (fewer : ∀ worker, (state.worker worker).asleep state.generation = true →
      signalsSince (blocking worker) labels < UInt64.size) : state.Watched := by
  have signalled : ∀ worker, (state.worker worker).asleep state.generation = true →
      state.inbox worker ≠ [] → state.Pending worker := by
    intro worker asleep stocked
    obtain ⟨notified, atPc⟩ := WorkerPc.waiting_of_asleep asleep
    exact (sleepNoted_of_reaches reached atPc).pending
      (signalsSince_eq_zero reached asleep (fewer worker asleep)) stocked
  refine ⟨fun unfinished => ?_, signalled⟩
  by_contra everyone
  simp only [not_exists, Bool.not_eq_false] at everyone
  have resting : ∀ worker, ∃ gen notified, state.worker worker = .waiting gen notified :=
    fun worker => ⟨_, WorkerPc.waiting_of_asleep (everyone worker)⟩
  have deques : ∀ worker, state.deque worker = [] := by
    intro worker
    obtain ⟨gen, notified, atPc⟩ := resting worker
    exact idleEmpty_of_reaches reached worker (by rw [atPc]; rfl)
  have inboxes : ∀ worker, state.inbox worker = [] := by
    intro worker
    by_contra stocked
    obtain ⟨depositor, origin, task, atPc⟩ := signalled worker (everyone worker) stocked
    obtain ⟨gen, notified, rests⟩ := resting depositor
    rw [atPc] at rests
    cases rests
  have nothing : state.waiting = 0 ∧ state.running = 0 := by
    have idle : ∀ worker, (state.worker worker).carried = 0 ∧ (state.worker worker).runs = 0 := by
      intro worker
      obtain ⟨gen, notified, atPc⟩ := resting worker
      rw [atPc]
      exact ⟨rfl, rfl⟩
    constructor
    · simp [State.waiting, deques, inboxes, idle]
    · simp [State.running, idle]
  have counted := (balance_of_reaches reached).outstanding
  change state.outstanding = (state.waiting + state.running).card at counted
  rw [nothing.1, nothing.2] at counted
  simp only [add_zero, Multiset.card_zero] at counted
  omega

/-! ### Two workers, one asleep -/

/-- The first worker runs a task, while the second is in `wait_while`. -/
structure Spinning (generation : UInt64) (tasks : List Nat) (state : State twoWorkers.Id Nat) :
    Prop where
  first : state.worker firstWorker = .running .popped 3
  second : ∃ notified, state.worker secondWorker = .waiting 0 notified
  deque : state.deque firstWorker = tasks
  holder : state.holder = none
  outstanding : state.outstanding = tasks.length + 1
  generation : state.generation = generation

def parksBeside : List (twoWorkers.Id × Act Nat) :=
  List.replicate 2 (firstWorker, .go) ++ List.replicate 26 (secondWorker, .go)

theorem watched_before_wrap_parksBeside :
    ∃ labels state, (twoWorkers.system [3]).Reaches labels state ∧
      (state.worker secondWorker).asleep state.generation = true ∧ state.Watched := by
  obtain ⟨labels, state, run, asleep, fewer⟩ :=
    TransitionSystem.execute_finds twoWorkers.next (twoWorkers.start [3]) parksBeside
      (fun labels state => (state.worker secondWorker).asleep state.generation = true ∧
        ∀ worker, (state.worker worker).asleep state.generation = true →
          signalsSince (blocking worker) labels < 1)
      (by decide +kernel)
  have reached : (twoWorkers.system [3]).Reaches labels state := ⟨_, rfl, run⟩
  refine ⟨labels, state, reached, asleep, watched_before_wrap reached fun worker sleeps => ?_⟩
  have none := fewer worker sleeps
  rw [UInt64.size]
  omega

theorem spinning_zero :
    ∃ state, (twoWorkers.system [3]).Reachable state ∧ Spinning 0 [] state := by
  have reached : (twoWorkers.system [3]).Reaches _ _ :=
    ⟨_, rfl, TransitionSystem.execute_run parksBeside rfl⟩
  exact ⟨_, reached.reachable, rfl, ⟨false, rfl⟩, rfl, rfl, rfl, rfl⟩

theorem second_ne_first : secondWorker ≠ firstWorker := by
  decide

/-- The running task spawns its own kind. -/
def spawns : List (twoWorkers.Id × Act Nat) :=
  (firstWorker, .spawn 3) :: List.replicate 4 (firstWorker, .go)

theorem Spinning.spawn {generation : UInt64} {state : State twoWorkers.Id Nat}
    (spinning : Spinning generation [] state) :
    ∃ labels later,
      TransitionSystem.execute twoWorkers.next state spawns = some (labels, later) ∧
        Spinning (generation + 1) [3] later := by
  obtain ⟨first, ⟨notified, second⟩, deque, holder, outstanding, same⟩ := spinning
  simp only [spawns, List.replicate, TransitionSystem.execute, Config.next, Config.step,
    Config.closureStep, first, holder, State.goto, State.announce, State.setDeque,
    State.notifyAll, Function.update_self, Option.map_some, Option.bind_some, reduceIte]
  refine ⟨_, _, rfl, ?_, ⟨true, ?_⟩, ?_, ?_, ?_, ?_⟩
  all_goals simp [WorkerPc.notify, second_ne_first, second, deque, outstanding, same]

/-- The running task finishes and the next one is popped. -/
def popsNext : List (twoWorkers.Id × Act Nat) :=
  [(firstWorker, .finish), (firstWorker, .go)]

theorem Spinning.pop {generation : UInt64} {state : State twoWorkers.Id Nat}
    (spinning : Spinning generation [3] state) :
    ∃ labels later,
      TransitionSystem.execute twoWorkers.next state popsNext = some (labels, later) ∧
        Spinning generation [] later := by
  obtain ⟨first, ⟨notified, second⟩, deque, holder, outstanding, same⟩ := spinning
  simp only [popsNext, TransitionSystem.execute, Config.next, Config.step, Config.closureStep,
    first, deque, outstanding, State.goto, State.setDeque, Origin.resume, Function.update_self,
    Option.map_some, Option.bind_some, reduceIte, List.length_singleton, Nat.reduceAdd,
    Nat.reduceEqDiff, List.getLast?_singleton]
  refine ⟨_, _, rfl, ?_, ⟨notified, ?_⟩, ?_, ?_, ?_, ?_⟩
  all_goals simp [second_ne_first, second, holder, same]

theorem spinning_reached (laps : Nat) :
    ∃ state, (twoWorkers.system [3]).Reachable state ∧
      Spinning (UInt64.ofNat laps) [] state := by
  induction laps with
  | zero => exact spinning_zero
  | succ laps ih =>
      obtain ⟨state, ⟨labels, start, isInitial, run⟩, spinning⟩ := ih
      obtain ⟨spawned, middle, spawning, full⟩ := spinning.spawn
      obtain ⟨popped, later, popping, spins⟩ := full.pop
      have first : (twoWorkers.system [3]).Run state spawned middle :=
        TransitionSystem.execute_run spawns spawning
      have second : (twoWorkers.system [3]).Run middle popped later :=
        TransitionSystem.execute_run popsNext popping
      refine ⟨later, ⟨_, start, isInitial, (run.append first).append second⟩, ?_⟩
      rw [UInt64.ofNat_add]
      exact spins

/-- The running task leaves a task to the second worker and signals. -/
def deposits : List (twoWorkers.Id × Act Nat) :=
  [(firstWorker, .spawnAt 3 1), (firstWorker, .go), (firstWorker, .go)]

theorem Spinning.deposit {generation : UInt64} {state : State twoWorkers.Id Nat}
    (spinning : Spinning generation [] state) :
    ∃ labels later,
      TransitionSystem.execute twoWorkers.next state deposits = some (labels, later) ∧
        later.generation = generation + 1 ∧
        later.worker firstWorker = .notifyWork .popped 3 ∧
        (∃ notified, later.worker secondWorker = .waiting 0 notified) ∧
        later.inbox secondWorker ≠ [] := by
  obtain ⟨first, ⟨notified, second⟩, deque, holder, outstanding, same⟩ := spinning
  have target : (⟨min 1 (twoWorkers.workers - 1), Nat.one_lt_two⟩ : twoWorkers.Id) =
      secondWorker := rfl
  simp only [deposits, TransitionSystem.execute, Config.next, Config.step, Config.closureStep,
    first, holder, same, State.goto, State.announce, State.setInbox, Function.update_self,
    Option.map_some, Option.bind_some, reduceIte, target, second_ne_first]
  refine ⟨_, _, rfl, rfl, ?_, ⟨notified, ?_⟩, ?_⟩
  all_goals simp [second_ne_first, second]

/-- After as many signals as the counter has values, the second worker sleeps
on a deposit whose signal has been given. -/
theorem not_watched :
    ¬ ∀ state : State twoWorkers.Id Nat, (twoWorkers.system [3]).Reachable state →
      state.Watched := by
  intro claim
  obtain ⟨state, ⟨labels, start, isInitial, run⟩, spinning⟩ :=
    spinning_reached (UInt64.size - 1)
  obtain ⟨more, later, executed, generation, first, ⟨notified, second⟩, stocked⟩ :=
    spinning.deposit
  have further : (twoWorkers.system [3]).Run state more later :=
    TransitionSystem.execute_run deposits executed
  have watched := claim later ⟨_, start, isInitial, run.append further⟩
  have wrapped : later.generation = 0 := generation.trans rfl
  obtain ⟨depositor, origin, task, atPc⟩ := watched.signalled secondWorker
    (by rw [second, wrapped]; rfl) stocked
  by_cases same : depositor = firstWorker
  · rw [same, first] at atPc
    cases atPc
  · have isSecond : depositor = secondWorker := by
      have bound : depositor.val < 2 := depositor.isLt
      have positive : depositor.val ≠ 0 := fun zero => same (Fin.ext zero)
      exact Fin.ext (by change depositor.val = 1; omega)
    rw [isSecond, second] at atPc
    cases atPc

end WsDeque.Scheduler
