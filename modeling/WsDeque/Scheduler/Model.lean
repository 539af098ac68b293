import Mathlib.Logic.Function.Basic
import WsDeque.Scheduler.Victims
import WsDeque.TransitionSystem

/-
The lifeline scheduler: `worker_main` of every worker, over deques and inboxes
whose operations are atomic.

A step of a worker is one operation on a deque, an inbox, a lifeline list or an
atomic, or one section of the park mutex; what a worker computes between two
steps belongs to the earlier one, and so do the counters of `Stats`.
-/

namespace WsDeque.Scheduler

abbrev Config.Id (config : Config) : Type :=
  Fin config.workers

def Config.victimIds (config : Config) (me : config.Id) : List config.Id :=
  (config.victims me).pmap Fin.mk fun _victim member => (config.victims_valid member).1

/-- `lifelines[me]`. -/
def Config.buddies (config : Config) (me : config.Id) : List config.Id :=
  (hypercubeNeighbours me config.workers).pmap Fin.mk fun _buddy member =>
    (hypercubeFrom_valid member).1

/-- Where the running task came from, which settles where the loop goes on. -/
inductive Origin
  | popped
  | stolen

/-- What `declare_terminated` returns to. -/
inductive Declared
  | finishTask (origin : Origin)
  | workerMain

inductive WorkerPc (Id Task : Type*)
  | drain
  | drainPush (task : Task)
  | pop (didWork : Bool)
  /-- Inside the task's closure. -/
  | running (origin : Origin) (task : Task)
  /-- `outstanding` already counts the child. -/
  | spawnPush (origin : Origin) (task child : Task)
  | clearLifelines (origin : Origin) (task : Task)
  | enqueue (origin : Origin) (task child : Task) (target : Id)
  /-- `signal_work`, in `spawn_at` with the inbox it follows a deposit in. -/
  | signal (origin : Origin) (task : Task) (deposit : Option Id)
  | notifyWork (origin : Origin) (task : Task)
  /-- `try_steal`, with the victims still to probe. -/
  | stealing (victims : List Id)
  /-- `steal_batch_and_pop`, from the snapshot of the indices on. -/
  | stealFirst (victim : Id) (want : Nat) (victims : List Id)
  | stealMore (victim : Id) (first : Task) (more : Nat)
  | stealPush (victim : Id) (first stolen : Task) (more : Nat)
  /-- `register_lifelines`, with the buddies still to register on. -/
  | registering (buddies : List Id)
  /-- The park mutex is held. -/
  | parkOutstanding
  | parkInbox
  /-- In `wait_while`. -/
  | waiting (gen : UInt64) (notified : Bool)
  | declare (caller : Declared)
  | notifyDone (caller : Declared)
  | exited
  /-- The closure of the task has panicked. -/
  | panicked (task : Task)

structure State (Id Task : Type*) where
  /-- The oldest task, which thieves take, is the head. -/
  deque : Id → List Task
  inbox : Id → List Task
  lifelineRequests : Id → List Id
  heartbeat : Id → Nat
  outstanding : Nat
  generation : UInt64
  terminated : Bool
  /-- Who holds the park mutex across steps. -/
  holder : Option Id
  steals : Nat
  stealAttempts : Nat
  worker : Id → WorkerPc Id Task

/-- What a step can leave open: the closure's next act, a lost race for a
task, and whether a wake-up was spurious. -/
inductive Act (Task : Type*)
  | go
  | spawn (child : Task)
  | spawnAt (child : Task) (worker : Nat)
  | spawnOrCall (child : Task)
  | shouldPromote
  | finish
  | panic
  | loseRace
  | wakeSpuriously

inductive Event (Id Task : Type*)
  | internal
  | announced (child : Task)
  /-- `spawn_or_call` runs the task where it stands. -/
  | inlined (child : Task)
  | promotes (answer : Bool)
  | started (origin : Origin) (task : Task)
  | finished (task : Task)
  | beginsSteal
  | probes (victim : Id)
  | signalled
  | takesPark
  | blocks
  | terminates
  | exits
  | panics

structure Label (Id Task : Type*) where
  worker : Id
  event : Event Id Task

def Origin.resume {Id Task : Type*} : Origin → WorkerPc Id Task
  | .popped => .pop true
  | .stolen => .drain

def Declared.resume {Id Task : Type*} : Declared → WorkerPc Id Task
  | .finishTask origin => origin.resume
  | .workerMain => .exited

/-- `notify_all` on the condition variable. -/
def WorkerPc.notify {Id Task : Type*} : WorkerPc Id Task → WorkerPc Id Task
  | .waiting gen _ => .waiting gen true
  | pc => pc

variable {Task : Type*}

section

variable {Id : Type*} [DecidableEq Id]

def State.goto (state : State Id Task) (me : Id) (pc : WorkerPc Id Task) : State Id Task :=
  { state with worker := Function.update state.worker me pc }

def State.setDeque (state : State Id Task) (worker : Id) (tasks : List Task) : State Id Task :=
  { state with deque := Function.update state.deque worker tasks }

def State.setInbox (state : State Id Task) (worker : Id) (tasks : List Task) : State Id Task :=
  { state with inbox := Function.update state.inbox worker tasks }

def State.notifyAll (state : State Id Task) : State Id Task :=
  { state with worker := fun worker => (state.worker worker).notify }

def State.announce (state : State Id Task) : State Id Task :=
  { state with outstanding := state.outstanding + 1 }

def State.beat (state : State Id Task) (me : Id) (count : Nat) : State Id Task :=
  { state with heartbeat := Function.update state.heartbeat me count }

end

namespace Config

variable (config : Config) (me : config.Id)

/-- The acts of a closure. -/
def closureStep (state : State config.Id Task) (origin : Origin) (task : Task) :
    Act Task → Option (Event config.Id Task × State config.Id Task)
  | .spawn child =>
      some (.announced child, state.announce.goto me (.spawnPush origin task child))
  | .spawnAt child worker =>
      let target : config.Id :=
        ⟨min worker (config.workers - 1), by have := config.someWorker; omega⟩
      if target = me then
        some (.announced child, state.announce.goto me (.spawnPush origin task child))
      else some (.announced child, state.announce.goto me (.enqueue origin task child target))
  | .spawnOrCall child =>
      let next := state.heartbeat me + 1
      if next ≥ config.heartbeatInterval then
        some (.announced child,
          ((state.beat me 0).announce).goto me (.spawnPush origin task child))
      else some (.inlined child, state.beat me next)
  | .shouldPromote =>
      let next := state.heartbeat me + 1
      if next ≥ config.heartbeatInterval then some (.promotes true, state.beat me 0)
      else some (.promotes false, state.beat me next)
  -- `finish_task`.
  | .finish =>
      let finished := { state with outstanding := state.outstanding - 1 }
      if state.outstanding = 1 then
        some (.finished task, finished.goto me (.declare (.finishTask origin)))
      else some (.finished task, finished.goto me origin.resume)
  | .panic => some (.panics, state.goto me (.panicked task))
  | .go | .loseRace | .wakeSpuriously => none

/-- A thread that sleeps in `wait_while` looks at its predicate again. -/
def recheck (state : State config.Id Task) (gen : UInt64) :
    Option (Event config.Id Task × State config.Id Task) :=
  if state.holder = none then
    if state.terminated then some (.exits, state.goto me .exited)
    else if state.generation = gen then some (.internal, state.goto me (.waiting gen false))
    else some (.internal, state.goto me .drain)
  else none

def step (state : State config.Id Task) (act : Act Task) :
    Option (Event config.Id Task × State config.Id Task) :=
  match state.worker me, act with
  | .drain, .go =>
      match state.inbox me with
      | [] => some (.internal, state.goto me (.pop false))
      | task :: rest => some (.internal, (state.setInbox me rest).goto me (.drainPush task))
  -- `dequeue` gives up on a deposit that is claimed but not yet stored.
  | .drain, .loseRace => some (.internal, state.goto me (.pop false))
  | .drainPush task, .go =>
      some (.internal, (state.setDeque me (state.deque me ++ [task])).goto me .drain)
  | .pop didWork, .go =>
      match (state.deque me).getLast? with
      | some task =>
          some (.started .popped task,
            (state.setDeque me (state.deque me).dropLast).goto me (.running .popped task))
      | none =>
          if didWork then some (.internal, state.goto me .drain)
          else some (.beginsSteal, state.goto me (.stealing (config.victimIds me)))
  | .running origin task, act => config.closureStep me state origin task act
  | .spawnPush origin task child, .go =>
      some (.internal,
        (state.setDeque me (state.deque me ++ [child])).goto me (.clearLifelines origin task))
  | .clearLifelines origin task, .go =>
      some (.internal,
        { state with
          lifelineRequests := Function.update state.lifelineRequests me [] }.goto me
          (.signal origin task none))
  | .enqueue origin task child target, .go =>
      some (.internal,
        (state.setInbox target (state.inbox target ++ [child])).goto me
          (.signal origin task (some target)))
  | .signal origin task _, .go =>
      if state.holder = none then
        some (.signalled,
          { state with generation := state.generation + 1 }.goto me (.notifyWork origin task))
      else none
  | .notifyWork origin task, .go =>
      some (.internal, state.notifyAll.goto me (.running origin task))
  -- `steal_one`: an attempt is counted, and the indices of the victim are read.
  | .stealing (victim :: victims), .go =>
      let available := (state.deque victim).length
      let counted := { state with stealAttempts := state.stealAttempts + 1 }
      if available = 0 then some (.probes victim, counted.goto me (.stealing victims))
      else
        some (.probes victim, counted.goto me (.stealFirst victim ((available + 1) / 2) victims))
  -- `try_steal` has found nothing.
  | .stealing [], .go =>
      if state.outstanding = 0 then some (.internal, state.goto me (.declare .workerMain))
      else some (.internal, state.goto me (.registering (config.buddies me)))
  | .stealFirst victim want victims, .go =>
      match state.deque victim with
      | [] => some (.internal, state.goto me (.stealing victims))
      | first :: rest =>
          some (.internal,
            (state.setDeque victim rest).goto me (.stealMore victim first (want - 1)))
  | .stealFirst _ _ victims, .loseRace => some (.internal, state.goto me (.stealing victims))
  | .stealMore victim first (more + 1), .go =>
      match state.deque victim with
      | [] => some (.internal, state.goto me (.stealMore victim first 0))
      | stolen :: rest =>
          some (.internal,
            (state.setDeque victim rest).goto me (.stealPush victim first stolen more))
  | .stealMore victim first (_ + 1), .loseRace =>
      some (.internal, state.goto me (.stealMore victim first 0))
  | .stealMore _ first 0, .go =>
      some (.started .stolen first,
        { state with steals := state.steals + 1 }.goto me (.running .stolen first))
  | .stealPush victim first stolen more, .go =>
      some (.internal,
        (state.setDeque me (state.deque me ++ [stolen])).goto me (.stealMore victim first more))
  | .registering (buddy :: buddies), .go =>
      let requests := state.lifelineRequests buddy
      some (.internal,
        { state with
          lifelineRequests := Function.update state.lifelineRequests buddy
            (if me ∈ requests then requests else requests ++ [me]) }.goto me
          (.registering buddies))
  -- `park_until_work_or_done` takes the mutex and reads `terminated`.
  | .registering [], .go =>
      if state.holder = none then
        if state.terminated then some (.exits, state.goto me .exited)
        else some (.takesPark, { state with holder := some me }.goto me .parkOutstanding)
      else none
  | .parkOutstanding, .go =>
      if state.outstanding = 0 then
        some (.exits, { state with holder := none }.goto me .exited)
      else some (.internal, state.goto me .parkInbox)
  -- The generation is read under the mutex, which `wait_while` then gives up.
  | .parkInbox, .go =>
      match state.inbox me with
      | [] =>
          some (.blocks, { state with holder := none }.goto me (.waiting state.generation false))
      | _ :: _ => some (.internal, { state with holder := none }.goto me .drain)
  | .waiting gen notified, .go => if notified then config.recheck me state gen else none
  | .waiting gen _, .wakeSpuriously => config.recheck me state gen
  | .declare caller, .go =>
      if state.holder = none then
        some (.terminates, { state with terminated := true }.goto me (.notifyDone caller))
      else none
  | .notifyDone .workerMain, .go => some (.exits, state.notifyAll.goto me .exited)
  | .notifyDone (.finishTask origin), .go =>
      some (.internal, state.notifyAll.goto me origin.resume)
  | _, _ => none

def next (state : State config.Id Task) (choice : config.Id × Act Task) :
    Option (Label config.Id Task × State config.Id Task) :=
  (config.step choice.1 state choice.2).map fun taken =>
    ({ worker := choice.1
       event := taken.1 }, taken.2)

end Config

/-- The seeds that `run_with_config` pushes on one deque. -/
def seedsOf {Task : Type*} (workers : Nat) (initial : List Task) (me : Nat) : List Task :=
  (initial.zipIdx.filter fun seed => seed.2 % workers = me).map Prod.fst

def Config.start (config : Config) (initial : List Task) : State config.Id Task :=
  { deque := fun me => seedsOf config.workers initial me
    inbox := fun _ => []
    lifelineRequests := fun _ => []
    heartbeat := fun _ => 0
    outstanding := initial.length
    generation := 0
    terminated := false
    holder := none
    steals := 0
    stealAttempts := 0
    worker := fun _ => .drain }

/-- The threads of `run_with_config` once they are started. -/
def Config.system (config : Config) (initial : List Task) :
    TransitionSystem (State config.Id Task) (Label config.Id Task) :=
  .ofNext (fun state => state = config.start initial) config.next

end WsDeque.Scheduler
