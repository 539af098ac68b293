import WsDeque.FiniteUpdate
import WsDeque.Scheduler.Steps
import WsDeque.TaskPool

/-
Where the tasks of the scheduler are: the deques, the inboxes and what workers
carry between them form the waiting tasks of a task pool, and every step of a
worker is a step of the pool.
-/

namespace WsDeque.Scheduler

open TaskPool

section

variable {Id Task : Type*}

/-- The waiting tasks on their way between a deque, an inbox and a closure. -/
def WorkerPc.carried : WorkerPc Id Task → Multiset Task
  | .drainPush task => {task}
  | .spawnPush _ _ child => {child}
  | .enqueue _ _ child _ => {child}
  | .stealMore _ first _ => {first}
  | .stealPush _ first stolen _ => {first} + {stolen}
  | _ => 0

/-- The task whose closure has not returned; a panicked one never will. -/
def WorkerPc.runs : WorkerPc Id Task → Multiset Task
  | .running _ task => {task}
  | .spawnPush _ task _ => {task}
  | .clearLifelines _ task => {task}
  | .enqueue _ task _ _ => {task}
  | .signal _ task _ => {task}
  | .notifyWork _ task => {task}
  | .panicked task => {task}
  | _ => 0

def Event.pool : Event Id Task → TaskPool.Event Task
  | .announced child => .announce child
  | .started _ task => .start task
  | .finished task => .finish task
  | _ => .silent

theorem WorkerPc.notify_carried (pc : WorkerPc Id Task) : pc.notify.carried = pc.carried := by
  cases pc <;> rfl

theorem WorkerPc.notify_runs (pc : WorkerPc Id Task) : pc.notify.runs = pc.runs := by
  cases pc <;> rfl

variable [Fintype Id]

def State.waiting (state : State Id Task) : Multiset Task :=
  (∑ worker, (state.deque worker : Multiset Task)) +
    (∑ worker, (state.inbox worker : Multiset Task)) + ∑ worker, (state.worker worker).carried

def State.running (state : State Id Task) : Multiset Task :=
  ∑ worker, (state.worker worker).runs

def State.pool (state : State Id Task) : Pool Task :=
  { waiting := state.waiting
    running := state.running
    outstanding := state.outstanding }

theorem State.waiting_notifyAll (state : State Id Task) :
    state.notifyAll.waiting = state.waiting := by
  simp only [State.waiting, State.notifyAll, WorkerPc.notify_carried]

theorem State.running_notifyAll (state : State Id Task) :
    state.notifyAll.running = state.running := by
  simp only [State.running, State.notifyAll, WorkerPc.notify_runs]

/-! ### One worker moves -/

variable [DecidableEq Id]

theorem State.waiting_goto (state : State Id Task) (me : Id) (pc : WorkerPc Id Task) :
    Shifts state.waiting (state.worker me).carried pc.carried (state.goto me pc).waiting :=
  (sum_update_shifts WorkerPc.carried state.worker me pc).add_left _

theorem State.running_goto (state : State Id Task) (me : Id) (pc : WorkerPc Id Task) :
    Shifts state.running (state.worker me).runs pc.runs (state.goto me pc).running :=
  sum_update_shifts WorkerPc.runs state.worker me pc

theorem State.waiting_setDeque (state : State Id Task) (worker : Id) (tasks : List Task) :
    Shifts state.waiting (state.deque worker) tasks (state.setDeque worker tasks).waiting :=
  ((sum_update_shifts (fun tasks : List Task => (tasks : Multiset Task)) state.deque worker
    tasks).add_right _).add_right _

theorem State.waiting_setInbox (state : State Id Task) (worker : Id) (tasks : List Task) :
    Shifts state.waiting (state.inbox worker) tasks (state.setInbox worker tasks).waiting :=
  ((sum_update_shifts (fun tasks : List Task => (tasks : Multiset Task)) state.inbox worker
    tasks).add_left _).add_right _

omit [DecidableEq Id] in
/-- The moving worker's own share is part of the total. -/
theorem State.running_ne_zero {state : State Id Task} {me : Id} {task : Task}
    (runs : (state.worker me).runs = {task}) : state.running ≠ 0 := by
  intro empty
  have member : task ∈ state.running := by
    refine Multiset.mem_sum.mpr ⟨me, Finset.mem_univ me, ?_⟩
    rw [runs]
    exact Multiset.mem_singleton_self task
  rw [empty] at member
  exact Multiset.notMem_zero task member

/-! ### What a move does to the pool -/

variable {me : Id} {before shifted : State Id Task} {pc : WorkerPc Id Task}
  {gone come : Multiset Task}

/-- Tasks leave and join the deques and inboxes, and the worker carries on. -/
theorem silent_pool (shifts : Shifts before.waiting gone come shifted.waiting)
    (running : shifted.running = before.running)
    (outstanding : shifted.outstanding = before.outstanding)
    (balanced : gone + (shifted.worker me).carried = come + pc.carried)
    (runs : (shifted.worker me).runs = pc.runs) :
    TaskPool.Step before.pool .silent (shifted.goto me pc).pool := by
  refine .silent ?_ ?_ outstanding
  · exact (shifts.trans (shifted.waiting_goto me pc)).same balanced
  · exact ((shifted.running_goto me pc).same runs).trans running

theorem start_pool {task : Task} (shifts : Shifts before.waiting gone come shifted.waiting)
    (running : shifted.running = before.running)
    (outstanding : shifted.outstanding = before.outstanding)
    (balanced : gone + (shifted.worker me).carried = come + pc.carried + {task})
    (runs : pc.runs = (shifted.worker me).runs + {task}) :
    TaskPool.Step before.pool (.start task) (shifted.goto me pc).pool := by
  refine .start task ?_ ?_ outstanding
  · exact (shifts.trans (shifted.waiting_goto me pc)).loses balanced
  · change (shifted.goto me pc).running = before.running + {task}
    rw [← running]
    exact (shifted.running_goto me pc).gains runs

theorem announce_pool {task child : Task} (waiting : shifted.waiting = before.waiting)
    (running : shifted.running = before.running)
    (outstanding : shifted.outstanding = before.outstanding + 1)
    (working : (shifted.worker me).runs = {task}) (runs : pc.runs = {task})
    (idle : (shifted.worker me).carried = 0) (carried : pc.carried = {child}) :
    TaskPool.Step before.pool (.announce child) (shifted.goto me pc).pool := by
  refine .announce child ?_ ?_ ?_ outstanding
  · change before.running ≠ 0
    rw [← running]
    exact State.running_ne_zero working
  · change (shifted.goto me pc).waiting = before.waiting + {child}
    rw [← waiting]
    refine (shifted.waiting_goto me pc).gains ?_
    rw [idle, carried, zero_add]
  · exact ((shifted.running_goto me pc).same (working.trans runs.symm)).trans running

theorem finish_pool {task : Task} (waiting : shifted.waiting = before.waiting)
    (running : shifted.running = before.running)
    (outstanding : shifted.outstanding = before.outstanding - 1)
    (working : (shifted.worker me).runs = {task}) (runs : pc.runs = 0)
    (carried : (shifted.worker me).carried = pc.carried) :
    TaskPool.Step before.pool (.finish task) (shifted.goto me pc).pool := by
  refine .finish task ?_ ?_ outstanding
  · exact ((shifted.waiting_goto me pc).same carried).trans waiting
  · change (shifted.goto me pc).running + {task} = before.running
    rw [← running]
    refine (shifted.running_goto me pc).loses ?_
    rw [working, runs, zero_add]

end

variable {Task : Type*} {config : Config} {me : config.Id}
  {before after : State config.Id Task} {event : Event config.Id Task}

theorem Origin.resume_carried {Id : Type*} (origin : Origin) :
    (origin.resume : WorkerPc Id Task).carried = 0 := by
  cases origin <;> rfl

theorem Origin.resume_runs {Id : Type*} (origin : Origin) :
    (origin.resume : WorkerPc Id Task).runs = 0 := by
  cases origin <;> rfl

theorem ClosureMoves.pool {origin : Origin} {task : Task}
    (atPc : before.worker me = .running origin task)
    (moved : ClosureMoves config me before origin task event after) :
    TaskPool.Step before.pool event.pool after.pool := by
  have working : (before.worker me).runs = {task} := congrArg WorkerPc.runs atPc
  have idle : (before.worker me).carried = 0 := congrArg WorkerPc.carried atPc
  cases moved with
  | spawn child | promote child due | spawnAt child target other =>
      exact announce_pool rfl rfl rfl working rfl idle rfl
  | inline child early | answer answer count => exact .silent rfl rfl rfl
  | finishLast last => exact finish_pool rfl rfl rfl working rfl idle
  | finish more =>
      exact finish_pool rfl rfl rfl working origin.resume_runs
        (idle.trans origin.resume_carried.symm)
  | panic => exact silent_pool (.refl _) rfl rfl (by rw [idle]; rfl) working

theorem Moves.pool (moved : Moves config me before event after) :
    TaskPool.Step before.pool event.pool after.pool := by
  cases moved with
  | closure origin task atPc moved => exact moved.pool atPc
  | drains atPc task rest inbox =>
      refine silent_pool (before.waiting_setInbox me rest) rfl rfl ?_ ?_
      · simp only [State.setInbox, atPc, inbox, WorkerPc.carried, coe_cons, add_zero]
      · simp only [State.setInbox, atPc, WorkerPc.runs]
  | drainPush task atPc =>
      refine silent_pool (before.waiting_setDeque me (before.deque me ++ [task])) rfl rfl ?_ ?_
      · simp only [State.setDeque, atPc, WorkerPc.carried, coe_snoc, add_zero]
      · simp only [State.setDeque, atPc, WorkerPc.runs]
  | pops didWork atPc rest task deque =>
      refine start_pool (before.waiting_setDeque me rest) rfl rfl ?_ ?_
      · simp only [State.setDeque, atPc, deque, WorkerPc.carried, coe_snoc, add_zero]
      · simp only [State.setDeque, atPc, WorkerPc.runs, zero_add]
  | spawnPush origin task child atPc =>
      refine silent_pool (before.waiting_setDeque me (before.deque me ++ [child])) rfl rfl ?_ ?_
      · simp only [State.setDeque, atPc, WorkerPc.carried, coe_snoc, add_zero]
      · simp only [State.setDeque, atPc, WorkerPc.runs]
  | enqueue origin task child target atPc =>
      refine silent_pool (before.waiting_setInbox target (before.inbox target ++ [child]))
        rfl rfl ?_ ?_
      · simp only [State.setInbox, atPc, WorkerPc.carried, coe_snoc, add_zero]
      · simp only [State.setInbox, atPc, WorkerPc.runs]
  | stealFirst victim want victims atPc first rest deque =>
      refine silent_pool (before.waiting_setDeque victim rest) rfl rfl ?_ ?_
      · simp only [State.setDeque, atPc, deque, WorkerPc.carried, coe_cons, add_zero]
      · simp only [State.setDeque, atPc, WorkerPc.runs]
  | stealMore victim first more atPc stolen rest deque =>
      refine silent_pool (before.waiting_setDeque victim rest) rfl rfl ?_ ?_
      · simp only [State.setDeque, atPc, deque, WorkerPc.carried, coe_cons]
        abel
      · simp only [State.setDeque, atPc, WorkerPc.runs]
  | stealPush victim first stolen more atPc =>
      refine silent_pool (before.waiting_setDeque me (before.deque me ++ [stolen])) rfl rfl ?_ ?_
      · simp only [State.setDeque, atPc, WorkerPc.carried, coe_snoc]
        abel
      · simp only [State.setDeque, atPc, WorkerPc.runs]
  | stole victim first atPc =>
      refine start_pool (.refl _) rfl rfl ?_ ?_
      · simp only [atPc, WorkerPc.carried, add_zero, zero_add]
      · simp only [atPc, WorkerPc.runs, zero_add]
  | notifyWork origin task atPc =>
      refine silent_pool (.of_eq (State.waiting_notifyAll _)) (State.running_notifyAll _) rfl ?_ ?_
      · simp only [State.notifyAll, WorkerPc.notify, atPc, WorkerPc.carried]
      · simp only [State.notifyAll, WorkerPc.notify, atPc, WorkerPc.runs]
  | leaves atPc =>
      refine silent_pool (.of_eq (State.waiting_notifyAll _)) (State.running_notifyAll _) rfl ?_ ?_
      · simp only [State.notifyAll, WorkerPc.notify, atPc, WorkerPc.carried]
      · simp only [State.notifyAll, WorkerPc.notify, atPc, WorkerPc.runs]
  | resumes origin atPc =>
      refine silent_pool (.of_eq (State.waiting_notifyAll _)) (State.running_notifyAll _) rfl ?_ ?_
      · rw [origin.resume_carried]
        simp only [State.notifyAll, WorkerPc.notify, atPc, WorkerPc.carried]
      · rw [origin.resume_runs]
        simp only [State.notifyAll, WorkerPc.notify, atPc, WorkerPc.runs]
  | drained atPc | popsAgain atPc empty | beginsSteal atPc empty
  | clearLifelines origin task atPc requests | signal origin task deposit atPc free
  | probesEmpty victim victims atPc | probes victim victims want atPc | allDone atPc zero
  | registers atPc | stealFails victim want victims atPc | stealStops victim first more atPc
  | registersOn buddy buddies atPc requests | findsTerminated atPc free terminated
  | takesPark atPc free running | parkDone atPc zero | parkMore atPc nonzero | blocks atPc empty
  | turnsBack atPc stocked | wakesTerminated gen notified atPc free terminated
  | waitsOn gen notified atPc free running same | wakes gen notified atPc free running moved
  | declare caller atPc free =>
      refine silent_pool (.refl _) rfl rfl ?_ ?_
      · simp only [atPc, WorkerPc.carried]
      · simp only [atPc, WorkerPc.runs]

/-! ### Along a run -/

theorem start_pool_eq (config : Config) (initial : List Task) :
    (config.start initial).pool = Pool.start initial := by
  have seeds : ∑ me : config.Id, ((seedsOf config.workers initial me : List Task) : Multiset Task) =
      (initial : Multiset Task) := by
    unfold seedsOf
    rw [sum_dealt config.someWorker, List.zipIdx_map_fst]
  unfold State.pool Pool.start State.waiting State.running
  simp only [Config.start, WorkerPc.carried, WorkerPc.runs, Multiset.coe_nil,
    Finset.sum_const_zero, add_zero, seeds]

/-- The history of a run as the pool sees it. -/
def poolEvents (labels : List (Label config.Id Task)) : List (TaskPool.Event Task) :=
  labels.map fun label => label.event.pool

theorem balance_of_reaches {initial : List Task} {labels : List (Label config.Id Task)}
    {state : State config.Id Task} (reached : (config.system initial).Reaches labels state) :
    Balance initial (poolEvents labels) state.pool := by
  obtain ⟨start, isInitial, run⟩ := reached
  induction run with
  | refl =>
      obtain rfl : start = config.start initial := isInitial
      rw [start_pool_eq]
      exact .initial initial
  | snoc _prior last ih =>
      obtain ⟨choice, taken⟩ := last
      unfold poolEvents
      rw [List.map_append]
      exact ih.step (next_moves taken).pool

end WsDeque.Scheduler
