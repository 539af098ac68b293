import Mathlib.Algebra.Order.BigOperators.Group.Finset
import WsDeque.Scheduler.Sleep

/-
That nothing hangs without a panic: from every state some continuation lets all
workers leave their loops, until the generation has come round.
-/

namespace WsDeque.Scheduler

variable {Task : Type*} {config : Config} {me other : config.Id}
  {before after : State config.Id Task} {event : Event config.Id Task} {initial : List Task}
  {labels : List (Label config.Id Task)} {state : State config.Id Task}

/-! ### What a continuation relies on -/

/-- The mutex is given up before its holder does anything else. -/
def State.HolderParks (state : State config.Id Task) : Prop :=
  ∀ worker, state.holder = some worker → (state.worker worker).holdsPark = true

theorem State.HolderParks.step (parks : before.HolderParks)
    (moved : Moves config me before event after) : after.HolderParks := by
  intro worker holder
  by_cases same : worker = me
  · subst same
    rcases moved.park with ⟨pc, kept⟩ | ⟨takes, _free, _holder⟩ | ⟨_held, _released, free⟩
    · rw [pc]
      exact parks worker (kept.symm.trans holder)
    · exact takes
    · rw [free] at holder
      cases holder
  · rw [moved.holdsPark_other same]
    rcases moved.park with ⟨_pc, kept⟩ | ⟨_takes, _free, mine⟩ | ⟨_held, _released, free⟩
    · exact parks worker (kept.symm.trans holder)
    · rw [mine] at holder
      exact absurd (Option.some.inj holder).symm same
    · rw [free] at holder
      cases holder

/-- The worker has seen something unfinished under the park mutex. -/
def WorkerPc.parked {Id : Type*} : WorkerPc Id Task → Bool
  | .parkInbox => true
  | .waiting _ _ => true
  | _ => false

def WorkerPc.declares {Id : Type*} : WorkerPc Id Task → Bool
  | .declare _ => true
  | _ => false

theorem WorkerPc.notify_parked {Id : Type*} (pc : WorkerPc Id Task) :
    pc.notify.parked = pc.parked := by
  cases pc <;> rfl

theorem WorkerPc.notify_declares {Id : Type*} (pc : WorkerPc Id Task) :
    pc.notify.declares = pc.declares := by
  cases pc <;> rfl

/-- Whoever sleeps when the last task is finished will be told. -/
def State.Closing (state : State config.Id Task) : Prop :=
  state.outstanding = 0 → (∃ worker, (state.worker worker).parked = true) →
    state.terminated = true ∨ ∃ worker, (state.worker worker).declares = true

/-- The moving worker neither parks nor is the one that declares the end. -/
theorem State.Closing.keeps (closing : before.Closing)
    (others : ∀ other, other ≠ me → after.worker other = before.worker other ∨
      after.worker other = (before.worker other).notify)
    (outstanding : after.outstanding = before.outstanding)
    (terminated : before.terminated = true → after.terminated = true)
    (parked : (after.worker me).parked = true → (before.worker me).parked = true)
    (declares : (before.worker me).declares = true →
      after.terminated = true ∨ (after.worker me).declares = true) : after.Closing := by
  intro zero
  rintro ⟨worker, sleeps⟩
  have slept : (before.worker worker).parked = true := by
    by_cases same : worker = me
    · subst same
      exact parked sleeps
    · rcases others worker same with kept | notified
      · rwa [kept] at sleeps
      · rwa [notified, WorkerPc.notify_parked] at sleeps
  rcases closing (outstanding ▸ zero) ⟨worker, slept⟩ with done | ⟨declarer, declaring⟩
  · exact Or.inl (terminated done)
  · by_cases same : declarer = me
    · subst same
      exact (declares declaring).imp_right fun still => ⟨_, still⟩
    · refine Or.inr ⟨declarer, ?_⟩
      rcases others declarer same with kept | notified
      · rwa [kept]
      · rwa [notified, WorkerPc.notify_declares]

theorem State.Closing.step (closing : before.Closing)
    (moved : Moves config me before event after)
    (busy : ∀ task, (before.worker me).runs = {task} → before.outstanding ≠ 0) :
    after.Closing := by
  have others : ∀ other, other ≠ me → after.worker other = before.worker other ∨
      after.worker other = (before.worker other).notify :=
    fun other different => moved.others different
  cases moved with
  | closure origin task atPc moved =>
      have unfinished := busy task (by rw [atPc]; rfl)
      intro zero
      cases moved with
      | finishLast last => exact fun _sleeps => Or.inr ⟨me, by rw [goto_self]; rfl⟩
      | finish more =>
          change before.outstanding - 1 = 0 at zero
          omega
      | inline child early | answer answer count | panic => exact absurd zero unfinished
      | spawn child | promote child due | spawnAt child target other => cases zero
  | allDone atPc zero => exact fun _zero _sleeps => Or.inr ⟨me, by rw [goto_self]; rfl⟩
  | parkMore atPc nonzero => exact fun zero => absurd zero nonzero
  | declare caller atPc free => exact fun _zero _sleeps => Or.inl rfl
  | blocks atPc empty =>
      refine closing.keeps others rfl id (fun _sleeps => by rw [atPc]; rfl) fun declares => ?_
      rw [atPc] at declares
      cases declares
  | waitsOn gen notified atPc free running same =>
      refine closing.keeps others rfl id (fun _sleeps => by rw [atPc]; rfl) fun declares => ?_
      rw [atPc] at declares
      cases declares
  | resumes origin atPc =>
      refine closing.keeps others rfl id (fun sleeps => ?_) fun declares => ?_
      · rw [goto_self] at sleeps
        cases origin <;> cases sleeps
      · rw [atPc] at declares
        cases declares
  | _ =>
      refine closing.keeps others rfl id (fun sleeps => ?_) fun declares => ?_
      · rw [goto_self] at sleeps
        exact absurd sleeps Bool.false_ne_true
      · simp only [*, WorkerPc.declares, Bool.false_eq_true] at declares

/-- No closure has panicked so far. -/
def Calm (labels : List (Label config.Id Task)) : Prop :=
  ∀ label ∈ labels, label.event.isPanic = false

theorem Calm.snoc {label : Label config.Id Task} (calm : Calm labels)
    (calmly : label.event.isPanic = false) : Calm (labels ++ [label]) := by
  intro other member
  rcases List.mem_append.mp member with earlier | now
  · exact calm other earlier
  · rw [List.mem_singleton.mp now]
    exact calmly

theorem not_panicked_of_calm (reached : (config.system initial).Reaches labels state)
    (calm : Calm labels) (worker : config.Id) : (state.worker worker).isPanicked = false := by
  obtain ⟨start, isInitial, run⟩ := reached
  induction run with
  | refl =>
      obtain rfl : start = config.start initial := isInitial
      rfl
  | @snoc before final labels label _prior last ih =>
      obtain ⟨choice, taken⟩ := last
      have moved := next_moves taken
      have front : Calm labels := fun earlier member => calm earlier (List.mem_append_left _ member)
      by_cases same : worker = label.worker
      · rw [same, moved.panicked_self]
        exact calm label (List.mem_append_right _ (List.mem_singleton_self label))
      · rw [moved.panicked_other same]
        exact ih front

/-- The calls of `signal_work`. -/
def signals (labels : List (Label config.Id Task)) : Nat :=
  labels.countP fun label => label.event.isSignal

theorem signals_snoc (labels : List (Label config.Id Task)) (label : Label config.Id Task) :
    signals (labels ++ [label]) = signals labels + label.event.isSignal.toNat := by
  unfold signals
  rw [List.countP_append, List.countP_singleton]
  cases label.event.isSignal <;> rfl

/-- The worker has a signal still to give. -/
def WorkerPc.due {Id : Type*} : WorkerPc Id Task → Nat
  | .spawnPush _ _ _ | .clearLifelines _ _ | .enqueue _ _ _ _ | .signal _ _ _ => 1
  | _ => 0

theorem WorkerPc.notify_due {Id : Type*} (pc : WorkerPc Id Task) : pc.notify.due = pc.due := by
  cases pc <;> rfl

theorem Origin.resume_due {Id : Type*} (origin : Origin) :
    (origin.resume : WorkerPc Id Task).due = 0 := by
  cases origin <;> rfl

/-- Nothing has panicked, and the generation does not come round even with the
signals that are due. -/
def Config.Ready (config : Config) (initial : List Task) (state : State config.Id Task) : Prop :=
  ∃ labels, (config.system initial).Reaches labels state ∧ Calm labels ∧
    signals labels + ∑ worker, (state.worker worker).due < UInt64.size

theorem Config.Ready.step {act : Act Task} (ready : config.Ready initial before)
    (taken : config.step me before act = some (event, after)) (calmly : event.isPanic = false)
    (due : (after.worker me).due + event.isSignal.toNat ≤ (before.worker me).due) :
    (config.system initial).step before { worker := me, event := event } after ∧
      config.Ready initial after := by
  obtain ⟨labels, reached, calm, few⟩ := ready
  have stepped : (config.system initial).step before { worker := me, event := event } after :=
    ⟨(me, act), Option.map_eq_some_iff.mpr ⟨_, taken, rfl⟩⟩
  refine ⟨stepped, _, reached.snoc stepped, calm.snoc calmly, ?_⟩
  have given : (∑ worker, (after.worker worker).due) + event.isSignal.toNat ≤
      ∑ worker, (before.worker worker).due := by
    refine sum_add_le me due fun other different => ?_
    rcases (step_moves taken).others different with kept | notified
    · rw [kept]
    · rw [notified, WorkerPc.notify_due]
  rw [signals_snoc]
  dsimp only
  omega

/-- The worker is inside `spawn`. -/
def WorkerPc.spawns {Id : Type*} : WorkerPc Id Task → Bool
  | .spawnPush _ _ _ | .clearLifelines _ _ | .enqueue _ _ _ _ | .signal _ _ _
  | .notifyWork _ _ => true
  | _ => false

theorem WorkerPc.notify_spawns {Id : Type*} (pc : WorkerPc Id Task) :
    pc.notify.spawns = pc.spawns := by
  cases pc <;> rfl

/-- The steps from the start of the loop to the end of a search that finds nothing. -/
def Config.search (config : Config) (me : config.Id) : Nat :=
  (config.buddies me).length + 2 * (config.victimIds me).length

/-- How many steps the worker is away from leaving, or from sleeping for good,
with what it holds already on its deque. -/
def Config.away (config : Config) (me : config.Id) (generation : UInt64) :
    WorkerPc config.Id Task → Nat
  | .waiting gen _ => if gen = generation then 1 else config.search me + 8
  | .notifyDone .workerMain => 1
  | .declare .workerMain | .parkInbox => 2
  | .parkOutstanding => 3
  | .registering buddies => buddies.length + 4
  | .stealing victims => (config.buddies me).length + 2 * victims.length + 5
  | .stealFirst _ _ victims => (config.buddies me).length + 2 * victims.length + 6
  | .pop false => config.search me + 6
  | .drain => config.search me + 7
  | .pop true => config.search me + 8
  | .notifyDone (.finishTask _) => config.search me + 9
  | .declare (.finishTask _) => config.search me + 10
  | .running _ _ => config.search me + 11
  | .stealMore _ _ 0 => config.search me + 12
  | .stealMore _ _ (_ + 1) => config.search me + 13
  | .drainPush _ => config.search me + 14
  | .stealPush _ _ _ _ => config.search me + 20
  | _ => 0

theorem Config.away_notify (me : config.Id) (generation : UInt64)
    (pc : WorkerPc config.Id Task) :
    config.away me generation pc.notify = config.away me generation pc := by
  cases pc <;> rfl

/-- The worker is about to empty its inbox. -/
def WorkerPc.drains {Id : Type*} : WorkerPc Id Task → Bool
  | .drain => true
  | .drainPush _ => true
  | _ => false

theorem WorkerPc.notify_drains {Id : Type*} (pc : WorkerPc Id Task) :
    pc.notify.drains = pc.drains := by
  cases pc <;> rfl

/-- With the tasks the worker still has to look after, and the way back to its inbox. -/
def State.burden (state : State config.Id Task) (me : config.Id) : Nat :=
  config.away me state.generation (state.worker me) + 6 * (state.deque me).length +
    8 * (state.inbox me).length +
    if state.inbox me = [] ∨ (state.worker me).drains = true then 0 else config.search me + 8

/-- A step that leaves the other workers as they are and brings this one closer. -/
structure Lightens (me : config.Id) (before after : State config.Id Task) : Prop where
  generation : after.generation = before.generation
  deque : ∀ other, other ≠ me → after.deque other = before.deque other
  inbox : ∀ other, other ≠ me → after.inbox other = before.inbox other
  spawns : (after.worker me).spawns = false
  lighter : after.burden me + 1 ≤ before.burden me

/-- Some step of the worker brings it closer. -/
def Config.Advances (config : Config) (me : config.Id) (before : State config.Id Task) : Prop :=
  ∃ act event after, config.step me before act = some (event, after) ∧
    event.isPanic = false ∧ event.isSignal = false ∧ Lightens me before after

theorem Lightens.beside (lightens : Lightens me before after)
    (moved : Moves config me before event after) (different : other ≠ me) :
    after.burden other = before.burden other ∧
      (after.worker other).spawns = (before.worker other).spawns := by
  have deque := lightens.deque other different
  have inbox := lightens.inbox other different
  unfold State.burden
  rcases moved.others different with kept | notified
  · rw [kept, deque, inbox, lightens.generation]
    exact ⟨rfl, rfl⟩
  · rw [notified, deque, inbox, lightens.generation, Config.away_notify, WorkerPc.notify_drains,
      WorkerPc.notify_spawns]
    exact ⟨rfl, rfl⟩

/-- Nobody is inside `spawn`, so that the generation stays as it is. -/
def State.Quiet (state : State config.Id Task) : Prop :=
  ∀ worker, (state.worker worker).spawns = false

end WsDeque.Scheduler
