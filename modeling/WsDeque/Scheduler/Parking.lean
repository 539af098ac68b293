import WsDeque.Scheduler.Panic

/-
How workers go to sleep: who holds the park mutex, that a worker goes to sleep
with an empty deque and an empty inbox, and how far the generation has moved
since.
-/

namespace WsDeque.Scheduler

variable {Task : Type*} {config : Config} {me other : config.Id}
  {before after : State config.Id Task} {event : Event config.Id Task}
  {initial : List Task} {labels : List (Label config.Id Task)} {state : State config.Id Task}

/-! ### The park mutex -/

def WorkerPc.holdsPark {Id : Type*} : WorkerPc Id Task → Bool
  | .parkOutstanding => true
  | .parkInbox => true
  | _ => false

theorem WorkerPc.notify_holdsPark {Id : Type*} (pc : WorkerPc Id Task) :
    pc.notify.holdsPark = pc.holdsPark := by
  cases pc <;> rfl

theorem Origin.resume_holdsPark {Id : Type*} (origin : Origin) :
    (origin.resume : WorkerPc Id Task).holdsPark = false := by
  cases origin <;> rfl

/-- The mutex is held by the worker that is between its checks, if any. -/
def State.ParkHeld (state : State config.Id Task) : Prop :=
  ∀ worker, (state.worker worker).holdsPark = true → state.holder = some worker

theorem Moves.holdsPark_other (moved : Moves config me before event after)
    (different : other ≠ me) :
    (after.worker other).holdsPark = (before.worker other).holdsPark := by
  rcases moved.others different with same | notified
  · rw [same]
  · rw [notified, WorkerPc.notify_holdsPark]

/-- A move that takes the mutex or gives it up, or one of a worker without it. -/
theorem Moves.park (moved : Moves config me before event after) :
    ((after.worker me).holdsPark = (before.worker me).holdsPark ∧ after.holder = before.holder) ∨
      ((after.worker me).holdsPark = true ∧ before.holder = none ∧ after.holder = some me) ∨
      ((before.worker me).holdsPark = true ∧ (after.worker me).holdsPark = false ∧
        after.holder = none) := by
  cases moved with
  | takesPark atPc free running =>
      exact Or.inr (Or.inl ⟨by rw [goto_self]; rfl, free, rfl⟩)
  | parkDone atPc zero | blocks atPc empty | turnsBack atPc stocked =>
      exact Or.inr (Or.inr ⟨by rw [atPc]; rfl, by rw [goto_self]; rfl, rfl⟩)
  | closure origin task atPc moved =>
      refine Or.inl ?_
      cases moved with
      | inline child early | answer answer count => exact ⟨rfl, rfl⟩
      | finish more => exact ⟨by rw [goto_self, atPc, origin.resume_holdsPark]; rfl, rfl⟩
      | _ => exact ⟨by rw [goto_self, atPc]; rfl, rfl⟩
  | resumes origin atPc =>
      exact Or.inl ⟨by rw [goto_self, atPc, origin.resume_holdsPark]; rfl, rfl⟩
  | _ => exact Or.inl ⟨by rw [goto_self]; simp only [*, WorkerPc.holdsPark], rfl⟩

theorem State.ParkHeld.step (held : before.ParkHeld)
    (moved : Moves config me before event after) : after.ParkHeld := by
  intro worker holds
  by_cases same : worker = me
  · subst same
    rcases moved.park with ⟨pc, holder⟩ | ⟨_takes, _free, holder⟩ | ⟨_held, released, _free⟩
    · rw [holder]
      exact held worker (pc.symm.trans holds)
    · exact holder
    · rw [released] at holds
      cases holds
  · rw [moved.holdsPark_other same] at holds
    have holder := held worker holds
    rcases moved.park with ⟨_pc, kept⟩ | ⟨_takes, free, _holder⟩ | ⟨mine, _released, _free⟩
    · rw [kept, holder]
    · rw [holder] at free
      cases free
    · have both := (held me mine).symm.trans holder
      exact absurd (Option.some.inj both).symm same

theorem parkHeld_of_reaches (reached : (config.system initial).Reaches labels state) :
    state.ParkHeld := by
  obtain ⟨start, isInitial, run⟩ := reached
  induction run with
  | refl =>
      obtain rfl : start = config.start initial := isInitial
      intro worker holds
      cases holds
  | snoc _prior last ih =>
      obtain ⟨choice, taken⟩ := last
      exact ih.step (next_moves taken)

/-! ### A worker that found its deque empty -/

/-- From the failed `pop` on until the worker has a task or starts its loop again. -/
def WorkerPc.idle {Id : Type*} : WorkerPc Id Task → Bool
  | .stealing _ => true
  | .stealFirst _ _ _ => true
  | .registering _ => true
  | .parkOutstanding => true
  | .parkInbox => true
  | .waiting _ _ => true
  | _ => false

theorem WorkerPc.notify_idle {Id : Type*} (pc : WorkerPc Id Task) :
    pc.notify.idle = pc.idle := by
  cases pc <;> rfl

theorem Origin.resume_idle {Id : Type*} (origin : Origin) :
    (origin.resume : WorkerPc Id Task).idle = false := by
  cases origin <;> rfl

/-- Only its owner pushes on a deque. -/
theorem Moves.deque_other (moved : Moves config me before event after) (different : other ≠ me)
    (empty : before.deque other = []) : after.deque other = [] := by
  have stolen : ∀ {victim : config.Id} {task : Task} {rest : List Task},
      before.deque victim = task :: rest →
        Function.update before.deque victim rest other = [] := by
    intro victim task rest deque
    rw [Function.update_of_ne, empty]
    rintro rfl
    rw [empty] at deque
    cases deque
  cases moved with
  | drainPush task atPc | spawnPush origin task child atPc
  | stealPush victim first stolen more atPc =>
      exact (Function.update_of_ne different ..).trans empty
  | pops didWork atPc rest task deque => exact (Function.update_of_ne different ..).trans empty
  | stealFirst victim want victims atPc first rest deque => exact stolen deque
  | stealMore victim first more atPc task rest deque => exact stolen deque
  | closure origin task atPc moved => cases moved <;> exact empty
  | _ => exact empty

theorem Moves.idle_self (moved : Moves config me before event after)
    (idle : (after.worker me).idle = true) :
    after.deque me = [] ∨ ((before.worker me).idle = true ∧ after.deque me = before.deque me) := by
  cases moved with
  | beginsSteal atPc empty => exact Or.inl empty
  | closure origin task atPc moved =>
      cases moved with
      | inline child early | answer answer count =>
          change (before.worker me).idle = true at idle
          rw [atPc] at idle
          cases idle
      | finish more =>
          rw [goto_self, origin.resume_idle] at idle
          cases idle
      | _ =>
          rw [goto_self] at idle
          cases idle
  | resumes origin atPc =>
      rw [goto_self, origin.resume_idle] at idle
      cases idle
  | _ =>
      rw [goto_self] at idle
      first
      | exact absurd idle Bool.false_ne_true
      | exact Or.inr ⟨by simp only [*, WorkerPc.idle], rfl⟩

def State.IdleEmpty (state : State config.Id Task) : Prop :=
  ∀ worker, (state.worker worker).idle = true → state.deque worker = []

theorem idleEmpty_of_reaches (reached : (config.system initial).Reaches labels state) :
    state.IdleEmpty := by
  obtain ⟨start, isInitial, run⟩ := reached
  induction run with
  | refl =>
      obtain rfl : start = config.start initial := isInitial
      intro worker idle
      cases idle
  | @snoc before final labels label _prior last ih =>
      obtain ⟨choice, taken⟩ := last
      have moved := next_moves taken
      intro worker idle
      by_cases same : worker = label.worker
      · subst same
        rcases moved.idle_self idle with empty | ⟨earlier, unchanged⟩
        · exact empty
        · rw [unchanged, ih _ earlier]
      · have earlier : (before.worker worker).idle = true := by
          rcases moved.others same with kept | notified
          · rwa [kept] at idle
          · rwa [notified, WorkerPc.notify_idle] at idle
        exact moved.deque_other same (ih worker earlier)

/-! ### How far the generation has moved -/

def Event.isSignal {Id : Type*} : Event Id Task → Bool
  | .signalled => true
  | _ => false

/-- The calls of `signal_work` since the last step that is marked. -/
def signalsSince (marks : Label config.Id Task → Bool) (labels : List (Label config.Id Task)) :
    Nat :=
  labels.foldl (fun count label =>
    if marks label then 0 else if label.event.isSignal then count + 1 else count) 0

theorem signalsSince_snoc (marks : Label config.Id Task → Bool)
    (labels : List (Label config.Id Task)) (label : Label config.Id Task) :
    signalsSince marks (labels ++ [label]) =
      if marks label then 0
      else if label.event.isSignal then signalsSince marks labels + 1
      else signalsSince marks labels := by
  unfold signalsSince
  rw [List.foldl_append]
  rfl

theorem signalsSince_silent {marks : Label config.Id Task → Bool} {label : Label config.Id Task}
    (unmarked : marks label = false) (unsignalled : label.event.isSignal = false) :
    signalsSince marks (labels ++ [label]) = signalsSince marks labels := by
  rw [signalsSince_snoc, unmarked, unsignalled]
  rfl

/-- The step in which the worker goes to sleep. -/
def blocking (worker : config.Id) (label : Label config.Id Task) : Bool :=
  match label.event with
  | .blocks => label.worker = worker
  | _ => false

/-- The step in which the worker starts to look for work elsewhere. -/
def beginning (worker : config.Id) (label : Label config.Id Task) : Bool :=
  match label.event with
  | .beginsSteal => label.worker = worker
  | _ => false

theorem Moves.generation (moved : Moves config me before event after) :
    after.generation =
      if event.isSignal then before.generation + 1 else before.generation := by
  cases moved with
  | closure origin task atPc moved => cases moved <;> rfl
  | _ => rfl

end WsDeque.Scheduler
