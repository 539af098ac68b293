import WsDeque.Scheduler.Model

/-
What one step of a worker can be.
-/

namespace WsDeque.Scheduler

variable {Task : Type*} {config : Config} {me : config.Id}
  {before after : State config.Id Task} {event : Event config.Id Task} {act : Act Task}

/-- The acts of a running closure, by what they do to the counters. -/
inductive ClosureMoves (config : Config) (me : config.Id) (before : State config.Id Task)
    (origin : Origin) (task : Task) : Event config.Id Task → State config.Id Task → Prop
  | spawn (child : Task) :
      ClosureMoves config me before origin task (.announced child)
        (before.announce.goto me (.spawnPush origin task child))
  | promote (child : Task) (due : before.heartbeat me + 1 ≥ config.heartbeatInterval) :
      ClosureMoves config me before origin task (.announced child)
        (((before.beat me 0).announce).goto me (.spawnPush origin task child))
  | spawnAt (child : Task) (target : config.Id) (other : target ≠ me) :
      ClosureMoves config me before origin task (.announced child)
        (before.announce.goto me (.enqueue origin task child target))
  | inline (child : Task) (early : ¬ before.heartbeat me + 1 ≥ config.heartbeatInterval) :
      ClosureMoves config me before origin task (.inlined child)
        (before.beat me (before.heartbeat me + 1))
  | answer (answer : Bool) (count : Nat) :
      ClosureMoves config me before origin task (.promotes answer) (before.beat me count)
  | finishLast (last : before.outstanding = 1) :
      ClosureMoves config me before origin task (.finished task)
        ({ before with outstanding := before.outstanding - 1 }.goto me
          (.declare (.finishTask origin)))
  | finish (more : before.outstanding ≠ 1) :
      ClosureMoves config me before origin task (.finished task)
        ({ before with outstanding := before.outstanding - 1 }.goto me origin.resume)
  | panic : ClosureMoves config me before origin task .panics (before.goto me (.panicked task))

inductive Moves (config : Config) (me : config.Id) (before : State config.Id Task) :
    Event config.Id Task → State config.Id Task → Prop
  | closure (origin : Origin) (task : Task) (atPc : before.worker me = .running origin task)
      {event : Event config.Id Task} {after : State config.Id Task}
      (moved : ClosureMoves config me before origin task event after) :
      Moves config me before event after
  | drained (atPc : before.worker me = .drain) :
      Moves config me before .internal (before.goto me (.pop false))
  | drains (atPc : before.worker me = .drain) (task : Task) (rest : List Task)
      (inbox : before.inbox me = task :: rest) :
      Moves config me before .internal ((before.setInbox me rest).goto me (.drainPush task))
  | drainPush (task : Task) (atPc : before.worker me = .drainPush task) :
      Moves config me before .internal
        ((before.setDeque me (before.deque me ++ [task])).goto me .drain)
  | pops (didWork : Bool) (atPc : before.worker me = .pop didWork) (rest : List Task)
      (task : Task) (deque : before.deque me = rest ++ [task]) :
      Moves config me before (.started .popped task)
        ((before.setDeque me rest).goto me (.running .popped task))
  | popsAgain (atPc : before.worker me = .pop true) (empty : before.deque me = []) :
      Moves config me before .internal (before.goto me .drain)
  | beginsSteal (atPc : before.worker me = .pop false) (empty : before.deque me = []) :
      Moves config me before .beginsSteal (before.goto me (.stealing (config.victimIds me)))
  | spawnPush (origin : Origin) (task child : Task)
      (atPc : before.worker me = .spawnPush origin task child) :
      Moves config me before .internal
        ((before.setDeque me (before.deque me ++ [child])).goto me (.clearLifelines origin task))
  | clearLifelines (origin : Origin) (task : Task)
      (atPc : before.worker me = .clearLifelines origin task)
      (requests : config.Id → List config.Id) :
      Moves config me before .internal
        ({ before with lifelineRequests := requests }.goto me (.signal origin task none))
  | enqueue (origin : Origin) (task child : Task) (target : config.Id)
      (atPc : before.worker me = .enqueue origin task child target) :
      Moves config me before .internal
        ((before.setInbox target (before.inbox target ++ [child])).goto me
          (.signal origin task (some target)))
  | signal (origin : Origin) (task : Task) (deposit : Option config.Id)
      (atPc : before.worker me = .signal origin task deposit) (free : before.holder = none) :
      Moves config me before .signalled
        ({ before with generation := before.generation + 1 }.goto me (.notifyWork origin task))
  | notifyWork (origin : Origin) (task : Task) (atPc : before.worker me = .notifyWork origin task) :
      Moves config me before .internal (before.notifyAll.goto me (.running origin task))
  | probesEmpty (victim : config.Id) (victims : List config.Id)
      (atPc : before.worker me = .stealing (victim :: victims)) :
      Moves config me before (.probes victim)
        ({ before with stealAttempts := before.stealAttempts + 1 }.goto me (.stealing victims))
  | probes (victim : config.Id) (victims : List config.Id) (want : Nat)
      (atPc : before.worker me = .stealing (victim :: victims)) :
      Moves config me before (.probes victim)
        ({ before with stealAttempts := before.stealAttempts + 1 }.goto me
          (.stealFirst victim want victims))
  | allDone (atPc : before.worker me = .stealing []) (zero : before.outstanding = 0) :
      Moves config me before .internal (before.goto me (.declare .workerMain))
  | registers (atPc : before.worker me = .stealing []) :
      Moves config me before .internal (before.goto me (.registering (config.buddies me)))
  | stealFirst (victim : config.Id) (want : Nat) (victims : List config.Id)
      (atPc : before.worker me = .stealFirst victim want victims) (first : Task)
      (rest : List Task) (deque : before.deque victim = first :: rest) :
      Moves config me before .internal
        ((before.setDeque victim rest).goto me (.stealMore victim first (want - 1)))
  | stealFails (victim : config.Id) (want : Nat) (victims : List config.Id)
      (atPc : before.worker me = .stealFirst victim want victims) :
      Moves config me before .internal (before.goto me (.stealing victims))
  | stealMore (victim : config.Id) (first : Task) (more : Nat)
      (atPc : before.worker me = .stealMore victim first (more + 1)) (stolen : Task)
      (rest : List Task) (deque : before.deque victim = stolen :: rest) :
      Moves config me before .internal
        ((before.setDeque victim rest).goto me (.stealPush victim first stolen more))
  | stealStops (victim : config.Id) (first : Task) (more : Nat)
      (atPc : before.worker me = .stealMore victim first (more + 1)) :
      Moves config me before .internal (before.goto me (.stealMore victim first 0))
  | stole (victim : config.Id) (first : Task)
      (atPc : before.worker me = .stealMore victim first 0) :
      Moves config me before (.started .stolen first)
        ({ before with steals := before.steals + 1 }.goto me (.running .stolen first))
  | stealPush (victim : config.Id) (first stolen : Task) (more : Nat)
      (atPc : before.worker me = .stealPush victim first stolen more) :
      Moves config me before .internal
        ((before.setDeque me (before.deque me ++ [stolen])).goto me
          (.stealMore victim first more))
  | registersOn (buddy : config.Id) (buddies : List config.Id)
      (atPc : before.worker me = .registering (buddy :: buddies))
      (requests : config.Id → List config.Id) :
      Moves config me before .internal
        ({ before with lifelineRequests := requests }.goto me (.registering buddies))
  | findsTerminated (atPc : before.worker me = .registering []) (free : before.holder = none)
      (terminated : before.terminated = true) :
      Moves config me before .exits (before.goto me .exited)
  | takesPark (atPc : before.worker me = .registering []) (free : before.holder = none)
      (running : before.terminated = false) :
      Moves config me before .takesPark
        ({ before with holder := some me }.goto me .parkOutstanding)
  | parkDone (atPc : before.worker me = .parkOutstanding) (zero : before.outstanding = 0) :
      Moves config me before .exits ({ before with holder := none }.goto me .exited)
  | parkMore (atPc : before.worker me = .parkOutstanding) (nonzero : before.outstanding ≠ 0) :
      Moves config me before .internal (before.goto me .parkInbox)
  | blocks (atPc : before.worker me = .parkInbox) (empty : before.inbox me = []) :
      Moves config me before .blocks
        ({ before with holder := none }.goto me (.waiting before.generation false))
  | turnsBack (atPc : before.worker me = .parkInbox) (stocked : before.inbox me ≠ []) :
      Moves config me before .internal ({ before with holder := none }.goto me .drain)
  | wakesTerminated (gen : UInt64) (notified : Bool)
      (atPc : before.worker me = .waiting gen notified) (free : before.holder = none)
      (terminated : before.terminated = true) :
      Moves config me before .exits (before.goto me .exited)
  | waitsOn (gen : UInt64) (notified : Bool) (atPc : before.worker me = .waiting gen notified)
      (free : before.holder = none) (running : before.terminated = false)
      (same : before.generation = gen) :
      Moves config me before .internal (before.goto me (.waiting gen false))
  | wakes (gen : UInt64) (notified : Bool) (atPc : before.worker me = .waiting gen notified)
      (free : before.holder = none) (running : before.terminated = false)
      (moved : before.generation ≠ gen) :
      Moves config me before .internal (before.goto me .drain)
  | declare (caller : Declared) (atPc : before.worker me = .declare caller)
      (free : before.holder = none) :
      Moves config me before .terminates
        ({ before with terminated := true }.goto me (.notifyDone caller))
  | leaves (atPc : before.worker me = .notifyDone .workerMain) :
      Moves config me before .exits (before.notifyAll.goto me .exited)
  | resumes (origin : Origin) (atPc : before.worker me = .notifyDone (.finishTask origin)) :
      Moves config me before .internal (before.notifyAll.goto me origin.resume)

theorem closureStep_moves {origin : Origin} {task : Task}
    (taken : config.closureStep me before origin task act = some (event, after)) :
    ClosureMoves config me before origin task event after := by
  cases act with
  | spawn child =>
      cases taken
      exact .spawn child
  | spawnAt child worker =>
      simp only [Config.closureStep] at taken
      split at taken
      · cases taken
        exact .spawn child
      · rename_i other
        cases taken
        exact .spawnAt child _ other
  | spawnOrCall child =>
      simp only [Config.closureStep] at taken
      split at taken
      · rename_i due
        cases taken
        exact .promote child due
      · rename_i early
        cases taken
        exact .inline child early
  | shouldPromote =>
      simp only [Config.closureStep] at taken
      split at taken <;> cases taken <;> exact .answer _ _
  | finish =>
      simp only [Config.closureStep] at taken
      split at taken
      · rename_i last
        cases taken
        exact .finishLast last
      · rename_i more
        cases taken
        exact .finish more
  | panic =>
      cases taken
      exact .panic
  | go | loseRace | wakeSpuriously => cases taken

theorem recheck_moves {gen : UInt64} {notified : Bool}
    (atPc : before.worker me = .waiting gen notified)
    (taken : config.recheck me before gen = some (event, after)) :
    Moves config me before event after := by
  unfold Config.recheck at taken
  split at taken
  · rename_i free
    split at taken
    · rename_i terminated
      cases taken
      exact .wakesTerminated gen notified atPc free terminated
    · rename_i running
      rw [Bool.not_eq_true] at running
      split at taken
      · rename_i same
        cases taken
        exact .waitsOn gen notified atPc free running same
      · rename_i moved
        cases taken
        exact .wakes gen notified atPc free running moved
  · cases taken

theorem step_moves (taken : config.step me before act = some (event, after)) :
    Moves config me before event after := by
  unfold Config.step at taken
  split at taken
  case h_1 atPc =>
    split at taken
    · cases taken
      exact .drained atPc
    · rename_i task rest inbox
      cases taken
      exact .drains atPc task rest inbox
  case h_2 atPc =>
    cases taken
    exact .drained atPc
  case h_3 task atPc =>
    cases taken
    exact .drainPush task atPc
  case h_4 didWork atPc =>
    split at taken
    · rename_i task last
      cases taken
      have split : before.deque me = (before.deque me).dropLast ++ [task] :=
        (List.dropLast_append_getLast? task last).symm
      exact .pops didWork atPc _ task split
    · rename_i empty
      rw [List.getLast?_eq_none_iff] at empty
      cases didWork with
      | true =>
          cases taken
          exact .popsAgain atPc empty
      | false =>
          cases taken
          exact .beginsSteal atPc empty
  case h_5 _act origin task atPc => exact .closure origin task atPc (closureStep_moves taken)
  case h_6 origin task child atPc =>
    cases taken
    exact .spawnPush origin task child atPc
  case h_7 origin task atPc =>
    cases taken
    exact .clearLifelines origin task atPc _
  case h_8 origin task child target atPc =>
    cases taken
    exact .enqueue origin task child target atPc
  case h_9 origin task deposit atPc =>
    split at taken
    · rename_i free
      cases taken
      exact .signal origin task deposit atPc free
    · cases taken
  case h_10 origin task atPc =>
    cases taken
    exact .notifyWork origin task atPc
  case h_11 victim victims atPc =>
    simp only at taken
    split at taken <;> cases taken
    · exact .probesEmpty victim victims atPc
    · exact .probes victim victims _ atPc
  case h_12 atPc =>
    split at taken <;> cases taken
    · rename_i zero
      exact .allDone atPc zero
    · exact .registers atPc
  case h_13 victim want victims atPc =>
    split at taken <;> cases taken
    · exact .stealFails victim want victims atPc
    · rename_i first rest deque
      exact .stealFirst victim want victims atPc first rest deque
  case h_14 victim want victims atPc =>
    cases taken
    exact .stealFails victim want victims atPc
  case h_15 victim first more atPc =>
    split at taken <;> cases taken
    · exact .stealStops victim first more atPc
    · rename_i stolen rest deque
      exact .stealMore victim first more atPc stolen rest deque
  case h_16 victim first more atPc =>
    cases taken
    exact .stealStops victim first more atPc
  case h_17 victim first atPc =>
    cases taken
    exact .stole victim first atPc
  case h_18 victim first stolen more atPc =>
    cases taken
    exact .stealPush victim first stolen more atPc
  case h_19 buddy buddies atPc =>
    cases taken
    exact .registersOn buddy buddies atPc _
  case h_20 atPc =>
    split at taken
    · rename_i free
      split at taken <;> cases taken
      · rename_i terminated
        exact .findsTerminated atPc free terminated
      · rename_i running
        exact .takesPark atPc free (Bool.not_eq_true _ ▸ running)
    · cases taken
  case h_21 atPc =>
    split at taken <;> cases taken
    · rename_i zero
      exact .parkDone atPc zero
    · rename_i nonzero
      exact .parkMore atPc nonzero
  case h_22 atPc =>
    split at taken <;> cases taken
    · rename_i empty
      exact .blocks atPc empty
    · rename_i first rest inbox
      exact .turnsBack atPc (by rw [inbox]; exact List.cons_ne_nil first rest)
  case h_23 gen notified atPc =>
    split at taken
    · exact recheck_moves atPc taken
    · cases taken
  case h_24 gen notified atPc => exact recheck_moves atPc taken
  case h_25 caller atPc =>
    split at taken
    · rename_i free
      cases taken
      exact .declare caller atPc free
    · cases taken
  case h_26 atPc =>
    cases taken
    exact .leaves atPc
  case h_27 origin atPc =>
    cases taken
    exact .resumes origin atPc
  case h_28 => cases taken

theorem next_moves {choice : config.Id × Act Task} {label : Label config.Id Task}
    (taken : config.next before choice = some (label, after)) :
    Moves config label.worker before label.event after := by
  obtain ⟨moved, stepped, same⟩ := Option.map_eq_some_iff.mp taken
  cases same
  exact step_moves stepped

end WsDeque.Scheduler
