import WsDeque.Scheduler.Sleep

/-
The generation a worker blocks on is read when it already holds the park mutex,
so a signal that came while it was still looking for work goes unnoticed.
-/

namespace WsDeque.Scheduler

variable {Task : Type*} {config : Config} {me other : config.Id}
  {before after : State config.Id Task} {event : Event config.Id Task}
  {initial : List Task} {labels : List (Label config.Id Task)} {state : State config.Id Task}

def Event.isTakesPark {Id : Type*} : Event Id Task → Bool
  | .takesPark => true
  | _ => false

/-- A worker that takes the park mutex has missed no signal since it began to
look elsewhere, or one of its checks will send it away. -/
def ParksInTime (config : Config) (before : State config.Id Task × List (Label config.Id Task))
    (label : Label config.Id Task) : Prop :=
  label.event.isTakesPark = true →
    signalsSince (beginning label.worker) before.2 = 0 ∨ before.1.outstanding = 0 ∨
      before.1.inbox label.worker ≠ []

instance (before : State config.Id Task × List (Label config.Id Task))
    (label : Label config.Id Task) : Decidable (ParksInTime config before label) :=
  inferInstanceAs (Decidable (_ = true → _ = 0 ∨ _ = 0 ∨ _ ≠ []))

/-- What the checks under the mutex have left possible. -/
structure InTime (labels : List (Label config.Id Task)) (state : State config.Id Task)
    (worker : config.Id) : Prop where
  atOutstanding : state.worker worker = .parkOutstanding →
    signalsSince (beginning worker) labels = 0 ∨ state.outstanding = 0 ∨ state.inbox worker ≠ []
  atInbox : state.worker worker = .parkInbox →
    signalsSince (beginning worker) labels = 0 ∨ state.inbox worker ≠ []

theorem not_beginning {worker : config.Id} {label : Label config.Id Task}
    (other : worker = label.worker → label.event ≠ .beginsSteal) :
    beginning worker label = false := by
  unfold beginning
  split
  · rename_i begins
    rw [decide_eq_false_iff_not]
    intro same
    exact other same.symm begins
  · rfl

/-- How the worker came to hold the mutex, by the check it is at. -/
theorem Moves.enters (moved : Moves config me before event after) :
    (after.worker me = .parkOutstanding → event = .takesPark ∧ after.inbox = before.inbox ∧
        after.outstanding = before.outstanding) ∧
      (after.worker me = .parkInbox → event = .internal ∧ before.worker me = .parkOutstanding ∧
        before.outstanding ≠ 0 ∧ after.inbox = before.inbox) := by
  cases moved with
  | closure origin task atPc moved =>
      cases moved with
      | inline child early | answer answer count =>
          change (before.worker me = _ → _) ∧ (before.worker me = _ → _)
          rw [atPc]
          constructor <;> intro same <;> cases same
      | finish more =>
          rw [goto_self]
          cases origin <;> constructor <;> intro same <;> cases same
      | _ =>
          rw [goto_self]
          constructor <;> intro same <;> cases same
  | resumes origin atPc =>
      rw [goto_self]
      cases origin <;> constructor <;> intro same <;> cases same
  | takesPark atPc free running =>
      rw [goto_self]
      refine ⟨fun _same => ⟨rfl, rfl, rfl⟩, fun same => ?_⟩
      cases same
  | parkMore atPc nonzero =>
      rw [goto_self]
      refine ⟨fun same => ?_, fun _same => ⟨rfl, atPc, nonzero, rfl⟩⟩
      cases same
  | _ =>
      rw [goto_self]
      constructor <;> intro same <;> cases same

/-- A signal needs the mutex. -/
theorem Moves.unsignalled (moved : Moves config me before event after)
    (held : before.holder ≠ none) : event.isSignal = false := by
  cases moved with
  | closure origin task atPc moved => cases moved <;> rfl
  | signal origin task deposit atPc free => exact absurd free held
  | _ => rfl

theorem InTime.step_self {label : Label config.Id Task}
    (inTime : InTime labels before label.worker)
    (guard : ParksInTime config (before, labels) label)
    (moved : Moves config label.worker before label.event after) :
    InTime (labels ++ [label]) after label.worker := by
  obtain ⟨toOutstanding, toInbox⟩ := moved.enters
  constructor
  · intro atPc
    obtain ⟨takes, inbox, outstanding⟩ := toOutstanding atPc
    rw [signalsSince_silent (not_beginning (by simp [takes])) (by rw [takes]; rfl), inbox,
      outstanding]
    exact guard (by rw [takes]; rfl)
  · intro atPc
    obtain ⟨internal, earlier, nonzero, inbox⟩ := toInbox atPc
    rw [signalsSince_silent (not_beginning (by simp [internal])) (by rw [internal]; rfl), inbox]
    rcases inTime.atOutstanding earlier with none | zero | stocked
    · exact Or.inl none
    · exact absurd zero nonzero
    · exact Or.inr stocked

/-- While a worker holds the mutex the others can neither signal nor take from
its inbox, and what is finished stays finished. -/
theorem InTime.step_other {label : Label config.Id Task} {worker : config.Id}
    (inTime : InTime labels before worker) (different : worker ≠ label.worker)
    (held : before.ParkHeld) (finished : before.outstanding = 0 → after.outstanding = 0)
    (moved : Moves config label.worker before label.event after) :
    InTime (labels ++ [label]) after worker := by
  have stocked : before.inbox worker ≠ [] → after.inbox worker ≠ [] := by
    intro stocked
    rcases moved.inbox_other different with unchanged | ⟨deposited, _pending⟩
    · rwa [unchanged]
    · exact deposited
  have earlier : ∀ pc : WorkerPc config.Id Task, pc.holdsPark = true →
      after.worker worker = pc → before.worker worker = pc ∧
        signalsSince (beginning worker) (labels ++ [label]) =
          signalsSince (beginning worker) labels := by
    intro pc holds atPc
    have same : before.worker worker = pc := by
      rcases moved.others different with kept | notified
      · rw [← kept, atPc]
      · rw [notified] at atPc
        cases slept : before.worker worker with
        | waiting gen flag =>
            rw [slept] at atPc
            rw [← atPc] at holds
            cases holds
        | _ =>
            rw [slept] at atPc
            exact atPc
    refine ⟨same, ?_⟩
    have mine := held worker (by rw [same, holds])
    exact signalsSince_silent (not_beginning fun same' => absurd same' different)
      (moved.unsignalled (by rw [mine]; exact Option.some_ne_none worker))
  constructor
  · intro atPc
    obtain ⟨same, count⟩ := earlier .parkOutstanding rfl atPc
    rw [count]
    rcases inTime.atOutstanding same with none | zero | full
    · exact Or.inl none
    · exact Or.inr (Or.inl (finished zero))
    · exact Or.inr (Or.inr (stocked full))
  · intro atPc
    obtain ⟨same, count⟩ := earlier .parkInbox rfl atPc
    rw [count]
    rcases inTime.atInbox same with none | full
    · exact Or.inl none
    · exact Or.inr (stocked full)

theorem zero_of_zero (reached : (config.system initial).Reaches labels before)
    (moved : Moves config me before event after) (zero : before.outstanding = 0) :
    after.outstanding = 0 :=
  (balance_of_reaches reached).stays_zero zero moved.pool

theorem inTime_of_reaches {state : State config.Id Task × List (Label config.Id Task)}
    (reached : ((config.system initial).recorded.restrict (ParksInTime config)).Reaches
      labels state) (worker : config.Id) : InTime labels state.1 worker := by
  obtain ⟨start, isInitial, run⟩ := reached
  induction run with
  | refl =>
      have first : start.1 = config.start initial := isInitial.1
      rw [first]
      constructor <;> intro atPc <;> cases atPc
  | @snoc before final labels label prior last ih =>
      obtain ⟨guard, taken, _history⟩ := last
      obtain ⟨reached, history⟩ :=
        TransitionSystem.Reaches.of_recorded ⟨start, isInitial, prior.unrestricted⟩
      obtain ⟨choice, chosen⟩ := taken
      have moved := next_moves chosen
      by_cases same : worker = label.worker
      · subst same
        refine ih.step_self ?_ moved
        rw [← history]
        exact guard
      · exact ih.step_other same (parkHeld_of_reaches reached) (zero_of_zero reached moved) moved

theorem Moves.atInbox_of_blocks (moved : Moves config me before event after)
    (blocks : event = .blocks) : before.worker me = .parkInbox ∧ before.inbox me = [] := by
  subst blocks
  cases moved with
  | closure origin task atPc moved => cases moved
  | blocks atPc empty => exact ⟨atPc, empty⟩

/-- A worker that takes the mutex in time goes to sleep in time. -/
theorem blocks_unsignalled {state : State config.Id Task × List (Label config.Id Task)}
    (reached : ((config.system initial).recorded.restrict (ParksInTime config)).Reaches
      labels state) {earlier later : List (Label config.Id Task)} {label : Label config.Id Task}
    (split : labels = earlier ++ label :: later) (blocks : label.event = .blocks) :
    signalsSince (beginning label.worker) earlier = 0 := by
  obtain ⟨start, isInitial, run⟩ := reached
  induction run generalizing later with
  | refl => simp at split
  | @snoc before final labels last prior taken ih =>
      rcases List.eq_nil_or_concat later with rfl | ⟨front, final', rfl⟩
      · obtain ⟨rfl, same⟩ := List.append_inj' split rfl
        obtain rfl : last = label := by simpa using same
        obtain ⟨_guard, ⟨choice, chosen⟩, _history⟩ := taken
        obtain ⟨atPc, empty⟩ := (next_moves chosen).atInbox_of_blocks blocks
        have inTime := inTime_of_reaches ⟨start, isInitial, prior⟩ last.worker
        rcases inTime.atInbox atPc with none | stocked
        · exact none
        · exact absurd empty stocked
      · have shorter : labels ++ [last] = (earlier ++ label :: front) ++ [final'] := by
          simpa using split
        exact ih (List.append_inj' shorter rfl).1

theorem blocks_of_last {worker : config.Id}
    (last : labels.getLast?.any (blocking worker) = true) :
    ∃ label, labels = labels.dropLast ++ [label] ∧ label.event = .blocks ∧
      label.worker = worker := by
  obtain ⟨label, isLast, marked⟩ := (Option.any_eq_true _ _).mp last
  refine ⟨label, (List.dropLast_append_getLast? label isLast).symm, ?_⟩
  unfold blocking at marked
  split at marked
  · rename_i blocks
    exact ⟨blocks, of_decide_eq_true marked⟩
  · cases marked

theorem blocks_unsignalled_parksBeside :
    ∃ labels state,
      ((twoWorkers.system [3]).recorded.restrict (ParksInTime twoWorkers)).Reaches labels state ∧
        ∃ earlier label, labels = earlier ++ [label] ∧ label.event = .blocks ∧
          signalsSince (beginning label.worker) earlier = 0 := by
  obtain ⟨⟨labels, state⟩, executed, last⟩ := (Option.any_eq_true _ _).mp
    (show (TransitionSystem.execute (TransitionSystem.guarded (ParksInTime twoWorkers)
        (TransitionSystem.recordedNext twoWorkers.next)) (twoWorkers.start [3], []) parksBeside).any
      (fun done => done.1.getLast?.any (blocking secondWorker)) = true from by decide +kernel)
  have reached : ((twoWorkers.system [3]).recorded.restrict (ParksInTime twoWorkers)).Reaches
      labels state :=
    ⟨(_, []), ⟨rfl, rfl⟩, TransitionSystem.execute_recorded_run parksBeside executed⟩
  obtain ⟨label, split, blocks, _isSecond⟩ := blocks_of_last last
  exact ⟨labels, state, reached, labels.dropLast, label, split, blocks,
    blocks_unsignalled reached split blocks⟩

/-- The second worker looks everywhere in vain, the first one spawns, and the
second goes to sleep. -/
def spawnsBehind : List (twoWorkers.Id × Act Nat) :=
  List.replicate 2 (firstWorker, .go) ++ List.replicate 21 (secondWorker, .go) ++
    (firstWorker, .spawn 5) :: List.replicate 4 (firstWorker, .go) ++
    List.replicate 5 (secondWorker, .go)

theorem not_blocks_unsignalled :
    ¬ ∀ (labels : List (Label twoWorkers.Id Nat)) (state : State twoWorkers.Id Nat),
      (twoWorkers.system [3]).Reaches labels state →
        ∀ earlier label later, labels = earlier ++ label :: later → label.event = .blocks →
          signalsSince (beginning label.worker) earlier = 0 := by
  intro claim
  have found : ∃ labels state, (twoWorkers.system [3]).Run (twoWorkers.start [3]) labels state ∧
      labels.getLast?.any (blocking secondWorker) = true ∧
        signalsSince (beginning secondWorker) labels.dropLast ≠ 0 :=
    TransitionSystem.execute_finds twoWorkers.next (twoWorkers.start [3]) spawnsBehind
      (fun labels _state => labels.getLast?.any (blocking secondWorker) = true ∧
        signalsSince (beginning secondWorker) labels.dropLast ≠ 0)
      (by decide +kernel)
  obtain ⟨labels, state, run, last, signalled⟩ := found
  obtain ⟨label, split, blocks, isSecond⟩ := blocks_of_last last
  refine signalled ?_
  rw [← isSecond]
  exact claim labels state ⟨_, rfl, run⟩ _ _ [] split blocks

theorem Moves.of_takesPark (moved : Moves config me before event after)
    (takes : event.isTakesPark = true) :
    after = { before with holder := some me }.goto me .parkOutstanding := by
  cases moved with
  | closure origin task atPc moved => cases moved <;> cases takes
  | takesPark atPc free running => rfl
  | _ => cases takes

/-- A worker that takes the mutex too late, and whose checks do not send it
away, goes to sleep past the signal if nobody else moves. -/
theorem sleeps_past_signal {label : Label config.Id Task}
    (late : ¬ ParksInTime config (before, labels) label)
    (taken : (config.system initial).step before label after) :
    ∃ check sleep asleep,
      TransitionSystem.execute config.next after
        [(label.worker, .go), (label.worker, .go)] = some ([check, sleep], asleep) ∧
      sleep.worker = label.worker ∧ sleep.event = .blocks ∧
      signalsSince (beginning label.worker) (labels ++ [label] ++ [check]) ≠ 0 := by
  obtain ⟨choice, chosen⟩ := taken
  unfold ParksInTime at late
  simp only [not_forall, not_or, not_not] at late
  obtain ⟨takes, signalled, unfinished, empty⟩ := late
  obtain rfl := (next_moves chosen).of_takesPark takes
  have unmarked : ∀ last : Label config.Id Task, last.event.isTakesPark = true ∨
      last.event = .internal → beginning label.worker last = false ∧
        last.event.isSignal = false := by
    rintro ⟨worker, event⟩ kind
    cases event <;> simp [Event.isTakesPark, beginning, Event.isSignal] at kind ⊢
  simp only [TransitionSystem.execute, Config.next, Config.step, State.goto,
    Function.update_self, unfinished, empty, if_false, Option.map_some, Option.bind_some]
  refine ⟨_, _, _, rfl, rfl, rfl, ?_⟩
  have first := unmarked label (Or.inl takes)
  have second := unmarked { worker := label.worker, event := .internal } (Or.inr rfl)
  rw [signalsSince_silent second.1 second.2, signalsSince_silent first.1 first.2]
  exact signalled

end WsDeque.Scheduler
