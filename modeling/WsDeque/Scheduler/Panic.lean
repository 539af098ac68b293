import WsDeque.Scheduler.Termination

/-
What a panicking task does to the scheduler: its count is never taken back, so
that no worker that remains ever leaves its loop.
-/

namespace WsDeque.Scheduler

variable {Task : Type*} {config : Config} {me other : config.Id}
  {before after final shifted : State config.Id Task} {event : Event config.Id Task}
  {initial : List Task} {labels : List (Label config.Id Task)} {state : State config.Id Task}

theorem goto_other {pc : WorkerPc config.Id Task} (different : other ≠ me) :
    (shifted.goto me pc).worker other = shifted.worker other :=
  Function.update_of_ne different ..

theorem goto_self {pc : WorkerPc config.Id Task} : (shifted.goto me pc).worker me = pc :=
  Function.update_self ..

/-- A move of one worker at most notifies the others. -/
theorem Moves.others (moved : Moves config me before event after) (different : other ≠ me) :
    after.worker other = before.worker other ∨
      after.worker other = (before.worker other).notify := by
  cases moved with
  | closure origin task atPc moved =>
      cases moved with
      | inline child early | answer answer count => exact Or.inl rfl
      | _ => exact Or.inl (goto_other different)
  | notifyWork origin task atPc | leaves atPc | resumes origin atPc =>
      exact Or.inr (goto_other different)
  | _ => exact Or.inl (goto_other different)

def WorkerPc.isPanicked {Id : Type*} : WorkerPc Id Task → Bool
  | .panicked _ => true
  | _ => false

theorem Origin.resume_isPanicked {Id : Type*} (origin : Origin) :
    (origin.resume : WorkerPc Id Task).isPanicked = false := by
  cases origin <;> rfl

def Event.isPanic {Id : Type*} : Event Id Task → Bool
  | .panics => true
  | _ => false

theorem Moves.not_panicked (moved : Moves config me before event after) :
    (before.worker me).isPanicked = false := by
  cases moved <;> simp only [*, WorkerPc.isPanicked]

/-- The worker that moves panics exactly when the step is a panic. -/
theorem Moves.panicked_self (moved : Moves config me before event after) :
    (after.worker me).isPanicked = event.isPanic := by
  cases moved with
  | closure origin task atPc moved =>
      cases moved with
      | inline child early | answer answer count =>
          change (before.worker me).isPanicked = false
          rw [atPc]
          rfl
      | finish more =>
          rw [goto_self]
          exact origin.resume_isPanicked
      | _ => rw [goto_self]; rfl
  | resumes origin atPc =>
      rw [goto_self]
      exact origin.resume_isPanicked
  | _ => rw [goto_self]; rfl

theorem WorkerPc.notify_isPanicked {Id : Type*} (pc : WorkerPc Id Task) :
    pc.notify.isPanicked = pc.isPanicked := by
  cases pc <;> rfl

theorem Moves.panicked_other (moved : Moves config me before event after)
    (different : other ≠ me) :
    (after.worker other).isPanicked = (before.worker other).isPanicked := by
  rcases moved.others different with same | notified
  · rw [same]
  · rw [notified, WorkerPc.notify_isPanicked]

/-- A panic is for good. -/
theorem Moves.stays_panicked (moved : Moves config me before event after)
    (gone : (before.worker other).isPanicked = true) :
    (after.worker other).isPanicked = true := by
  by_cases same : other = me
  · subst same
    rw [moved.not_panicked] at gone
    cases gone
  · rw [moved.panicked_other same, gone]

/-- The panicked task is still counted. -/
theorem not_ended_of_panicked (reached : (config.system initial).Reaches labels state)
    (gone : (state.worker other).isPanicked = true) : ¬ state.Ended := by
  intro ended
  have empty := ((balance_of_reaches reached).empty_of_zero (zero_of_ended reached ended)).2
  cases atPc : state.worker other with
  | panicked task =>
      have runs : (state.worker other).runs = {task} := by rw [atPc]; rfl
      exact State.running_ne_zero runs empty
  | _ =>
      rw [atPc] at gone
      cases gone

/-! ### The workers that remain -/

/-- Some continuation lets every worker that has not panicked leave its loop. -/
def Config.CanLeave (config : Config) (initial : List Task) (state : State config.Id Task) :
    Prop :=
  ∃ labels final, (config.system initial).Run state labels final ∧
    ∀ worker, (state.worker worker).isPanicked = false → final.worker worker = .exited

theorem panicked_of_run {labels : List (Label config.Id Task)}
    (run : (config.system initial).Run before labels after)
    (gone : (before.worker other).isPanicked = true) :
    (after.worker other).isPanicked = true := by
  induction run with
  | refl => exact gone
  | snoc _prior last ih =>
      obtain ⟨choice, taken⟩ := last
      exact (next_moves taken).stays_panicked ih

/-- Once a task has panicked, nobody who remains leaves. -/
theorem not_canLeave (reached : (config.system initial).Reaches labels state)
    (gone : (state.worker me).isPanicked = true)
    (remains : (state.worker other).isPanicked = false) : ¬ config.CanLeave initial state := by
  rintro ⟨rest, final, run, leave⟩
  obtain ⟨start, isInitial, prior⟩ := reached
  have reachedLater : (config.system initial).Reaches (labels ++ rest) final :=
    ⟨start, isInitial, prior.append run⟩
  have exited := leave other remains
  refine not_ended_of_panicked reachedLater (panicked_of_run run gone) (Or.inr ⟨other, ?_⟩)
  rw [exited]
  rfl

/-- In `wait_while`, not notified, and with a predicate that still holds. -/
def WorkerPc.Stuck {Id : Type*} (generation : UInt64) : WorkerPc Id Task → Prop
  | .waiting gen notified => gen = generation ∧ notified = false
  | _ => False

instance {Id : Type*} (generation : UInt64) :
    (pc : WorkerPc Id Task) → Decidable (pc.Stuck generation)
  | .waiting gen notified => inferInstanceAs (Decidable (gen = generation ∧ notified = false))
  | .drain | .drainPush _ | .pop _ | .running _ _ | .spawnPush _ _ _ | .clearLifelines _ _
  | .enqueue _ _ _ _ | .signal _ _ _ | .notifyWork _ _ | .stealing _ | .stealFirst _ _ _
  | .stealMore _ _ _ | .stealPush _ _ _ _ | .registering _ | .parkOutstanding | .parkInbox
  | .declare _ | .notifyDone _ | .exited | .panicked _ => .isFalse id

/-- Some workers remain, and all of them are stuck. -/
def State.Hung (state : State config.Id Task) : Prop :=
  (∃ worker, (state.worker worker).isPanicked = false) ∧ state.terminated = false ∧
    ∀ worker, (state.worker worker).isPanicked = false →
      (state.worker worker).Stuck state.generation

instance (state : State config.Id Task) : Decidable state.Hung :=
  inferInstanceAs (Decidable (_ ∧ _ ∧ _))

/-- From here on nothing hangs: no continuation is hung, and from each of them
the workers that remain can leave. -/
def Config.Survives (config : Config) (initial : List Task) (state : State config.Id Task) :
    Prop :=
  ∀ labels later, (config.system initial).Run state labels later →
    ¬ later.Hung ∧ config.CanLeave initial later

/-- The first panic of a run leaves every other worker behind. -/
theorem first_panic (reached : (config.system initial).Reaches labels final) :
    (∀ worker, (final.worker worker).isPanicked = false) ∨
      ∃ before rest state, labels = before ++ rest ∧
        (config.system initial).Reaches before state ∧
        (config.system initial).Run state rest final ∧
        ∃ me, (state.worker me).isPanicked = true ∧
          ∀ other, other ≠ me → (state.worker other).isPanicked = false := by
  obtain ⟨start, isInitial, run⟩ := reached
  induction run with
  | refl =>
      obtain rfl : start = config.start initial := isInitial
      exact Or.inl fun worker => rfl
  | @snoc prior final labels label run last ih =>
      obtain ⟨choice, taken⟩ := last
      have moved := next_moves taken
      rcases ih with nobody | ⟨before, rest, state, rfl, reached, later, first⟩
      · by_cases panics : label.event.isPanic = true
        · refine Or.inr ⟨labels ++ [label], [], final, (List.append_nil _).symm,
            ⟨start, isInitial, run.snoc ⟨choice, taken⟩⟩, .refl final, label.worker,
            moved.panicked_self.trans panics, fun other different => ?_⟩
          rw [moved.panicked_other different, nobody other]
        · refine Or.inl fun worker => ?_
          by_cases same : worker = label.worker
          · rw [same, moved.panicked_self]
            exact Bool.not_eq_true _ ▸ panics
          · rw [moved.panicked_other same, nobody worker]
      · exact Or.inr ⟨before, rest ++ [label], state, by rw [List.append_assoc], reached,
          later.snoc ⟨choice, taken⟩, first⟩

theorem panicked_of_label (reached : (config.system initial).Reaches labels final)
    (panics : ∃ label ∈ labels, label.event = .panics) :
    ∃ worker, (final.worker worker).isPanicked = true := by
  obtain ⟨start, isInitial, run⟩ := reached
  induction run with
  | refl =>
      obtain ⟨label, member, _panic⟩ := panics
      cases member
  | snoc _prior last ih =>
      obtain ⟨choice, taken⟩ := last
      have moved := next_moves taken
      obtain ⟨label, member, panic⟩ := panics
      rcases List.mem_append.mp member with earlier | now
      · obtain ⟨worker, gone⟩ := ih ⟨label, earlier, panic⟩
        exact ⟨worker, moved.stays_panicked gone⟩
      · rw [List.mem_singleton.mp now] at panic
        exact ⟨_, moved.panicked_self.trans (by rw [panic]; rfl)⟩

/-- No run of two or more workers in which a task panics survives it. -/
theorem panic_hangs (several : 2 ≤ config.workers)
    (reached : (config.system initial).Reaches labels final)
    (panics : ∃ label ∈ labels, label.event = .panics) :
    ∃ before rest state, labels = before ++ rest ∧
      (config.system initial).Reaches before state ∧
      (config.system initial).Run state rest final ∧ ¬ config.Survives initial state := by
  obtain ⟨gone, isGone⟩ := panicked_of_label reached panics
  rcases first_panic reached with
    nobody | ⟨before, rest, state, split, earlier, later, me, panicked, others⟩
  · rw [nobody gone] at isGone
    cases isGone
  · refine ⟨before, rest, state, split, earlier, later, fun survives => ?_⟩
    obtain ⟨other, different⟩ : ∃ other : config.Id, other ≠ me := by
      by_cases zero : me.val = 0
      · exact ⟨⟨1, several⟩, fun same => by simp [← same] at zero⟩
      · exact ⟨⟨0, config.someWorker⟩, fun same => zero (by rw [← same])⟩
    exact not_canLeave earlier panicked (others other different)
      (survives [] state (.refl state)).2

/-! ### Two workers and one seed -/

def twoWorkers : Config :=
  Config.clamp 2 1 1

def firstWorker : twoWorkers.Id :=
  ⟨0, Nat.two_pos⟩

def secondWorker : twoWorkers.Id :=
  ⟨1, Nat.one_lt_two⟩

/-- The task of the first worker panics. -/
def seedPanics : List (twoWorkers.Id × Act Nat) :=
  [(firstWorker, .go), (firstWorker, .go), (firstWorker, .panic)]

theorem panic_hangs_seedPanics :
    ∃ labels final, (twoWorkers.system [3]).Reaches labels final ∧
      ∃ before rest state, labels = before ++ rest ∧ (twoWorkers.system [3]).Reaches before state ∧
        (twoWorkers.system [3]).Run state rest final ∧ ¬ twoWorkers.Survives [3] state := by
  have reached : (twoWorkers.system [3]).Reaches _ _ :=
    ⟨_, rfl, TransitionSystem.execute_run seedPanics rfl⟩
  exact ⟨_, _, reached, panic_hangs (Nat.le_refl 2) reached
    ⟨_, List.mem_append_right [_, _] (List.mem_singleton_self _), rfl⟩⟩

/-- The second worker finds nothing and goes to sleep. -/
def secondParks : List (twoWorkers.Id × Act Nat) :=
  seedPanics ++ List.replicate 26 (secondWorker, .go)

theorem not_survives_panic :
    ¬ ∀ (labels : List (Label twoWorkers.Id Nat)) (state : State twoWorkers.Id Nat),
      (twoWorkers.system [3]).Reaches labels state → (∃ label ∈ labels, label.event = .panics) →
        ¬ state.Hung := by
  intro claim
  obtain ⟨labels, state, run, panics, hung⟩ :=
    TransitionSystem.execute_finds twoWorkers.next (twoWorkers.start [3]) secondParks
      (fun labels state => (∃ label ∈ labels, label.event.isPanic = true) ∧ state.Hung)
      (by decide +kernel)
  obtain ⟨label, member, isPanic⟩ := panics
  refine claim labels state ⟨_, rfl, run⟩ ⟨label, member, ?_⟩ hung
  cases event : label.event with
  | panics => rfl
  | _ =>
      rw [event] at isPanic
      cases isPanic

end WsDeque.Scheduler
