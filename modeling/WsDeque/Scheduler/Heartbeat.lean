import WsDeque.IntervalCounter
import WsDeque.Scheduler.Steps

/-
The heartbeat of a worker: which of the decisions that its closures make through
`spawn_or_call` and `should_promote` become tasks of their own.
-/

namespace WsDeque.Scheduler

open IntervalCounter

variable {Task : Type*}

/-- What a closure decides from here on until it returns. -/
inductive Closure (Task : Type*)
  | returns
  | spawnOrCall (task : Task) (serial : Task → Closure Task) (rest : Closure Task)
  | shouldPromote (rest : Bool → Closure Task)

inductive Outcome (Task : Type*)
  | spawned (task : Task)
  | called (task : Task)
  | answered (promote : Bool)
deriving DecidableEq

def Outcome.promoted : Outcome Task → Bool
  | .spawned _ => true
  | .called _ => false
  | .answered promote => promote

/-- A decision is named by where it is made: the number of each call on the way
to it, from the outermost closure inwards, and its own. -/
abbrev Site : Type :=
  List Nat

inductive Moment (Task : Type*)
  | decides (site : Site) (outcome : Outcome Task)
  | enters (site : Site)
  | leaves (site : Site)
deriving DecidableEq

/-- The addition on `u32`. -/
def beatOnce (count : Nat) : Option Nat :=
  if count + 1 < UInt32.size then some (count + 1) else none

/-- `should_promote`, and what `spawn_or_call` does before it spawns or calls. -/
def beat (interval count : Nat) : Option (Bool × Nat) :=
  (beatOnce count).map fun next => if next ≥ interval then (true, 0) else (false, next)

/-- What the worker does from a site on, and its counter at the end. -/
def Closure.run (interval : Nat) :
    Closure Task → Site → Nat → Nat → Option (List (Moment Task) × Nat)
  | .returns, _, _, count => some ([], count)
  | .spawnOrCall task serial rest, caller, number, count =>
      (beat interval count).bind fun decided =>
        if decided.1 then
          (rest.run interval caller (number + 1) decided.2).map fun later =>
            (.decides (caller ++ [number]) (.spawned task) :: later.1, later.2)
        else
          ((serial task).run interval (caller ++ [number]) 0 decided.2).bind fun inside =>
            (rest.run interval caller (number + 1) inside.2).map fun later =>
              (.decides (caller ++ [number]) (.called task) :: .enters (caller ++ [number]) ::
                inside.1 ++ .leaves (caller ++ [number]) :: later.1, later.2)
  | .shouldPromote rest, caller, number, count =>
      (beat interval count).bind fun decided =>
        ((rest decided.1).run interval caller (number + 1) decided.2).map fun later =>
          (.decides (caller ++ [number]) (.answered decided.1) :: later.1, later.2)

/-- The closures of the tasks that one worker runs, one after the other. -/
def runClosures (interval : Nat) :
    List (Closure Task) → Nat → Nat → Option (List (Moment Task) × Nat)
  | [], _, count => some ([], count)
  | closure :: closures, number, count =>
      (closure.run interval [number] 0 count).bind fun first =>
        (runClosures interval closures (number + 1) first.2).map fun later =>
          (first.1 ++ later.1, later.2)

def Moment.answer : Moment Task → Option Bool
  | .decides _ outcome => some outcome.promoted
  | _ => none

/-- Whether each decision was promoted, in the order of the execution. -/
def answers (moments : List (Moment Task)) : List Bool :=
  moments.filterMap Moment.answer

def Moment.decided : Moment Task → Option Site
  | .decides site _ => some site
  | _ => none

def Moment.called : Moment Task → Option Site
  | .decides site (.called _) => some site
  | _ => none

def Moment.entered : Moment Task → Option Site
  | .enters site => some site
  | _ => none

def Moment.left : Moment Task → Option Site
  | .leaves site => some site
  | _ => none

variable {interval count after number : Nat} {caller site : Site} {moments : List (Moment Task)}

/-! ### One in every interval -/

theorem beat_eq (fits : interval < UInt32.size) (below : count < interval) :
    beat interval count = some (tick interval count) := by
  unfold beat beatOnce tick
  rw [if_pos (by omega), Option.map_some]

theorem answers_append (first later : List (Moment Task)) :
    answers (first ++ later) = answers first ++ answers later :=
  List.filterMap_append

theorem Closure.run_paced (number : Nat) (caller : Site) (some : 1 ≤ interval)
    (fits : interval < UInt32.size) (closure : Closure Task) {prior : List Bool} (paced : Paced interval prior count) :
    ∃ moments after, closure.run interval caller number count = .some (moments, after) ∧
      Paced interval (prior ++ answers moments) after := by
  induction closure generalizing caller number count prior with
  | returns => exact ⟨[], count, rfl, by rwa [answers, List.filterMap_nil, List.append_nil]⟩
  | spawnOrCall task serial rest ihSerial ihRest =>
      have next := paced.tick some
      unfold Closure.run
      rw [beat_eq fits (paced.below some), Option.bind_some]
      cases promoted : (tick interval count).1 with
      | true =>
          rw [promoted] at next
          obtain ⟨later, after, runs, paced⟩ :=
            ihRest (number + 1) caller next
          rw [if_pos rfl, runs]
          refine ⟨_, after, rfl, ?_⟩
          rw [List.append_assoc] at paced
          exact paced
      | false =>
          rw [promoted] at next
          obtain ⟨inside, middle, runsSerial, paced⟩ :=
            ihSerial task 0 (caller ++ [number]) next
          obtain ⟨later, after, runs, paced⟩ :=
            ihRest (number + 1) caller paced
          rw [if_neg Bool.false_ne_true, runsSerial, Option.bind_some, runs]
          refine ⟨_, after, rfl, ?_⟩
          have same : answers (.decides (caller ++ [number]) (.called task) ::
              .enters (caller ++ [number]) :: inside ++ .leaves (caller ++ [number]) :: later) =
              false :: (answers inside ++ answers later) := by
            rw [answers_append]
            rfl
          rw [same]
          rwa [List.append_assoc, List.append_assoc] at paced
  | shouldPromote rest ihRest =>
      have next := paced.tick some
      unfold Closure.run
      rw [beat_eq fits (paced.below some), Option.bind_some]
      obtain ⟨later, after, runs, paced⟩ :=
        ihRest (tick interval count).1 (number + 1) caller next
      rw [runs]
      refine ⟨_, after, rfl, ?_⟩
      rw [List.append_assoc] at paced
      exact paced

theorem runClosures_paced (number : Nat) (some : 1 ≤ interval) (fits : interval < UInt32.size)
    (closures : List (Closure Task)) {prior : List Bool} (paced : Paced interval prior count) :
    ∃ moments after, runClosures interval closures number count = .some (moments, after) ∧
      Paced interval (prior ++ answers moments) after := by
  induction closures generalizing number count prior with
  | nil => exact ⟨[], count, rfl, by rwa [answers, List.filterMap_nil, List.append_nil]⟩
  | cons closure closures ih =>
      obtain ⟨first, middle, runsFirst, paced⟩ :=
        closure.run_paced 0 [number] some fits paced
      obtain ⟨later, after, runs, paced⟩ := ih (number + 1) paced
      unfold runClosures
      rw [runsFirst, Option.bind_some, runs]
      refine ⟨_, after, rfl, ?_⟩
      rwa [answers_append, ← List.append_assoc]

/-! ### Every call once -/

/-- The site of a decision made from this number on, or inside such a call. -/
def From (caller : Site) (number : Nat) (site : Site) : Prop :=
  ∃ here inner, number ≤ here ∧ site = caller ++ here :: inner

theorem From.later {later : Nat} (further : number ≤ later) (made : From caller later site) :
    From caller number site := by
  obtain ⟨here, inner, above, same⟩ := made
  exact ⟨here, inner, Nat.le_trans further above, same⟩

theorem From.inside (made : From (caller ++ [number]) after site) : From caller number site := by
  obtain ⟨here, inner, _above, same⟩ := made
  refine ⟨number, here :: inner, Nat.le_refl _, ?_⟩
  rw [same, List.append_assoc, List.singleton_append]

theorem From.here (caller : Site) (number : Nat) : From caller number (caller ++ [number]) :=
  ⟨number, [], Nat.le_refl _, rfl⟩

theorem From.ne (made : From caller (number + 1) site) (inner : List Nat) :
    caller ++ number :: inner ≠ site := by
  obtain ⟨here, deeper, above, rfl⟩ := made
  intro same
  have heads := (List.cons.inj (List.append_cancel_left same)).1
  omega

/-- What a run from a site on visits. -/
structure Visits (caller : Site) (number : Nat) (moments : List (Moment Task)) : Prop where
  made : ∀ site ∈ moments.filterMap Moment.decided, From caller number site
  once : (moments.filterMap Moment.decided).Nodup
  entered : moments.filterMap Moment.entered = moments.filterMap Moment.called
  left : (moments.filterMap Moment.left).Perm (moments.filterMap Moment.called)

theorem Visits.nil : Visits caller number ([] : List (Moment Task)) := by
  constructor
  · intro site member
    cases member
  · exact List.nodup_nil
  · rfl
  · exact .refl _

theorem Visits.decide {outcome : Outcome Task} {later : List (Moment Task)}
    (uncalled : Moment.called (.decides (caller ++ [number]) outcome) = none)
    (visits : Visits caller (number + 1) later) :
    Visits caller number (.decides (caller ++ [number]) outcome :: later) := by
  constructor
  · intro site member
    rcases List.mem_cons.mp member with rfl | further
    · exact From.here caller number
    · exact (visits.made site further).later (Nat.le_succ number)
  · refine List.nodup_cons.mpr ⟨?_, visits.once⟩
    intro again
    exact (visits.made _ again).ne [] rfl
  · rw [List.filterMap_cons_none uncalled]
    exact visits.entered
  · rw [List.filterMap_cons_none uncalled]
    exact visits.left

theorem Visits.beside {inside later : List (Moment Task)}
    (deeper : Visits (caller ++ [number]) 0 inside) (visits : Visits caller (number + 1) later) :
    Visits caller number (inside ++ later) := by
  constructor
  · intro site member
    rw [List.filterMap_append] at member
    rcases List.mem_append.mp member with within | beyond
    · exact (deeper.made site within).inside
    · exact (visits.made site beyond).later (Nat.le_succ number)
  · rw [List.filterMap_append]
    apply deeper.once.append visits.once
    intro site within beyond
    obtain ⟨here, inner, _above, rfl⟩ := deeper.made _ within
    apply (visits.made _ beyond).ne (here :: inner)
    rw [List.append_assoc, List.singleton_append]
  · rw [List.filterMap_append, List.filterMap_append, deeper.entered, visits.entered]
  · rw [List.filterMap_append, List.filterMap_append]
    exact deeper.left.append visits.left

theorem Visits.call {task : Task} {inside later : List (Moment Task)}
    (deeper : Visits (caller ++ [number]) 0 inside) (visits : Visits caller (number + 1) later) :
    Visits caller number (.decides (caller ++ [number]) (.called task) ::
      .enters (caller ++ [number]) :: inside ++ .leaves (caller ++ [number]) :: later) := by
  have both := deeper.beside visits
  -- Beside the call itself there is what it does inside and what follows.
  have split : ∀ kind : Moment Task → Option Site,
      (.decides (caller ++ [number]) (.called task) :: .enters (caller ++ [number]) :: inside ++
        .leaves (caller ++ [number]) :: later).filterMap kind =
      [.decides (caller ++ [number]) (.called task), .enters (caller ++ [number])].filterMap kind ++
        (inside.filterMap kind ++ (.leaves (caller ++ [number]) :: later).filterMap kind) := by
    intro kind
    rw [← List.filterMap_append, ← List.filterMap_append]
    rfl
  constructor
  · intro site member
    rw [split] at member
    rcases List.mem_cons.mp member with rfl | further
    · exact From.here caller number
    · apply both.made site
      rw [List.filterMap_append]
      exact further
  · rw [split]
    refine List.nodup_cons.mpr ⟨?_, ?_⟩
    · intro again
      have member : caller ++ [number] ∈
          inside.filterMap Moment.decided ++ later.filterMap Moment.decided := again
      rcases List.mem_append.mp member with within | beyond
      · obtain ⟨here, inner, _above, same⟩ := deeper.made _ within
        exact List.cons_ne_nil here inner (List.append_right_eq_self.mp same.symm)
      · exact (visits.made _ beyond).ne [] rfl
    · have once := both.once
      rwa [List.filterMap_append] at once
  · have entered := both.entered
    rw [List.filterMap_append, List.filterMap_append] at entered
    rw [split, split]
    exact congrArg ((caller ++ [number]) :: ·) entered
  · have left := both.left
    rw [List.filterMap_append, List.filterMap_append] at left
    rw [split, split]
    exact List.perm_middle.trans (left.cons _)

theorem Closure.run_visits (closure : Closure Task)
    (runs : closure.run interval caller number count = some (moments, after)) :
    Visits caller number moments := by
  induction closure generalizing caller number count moments after with
  | returns =>
      cases runs
      exact .nil
  | spawnOrCall task serial rest ihSerial ihRest =>
      obtain ⟨⟨promoted, next⟩, _beat, runs⟩ := Option.bind_eq_some_iff.mp runs
      cases promoted with
      | true =>
          obtain ⟨⟨later, last⟩, runsRest, same⟩ := Option.map_eq_some_iff.mp runs
          cases same
          exact .decide rfl (ihRest runsRest)
      | false =>
          obtain ⟨⟨inside, middle⟩, runsSerial, runs⟩ := Option.bind_eq_some_iff.mp runs
          obtain ⟨⟨later, last⟩, runsRest, same⟩ := Option.map_eq_some_iff.mp runs
          cases same
          exact .call (ihSerial task runsSerial) (ihRest runsRest)
  | shouldPromote rest ihRest =>
      obtain ⟨⟨promoted, next⟩, _beat, runs⟩ := Option.bind_eq_some_iff.mp runs
      obtain ⟨⟨later, last⟩, runsRest, same⟩ := Option.map_eq_some_iff.mp runs
      cases same
      exact .decide rfl (ihRest promoted runsRest)

theorem runClosures_visits (closures : List (Closure Task))
    (runs : runClosures interval closures number count = some (moments, after)) :
    Visits [] number moments := by
  induction closures generalizing number count moments after with
  | nil =>
      cases runs
      exact .nil
  | cons closure closures ih =>
      obtain ⟨⟨first, middle⟩, runsFirst, runs⟩ := Option.bind_eq_some_iff.mp runs
      obtain ⟨⟨later, last⟩, runsRest, same⟩ := Option.map_eq_some_iff.mp runs
      cases same
      have deeper : Visits ([] ++ [number]) 0 first := closure.run_visits runsFirst
      exact deeper.beside (ih runsRest)

/-- A decision has one outcome, and its closure runs once if it was called and
never otherwise. -/
structure DecidedOnce (moments : List (Moment Task)) (site : Site) (outcome : Outcome Task) :
    Prop where
  decided : (moments.filterMap Moment.decided).count site = 1
  settled : outcome.promoted = true ∨ outcome = .answered false ∨ ∃ task, outcome = .called task
  entered : (moments.filterMap Moment.entered).count site =
    if Moment.called (.decides site outcome) = none then 0 else 1
  left : (moments.filterMap Moment.left).count site =
    if Moment.called (.decides site outcome) = none then 0 else 1

theorem outcome_unique {outcome other : Outcome Task}
    (once : (moments.filterMap Moment.decided).Nodup) (first : .decides site outcome ∈ moments)
    (second : .decides site other ∈ moments) : outcome = other := by
  induction moments with
  | nil => cases first
  | cons moment moments ih =>
      have later : ∀ result, .decides site result ∈ moments →
          site ∈ moments.filterMap Moment.decided := fun result member =>
        List.mem_filterMap.mpr ⟨_, member, rfl⟩
      rcases List.mem_cons.mp first with rfl | firstLater
      · obtain ⟨fresh, _rest⟩ := List.nodup_cons.mp once
        rcases List.mem_cons.mp second with same | secondLater
        · cases same
          rfl
        · exact absurd (later _ secondLater) fresh
      · rcases List.mem_cons.mp second with rfl | secondLater
        · obtain ⟨fresh, _rest⟩ := List.nodup_cons.mp once
          exact absurd (later _ firstLater) fresh
        · have rest : (moments.filterMap Moment.decided).Nodup := by
            cases decided : moment.decided with
            | none => rwa [List.filterMap_cons_none decided] at once
            | some here =>
                rw [List.filterMap_cons_some decided] at once
                exact (List.nodup_cons.mp once).2
          exact ih rest firstLater secondLater

theorem called_sublist (moments : List (Moment Task)) :
    (moments.filterMap Moment.called).Sublist (moments.filterMap Moment.decided) := by
  induction moments with
  | nil => exact .refl _
  | cons moment moments ih =>
      cases moment with
      | decides site outcome =>
          cases outcome with
          | called task => exact ih.cons_cons site
          | _ => exact ih.cons site
      | _ => exact ih

theorem Visits.decidedOnce (visits : Visits caller number moments) {outcome : Outcome Task}
    (member : .decides site outcome ∈ moments) : DecidedOnce moments site outcome := by
  have calls : (moments.filterMap Moment.called).count site =
      if Moment.called (.decides site outcome) = none then 0 else 1 := by
    split
    · rename_i uncalled
      apply List.count_eq_zero.mpr
      intro called
      obtain ⟨moment, here, names⟩ := List.mem_filterMap.mp called
      obtain ⟨task, rfl⟩ : ∃ task, moment = .decides site (.called task) := by
        cases moment with
        | decides place outcome =>
            cases outcome with
            | called task =>
                cases names
                exact ⟨task, rfl⟩
            | _ => cases names
        | _ => cases names
      rw [outcome_unique visits.once member here] at uncalled
      cases uncalled
    · rename_i called
      apply List.count_eq_one_of_mem (visits.once.sublist (called_sublist moments))
      cases outcome with
      | called task => exact List.mem_filterMap.mpr ⟨_, member, rfl⟩
      | _ => exact absurd rfl called
  constructor
  · exact List.count_eq_one_of_mem visits.once (List.mem_filterMap.mpr ⟨_, member, rfl⟩)
  · cases outcome with
    | spawned task => exact Or.inl rfl
    | called task => exact Or.inr (Or.inr ⟨task, rfl⟩)
    | answered promote =>
        cases promote with
        | true => exact Or.inl rfl
        | false => exact Or.inr (Or.inl rfl)
  · rw [visits.entered, calls]
  · rw [visits.left.count_eq, calls]

/-! ### The workers of a run -/

def Act.decides : Act Task → Bool
  | .spawnOrCall _ | .shouldPromote => true
  | _ => false

/-- Whether the decision was promoted. -/
def Event.promoted {Id : Type*} : Event Id Task → Bool
  | .announced _ => true
  | .promotes answer => answer
  | _ => false

variable {config : Config} {me : config.Id} {before afterwards : State config.Id Task}
  {act : Act Task} {event : Event config.Id Task}

def decisionOf (me : config.Id)
    (step : (config.Id × Act Task) × Label config.Id Task) : Option Bool :=
  if step.1.1 = me ∧ step.1.2.decides = true then some step.2.event.promoted else none

/-- Whether each decision of the worker was promoted, in the order of the run. -/
def decisions (me : config.Id)
    (steps : List ((config.Id × Act Task) × Label config.Id Task)) : List Bool :=
  steps.filterMap (decisionOf me)

theorem running_of_decides (decides : act.decides = true)
    (taken : config.step me before act = some (event, afterwards)) :
    ∃ origin task, before.worker me = .running origin task := by
  unfold Config.step at taken
  split at taken
  case h_5 origin task atPc => exact ⟨origin, task, atPc⟩
  all_goals first
    | cases decides
    | cases taken

theorem step_beats (decides : act.decides = true)
    (taken : config.step me before act = some (event, afterwards)) :
    (event.promoted, afterwards.heartbeat) =
      ((tick config.heartbeatInterval (before.heartbeat me)).1,
        Function.update before.heartbeat me
          (tick config.heartbeatInterval (before.heartbeat me)).2) := by
  obtain ⟨origin, task, atPc⟩ := running_of_decides decides taken
  have same : config.step me before act = config.closureStep me before origin task act := by
    unfold Config.step
    rw [atPc]
  rw [same] at taken
  unfold tick
  cases act with
  | spawnOrCall child =>
      simp only [Config.closureStep] at taken
      split at taken <;> rename_i due
      · cases taken
        rw [if_pos due]
        rfl
      · cases taken
        rw [if_neg due]
        rfl
  | shouldPromote =>
      simp only [Config.closureStep] at taken
      split at taken <;> rename_i due
      · cases taken
        rw [if_pos due]
        rfl
      · cases taken
        rw [if_neg due]
        rfl
  | _ => cases decides

theorem step_keeps_beat (other : act.decides = false)
    (taken : config.step me before act = some (event, afterwards)) :
    afterwards.heartbeat = before.heartbeat := by
  cases step_moves taken with
  | closure origin task atPc moved =>
      have same : config.step me before act = config.closureStep me before origin task act := by
        unfold Config.step
        rw [atPc]
      rw [same] at taken
      clear moved
      cases act with
      | spawnOrCall child => cases other
      | shouldPromote => cases other
      | spawnAt child worker =>
          simp only [Config.closureStep] at taken
          split at taken <;> cases taken <;> rfl
      | finish =>
          simp only [Config.closureStep] at taken
          split at taken <;> cases taken <;> rfl
      | _ =>
          cases taken
          try rfl
  | _ => rfl

theorem next_paced {choice : config.Id × Act Task} {label : Label config.Id Task}
    {prior : config.Id → List Bool}
    (paced : ∀ me, Paced config.heartbeatInterval (prior me) (before.heartbeat me))
    (taken : config.next before choice = some (label, afterwards)) (me : config.Id) :
    Paced config.heartbeatInterval (prior me ++ (decisionOf me (choice, label)).toList)
      (afterwards.heartbeat me) := by
  obtain ⟨⟨event, final⟩, stepped, same⟩ := Option.map_eq_some_iff.mp taken
  cases same
  unfold decisionOf
  cases decides : choice.2.decides with
  | false =>
      rw [step_keeps_beat decides stepped, if_neg (by simp), Option.toList_none, List.append_nil]
      exact paced me
  | true =>
      obtain ⟨promoted, beats⟩ := Prod.mk.inj (step_beats decides stepped)
      by_cases mine : choice.1 = me
      · subst mine
        rw [if_pos ⟨rfl, rfl⟩, beats, Function.update_self, promoted, Option.toList_some]
        exact (paced choice.1).tick config.beats
      · rw [if_neg (fun both => mine both.1), beats, Function.update_of_ne (Ne.symm mine),
          Option.toList_none, List.append_nil]
        exact paced me

theorem execute_paced (choices : List (config.Id × Act Task)) {start final : State config.Id Task}
    {labels : List (Label config.Id Task)} {prior : config.Id → List Bool}
    (paced : ∀ me, Paced config.heartbeatInterval (prior me) (start.heartbeat me))
    (executed : TransitionSystem.execute config.next start choices = some (labels, final))
    (me : config.Id) :
    Paced config.heartbeatInterval (prior me ++ decisions me (choices.zip labels))
      (final.heartbeat me) := by
  induction choices generalizing start labels prior with
  | nil =>
      cases executed
      rw [List.zip_nil_left, decisions, List.filterMap_nil, List.append_nil]
      exact paced me
  | cons choice rest ih =>
      obtain ⟨⟨label, middle⟩, taken, executed⟩ := Option.bind_eq_some_iff.mp executed
      obtain ⟨⟨later, last⟩, finished, same⟩ := Option.map_eq_some_iff.mp executed
      cases same
      have after := ih (next_paced paced taken) finished
      have front : decisions me ((choice, label) :: rest.zip later) =
          (decisionOf me (choice, label)).toList ++ decisions me (rest.zip later) := by
        unfold decisions
        rw [List.filterMap_cons]
        cases decisionOf me (choice, label) <;> rfl
      rw [List.zip_cons_cons, front, ← List.append_assoc]
      exact after

/-- One decision in every interval is promoted, on each worker and so over all of
them; the others are answered no or called, each call once. -/
theorem heartbeat_promotes (config : Config) (fits : config.heartbeatInterval < UInt32.size)
    (initial : List Task) :
    (∀ closures : List (Closure Task), ∃ moments count,
      runClosures config.heartbeatInterval closures 0 0 = some (moments, count) ∧
        Paced config.heartbeatInterval (answers moments) count ∧
        ∀ site outcome, .decides site outcome ∈ moments → DecidedOnce moments site outcome) ∧
    ∀ choices labels state,
      TransitionSystem.execute config.next (config.start initial) choices = some (labels, state) →
        (∀ me, Paced config.heartbeatInterval (decisions me (choices.zip labels))
            (state.heartbeat me) ∧ state.heartbeat me + 1 < UInt32.size) ∧
          config.heartbeatInterval * ∑ me, (decisions me (choices.zip labels)).count true ≤
            ∑ me, (decisions me (choices.zip labels)).length := by
  constructor
  · intro closures
    obtain ⟨moments, count, runs, paced⟩ :=
      runClosures_paced 0 config.beats fits closures (Paced.nil _)
    refine ⟨moments, count, runs, paced, ?_⟩
    intro site outcome member
    exact (runClosures_visits closures runs).decidedOnce member
  · intro choices labels state executed
    have paced : ∀ me, Paced config.heartbeatInterval (decisions me (choices.zip labels))
        (state.heartbeat me) := by
      have unasked :
          ∀ me, Paced config.heartbeatInterval [] ((config.start initial).heartbeat me) :=
        fun me => Paced.nil _
      exact execute_paced choices unasked executed
    refine ⟨?_, sum_granted_le paced⟩
    intro me
    have below := (paced me).below config.beats
    exact ⟨paced me, by omega⟩

/-- The second of three decisions is made inside the first. -/
def nested : Closure Nat :=
  .spawnOrCall 7 (fun task => .spawnOrCall (task + 1) (fun _ => .returns) .returns)
    (.shouldPromote fun _ => .returns)

theorem heartbeat_promotes_nested :
    (∃ moments count, runClosures 2 [nested] 0 0 = some (moments, count) ∧
      answers moments = [false, true, false] ∧ Paced 2 (answers moments) count ∧
        DecidedOnce moments [0, 0] (.called 7) ∧ DecidedOnce moments [0, 0, 0] (.spawned 8)) ∧
    ∀ choices labels state,
      TransitionSystem.execute (Config.clamp 2 1 2).next ((Config.clamp 2 1 2).start [nested])
          choices = some (labels, state) →
        2 * ∑ me, (decisions me (choices.zip labels)).count true ≤
          ∑ me, (decisions me (choices.zip labels)).length := by
  constructor
  · obtain ⟨moments, count, runs, paced, once⟩ :=
      (heartbeat_promotes (Config.clamp 2 1 2) (by decide) ([] : List Nat)).1 [nested]
    cases runs
    exact ⟨_, _, rfl, rfl, paced, once _ _ (by decide), once _ _ (by decide)⟩
  · intro choices labels state executed
    exact ((heartbeat_promotes (Config.clamp 2 1 2) (by decide) [nested]).2 choices labels state
      executed).2

end WsDeque.Scheduler
