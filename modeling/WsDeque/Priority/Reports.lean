import WsDeque.Priority.Pool

/-
What `steal` reports when it takes nothing: `Empty` when every level had nothing
left at some instant of the call, and `Retry` when it was beaten at some level.
-/

namespace WsDeque.Priority

open ChaseLev (Spec.Step)

variable {ι α : Type*} [DecidableEq ι] {K : Nat}

/-! ### One scan over the levels -/

/-- What a thief has gone past: levels that were vacant, and once it was beaten
it does not count. -/
def Scanned (vacated : Fin K → Prop) (beaten : Prop)
    (status : Fin K → ChaseLev.Spec.ThiefStatus α) : ThiefPc α K → Prop
  | .absent | .idle => True
  | .steal level rest sawRetry =>
      (∀ other, other ∈ level :: rest ∨ vacated other ∨ sawRetry = true) ∧
        (sawRetry = true → beaten)
  | .stealing level rest sawRetry =>
      (∀ other, other ∈ level :: rest ∨ vacated other ∨ sawRetry = true) ∧
        (sawRetry = true → beaten) ∧ (status level = .done .empty → vacated level)
  | .returned .empty => ∀ level, vacated level
  | .returned .retry => beaten
  | .returned (.success _) => True

variable {vacated vacated' : Fin K → Prop} {beaten beaten' : Prop}
  {status status' : Fin K → ChaseLev.Spec.ThiefStatus α} {pc : ThiefPc α K}

theorem Scanned.mono (scanned : Scanned vacated beaten status pc)
    (kept : ∀ level, vacated level → vacated' level) (still : beaten → beaten')
    (same : ∀ level rest sawRetry, pc = .stealing level rest sawRetry →
      status' level = status level) : Scanned vacated' beaten' status' pc := by
  cases pc with
  | absent => trivial
  | idle => trivial
  | steal level rest sawRetry =>
      obtain ⟨passed, lost⟩ := scanned
      exact ⟨fun other => (passed other).imp_right (Or.imp_left (kept other)), fun saw =>
        still (lost saw)⟩
  | stealing level rest sawRetry =>
      obtain ⟨passed, lost, found⟩ := scanned
      refine ⟨fun other => (passed other).imp_right (Or.imp_left (kept other)), fun saw =>
        still (lost saw), fun empty => kept level (found ?_)⟩
      rw [← same level rest sawRetry rfl]
      exact empty
  | returned result =>
      cases result with
      | empty => exact fun level => kept level (scanned level)
      | retry => exact still scanned
      | success found => trivial

/-- On to the next level, or to the answer after the last one. -/
theorem Scanned.stealFrom {rest : List (Fin K)} {sawRetry : Bool}
    (passed : ∀ other, other ∈ rest ∨ vacated other ∨ sawRetry = true)
    (lost : sawRetry = true → beaten) :
    Scanned vacated beaten status (stealFrom sawRetry rest : ThiefPc α K) := by
  cases rest with
  | cons level later => exact ⟨passed, lost⟩
  | nil =>
      cases sawRetry with
      | true => exact lost rfl
      | false =>
          intro level
          rcases passed level with member | vacant | saw
          · cases member
          · exact vacant
          · cases saw

/-- The thief's own step on a level. -/
theorem Scanned.ownStep {levels : Fin K → ChaseLev.Spec.State ι α} {fifo : Bool} {thief : ι}
    {level : Fin K} {step : ChaseLev.Label ι α} {next : ThiefPc α K}
    {after : ChaseLev.Spec.State ι α}
    (scanned : Scanned vacated beaten (fun other => (levels other).thief thief) pc)
    (moves : ThiefMoves thief pc level step next)
    (taken : Spec.Step fifo (levels level) step after)
    (kept : ∀ other, vacated other → vacated' other) (still : beaten → beaten')
    (now : Vacant (levels level) → vacated' level)
    (loses : step = .stealReturn thief .retry → beaten') :
    Scanned vacated' beaten' (fun other => (Function.update levels level after other).thief thief)
      next := by
  cases moves with
  | stealCall _level rest sawRetry =>
      obtain ⟨passed, lost⟩ := scanned
      refine ⟨fun other => (passed other).imp_right (Or.imp_left (kept other)), fun saw =>
        still (lost saw), fun empty => ?_⟩
      change (Function.update levels level after level).thief thief = _ at empty
      rw [Function.update_self, stealCall_status taken] at empty
      cases empty
  | stealAccess _level rest sawRetry access =>
      obtain ⟨passed, lost, found⟩ := scanned
      refine ⟨fun other => (passed other).imp_right (Or.imp_left (kept other)), fun saw =>
        still (lost saw), fun empty => ?_⟩
      change (Function.update levels level after level).thief thief = _ at empty
      rw [Function.update_self] at empty
      by_cases earlier : (levels level).thief thief = .done .empty
      · exact kept level (found earlier)
      · by_contra occupied
        exact access_status taken (fun vacant => occupied (now vacant)) earlier empty
  | stealSuccess _level rest sawRetry task => trivial
  | stealRetry _level rest sawRetry =>
      exact Scanned.stealFrom (fun _other => Or.inr (Or.inr rfl)) fun _saw => loses rfl
  | stealEmpty _level rest sawRetry =>
      obtain ⟨passed, lost, found⟩ := scanned
      refine Scanned.stealFrom (fun other => ?_) fun saw => still (lost saw)
      rcases passed other with member | vacant | saw
      · rcases List.mem_cons.mp member with rfl | later
        · exact Or.inr (Or.inl (kept other (found (stealReturn_status taken))))
        · exact Or.inl later
      · exact Or.inr (Or.inl (kept other vacant))
      · exact Or.inr (Or.inr saw)

/-! ### The runs of a call -/

variable [Fintype ι] {fifo : Bool} {logInitialCap : Nat} {earlier during : List (Label ι α K)}
  {thief : ι} {before after start final : State (ChaseLev.State ι α) ι α K}
  {label : Label ι α K}

/-- The level has nothing left for a newcomer at some instant of the run. -/
def VacantOnce (fifo : Bool) (logInitialCap : Nat) (start : State (ChaseLev.State ι α) ι α K)
    (during : List (Label ι α K)) (final : State (ChaseLev.State ι α) ι α K) (level : Fin K) :
    Prop :=
  (system K (ChaseLev.system ι α fifo logInitialCap)).PassesThrough start during final
    fun state => Vacant (state.levels level).abstract

/-- The thief was beaten at some level. -/
def Beaten (thief : ι) (during : List (Label ι α K)) : Prop :=
  ∃ level, Label.level level (.stealReturn thief .retry) ∈ during

omit [DecidableEq ι] [Fintype ι] in
theorem Beaten.snoc (beaten : Beaten thief during) (label : Label ι α K) :
    Beaten thief (during ++ [label]) := by
  obtain ⟨level, member⟩ := beaten
  exact ⟨level, List.mem_append_left _ member⟩

/-- The thief's scan, as far as the run has come. -/
def ScannedSoFar (fifo : Bool) (logInitialCap : Nat)
    (start : State (ChaseLev.State ι α) ι α K) (thief : ι) (during : List (Label ι α K))
    (final : State (ChaseLev.State ι α) ι α K) : Prop :=
  Scanned (VacantOnce fifo logInitialCap start during final) (Beaten thief during)
    (fun level => (final.levels level).abstract.thief thief) (final.thief thief)

omit [DecidableEq ι] [Fintype ι] in
theorem levelLabels_self (level : Fin K) (step : ChaseLev.Label ι α) :
    levelLabels level [(.level level step : Label ι α K)] = [step] := by
  simp [levelLabels]

theorem level_step {level : Fin K} {step : ChaseLev.Label ι α} {deque : ChaseLev.State ι α}
    (reached : (system K (ChaseLev.system ι α fifo logInitialCap)).Reaches earlier before)
    (few : Few (earlier ++ [label])) (sees : levelLabels level [label] = [step])
    (stepped : (ChaseLev.system ι α fifo logInitialCap).step (before.levels level) step deque) :
    Spec.Step fifo (before.levels level).abstract step deque.abstract := by
  have short := few level
  rw [levelLabels_append, sees] at short
  exact deque_step (level_reaches reached level) stepped short

theorem ScannedSoFar.step
    (scanned : ScannedSoFar fifo logInitialCap start thief during before)
    (reached : (system K (ChaseLev.system ι α fifo logInitialCap)).Reaches earlier before)
    (run : (system K (ChaseLev.system ι α fifo logInitialCap)).Run start during before)
    (taken : Step (ChaseLev.system ι α fifo logInitialCap) before label after)
    (few : Few (earlier ++ [label])) (once : label ≠ .stealCall thief) :
    ScannedSoFar fifo logInitialCap start thief (during ++ [label]) after := by
  have kept : ∀ level, VacantOnce fifo logInitialCap start during before level →
      VacantOnce fifo logInitialCap start (during ++ [label]) after level :=
    fun level vacant => vacant.snoc taken
  have still : Beaten thief during → Beaten thief (during ++ [label]) :=
    fun beaten => beaten.snoc label
  -- The levels as their abstract deques, with one of them changed.
  have levels : ∀ level (deque : ChaseLev.State ι α),
      (fun other => (Function.update before.levels level deque other).abstract.thief thief) =
        fun other => (Function.update (fun level => (before.levels level).abstract) level
          deque.abstract other).thief thief := by
    intro level deque
    funext other
    by_cases same : other = level
    · rw [same, Function.update_self, Function.update_self]
    · rw [Function.update_of_ne same, Function.update_of_ne same]
  have now : ∀ level, Vacant (before.levels level).abstract →
      VacantOnce fifo logInitialCap start (during ++ [label]) after level :=
    fun level vacant => kept level (run.passesThrough vacant)
  unfold ScannedSoFar at scanned ⊢
  cases taken with
  | pushCall task asked level idle clamped => exact scanned.mono kept still fun _ _ _ _ => rfl
  | popCall idle => exact scanned.mono kept still fun _ _ _ _ => rfl
  | ownerReturn result done => exact scanned.mono kept still fun _ _ _ _ => rfl
  | owner level step pc deque moves stepped =>
      refine scanned.mono kept still fun other _rest _sawRetry _atPc => ?_
      change (Function.update before.levels level deque other).abstract.thief thief = _
      by_cases same : other = level
      · subst same
        rw [Function.update_self]
        have moved := level_step reached few (levelLabels_self other step) stepped
        exact @owner_step_status _ _ _ _ (fun level => (before.levels level).abstract) _ _ _ _ _ _ _
          moves moved
      · rw [Function.update_of_ne same]
  | newStealer other deques absent stepped =>
      change Scanned _ _ _ (Function.update before.thief other .idle thief)
      by_cases same : thief = other
      · rw [same, Function.update_self]
        trivial
      · rw [Function.update_of_ne same]
        refine scanned.mono kept still fun level _rest _sawRetry _atPc => ?_
        have moved := level_step reached few rfl (stepped level)
        change (deques level).abstract.thief thief = _
        generalize (deques level).abstract = final at moved
        cases moved with
        | newStealer _thief absent shared => exact Function.update_of_ne same ..
  | stealCall other idle =>
      have different : thief ≠ other := fun same => once (by rw [same])
      change Scanned _ _ _ (Function.update before.thief other _ thief)
      rw [Function.update_of_ne different]
      exact scanned.mono kept still fun _ _ _ _ => rfl
  | stealReturn other result done =>
      change Scanned _ _ _ (Function.update before.thief other .idle thief)
      by_cases same : thief = other
      · rw [same, Function.update_self]
        trivial
      · rw [Function.update_of_ne same]
        exact scanned.mono kept still fun _ _ _ _ => rfl
  | thief other level step pc deque moves stepped =>
      have moved := level_step reached few (levelLabels_self level step) stepped
      change Scanned _ _ (fun other => (Function.update before.levels level deque other).abstract.thief
        thief) (Function.update before.thief other pc thief)
      by_cases same : thief = other
      · subst same
        rw [Function.update_self, levels]
        refine Scanned.ownStep scanned moves moved kept still (now level) fun beaten => ?_
        subst beaten
        exact ⟨level, List.mem_append_right _ (List.mem_singleton_self _)⟩
      · rw [Function.update_of_ne same]
        refine scanned.mono kept still fun here _rest _sawRetry _atPc => ?_
        by_cases there : here = level
        · subst there
          rw [Function.update_self]
          exact @other_step_status _ _ _ _ (fun level => (before.levels level).abstract) _ _ _ same
            _ _ _ _ _ moves moved
        · rw [Function.update_of_ne there]

theorem scanned_of_run
    (reached : (system K (ChaseLev.system ι α fifo logInitialCap)).Reaches earlier before)
    (called : (system K (ChaseLev.system ι α fifo logInitialCap)).step before (.stealCall thief)
      after)
    (run : (system K (ChaseLev.system ι α fifo logInitialCap)).Run after during final)
    (once : .stealCall thief ∉ during) (few : Few (earlier ++ [.stealCall thief] ++ during)) :
    ScannedSoFar fifo logInitialCap after thief during final := by
  induction run with
  | refl =>
      cases called with
      | stealCall _thief idle =>
          change Scanned _ _ _ (Function.update before.thief thief _ thief)
          rw [Function.update_self]
          exact Scanned.stealFrom (fun level => Or.inl (List.mem_finRange level))
            fun saw => by cases saw
  | @snoc middle final labels label prior last ih =>
      obtain ⟨start, isInitial, upTo⟩ := reached.snoc called
      rw [← List.append_assoc] at few
      refine ScannedSoFar.step (ih (fun member => once (List.mem_append_left _ member)) few.prefix)
        ⟨start, isInitial, upTo.append prior⟩ prior last few fun same => ?_
      exact once (List.mem_append_right _ (List.mem_singleton.mpr same.symm))

/-- `is_empty` of the level answers `true`. -/
def State.EmptyAt (state : State (ChaseLev.State ι α) ι α K) (level : Fin K) : Prop :=
  MachineWord.wrappingSub (state.levels level).inner.bottom (state.levels level).inner.top ≤ 0

theorem emptyAt_of_vacant
    (reached : (system K (ChaseLev.system ι α fifo logInitialCap)).Reaches earlier before)
    (few : Few earlier) {level : Fin K} (vacant : Vacant (before.levels level).abstract) :
    before.EmptyAt level := by
  have present := present_of_abstract (not_dropped (pool_refines reached few) level)
  obtain ⟨storage, _mode, _spec⟩ :=
    ChaseLev.tracked_of_reaches (level_reaches reached level) (few level)
  exact (vacant_iff_isEmpty storage (few level) present).mp vacant

/-- A steal that takes nothing tells what it has seen: `Empty` means that every level
was empty at some instant of the call, and `Retry` that it was beaten at one. -/
theorem steal_reports
    (reached : (system K (ChaseLev.system ι α fifo logInitialCap)).Reaches earlier before)
    (called : (system K (ChaseLev.system ι α fifo logInitialCap)).step before (.stealCall thief)
      after)
    (run : (system K (ChaseLev.system ι α fifo logInitialCap)).Run after during final)
    (once : .stealCall thief ∉ during) (few : Few (earlier ++ [.stealCall thief] ++ during)) :
    (final.thief thief = .returned .empty → ∀ level,
        (system K (ChaseLev.system ι α fifo logInitialCap)).PassesThrough after during final
          fun state => state.EmptyAt level) ∧
      (final.thief thief = .returned .retry → Beaten thief during) := by
  have scanned := scanned_of_run reached called run once few
  unfold ScannedSoFar at scanned
  refine ⟨fun returned level => ?_, fun returned => ?_⟩
  · rw [returned] at scanned
    obtain ⟨first, middle, later, split, upTo, onward, vacant⟩ := scanned level
    obtain ⟨start, isInitial, prior⟩ := reached.snoc called
    refine ⟨first, middle, later, split, upTo, onward, ?_⟩
    rw [split, ← List.append_assoc] at few
    exact emptyAt_of_vacant ⟨start, isInitial, prior.append upTo⟩ few.prefix vacant
  · rw [returned] at scanned
    exact scanned

/-- The first thief reads the only task, the second takes it, and the first goes on
to the empty low level. -/
def losesOnly : List (Choice Bool Nat) :=
  List.replicate 7 (.thief false) ++ [.stealCall true] ++ List.replicate 9 (.thief true) ++
    List.replicate 6 (.thief false)

def oneTask : List (Choice Bool Nat) :=
  [.newStealer false, .newStealer true] ++ pushOf 10 0

/-- What the race leads to from a pool with one task. -/
def Retries (labels : List (Label Bool Nat 2))
    (before : State (ChaseLev.State Bool Nat) Bool Nat 2) : Bool :=
  (next before (.stealCall false)).any fun called =>
    (TransitionSystem.execute next called.2 losesOnly).any fun done =>
      decide (Few (labels ++ [.stealCall false] ++ done.1) ∧
        (∀ label ∈ done.1, startsSteal false label = false) ∧
        done.2.thief false = .returned .retry)

theorem steal_reports_losesOnly :
    ∃ before after during final, pool.step before (.stealCall false) after ∧
      pool.Run after during final ∧ final.thief false = .returned .retry ∧ Beaten false during := by
  have found : (TransitionSystem.execute next newPool oneTask).any
      (fun done => Retries done.1 done.2) = true := by decide +kernel
  obtain ⟨⟨earlier, before⟩, executed, retries⟩ := (Option.any_eq_true _ _).mp found
  obtain ⟨⟨label, after⟩, called, later⟩ := (Option.any_eq_true _ _).mp retries
  obtain ⟨⟨during, final⟩, finished, atEnd⟩ := (Option.any_eq_true _ _).mp later
  obtain ⟨few, silent, returned⟩ := of_decide_eq_true atEnd
  have same : label = .stealCall false := by
    simp only [next] at called
    split at called <;> cases called
    rfl
  rw [same] at called
  have calledCode : pool.step before (.stealCall false) after := next_sound called
  have run : pool.Run after during final := by
    have computed : (TransitionSystem.ofNext (Initial (ChaseLev.system Bool Nat false 4)) next).Run
        after during final := TransitionSystem.execute_run losesOnly finished
    refine computed.mono ?_
    intro before label after taken
    obtain ⟨choice, moved⟩ := taken
    exact next_sound moved
  have once : .stealCall false ∉ during := fun member => by
    have quiet := silent _ member
    cases quiet
  exact ⟨before, after, during, final, calledCode, run, returned,
    (steal_reports (reaches_next executed) calledCode run once few).2 returned⟩

end WsDeque.Priority
