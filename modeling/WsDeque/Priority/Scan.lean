import WsDeque.Priority.Model

/-
The scans over the levels, each level being the double-ended list that the
deque refines.

A level that the owner has found empty stays empty, since only the owner pushes.
-/

namespace WsDeque.Priority

open ChaseLev (Spec.Step)

variable {ι α : Type*} [DecidableEq ι] {K : Nat}

/-- A step of a thief, or a new handle, is no step of the owner. -/
theorem thief_step_owner {before after : ChaseLev.Spec.State ι α} {fifo : Bool} {thief : ι}
    {level : Fin K} {step : ChaseLev.Label ι α} {pc next : ThiefPc α K}
    (moves : ThiefMoves thief pc level step next)
    (taken : Spec.Step fifo before step after) : after.owner = before.owner := by
  cases moves with
  | stealCall _level rest sawRetry => cases taken; rfl
  | stealAccess _level rest sawRetry access => cases taken <;> rfl
  | stealSuccess _level rest sawRetry task => cases taken; rfl
  | stealRetry _level rest sawRetry => cases taken; rfl
  | stealEmpty _level rest sawRetry => cases taken; rfl

/-! ### The owner -/

theorem sorted_rest {done rest : List (Fin K)} (split : done ++ rest = List.finRange K) :
    rest.Pairwise (· < ·) := by
  have all : (done ++ rest).Pairwise (· < ·) := by
    rw [split]
    exact List.pairwise_lt_finRange K
  exact (List.pairwise_append.mp all).2.1

theorem not_lt_head {level above : Fin K} {rest : List (Fin K)}
    (sorted : (level :: rest).Pairwise (· < ·)) (member : above ∈ level :: rest) :
    ¬ above < level := by
  intro lower
  rcases List.mem_cons.mp member with same | later
  · exact lt_irrefl level (same ▸ lower)
  · exact lt_asymm lower (List.rel_of_pairwise_cons sorted later)

theorem mem_done_of_lt {level above : Fin K} {done rest : List (Fin K)}
    (split : done ++ level :: rest = List.finRange K) (lower : above < level) :
    above ∈ done := by
  have member : above ∈ done ++ level :: rest := by
    rw [split]
    exact List.mem_finRange above
  rcases List.mem_append.mp member with here | there
  · exact here
  · exact absurd lower (not_lt_head (sorted_rest split) there)

/-- A level inside `pop`, from the call to the return. -/
def PopHonest (state : ChaseLev.Spec.State ι α) : Prop :=
  match state.owner with
  | .pushing _ => False
  | .done (.popped none) => state.items = []
  | _ => True

/-- What the owner knows of its deques at each point of `push` and `pop`. -/
def OwnerKnows (levels : Fin K → ChaseLev.Spec.State ι α) : OwnerPc α K → Prop
  | .idle | .push _ _ => ∀ level, (levels level).owner = .idle
  | .pushing here => ∀ level, level ≠ here → (levels level).owner = .idle
  | .pop here rest =>
      (∀ level, (levels level).owner = .idle) ∧
        ∃ done, done ++ here :: rest = List.finRange K ∧
          ∀ level ∈ done, (levels level).items = []
  | .popping here rest =>
      (∀ level, level ≠ here → (levels level).owner = .idle) ∧
        PopHonest (levels here) ∧
        ∃ done, done ++ here :: rest = List.finRange K ∧
          ∀ level ∈ done, (levels level).items = []
  | .returned .pushed => ∀ level, (levels level).owner = .idle
  | .returned (.popped none) =>
      (∀ level, (levels level).owner = .idle) ∧ ∀ level, (levels level).items = []
  | .returned (.popped (some (found, _))) =>
      (∀ level, (levels level).owner = .idle) ∧ ∀ level < found, (levels level).items = []

omit [DecidableEq ι] in
theorem OwnerKnows.popFrom {levels : Fin K → ChaseLev.Spec.State ι α} {rest : List (Fin K)}
    (idle : ∀ level, (levels level).owner = .idle)
    (scanned : ∃ done, done ++ rest = List.finRange K ∧ ∀ level ∈ done, (levels level).items = []) :
    OwnerKnows levels (popFrom rest : OwnerPc α K) := by
  cases rest with
  | cons level later => exact ⟨idle, scanned⟩
  | nil =>
      obtain ⟨done, split, empty⟩ := scanned
      rw [List.append_nil] at split
      refine ⟨idle, ?_⟩
      intro level
      exact empty level (split ▸ List.mem_finRange level)

omit [DecidableEq ι] in
theorem PopHonest.mono {before after : ChaseLev.Spec.State ι α} (honest : PopHonest before)
    (owner : after.owner = before.owner)
    (empty : (∀ value, before.owner ≠ .pushing value) → before.items = [] → after.items = []) :
    PopHonest after := by
  unfold PopHonest at honest ⊢
  rw [owner]
  split at honest
  · exact honest
  · rename_i finished
    refine empty ?_ honest
    intro value pushing
    rw [finished] at pushing
    cases pushing
  · trivial

omit [DecidableEq ι] in
/-- Thieves and new handles leave the owners of the deques alone and fill nothing. -/
theorem OwnerKnows.mono {before after : Fin K → ChaseLev.Spec.State ι α} {pc : OwnerPc α K}
    (knows : OwnerKnows before pc) (owner : ∀ level, (after level).owner = (before level).owner)
    (empty : ∀ level, (∀ value, (before level).owner ≠ .pushing value) →
      (before level).items = [] → (after level).items = []) : OwnerKnows after pc := by
  have quiet : ∀ level, (before level).owner = .idle →
      ∀ value, (before level).owner ≠ .pushing value := by
    intro level idle value pushing
    rw [idle] at pushing
    cases pushing
  cases pc with
  | idle => exact fun level => (owner level).trans (knows level)
  | push level task => exact fun level => (owner level).trans (knows level)
  | pushing here => exact fun level other => (owner level).trans (knows level other)
  | pop here rest =>
      obtain ⟨idle, done, split, scanned⟩ := knows
      refine ⟨fun level => (owner level).trans (idle level), done, split, ?_⟩
      intro level member
      exact empty level (quiet level (idle level)) (scanned level member)
  | popping here rest =>
      obtain ⟨idle, honest, done, split, scanned⟩ := knows
      refine ⟨fun level other => (owner level).trans (idle level other), ?_, done, split, ?_⟩
      · exact honest.mono (owner here) (empty here)
      · intro level member
        have other : level ≠ here := by
          intro same
          subst same
          have sorted := List.pairwise_lt_finRange K
          rw [← split] at sorted
          have lower := (List.pairwise_append.mp sorted).2.2 level member level (by simp)
          exact lt_irrefl level lower
        exact empty level (quiet level (idle level other)) (scanned level member)
  | returned result =>
      cases result with
      | pushed => exact fun level => (owner level).trans (knows level)
      | popped found =>
          cases found with
          | none =>
              obtain ⟨idle, scanned⟩ := knows
              refine ⟨fun level => (owner level).trans (idle level), ?_⟩
              intro level
              exact empty level (quiet level (idle level)) (scanned level)
          | some found =>
              obtain ⟨idle, scanned⟩ := knows
              refine ⟨fun level => (owner level).trans (idle level), ?_⟩
              intro level lower
              exact empty level (quiet level (idle level)) (scanned level lower)

/-- One step of `pop_lifo` or `pop_fifo` on a level. -/
theorem PopHonest.access {before after : ChaseLev.Spec.State ι α} {fifo : Bool}
    {access : ChaseLev.Access} (honest : PopHonest before)
    (taken : Spec.Step fifo before (.owner access) after) : PopHonest after := by
  cases taken with
  | pushAppend value pushing =>
      unfold PopHonest at honest
      rw [pushing] at honest
      exact honest.elim
  | popContest lifo popping => trivial
  | popBack rest value lifo contesting back => trivial
  | popEmpty lifo contesting empty => exact empty
  | popWin value lifo contesting last => trivial
  | popLose lifo contesting empty => exact empty
  | popFront value rest isFifo popping front => trivial
  | popFrontEmpty isFifo popping empty => exact empty
  | _ => exact honest

theorem ownerReturn_idle {before after : ChaseLev.Spec.State ι α} {fifo : Bool}
    {result : ChaseLev.OwnerResult α}
    (taken : Spec.Step fifo before (.ownerReturn result) after) :
    before.owner = .done result ∧ after.owner = .idle ∧ after.items = before.items := by
  cases taken with
  | ownerReturn result done => exact ⟨done, rfl, rfl⟩

theorem popCall_honest {before after : ChaseLev.Spec.State ι α} {fifo : Bool}
    (taken : Spec.Step fifo before .popCall after) : PopHonest after := by
  cases taken with
  | popCall idle => trivial

/-- The step of a level keeps what the owner knows. -/
theorem OwnerKnows.ownerStep {levels : Fin K → ChaseLev.Spec.State ι α} {pc next : OwnerPc α K}
    {fifo : Bool} {level : Fin K} {step : ChaseLev.Label ι α} {after : ChaseLev.Spec.State ι α}
    (knows : OwnerKnows levels pc) (moves : OwnerMoves pc level step next)
    (taken : Spec.Step fifo (levels level) step after) :
    OwnerKnows (Function.update levels level after) next := by
  have elsewhere :
      ∀ other, other ≠ level → Function.update levels level after other = levels other :=
    fun other different => Function.update_of_ne different ..
  have here : Function.update levels level after level = after := Function.update_self ..
  have allIdle : (∀ other, other ≠ level → (levels other).owner = .idle) → after.owner = .idle →
      ∀ other, (Function.update levels level after other).owner = .idle := by
    intro others idle other
    by_cases same : other = level
    · rw [same, here]
      exact idle
    · rw [elsewhere other same]
      exact others other same
  have keeps : ∀ done rest, done ++ level :: rest = List.finRange K →
      (∀ other ∈ done, (levels other).items = []) →
        ∀ other ∈ done, (Function.update levels level after other).items = [] := by
    intro done rest split scanned other member
    have different : other ≠ level := by
      intro same
      have sorted := List.pairwise_lt_finRange K
      rw [← split] at sorted
      have lower := (List.pairwise_append.mp sorted).2.2 other member level (by simp)
      exact lt_irrefl level (same ▸ lower)
    rw [elsewhere other different]
    exact scanned other member
  cases moves with
  | pushCall _level task =>
      intro other different
      rw [elsewhere other different]
      exact knows other
  | pushAccess _level access =>
      intro other different
      rw [elsewhere other different]
      exact knows other different
  | pushReturn _level result => exact allIdle knows (ownerReturn_idle taken).2.1
  | popCall _level rest =>
      obtain ⟨idle, done, split, scanned⟩ := knows
      refine ⟨?_, ?_, done, split, keeps done rest split scanned⟩
      · intro other different
        rw [elsewhere other different]
        exact idle other
      · rw [here]
        exact popCall_honest taken
  | popAccess _level rest access =>
      obtain ⟨idle, honest, done, split, scanned⟩ := knows
      refine ⟨?_, ?_, done, split, keeps done rest split scanned⟩
      · intro other different
        rw [elsewhere other different]
        exact idle other different
      · rw [here]
        exact honest.access taken
  | popSome _level rest task =>
      obtain ⟨idle, honest, done, split, scanned⟩ := knows
      obtain ⟨finished, idleAfter, items⟩ := ownerReturn_idle taken
      refine ⟨allIdle idle idleAfter, ?_⟩
      intro other lower
      exact keeps done rest split scanned other (mem_done_of_lt split lower)
  | popNone _level rest =>
      obtain ⟨idle, honest, done, split, scanned⟩ := knows
      obtain ⟨finished, idleAfter, items⟩ := ownerReturn_idle taken
      refine OwnerKnows.popFrom (allIdle idle idleAfter) ⟨done ++ [level], ?_, ?_⟩
      · rw [List.append_assoc]
        exact split
      · intro other member
        rcases List.mem_append.mp member with earlier | last
        · exact keeps done rest split scanned other earlier
        · rw [List.mem_singleton.mp last, here, items]
          unfold PopHonest at honest
          rw [finished] at honest
          exact honest

theorem thief_step_items {before after : ChaseLev.Spec.State ι α} {fifo : Bool} {thief : ι}
    {level : Fin K} {step : ChaseLev.Label ι α} {pc next : ThiefPc α K}
    (moves : ThiefMoves thief pc level step next) (taken : Spec.Step fifo before step after)
    (empty : before.items = []) : after.items = [] := by
  cases moves with
  | stealCall _level rest sawRetry => cases taken; exact empty
  | stealAccess _level rest sawRetry access =>
      cases taken with
      | stealFront _thief value later stealing front => rw [empty] at front; cases front
      | _ => exact empty
  | stealSuccess _level rest sawRetry task => cases taken; exact empty
  | stealRetry _level rest sawRetry => cases taken; exact empty
  | stealEmpty _level rest sawRetry => cases taken; exact empty

theorem OwnerKnows.thiefStep {levels : Fin K → ChaseLev.Spec.State ι α} {pc : OwnerPc α K}
    {fifo : Bool} {thief : ι} {level : Fin K} {step : ChaseLev.Label ι α} {here next : ThiefPc α K}
    {after : ChaseLev.Spec.State ι α} (knows : OwnerKnows levels pc)
    (moves : ThiefMoves thief here level step next)
    (taken : Spec.Step fifo (levels level) step after) :
    OwnerKnows (Function.update levels level after) pc := by
  apply knows.mono
  · intro other
    by_cases same : other = level
    · rw [same, Function.update_self]
      exact thief_step_owner moves taken
    · rw [Function.update_of_ne same]
  · intro other _quiet empty
    by_cases same : other = level
    · rw [same] at empty ⊢
      rw [Function.update_self]
      exact thief_step_items moves taken empty
    · rw [Function.update_of_ne same]
      exact empty

theorem newStealer_keeps {before after : ChaseLev.Spec.State ι α} {fifo : Bool} {thief : ι}
    (taken : Spec.Step fifo before (.newStealer thief) after) :
    after.owner = before.owner ∧ after.items = before.items := by
  cases taken with
  | newStealer thief absent shared => exact ⟨rfl, rfl⟩

theorem owner_knows {fifo : Bool} {labels : List (Label ι α K)}
    {state : State (ChaseLev.Spec.State ι α) ι α K}
    (reached : (system K (ChaseLev.Spec.system ι α fifo)).Reaches labels state) :
    OwnerKnows state.levels state.owner := by
  obtain ⟨start, isInitial, run⟩ := reached
  induction run with
  | refl =>
      obtain ⟨fresh, idle, _absent⟩ := isInitial
      rw [idle]
      intro level
      rw [fresh level]
      rfl
  | snoc _prior taken knows =>
      cases taken with
      | pushCall task asked level idle clamped =>
          rw [idle] at knows
          exact knows
      | popCall idle =>
          rw [idle] at knows
          exact OwnerKnows.popFrom knows ⟨[], rfl, fun level member => by cases member⟩
      | owner level step pc after moves stepped => exact knows.ownerStep moves stepped
      | ownerReturn result done =>
          rw [done] at knows
          cases result with
          | pushed => exact knows
          | popped found =>
              cases found with
              | none => exact knows.1
              | some found => exact knows.1
      | newStealer thief after absent stepped =>
          refine knows.mono (fun level => (newStealer_keeps (stepped level)).1) ?_
          intro level _quiet empty
          exact (newStealer_keeps (stepped level)).2.trans empty
      | stealCall thief idle => exact knows
      | thief thief level step pc after moves stepped => exact knows.thiefStep moves stepped
      | stealReturn thief result done => exact knows

/-! ### The thieves -/

/-- Nothing is left for a newcomer: at most the last element, for which the
owner's `pop` is already contending. Then `is_empty` answers `true`. -/
def Vacant (state : ChaseLev.Spec.State ι α) : Prop :=
  state.items = [] ∨ ∃ value, state.items = [value] ∧ state.owner = .contesting

/-- The thief has neither passed the level nor found it empty. -/
def StillAhead (above : Fin K) (status : ChaseLev.Spec.ThiefStatus α) : ThiefPc α K → Prop
  | .absent | .idle => True
  | .steal level rest _ => (level :: rest).Pairwise (· < ·) ∧ above ∈ level :: rest
  | .stealing level rest _ =>
      (level :: rest).Pairwise (· < ·) ∧ above ∈ level :: rest ∧
        (level = above → status ≠ .done .empty)
  | .returned (.success (level, _)) => ¬ above < level
  | .returned _ => False

theorem StillAhead.stealFrom {above : Fin K} {status : ChaseLev.Spec.ThiefStatus α}
    {rest : List (Fin K)} (sawRetry : Bool) (sorted : rest.Pairwise (· < ·))
    (member : above ∈ rest) : StillAhead above status (stealFrom sawRetry rest : ThiefPc α K) := by
  cases rest with
  | nil => cases member
  | cons level later => exact ⟨sorted, member⟩

theorem stealReturn_status {before after : ChaseLev.Spec.State ι α} {fifo : Bool} {thief : ι}
    {result : Steal α} (taken : Spec.Step fifo before (.stealReturn thief result) after) :
    before.thief thief = .done result := by
  cases taken with
  | stealReturn _thief _result done => exact done

theorem stealCall_status {before after : ChaseLev.Spec.State ι α} {fifo : Bool} {thief : ι}
    (taken : Spec.Step fifo before (.stealCall thief) after) :
    after.thief thief = .stealing := by
  cases taken with
  | stealCall _thief idle => exact Function.update_self ..

/-- A thief only finds a level empty that is vacant. -/
theorem access_status {before after : ChaseLev.Spec.State ι α} {fifo : Bool} {thief : ι}
    {access : ChaseLev.Access} (taken : Spec.Step fifo before (.thief thief access) after)
    (occupied : ¬ Vacant before) (ahead : before.thief thief ≠ .done .empty) :
    after.thief thief ≠ .done .empty := by
  cases taken with
  | stealInternal _thief _access stealing early => exact ahead
  | stealFront _thief value rest stealing front =>
      change Function.update before.thief thief (.done (.success value)) thief ≠ _
      rw [Function.update_self]
      intro same
      cases same
  | stealRetry _thief stealing =>
      change Function.update before.thief thief (.done .retry) thief ≠ _
      rw [Function.update_self]
      intro same
      cases same
  | stealEmpty _thief stealing nothing => exact absurd nothing occupied

/-- Steps of the owner and of other thieves leave the status of a thief alone. -/
theorem owner_step_status {levels : Fin K → ChaseLev.Spec.State ι α} {fifo : Bool} {thief : ι}
    {level : Fin K} {step : ChaseLev.Label ι α} {pc next : OwnerPc α K}
    {after : ChaseLev.Spec.State ι α} (moves : OwnerMoves pc level step next)
    (taken : Spec.Step fifo (levels level) step after) :
    after.thief thief = (levels level).thief thief := by
  cases moves with
  | pushCall _level task => cases taken; rfl
  | pushAccess _level access => cases taken <;> rfl
  | pushReturn _level result => cases taken; rfl
  | popCall _level rest => cases taken; rfl
  | popAccess _level rest access => cases taken <;> rfl
  | popSome _level rest task => cases taken; rfl
  | popNone _level rest => cases taken; rfl

theorem other_step_status {levels : Fin K → ChaseLev.Spec.State ι α} {fifo : Bool}
    {thief other : ι} (different : thief ≠ other) {level : Fin K} {step : ChaseLev.Label ι α}
    {pc next : ThiefPc α K} {after : ChaseLev.Spec.State ι α}
    (moves : ThiefMoves other pc level step next)
    (taken : Spec.Step fifo (levels level) step after) :
    after.thief thief = (levels level).thief thief := by
  have elsewhere : ∀ status,
      Function.update (levels level).thief other status thief = (levels level).thief thief :=
    fun status => Function.update_of_ne different ..
  cases moves with
  | stealCall _level rest sawRetry => cases taken; exact elsewhere _
  | stealAccess _level rest sawRetry access =>
      cases taken with
      | stealInternal _thief _access stealing early => rfl
      | stealFront _thief value later stealing front => exact elsewhere _
      | stealRetry _thief stealing => exact elsewhere _
      | stealEmpty _thief stealing nothing => exact elsewhere _
  | stealSuccess _level rest sawRetry task => cases taken; exact elsewhere _
  | stealRetry _level rest sawRetry => cases taken; exact elsewhere _
  | stealEmpty _level rest sawRetry => cases taken; exact elsewhere _

/-- The step is neither a new call of the thief nor its loss of a race for the
level, and the level is not vacant before it. -/
def Passes (thief : ι) (above : Fin K) (state : State (ChaseLev.Spec.State ι α) ι α K)
    (label : Label ι α K) : Prop :=
  ¬ Vacant (state.levels above) ∧ label ≠ .level above (.stealReturn thief .retry) ∧
    label ≠ .stealCall thief

/-- The thief's own step on a level. -/
theorem StillAhead.ownStep {levels : Fin K → ChaseLev.Spec.State ι α} {fifo : Bool} {thief : ι}
    {above level : Fin K} {step : ChaseLev.Label ι α} {pc next : ThiefPc α K}
    {after : ChaseLev.Spec.State ι α}
    (ahead : StillAhead above ((levels above).thief thief) pc)
    (occupied : ¬ Vacant (levels above))
    (noRetry : Label.level level step ≠ .level above (.stealReturn thief (.retry : Steal α)))
    (moves : ThiefMoves thief pc level step next)
    (taken : Spec.Step fifo (levels level) step after) :
    StillAhead above ((Function.update levels level after above).thief thief) next := by
  cases moves with
  | stealCall _level rest sawRetry =>
      obtain ⟨sorted, member⟩ := ahead
      refine ⟨sorted, member, ?_⟩
      intro same
      rw [← same, Function.update_self, stealCall_status taken]
      intro finished
      cases finished
  | stealAccess _level rest sawRetry access =>
      obtain ⟨sorted, member, unseen⟩ := ahead
      refine ⟨sorted, member, ?_⟩
      intro same
      rw [← same, Function.update_self]
      rw [← same] at occupied unseen
      exact access_status taken occupied (unseen rfl)
  | stealSuccess _level rest sawRetry task =>
      obtain ⟨sorted, member, _unseen⟩ := ahead
      exact not_lt_head sorted member
  | stealRetry _level rest sawRetry =>
      obtain ⟨sorted, member, _unseen⟩ := ahead
      have other : above ≠ level := by
        intro same
        exact noRetry (by rw [same])
      exact StillAhead.stealFrom true sorted.of_cons ((List.mem_cons.mp member).resolve_left other)
  | stealEmpty _level rest sawRetry =>
      obtain ⟨sorted, member, unseen⟩ := ahead
      have other : above ≠ level := by
        intro same
        subst same
        exact unseen rfl (stealReturn_status taken)
      exact StillAhead.stealFrom sawRetry sorted.of_cons
        ((List.mem_cons.mp member).resolve_left other)

theorem StillAhead.step {before after : State (ChaseLev.Spec.State ι α) ι α K}
    {label : Label ι α K} {fifo : Bool} {thief : ι} {above : Fin K}
    (ahead : StillAhead above ((before.levels above).thief thief) (before.thief thief))
    (passes : Passes thief above before label)
    (taken : Step (ChaseLev.Spec.system ι α fifo) before label after) :
    StillAhead above ((after.levels above).thief thief) (after.thief thief) := by
  obtain ⟨occupied, noRetry, noCall⟩ := passes
  cases taken with
  | pushCall task asked level idle clamped => exact ahead
  | popCall idle => exact ahead
  | ownerReturn result done => exact ahead
  | owner level step pc next moves stepped =>
      change StillAhead above ((Function.update before.levels level next above).thief thief)
        (before.thief thief)
      by_cases same : above = level
      · subst same
        rw [Function.update_self, owner_step_status moves stepped]
        exact ahead
      · rw [Function.update_of_ne same]
        exact ahead
  | newStealer other next absent stepped =>
      change StillAhead above ((next above).thief thief)
        (Function.update before.thief other .idle thief)
      by_cases same : thief = other
      · rw [same, Function.update_self]
        trivial
      · have kept : (next above).thief thief = (before.levels above).thief thief := by
          have moved := stepped above
          generalize next above = final at moved
          cases moved with
          | newStealer _thief absent shared => exact Function.update_of_ne same ..
        rw [Function.update_of_ne same, kept]
        exact ahead
  | stealCall other idle =>
      change StillAhead above ((before.levels above).thief thief)
        (Function.update before.thief other _ thief)
      have different : thief ≠ other := by
        intro same
        exact noCall (by rw [same])
      rw [Function.update_of_ne different]
      exact ahead
  | stealReturn other result done =>
      change StillAhead above ((before.levels above).thief thief)
        (Function.update before.thief other .idle thief)
      by_cases same : thief = other
      · rw [same, Function.update_self]
        trivial
      · rw [Function.update_of_ne same]
        exact ahead
  | thief other level step pc next moves stepped =>
      change StillAhead above ((Function.update before.levels level next above).thief thief)
        (Function.update before.thief other pc thief)
      by_cases same : thief = other
      · subst same
        rw [Function.update_self]
        exact ahead.ownStep occupied noRetry moves stepped
      · rw [Function.update_of_ne same]
        by_cases here : above = level
        · subst here
          rw [Function.update_self, other_step_status same moves stepped]
          exact ahead
        · rw [Function.update_of_ne here]
          exact ahead

theorem StillAhead.took {fifo : Bool} {thief : ι} {level above : Fin K}
    {task : α} {before after final : State (ChaseLev.Spec.State ι α) ι α K}
    {during : List (Label ι α K)}
    (called : Step (ChaseLev.Spec.system ι α fifo) before (.stealCall thief) after)
    (run : ((system K (ChaseLev.Spec.system ι α fifo)).restrict (Passes thief above)).Run
      after during final)
    (took : final.thief thief = .returned (.success (level, task))) : ¬ above < level := by
  have ahead : StillAhead above ((after.levels above).thief thief) (after.thief thief) := by
    cases called with
    | stealCall _thief idle =>
        change StillAhead above _ (Function.update before.thief thief _ thief)
        rw [Function.update_self]
        exact StillAhead.stealFrom false (List.pairwise_lt_finRange K) (List.mem_finRange above)
  have atEnd : StillAhead above ((final.levels above).thief thief) (final.thief thief) := by
    clear took
    induction run with
    | refl => exact ahead
    | snoc _prior taken ih => exact ih.step taken.1 taken.2
  rw [took] at atEnd
  exact atEnd

end WsDeque.Priority
