import WsDeque.ChaseLev.Handles
import WsDeque.Priority.Scan

/-
The pool over the deques of the crate, how its runs are computed, and why what
holds of the scans over double-ended lists holds of it.
-/

namespace WsDeque.Priority

variable {ι α : Type*} [Fintype ι] [DecidableEq ι] {K : Nat}

inductive Choice (ι α : Type*)
  | pushCall (task : α) (asked : Nat)
  | popCall
  | owner (spurious : Bool)
  | ownerReturn
  | newStealer (thief : ι)
  | stealCall (thief : ι)
  | thief (thief : ι)
  | stealReturn (thief : ι)

/-- A step of the owner on one level, after which it is at `pc`. -/
def ownerOn (state : State (ChaseLev.State ι α) ι α K) (level : Fin K)
    (choice : ChaseLev.Choice ι α) (pc : OwnerPc α K) :
    Option (Label ι α K × State (ChaseLev.State ι α) ι α K) :=
  (ChaseLev.next (state.levels level) choice).map fun taken =>
    (.level level taken.1,
      { state with
        levels := Function.update state.levels level taken.2
        owner := pc })

def thiefOn (state : State (ChaseLev.State ι α) ι α K) (thief : ι) (level : Fin K)
    (choice : ChaseLev.Choice ι α) (pc : ThiefPc α K) :
    Option (Label ι α K × State (ChaseLev.State ι α) ι α K) :=
  (ChaseLev.next (state.levels level) choice).map fun taken =>
    (.level level taken.1,
      { state with
        levels := Function.update state.levels level taken.2
        thief := Function.update state.thief thief pc })

def next (state : State (ChaseLev.State ι α) ι α K) :
    Choice ι α → Option (Label ι α K × State (ChaseLev.State ι α) ι α K)
  | .pushCall task asked =>
      match state.owner with
      | .idle =>
          if inRange : min asked (K - 1) < K then
            some (.pushCall task asked, { state with owner := .push ⟨_, inRange⟩ task })
          else none
      | _ => none
  | .popCall =>
      match state.owner with
      | .idle => some (.popCall, { state with owner := popFrom (List.finRange K) })
      | _ => none
  | .owner spurious =>
      match state.owner with
      | .push level task => ownerOn state level (.pushCall task) (.pushing level)
      | .pushing level =>
          match (state.levels level).owner with
          | .returned _ => ownerOn state level .ownerReturn (.returned .pushed)
          | _ => ownerOn state level (.owner spurious) (.pushing level)
      | .pop level rest => ownerOn state level .popCall (.popping level rest)
      | .popping level rest =>
          match (state.levels level).owner with
          | .returned (.popped (some task)) =>
              ownerOn state level .ownerReturn (.returned (.popped (some (level, task))))
          | .returned (.popped none) => ownerOn state level .ownerReturn (popFrom rest)
          | .returned .pushed => none
          | _ => ownerOn state level (.owner spurious) (.popping level rest)
      | _ => none
  | .ownerReturn =>
      match state.owner with
      | .returned result => some (.ownerReturn result, { state with owner := .idle })
      | _ => none
  | .newStealer thief =>
      match state.thief thief with
      | .absent =>
          if ∀ level, ((state.levels level).thief thief).isAbsent = true ∧
              (state.levels level).shared = true then
            some (.newStealer thief,
              { state with
                levels := fun level => (state.levels level).setThief thief .idle
                thief := Function.update state.thief thief .idle })
          else none
      | _ => none
  | .stealCall thief =>
      match state.thief thief with
      | .idle =>
          some (.stealCall thief,
            { state with
              thief := Function.update state.thief thief (stealFrom false (List.finRange K)) })
      | _ => none
  | .thief thief =>
      match state.thief thief with
      | .steal level rest sawRetry =>
          thiefOn state thief level (.stealCall thief) (.stealing level rest sawRetry)
      | .stealing level rest sawRetry =>
          match (state.levels level).thief thief with
          | .returned (.success task) =>
              thiefOn state thief level (.stealReturn thief) (.returned (.success (level, task)))
          | .returned .retry => thiefOn state thief level (.stealReturn thief) (stealFrom true rest)
          | .returned .empty =>
              thiefOn state thief level (.stealReturn thief) (stealFrom sawRetry rest)
          | _ => thiefOn state thief level (.thief thief) (.stealing level rest sawRetry)
      | _ => none
  | .stealReturn thief =>
      match state.thief thief with
      | .returned result =>
          some (.stealReturn thief result,
            { state with thief := Function.update state.thief thief .idle })
      | _ => none

variable {fifo : Bool} {logInitialCap : Nat} {state after : State (ChaseLev.State ι α) ι α K}
  {label : Label ι α K}

theorem ownerOn_step {level : Fin K} {choice : ChaseLev.Choice ι α} {pc : OwnerPc α K}
    (moves : ∀ step deque, ChaseLev.next (state.levels level) choice = some (step, deque) →
      OwnerMoves state.owner level step pc)
    (taken : ownerOn state level choice pc = some (label, after)) :
    Step (ChaseLev.system ι α fifo logInitialCap) state label after := by
  simp only [ownerOn, Option.map_eq_some_iff] at taken
  obtain ⟨⟨step, deque⟩, moved, same⟩ := taken
  cases same
  exact .owner level step pc deque (moves step deque moved) ⟨choice, moved⟩

theorem thiefOn_step {thief : ι} {level : Fin K} {choice : ChaseLev.Choice ι α}
    {pc : ThiefPc α K}
    (moves : ∀ step deque, ChaseLev.next (state.levels level) choice = some (step, deque) →
      ThiefMoves thief (state.thief thief) level step pc)
    (taken : thiefOn state thief level choice pc = some (label, after)) :
    Step (ChaseLev.system ι α fifo logInitialCap) state label after := by
  simp only [thiefOn, Option.map_eq_some_iff] at taken
  obtain ⟨⟨step, deque⟩, moved, same⟩ := taken
  cases same
  exact .thief thief level step pc deque (moves step deque moved) ⟨choice, moved⟩

/-! ### The label of a step of one deque -/

theorem label_owner {deque final : ChaseLev.State ι α} {spurious : Bool}
    {step : ChaseLev.Label ι α}
    (moved : ChaseLev.next deque (.owner spurious) = some (step, final)) :
    ∃ access, step = .owner access := by
  simp only [ChaseLev.next, Option.map_eq_some_iff] at moved
  obtain ⟨taken, _stepped, same⟩ := moved
  cases same
  exact ⟨_, rfl⟩

theorem label_ownerReturn {deque final : ChaseLev.State ι α} {step : ChaseLev.Label ι α}
    {result : ChaseLev.OwnerResult α} (atPc : deque.owner = .returned result)
    (moved : ChaseLev.next deque .ownerReturn = some (step, final)) :
    step = .ownerReturn result := by
  simp only [ChaseLev.next, atPc, Option.some.injEq, Prod.mk.injEq] at moved
  exact moved.1.symm

theorem label_pushCall {deque final : ChaseLev.State ι α} {step : ChaseLev.Label ι α} {task : α}
    (moved : ChaseLev.next deque (.pushCall task) = some (step, final)) :
    step = .pushCall task := by
  simp only [ChaseLev.next] at moved
  split at moved <;> cases moved
  rfl

theorem label_popCall {deque final : ChaseLev.State ι α} {step : ChaseLev.Label ι α}
    (moved : ChaseLev.next deque .popCall = some (step, final)) : step = .popCall := by
  simp only [ChaseLev.next] at moved
  split at moved <;> cases moved
  rfl

theorem label_stealCall {deque final : ChaseLev.State ι α} {step : ChaseLev.Label ι α} {thief : ι}
    (moved : ChaseLev.next deque (.stealCall thief) = some (step, final)) :
    step = .stealCall thief := by
  simp only [ChaseLev.next] at moved
  split at moved <;> cases moved
  rfl

theorem label_thief {deque final : ChaseLev.State ι α} {step : ChaseLev.Label ι α} {thief : ι}
    (moved : ChaseLev.next deque (.thief thief) = some (step, final)) :
    ∃ access, step = .thief thief access := by
  simp only [ChaseLev.next] at moved
  split at moved <;> cases moved
  exact ⟨_, rfl⟩

theorem label_stealReturn {deque final : ChaseLev.State ι α} {step : ChaseLev.Label ι α}
    {thief : ι} {result : Steal α} (atPc : deque.thief thief = .returned result)
    (moved : ChaseLev.next deque (.stealReturn thief) = some (step, final)) :
    step = .stealReturn thief result := by
  simp only [ChaseLev.next, atPc, Option.some.injEq, Prod.mk.injEq] at moved
  exact moved.1.symm

/-! ### Computed steps are steps of the pool -/

theorem owner_sound {spurious : Bool} (taken : next state (.owner spurious) = some (label, after)) :
    Step (ChaseLev.system ι α fifo logInitialCap) state label after := by
  simp only [next] at taken
  cases atPc : state.owner with
  | push level task =>
      rw [atPc] at taken
      refine ownerOn_step ?_ taken
      intro step deque moved
      rw [label_pushCall moved, atPc]
      exact .pushCall level task
  | pushing level =>
      rw [atPc] at taken
      simp only at taken
      split at taken
      · rename_i result here
        refine ownerOn_step ?_ taken
        intro step deque moved
        rw [label_ownerReturn here moved, atPc]
        exact .pushReturn level result
      · refine ownerOn_step ?_ taken
        intro step deque moved
        obtain ⟨access, same⟩ := label_owner moved
        rw [same, atPc]
        exact .pushAccess level access
  | pop level rest =>
      rw [atPc] at taken
      refine ownerOn_step ?_ taken
      intro step deque moved
      rw [label_popCall moved, atPc]
      exact .popCall level rest
  | popping level rest =>
      rw [atPc] at taken
      simp only at taken
      split at taken
      · rename_i task here
        refine ownerOn_step ?_ taken
        intro step deque moved
        rw [label_ownerReturn here moved, atPc]
        exact .popSome level rest task
      · rename_i here
        refine ownerOn_step ?_ taken
        intro step deque moved
        rw [label_ownerReturn here moved, atPc]
        exact .popNone level rest
      · cases taken
      · refine ownerOn_step ?_ taken
        intro step deque moved
        obtain ⟨access, same⟩ := label_owner moved
        rw [same, atPc]
        exact .popAccess level rest access
  | idle => rw [atPc] at taken; cases taken
  | returned result => rw [atPc] at taken; cases taken

theorem thief_sound {thief : ι} (taken : next state (.thief thief) = some (label, after)) :
    Step (ChaseLev.system ι α fifo logInitialCap) state label after := by
  simp only [next] at taken
  cases atPc : state.thief thief with
  | steal level rest sawRetry =>
      rw [atPc] at taken
      refine thiefOn_step ?_ taken
      intro step deque moved
      rw [label_stealCall moved, atPc]
      exact .stealCall level rest sawRetry
  | stealing level rest sawRetry =>
      rw [atPc] at taken
      simp only at taken
      split at taken
      · rename_i task here
        refine thiefOn_step ?_ taken
        intro step deque moved
        rw [label_stealReturn here moved, atPc]
        exact .stealSuccess level rest sawRetry task
      · rename_i here
        refine thiefOn_step ?_ taken
        intro step deque moved
        rw [label_stealReturn here moved, atPc]
        exact .stealRetry level rest sawRetry
      · rename_i here
        refine thiefOn_step ?_ taken
        intro step deque moved
        rw [label_stealReturn here moved, atPc]
        exact .stealEmpty level rest sawRetry
      · refine thiefOn_step ?_ taken
        intro step deque moved
        obtain ⟨access, same⟩ := label_thief moved
        rw [same, atPc]
        exact .stealAccess level rest sawRetry access
  | absent => rw [atPc] at taken; cases taken
  | idle => rw [atPc] at taken; cases taken
  | returned result => rw [atPc] at taken; cases taken

theorem next_sound {choice : Choice ι α} (taken : next state choice = some (label, after)) :
    Step (ChaseLev.system ι α fifo logInitialCap) state label after := by
  cases choice with
  | pushCall task asked =>
      simp only [next] at taken
      split at taken
      · rename_i idle
        split at taken <;> cases taken
        exact .pushCall task asked _ idle rfl
      · cases taken
  | popCall =>
      simp only [next] at taken
      split at taken <;> cases taken
      rename_i idle
      exact .popCall idle
  | owner spurious => exact owner_sound taken
  | ownerReturn =>
      simp only [next] at taken
      split at taken <;> cases taken
      rename_i result done
      exact .ownerReturn result done
  | newStealer thief =>
      simp only [next] at taken
      split at taken
      · rename_i absent
        split at taken <;> cases taken
        rename_i fresh
        refine .newStealer thief _ absent ?_
        intro level
        obtain ⟨isAbsent, shared⟩ := fresh level
        refine ⟨.newStealer thief, ?_⟩
        simp only [ChaseLev.next, shared, if_true]
        cases atPc : (state.levels level).thief thief with
        | absent => rfl
        | _ => rw [atPc] at isAbsent; cases isAbsent
      · cases taken
  | stealCall thief =>
      simp only [next] at taken
      split at taken <;> cases taken
      rename_i idle
      exact .stealCall thief idle
  | thief thief => exact thief_sound taken
  | stealReturn thief =>
      simp only [next] at taken
      split at taken <;> cases taken
      rename_i result done
      exact .stealReturn thief result done

/-! ### Vacant levels answer `is_empty` -/

section

variable {pushes : Nat} {deque : ChaseLev.State ι α}

/-- `is_empty` of the deque, when its two loads read the same state. -/
theorem vacant_iff_isEmpty (storage : ChaseLev.Storage pushes deque) (few : pushes < 2 ^ 63)
    (present : deque.owner.isDropped = false) :
    Vacant deque.abstract ↔
      MachineWord.wrappingSub deque.inner.bottom deque.inner.top ≤ 0 := by
  have count := storage.items_length (ChaseLev.State.shared_of_owner present)
  have near := storage.bottom_near_back
  have bound := storage.back_le
  have topLe := storage.top_le_back
  have topNonneg := storage.window.topNonneg
  have met := storage.protocol.owner
  have status := ChaseLev.OwnerPc.status_contesting_iff deque.inner deque.owner
  rw [MachineWord.wrappingSub_of_range (by omega) (by omega)]
  have vacant : Vacant deque.abstract ↔ deque.abstract.items.length = 0 ∨
      (deque.abstract.items.length = 1 ∧ deque.owner.status deque.inner = .contesting) := by
    simp only [Vacant, List.length_eq_zero_iff, List.length_eq_one_iff, exists_and_right]
    rfl
  rw [vacant, count, status]
  simp only [ChaseLev.State.back] at *
  change (deque.owner.phase).Meets deque.inner.top deque.inner.bottom at met
  cases phase : deque.owner.phase with
  | resting => simp [phase, IndexProtocol.Owner.back] at *
  | lowered index =>
      simp [phase, IndexProtocol.Owner.back, IndexProtocol.Owner.Meets] at *
      omega
  | contending index =>
      simp [phase, IndexProtocol.Owner.back, IndexProtocol.Owner.Meets] at *
      omega
  | settling index =>
      simp [phase, IndexProtocol.Owner.back, IndexProtocol.Owner.Meets] at *
      omega

end

/-! ### From the deques to double-ended lists -/

def State.abstract (state : State (ChaseLev.State ι α) ι α K) :
    State (ChaseLev.Spec.State ι α) ι α K :=
  { levels := fun level => (state.levels level).abstract
    owner := state.owner
    thief := state.thief }

/-- The pushes of a level so far, within the range of the signed index. -/
def Few (labels : List (Label ι α K)) : Prop :=
  ∀ level, (ChaseLev.Spec.pushed (levelLabels level labels)).length < 2 ^ 63

omit [Fintype ι] [DecidableEq ι] in
theorem Few.prefix {first second : List (Label ι α K)} (few : Few (first ++ second)) :
    Few first := by
  intro level
  have whole := few level
  rw [levelLabels_append, ChaseLev.Spec.pushed_append, List.length_append] at whole
  omega

theorem deque_step {labels : List (ChaseLev.Label ι α)} {deque final : ChaseLev.State ι α}
    {step : ChaseLev.Label ι α}
    (reached : (ChaseLev.system ι α fifo logInitialCap).Reaches labels deque)
    (taken : (ChaseLev.system ι α fifo logInitialCap).step deque step final)
    (few : (ChaseLev.Spec.pushed (labels ++ [step])).length < 2 ^ 63) :
    ChaseLev.Spec.Step fifo deque.abstract step final.abstract := by
  rw [ChaseLev.Spec.pushed_append, List.length_append] at few
  obtain ⟨storage, mode, _spec⟩ := ChaseLev.tracked_of_reaches reached (by omega)
  obtain ⟨choice, moved⟩ := taken
  have advance := storage.next moved few
  rw [← mode]
  exact advance.spec

theorem step_abstract {labels : List (Label ι α K)}
    (reached : (system K (ChaseLev.system ι α fifo logInitialCap)).Reaches labels state)
    (taken : Step (ChaseLev.system ι α fifo logInitialCap) state label after)
    (few : Few (labels ++ [label])) :
    Step (ChaseLev.Spec.system ι α fifo) state.abstract label after.abstract := by
  have lift : ∀ level step deque, levelLabels level [label] = [step] →
      (ChaseLev.system ι α fifo logInitialCap).step (state.levels level) step deque →
        ChaseLev.Spec.Step fifo (state.levels level).abstract step deque.abstract := by
    intro level step deque sees stepped
    have short := few level
    rw [levelLabels_append, sees] at short
    exact deque_step (level_reaches reached level) stepped short
  have levels : ∀ level deque,
      (fun other => (Function.update state.levels level deque other).abstract) =
        Function.update (fun other => (state.levels other).abstract) level deque.abstract := by
    intro level deque
    funext other
    by_cases same : other = level
    · rw [same, Function.update_self, Function.update_self]
    · rw [Function.update_of_ne same, Function.update_of_ne same]
  cases taken with
  | pushCall task asked level idle clamped => exact .pushCall task asked level idle clamped
  | popCall idle => exact .popCall idle
  | owner level step pc deque moves stepped =>
      have seen := lift level step deque (by simp [levelLabels]) stepped
      have lifted : Step (ChaseLev.Spec.system ι α fifo) state.abstract _ _ :=
        .owner level step pc deque.abstract moves seen
      simp only [State.abstract, ← levels] at lifted
      exact lifted
  | ownerReturn result done => exact .ownerReturn result done
  | newStealer thief deques absent stepped =>
      refine .newStealer thief (fun level => (deques level).abstract) absent ?_
      intro level
      exact lift level _ _ rfl (stepped level)
  | stealCall thief idle => exact .stealCall thief idle
  | thief thief level step pc deque moves stepped =>
      have seen := lift level step deque (by simp [levelLabels]) stepped
      have lifted : Step (ChaseLev.Spec.system ι α fifo) state.abstract _ _ :=
        .thief thief level step pc deque.abstract moves seen
      simp only [State.abstract, ← levels] at lifted
      exact lifted
  | stealReturn thief result done => exact .stealReturn thief result done

/-- The pool over the deques of the crate takes the steps of the pool over
double-ended lists. -/
theorem pool_refines {labels : List (Label ι α K)}
    (reached : (system K (ChaseLev.system ι α fifo logInitialCap)).Reaches labels state)
    (few : Few labels) :
    (system K (ChaseLev.Spec.system ι α fifo)).Reaches labels state.abstract := by
  obtain ⟨start, isInitial, run⟩ := reached
  induction run with
  | refl =>
      refine ⟨start.abstract, ⟨?_, isInitial.2⟩, .refl _⟩
      intro level
      change (start.levels level).abstract = _
      rw [isInitial.1 level]
      exact ChaseLev.State.abstract_of_owner rfl
  | snoc prior taken ih =>
      exact (ih few.prefix).snoc (step_abstract ⟨start, isInitial, prior⟩ taken few)

/-! ### The worker of a pool is never dropped -/

omit [Fintype ι] in
theorem not_dropped_step {before final : ChaseLev.Spec.State ι α} {step : ChaseLev.Label ι α}
    (taken : ChaseLev.Spec.Step fifo before step final) (kept : step ≠ .dropWorker)
    (present : before.owner ≠ .dropped) : final.owner ≠ .dropped := by
  cases taken with
  | dropWorker after idle released => exact absurd rfl kept
  | dropStealer thief after idle released => cases released <;> exact present
  | pushCall value idle => intro same; cases same
  | pushAppend value pushing => intro same; cases same
  | popCall idle => intro same; cases same
  | popContest lifo popping => intro same; cases same
  | popBack rest value lifo contesting back => intro same; cases same
  | popEmpty lifo contesting empty => intro same; cases same
  | popWin value lifo contesting last => intro same; cases same
  | popLose lifo contesting empty => intro same; cases same
  | popFront value rest isFifo popping front => intro same; cases same
  | popFrontEmpty isFifo popping empty => intro same; cases same
  | ownerReturn result done => intro same; cases same
  | _ => exact present

omit [Fintype ι] [DecidableEq ι] in
theorem OwnerMoves.kept {pc next : OwnerPc α K} {level : Fin K} {step : ChaseLev.Label ι α}
    (moves : OwnerMoves pc level step next) : step ≠ .dropWorker := by
  intro same
  cases moves <;> cases same

omit [Fintype ι] [DecidableEq ι] in
theorem ThiefMoves.kept {thief : ι} {pc next : ThiefPc α K} {level : Fin K}
    {step : ChaseLev.Label ι α} (moves : ThiefMoves thief pc level step next) :
    step ≠ .dropWorker := by
  intro same
  cases moves <;> cases same

omit [Fintype ι] in
theorem not_dropped {labels : List (Label ι α K)}
    {spec : State (ChaseLev.Spec.State ι α) ι α K}
    (reached : (system K (ChaseLev.Spec.system ι α fifo)).Reaches labels spec) (level : Fin K) :
    (spec.levels level).owner ≠ .dropped := by
  obtain ⟨start, isInitial, run⟩ := reached
  induction run with
  | refl =>
      rw [isInitial.1 level]
      intro same
      cases same
  | @snoc middle _ _ _ _prior taken ih =>
      have moved : ∀ (here : Fin K) (step : ChaseLev.Label ι α) (deque : ChaseLev.Spec.State ι α),
          step ≠ .dropWorker → ChaseLev.Spec.Step fifo (middle.levels here) step deque →
            (Function.update middle.levels here deque level).owner ≠ .dropped := by
        intro here step deque kept stepped
        by_cases same : level = here
        · subst same
          rw [Function.update_self]
          exact not_dropped_step stepped kept ih
        · rw [Function.update_of_ne same]
          exact ih
      cases taken with
      | pushCall task asked here idle clamped => exact ih
      | popCall idle => exact ih
      | owner here step pc deque moves stepped =>
          exact moved here step deque moves.kept stepped
      | ownerReturn result done => exact ih
      | newStealer thief deques absent stepped =>
          refine not_dropped_step (stepped level) ?_ ih
          intro same
          cases same
      | stealCall thief idle => exact ih
      | thief thief here step pc deque moves stepped =>
          exact moved here step deque moves.kept stepped
      | stealReturn thief result done => exact ih

omit [DecidableEq ι] in
theorem present_of_abstract {deque : ChaseLev.State ι α} (kept : deque.abstract.owner ≠ .dropped) :
    deque.owner.isDropped = false := by
  change deque.owner.status deque.inner ≠ .dropped at kept
  cases atPc : deque.owner with
  | dropped =>
      rw [atPc] at kept
      exact absurd rfl kept
  | _ => rfl

/-! ### The race, in the words of the code -/

/-- As `Passes`, with `is_empty` for the level. -/
def PassesCode (thief : ι) (above : Fin K) (state : State (ChaseLev.State ι α) ι α K)
    (label : Label ι α K) : Prop :=
  0 < MachineWord.wrappingSub (state.levels above).inner.bottom (state.levels above).inner.top ∧
    label ≠ .level above (.stealReturn thief .retry) ∧ label ≠ .stealCall thief

theorem passes_abstract {labels : List (Label ι α K)} {thief : ι} {above : Fin K}
    (reached : (system K (ChaseLev.system ι α fifo logInitialCap)).Reaches labels state)
    (few : Few labels) (passes : PassesCode thief above state label) :
    Passes thief above state.abstract label := by
  obtain ⟨occupied, rest⟩ := passes
  refine ⟨?_, rest⟩
  intro vacant
  have present := present_of_abstract (not_dropped (pool_refines reached few) above)
  obtain ⟨storage, _mode, _spec⟩ :=
    ChaseLev.tracked_of_reaches (level_reaches reached above) (few above)
  have empty := (vacant_iff_isEmpty storage (few above) present).mp vacant
  omega

theorem run_abstract {earlier during : List (Label ι α K)} {thief : ι} {above : Fin K}
    {final : State (ChaseLev.State ι α) ι α K}
    (reached : (system K (ChaseLev.system ι α fifo logInitialCap)).Reaches earlier state)
    (run : ((system K (ChaseLev.system ι α fifo logInitialCap)).restrict
      (PassesCode thief above)).Run state during final)
    (few : Few (earlier ++ during)) :
    ((system K (ChaseLev.Spec.system ι α fifo)).restrict (Passes thief above)).Run
      state.abstract during final.abstract := by
  induction run with
  | refl => exact .refl _
  | @snoc middle _ labels _ prior taken ih =>
      rw [← List.append_assoc] at few
      obtain ⟨start, isInitial, toState⟩ := reached
      have plain : (system K (ChaseLev.system ι α fifo logInitialCap)).Run state labels middle :=
        prior.unrestricted
      have toMiddle : (system K (ChaseLev.system ι α fifo logInitialCap)).Reaches
          (earlier ++ labels) middle := ⟨start, isInitial, toState.append plain⟩
      refine (ih few.prefix).snoc ⟨?_, step_abstract toMiddle taken.2 few⟩
      exact passes_abstract toMiddle few.prefix taken.1

end WsDeque.Priority
