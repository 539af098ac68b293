import WsDeque.Distributed.Termination

/-
What a panicking task does to the distributed runtime: its count is never taken
back, so that no node that remains ever returns.
-/

namespace WsDeque.Distributed

open TaskPool

variable {Task : Type*} {nodes : Nat} {me other : Id nodes}
  {before after final : State (Id nodes) Task} {event : Event (Id nodes) Task}
  {initial : List Task} {labels : List (Label (Id nodes) Task)} {state : State (Id nodes) Task}

theorem NodePc.panicked_runs {Id : Type*} {pc : NodePc Id Task} (gone : pc.isPanicked = true) :
    ∃ task, pc.runs = {task} := by
  cases pc with
  | unwinding task | unwound task => exact ⟨task, rfl⟩
  | _ => cases gone

/-- The panicked task is still counted. -/
theorem not_returned_of_panicked (reached : (system nodes initial).Reaches labels state)
    (gone : (state.node me).isPanicked = true) : (state.node other).returned = false := by
  by_contra returned
  have zero := zero_of_returned reached (Bool.not_eq_false _ ▸ returned)
  have empty := ((covered_of_reaches reached).empty_of_zero zero).2
  obtain ⟨task, runs⟩ := NodePc.panicked_runs gone
  exact State.active_ne_zero runs empty

/-- A panic is for good. -/
theorem Moves.stays_panicked (moved : Moves nodes me before event after)
    (gone : (before.node other).isPanicked = true) : (after.node other).isPanicked = true := by
  by_cases same : other = me
  · subst same
    rw [moved.isPanicked, gone, Bool.or_true]
  · rw [moved.others same, gone]

theorem panicked_of_run (run : (system nodes initial).Run before labels after)
    (gone : (before.node other).isPanicked = true) : (after.node other).isPanicked = true := by
  induction run with
  | refl => exact gone
  | snoc _prior last ih =>
      obtain ⟨choice, taken⟩ := last
      exact (next_moves taken).stays_panicked ih

/-- Some continuation lets every node that has not panicked return. -/
def CanReturn (nodes : Nat) (initial : List Task) (state : State (Id nodes) Task) : Prop :=
  ∃ labels final, (system nodes initial).Run state labels final ∧
    ∀ node, (state.node node).isPanicked = false → (final.node node).returned = true

/-- Once a task has panicked, nobody who remains returns. -/
theorem not_canReturn (reached : (system nodes initial).Reaches labels state)
    (gone : (state.node me).isPanicked = true)
    (remains : (state.node other).isPanicked = false) : ¬ CanReturn nodes initial state := by
  rintro ⟨rest, final, run, all⟩
  obtain ⟨start, isInitial, prior⟩ := reached
  have later : (system nodes initial).Reaches (labels ++ rest) final :=
    ⟨start, isInitial, prior.append run⟩
  have returned := all other remains
  rw [not_returned_of_panicked later (panicked_of_run run gone)] at returned
  cases returned

/-- The first panic of a run leaves every other node behind. -/
theorem first_panic (reached : (system nodes initial).Reaches labels final)
    (panics : ∃ label ∈ labels, label.event = .panics) :
    ∃ before rest state, labels = before ++ rest ∧
      (system nodes initial).Reaches before state ∧ (system nodes initial).Run state rest final ∧
      ∃ me, (state.node me).isPanicked = true ∧
        ∀ other, other ≠ me → (state.node other).isPanicked = false := by
  obtain ⟨start, isInitial, run⟩ := reached
  induction run with
  | refl =>
      obtain ⟨label, member, _panic⟩ := panics
      cases member
  | @snoc middle final labels last run taken ih =>
      by_cases earlier : ∃ label ∈ labels, label.event = .panics
      · obtain ⟨before, rest, state, rfl, reached, later, first⟩ := ih earlier
        exact ⟨before, rest ++ [last], state, List.append_assoc .., reached, later.snoc taken,
          first⟩
      · have reached : (system nodes initial).Reaches labels middle := ⟨start, isInitial, run⟩
        have calm : Calm labels := by
          intro label member
          cases event : label.event with
          | panics => exact absurd ⟨label, member, event⟩ earlier
          | _ => rfl
        have now : last.event = .panics := by
          obtain ⟨label, member, panic⟩ := panics
          rcases List.mem_append.mp member with there | here
          · exact absurd ⟨label, there, panic⟩ earlier
          · rw [← List.mem_singleton.mp here, panic]
        refine ⟨labels ++ [last], [], final, (List.append_nil _).symm, reached.snoc taken,
          .refl final, last.node, ?_, fun other different => ?_⟩
        · obtain ⟨choice, chosen⟩ := taken
          rw [(next_moves chosen).isPanicked, now]
          rfl
        · obtain ⟨choice, chosen⟩ := taken
          rw [(next_moves chosen).others different, not_panicked_of_calm reached calm]

/-- No run of two or more nodes in which a task panics leaves every state with a
way for the others to return. -/
theorem panic_strands (several : 2 ≤ nodes) (reached : (system nodes initial).Reaches labels final)
    (panics : ∃ label ∈ labels, label.event = .panics) :
    ∃ before rest state, labels = before ++ rest ∧
      (system nodes initial).Reaches before state ∧ (system nodes initial).Run state rest final ∧
      ¬ CanReturn nodes initial state := by
  obtain ⟨before, rest, state, split, earlier, later, me, gone, others⟩ :=
    first_panic reached panics
  refine ⟨before, rest, state, split, earlier, later, ?_⟩
  obtain ⟨other, different⟩ : ∃ other : Id nodes, other ≠ me := by
    by_cases zero : me.val = 0
    · have bound : 1 < max nodes 1 := Nat.lt_of_lt_of_le several (Nat.le_max_left nodes 1)
      exact ⟨⟨1, bound⟩, fun same => by simp [← same] at zero⟩
    · exact ⟨⟨0, someNode nodes⟩, fun same => zero (by rw [← same])⟩
  exact not_canReturn earlier gone (others other different)

/-- The only seed panics. -/
def onlyPanics : List (Id 2 × Act (Id 2) Nat) :=
  [(firstNode, .go), (firstNode, .panic)]

theorem panic_strands_onlyPanics :
    ∃ labels final, (system 2 [7]).Reaches labels final ∧
      ∃ before rest state, labels = before ++ rest ∧ (system 2 [7]).Reaches before state ∧
        (system 2 [7]).Run state rest final ∧ ¬ CanReturn 2 [7] state := by
  have reached : (system 2 [7]).Reaches _ _ :=
    ⟨_, ⟨List.cons_ne_nil _ _, rfl⟩, TransitionSystem.execute_run onlyPanics rfl⟩
  exact ⟨_, _, reached, panic_strands (Nat.le_refl 2) reached
    ⟨_, List.mem_append_right [_] (List.mem_singleton_self _), rfl⟩⟩

theorem not_canReturn_onlyPanics :
    ¬ ∀ (labels : List (Label (Id 2) Nat)) (state : State (Id 2) Nat),
      (system 2 [7]).Reaches labels state → (∃ label ∈ labels, label.event = .panics) →
        CanReturn 2 [7] state := by
  intro claim
  have reached : (system 2 [7]).Reaches _ _ :=
    ⟨_, ⟨List.cons_ne_nil _ _, rfl⟩, TransitionSystem.execute_run onlyPanics rfl⟩
  have gone := claim _ _ reached ⟨_, List.mem_append_right [_] (List.mem_singleton_self _), rfl⟩
  exact not_canReturn reached (show (State.node _ firstNode).isPanicked = true from rfl)
    (show (State.node _ secondNode).isPanicked = false from rfl) gone

end WsDeque.Distributed
