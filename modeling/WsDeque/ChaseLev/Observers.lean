import WsDeque.ChaseLev.Contention

/-
`Worker::len` and `Stealer::is_empty` while the deque is in use. Both read the
two indices one after the other; what they answer was true at some instant of
the call.
-/

namespace WsDeque.ChaseLev

open MachineWord

variable {ι α : Type*}

/-! ### The two calls -/

/-- `Worker::len`, with the local variables in scope. -/
inductive LenPc
  | away
  | loadBottom
  | loadTop (b : Int)
  | returned (len : Nat)

def lenStep (inner : Inner α) : LenPc → Option (Access × LenPc)
  | .loadBottom => some (.loadBottom, .loadTop inner.bottom)
  | .loadTop b => some (.loadTop, .returned (max (wrappingSub b inner.top) 0).toNat)
  | .away | .returned _ => none

/-- `Stealer::is_empty`. -/
inductive IsEmptyPc
  | away
  | loadTop
  | loadBottom (t : Int)
  | returned (answer : Bool)

def isEmptyStep (inner : Inner α) : IsEmptyPc → Option (Access × IsEmptyPc)
  | .loadTop => some (.loadTop, .loadBottom inner.top)
  | .loadBottom t => some (.loadBottom, .returned (decide (wrappingSub inner.bottom t ≤ 0)))
  | .away | .returned _ => none

def LenPc.isAway : LenPc → Bool
  | .away => true
  | _ => false

def IsEmptyPc.isAway : IsEmptyPc → Bool
  | .away => true
  | _ => false

/-- The deque with the calls that only look at it. A handle makes one call at a time. -/
structure Observed (ι α : Type*) where
  deque : State ι α
  len : LenPc
  isEmpty : ι → IsEmptyPc

inductive ObservedLabel (ι α : Type*)
  | deque (label : Label ι α)
  | lenCall
  | lenAccess (access : Access)
  | lenReturn (len : Nat)
  | isEmptyCall (thief : ι)
  | isEmptyAccess (thief : ι) (access : Access)
  | isEmptyReturn (thief : ι) (answer : Bool)

inductive ObservedChoice (ι α : Type*)
  | deque (choice : Choice ι α)
  | lenCall
  | lenStep
  | lenReturn
  | isEmptyCall (thief : ι)
  | isEmptyStep (thief : ι)
  | isEmptyReturn (thief : ι)

/-- The handle that makes the move is not in a call that looks at the deque. -/
def Observed.allows (state : Observed ι α) : Label ι α → Bool
  | .pushCall _ | .popCall | .dropWorker => state.len.isAway
  | .stealCall thief | .dropStealer thief => (state.isEmpty thief).isAway
  | _ => true

variable [Fintype ι] [DecidableEq ι]

def Observed.setIsEmpty (state : Observed ι α) (thief : ι) (pc : IsEmptyPc) : Observed ι α :=
  { state with isEmpty := Function.update state.isEmpty thief pc }

def observedNext (state : Observed ι α) :
    ObservedChoice ι α → Option (ObservedLabel ι α × Observed ι α)
  | .deque choice =>
      ((next state.deque choice).filter fun taken => state.allows taken.1).map fun taken =>
        (.deque taken.1, { state with deque := taken.2 })
  | .lenCall =>
      match state.deque.owner, state.len with
      | .idle, .away => some (.lenCall, { state with len := .loadBottom })
      | _, _ => none
  | .lenStep =>
      (lenStep state.deque.inner state.len).map fun taken =>
        (.lenAccess taken.1, { state with len := taken.2 })
  | .lenReturn =>
      match state.len with
      | .returned len => some (.lenReturn len, { state with len := .away })
      | _ => none
  | .isEmptyCall thief =>
      match state.deque.thief thief, state.isEmpty thief with
      | .idle, .away => some (.isEmptyCall thief, state.setIsEmpty thief .loadTop)
      | _, _ => none
  | .isEmptyStep thief =>
      (isEmptyStep state.deque.inner (state.isEmpty thief)).map fun taken =>
        (.isEmptyAccess thief taken.1, state.setIsEmpty thief taken.2)
  | .isEmptyReturn thief =>
      match state.isEmpty thief with
      | .returned answer => some (.isEmptyReturn thief answer, state.setIsEmpty thief .away)
      | _ => none

def observedInitial (ι α : Type*) (fifo : Bool) (logInitialCap : Nat) : Observed ι α :=
  { deque := withLogCapacity ι α fifo logInitialCap
    len := .away
    isEmpty := fun _ => .away }

def observedSystem (ι α : Type*) [Fintype ι] [DecidableEq ι] (fifo : Bool) (logInitialCap : Nat) :
    TransitionSystem (Observed ι α) (ObservedLabel ι α) :=
  .ofNext (fun state => state = observedInitial ι α fifo logInitialCap) observedNext

/-- What one step can be. -/
inductive ObservedMoves (before : Observed ι α) : ObservedLabel ι α → Observed ι α → Prop
  | deque (choice : Choice ι α) (label : Label ι α) (deque : State ι α)
      (taken : next before.deque choice = some (label, deque))
      (allowed : before.allows label = true) :
      ObservedMoves before (.deque label) { before with deque := deque }
  | lenCall (idle : before.deque.owner = .idle) (away : before.len = .away) :
      ObservedMoves before .lenCall { before with len := .loadBottom }
  | lenLoadBottom (atPc : before.len = .loadBottom) :
      ObservedMoves before (.lenAccess .loadBottom)
        { before with len := .loadTop before.deque.inner.bottom }
  | lenLoadTop (b : Int) (atPc : before.len = .loadTop b) :
      ObservedMoves before (.lenAccess .loadTop)
        { before with len := .returned (max (wrappingSub b before.deque.inner.top) 0).toNat }
  | lenReturn (len : Nat) (atPc : before.len = .returned len) :
      ObservedMoves before (.lenReturn len) { before with len := .away }
  | isEmptyCall (thief : ι) (idle : before.deque.thief thief = .idle)
      (away : before.isEmpty thief = .away) :
      ObservedMoves before (.isEmptyCall thief) (before.setIsEmpty thief .loadTop)
  | isEmptyLoadTop (thief : ι) (atPc : before.isEmpty thief = .loadTop) :
      ObservedMoves before (.isEmptyAccess thief .loadTop)
        (before.setIsEmpty thief (.loadBottom before.deque.inner.top))
  | isEmptyLoadBottom (thief : ι) (t : Int) (atPc : before.isEmpty thief = .loadBottom t) :
      ObservedMoves before (.isEmptyAccess thief .loadBottom)
        (before.setIsEmpty thief
          (.returned (decide (wrappingSub before.deque.inner.bottom t ≤ 0))))
  | isEmptyReturn (thief : ι) (answer : Bool) (atPc : before.isEmpty thief = .returned answer) :
      ObservedMoves before (.isEmptyReturn thief answer) (before.setIsEmpty thief .away)

variable {before after : Observed ι α} {label : ObservedLabel ι α}

theorem observedNext_moves {choice : ObservedChoice ι α}
    (taken : observedNext before choice = some (label, after)) :
    ObservedMoves before label after := by
  cases choice with
  | deque choice =>
      obtain ⟨⟨inner, deque⟩, filtered, same⟩ := Option.map_eq_some_iff.mp taken
      obtain ⟨stepped, allowed⟩ := Option.filter_eq_some_iff.mp filtered
      cases same
      exact .deque choice inner deque stepped allowed
  | lenCall =>
      simp only [observedNext] at taken
      split at taken <;> cases taken
      rename_i idle away
      exact .lenCall idle away
  | lenStep =>
      obtain ⟨⟨access, pc⟩, stepped, same⟩ := Option.map_eq_some_iff.mp taken
      cases same
      cases atPc : before.len with
      | away => rw [atPc] at stepped; cases stepped
      | loadBottom => rw [atPc] at stepped; cases stepped; exact .lenLoadBottom atPc
      | loadTop b => rw [atPc] at stepped; cases stepped; exact .lenLoadTop b atPc
      | returned len => rw [atPc] at stepped; cases stepped
  | lenReturn =>
      simp only [observedNext] at taken
      split at taken <;> cases taken
      rename_i len atPc
      exact .lenReturn len atPc
  | isEmptyCall thief =>
      simp only [observedNext] at taken
      split at taken <;> cases taken
      rename_i idle away
      exact .isEmptyCall thief idle away
  | isEmptyStep thief =>
      obtain ⟨⟨access, pc⟩, stepped, same⟩ := Option.map_eq_some_iff.mp taken
      cases same
      cases atPc : before.isEmpty thief with
      | away => rw [atPc] at stepped; cases stepped
      | loadTop => rw [atPc] at stepped; cases stepped; exact .isEmptyLoadTop thief atPc
      | loadBottom t => rw [atPc] at stepped; cases stepped; exact .isEmptyLoadBottom thief t atPc
      | returned answer => rw [atPc] at stepped; cases stepped
  | isEmptyReturn thief =>
      simp only [observedNext] at taken
      split at taken <;> cases taken
      rename_i answer atPc
      exact .isEmptyReturn thief answer atPc

/-! ### The handles that look -/

/-- The owner makes no other call meanwhile, so `bottom` stays. -/
def LenPc.Meets (deque : State ι α) : LenPc → Prop
  | .away => True
  | .loadTop b => deque.owner = .idle ∧ b = deque.inner.bottom
  | .loadBottom | .returned _ => deque.owner = .idle

structure Observed.Looks (state : Observed ι α) : Prop where
  len : state.len.Meets state.deque
  isEmpty : ∀ thief, (state.isEmpty thief).isAway = false → state.deque.thief thief = .idle

omit [DecidableEq ι] in
theorem State.release_frame (state : State ι α) :
    state.release.inner.bottom = state.inner.bottom ∧ state.release.owner = state.owner ∧
      state.release.thief = state.thief := by
  unfold State.release
  split <;> exact ⟨rfl, rfl, rfl⟩

omit [Fintype ι] [DecidableEq ι] in
theorem stealFrom_bottom (inner : Inner α) (pc : StealPc α) :
    (stealFrom inner pc).2.1.bottom = inner.bottom := by
  cases pc with
  | casTop t boxed =>
      simp only [stealFrom]
      split <;> rfl
  | _ => rfl

/-- An owner at rest that starts nothing stays at rest. -/
theorem Moves.rests {deque final : State ι α} {label : Label ι α}
    (moves : Moves deque label final) (idle : deque.owner = .idle)
    (notPush : ∀ value, label ≠ .pushCall value) (notPop : label ≠ .popCall)
    (notDrop : label ≠ .dropWorker) :
    final.owner = .idle ∧ final.inner.bottom = deque.inner.bottom := by
  cases moves with
  | pushCall value atPc => exact absurd rfl (notPush value)
  | popCall atPc => exact absurd rfl notPop
  | owner spurious access worker inner pc stepped =>
      rw [idle] at stepped
      cases stepped
  | ownerReturn result atPc =>
      rw [idle] at atPc
      cases atPc
  | thief thief pc atPc => exact ⟨idle, stealFrom_bottom _ _⟩
  | dropStealer thief atPc =>
      obtain ⟨bottom, owner, _thief⟩ := (deque.setThief thief .absent).release_frame
      rw [bottom, owner]
      exact ⟨idle, rfl⟩
  | dropWorker atPc => exact absurd rfl notDrop
  | _ => exact ⟨idle, rfl⟩

omit [Fintype ι] in
theorem State.thief_setThief (deque : State ι α) (thief other : ι) (pc : ThiefPc α)
    (different : other ≠ thief) : (deque.setThief thief pc).thief other = deque.thief other :=
  Function.update_of_ne different ..

theorem Moves.thief_rests {deque final : State ι α} {label : Label ι α} {thief : ι}
    (moves : Moves deque label final) (idle : deque.thief thief = .idle)
    (notSteal : label ≠ .stealCall thief) (notDrop : label ≠ .dropStealer thief) :
    final.thief thief = .idle := by
  have other : ∀ (mover : ι) (pc : ThiefPc α), deque.thief mover ≠ .idle →
      (deque.setThief mover pc).thief thief = .idle := by
    intro mover pc busy
    have different : thief ≠ mover := by
      rintro rfl
      exact busy idle
    exact (deque.thief_setThief mover thief pc different).trans idle
  cases moves with
  | stealCall mover atPc =>
      have different : thief ≠ mover := by
        rintro rfl
        exact notSteal rfl
      exact (deque.thief_setThief mover thief _ different).trans idle
  | thief mover pc atPc => exact other mover _ (by rw [atPc]; intro same; cases same)
  | stealReturn mover result atPc => exact other mover _ (by rw [atPc]; intro same; cases same)
  | newStealer mover atPc shared => exact other mover _ (by rw [atPc]; intro same; cases same)
  | dropStealer mover atPc =>
      have different : thief ≠ mover := by
        rintro rfl
        exact notDrop rfl
      obtain ⟨_bottom, _owner, thieves⟩ := (deque.setThief mover .absent).release_frame
      rw [thieves]
      exact (deque.thief_setThief mover thief _ different).trans idle
  | dropWorker atPc =>
      obtain ⟨_bottom, _owner, thieves⟩ := State.release_frame { deque with owner := .dropped }
      rw [thieves]
      exact idle
  | _ => exact idle

omit [Fintype ι] in
theorem Observed.Looks.setIsEmpty (looks : before.Looks) (thief : ι) (pc : IsEmptyPc)
    (idle : pc.isAway = false → before.deque.thief thief = .idle) :
    (before.setIsEmpty thief pc).Looks := by
  refine ⟨looks.len, fun other busy => ?_⟩
  change (Function.update before.isEmpty thief pc other).isAway = false at busy
  by_cases same : other = thief
  · subst same
    rw [Function.update_self] at busy
    exact idle busy
  · rw [Function.update_of_ne same] at busy
    exact looks.isEmpty other busy

theorem Observed.Looks.step (looks : before.Looks) (moves : ObservedMoves before label after) :
    after.Looks := by
  cases moves with
  | deque choice label deque taken allowed =>
      have moves := next_moves taken
      constructor
      · have met := looks.len
        have rests : ∀ atPc : before.len ≠ .away, before.deque.owner = .idle →
            deque.owner = .idle ∧ deque.inner.bottom = before.deque.inner.bottom := by
          intro busy idle
          have notAway : before.len.isAway = false := by
            cases atPc : before.len with
            | away => exact absurd atPc busy
            | _ => rfl
          refine moves.rests idle ?_ ?_ ?_
          · rintro value rfl
            simp [Observed.allows, notAway] at allowed
          · rintro rfl
            simp [Observed.allows, notAway] at allowed
          · rintro rfl
            simp [Observed.allows, notAway] at allowed
        cases atPc : before.len with
        | away => trivial
        | loadBottom =>
            rw [atPc] at met
            exact (rests (by rw [atPc]; intro same; cases same) met).1
        | loadTop b =>
            rw [atPc] at met
            obtain ⟨idle, kept⟩ := rests (by rw [atPc]; intro same; cases same) met.1
            exact ⟨idle, met.2.trans kept.symm⟩
        | returned len =>
            rw [atPc] at met
            exact (rests (by rw [atPc]; intro same; cases same) met).1
      · intro thief busy
        refine moves.thief_rests (looks.isEmpty thief busy) ?_ ?_
        · rintro rfl
          change (before.isEmpty thief).isAway = false at busy
          simp [Observed.allows, busy] at allowed
        · rintro rfl
          change (before.isEmpty thief).isAway = false at busy
          simp [Observed.allows, busy] at allowed
  | lenCall idle away => exact ⟨idle, looks.isEmpty⟩
  | lenLoadBottom atPc =>
      have met := looks.len
      rw [atPc] at met
      exact ⟨⟨met, rfl⟩, looks.isEmpty⟩
  | lenLoadTop b atPc =>
      have met := looks.len
      rw [atPc] at met
      exact ⟨met.1, looks.isEmpty⟩
  | lenReturn len atPc => exact ⟨trivial, looks.isEmpty⟩
  | isEmptyCall thief idle away => exact looks.setIsEmpty thief _ fun _busy => idle
  | isEmptyLoadTop thief atPc =>
      exact looks.setIsEmpty thief _ fun _busy => looks.isEmpty thief (by rw [atPc]; rfl)
  | isEmptyLoadBottom thief t atPc =>
      exact looks.setIsEmpty thief _ fun _busy => looks.isEmpty thief (by rw [atPc]; rfl)
  | isEmptyReturn thief answer atPc =>
      exact looks.setIsEmpty thief _ fun busy => by cases busy

/-! ### The deque of an observed run -/

/-- The steps of the deque itself. -/
def dequeLabels (labels : List (ObservedLabel ι α)) : List (Label ι α) :=
  labels.filterMap fun label =>
    match label with
    | .deque inner => some inner
    | _ => none

omit [Fintype ι] [DecidableEq ι] in
theorem dequeLabels_append (first second : List (ObservedLabel ι α)) :
    dequeLabels (first ++ second) = dequeLabels first ++ dequeLabels second :=
  List.filterMap_append

variable {fifo : Bool} {logInitialCap : Nat} {labels : List (ObservedLabel ι α)}

theorem ObservedMoves.deque_run (moves : ObservedMoves before label after) :
    (system ι α fifo logInitialCap).Run before.deque (dequeLabels [label]) after.deque := by
  cases moves with
  | deque choice label deque taken allowed => exact .single ⟨choice, taken⟩
  | _ => exact .refl _

theorem observed_of_reaches (reached : (observedSystem ι α fifo logInitialCap).Reaches labels after) :
    (system ι α fifo logInitialCap).Reaches (dequeLabels labels) after.deque ∧ after.Looks := by
  refine @TransitionSystem.Reaches.induction _ _ (observedSystem ι α fifo logInitialCap)
    (fun labels state => (system ι α fifo logInitialCap).Reaches (dequeLabels labels)
      state.deque ∧ state.Looks) ?_ ?_ _ _ reached
  · intro start isInitial
    change start = _ at isInitial
    subst isInitial
    exact ⟨⟨_, rfl, .refl _⟩, trivial, fun thief busy => by cases busy⟩
  · intro labels before label after _reached soFar stepped
    obtain ⟨choice, taken⟩ := stepped
    have moves := observedNext_moves taken
    obtain ⟨⟨start, isInitial, run⟩, looks⟩ := soFar
    rw [dequeLabels_append]
    exact ⟨⟨start, isInitial, run.append moves.deque_run⟩, looks.step moves⟩

/-- The pushes so far, within the range of the signed index. -/
def FewPushes (labels : List (ObservedLabel ι α)) : Prop :=
  (Spec.pushed (dequeLabels labels)).length < 2 ^ 63

omit [Fintype ι] [DecidableEq ι] in
theorem FewPushes.earlier {first second : List (ObservedLabel ι α)}
    (few : FewPushes (first ++ second)) : FewPushes first := by
  unfold FewPushes at few ⊢
  rw [dequeLabels_append, Spec.pushed_append, List.length_append] at few
  omega

/-! ### `len` -/

abbrev Observed.items (state : Observed ι α) : List α :=
  state.deque.abstract.items

theorem len_at_loadTop {b : Int}
    (reached : (observedSystem ι α fifo logInitialCap).Reaches labels before)
    (few : FewPushes labels) (atPc : before.len = .loadTop b) :
    (max (wrappingSub b before.deque.inner.top) 0).toNat = before.items.length := by
  obtain ⟨dequeReached, looks⟩ := observed_of_reaches reached
  obtain ⟨storage, _mode, _spec⟩ := tracked_of_reaches dequeReached few
  have met := looks.len
  rw [atPc] at met
  obtain ⟨idle, rfl⟩ := met
  have shared : before.deque.shared = true := State.shared_of_owner (by rw [idle]; rfl)
  have resting : before.deque.owner.phase = .resting := by rw [idle]; rfl
  have level := storage.level resting
  have nonneg := storage.window.topNonneg
  have back := storage.back_le
  unfold FewPushes at few
  rw [Storage.back_of_resting resting] at back
  rw [Observed.items, storage.items_length shared, Storage.back_of_resting resting,
    wrappingSub_of_range (by omega) (by omega)]
  omega

/-- The owner's `len` is the number of elements at some instant of the call. -/
theorem len_honest {earlier during : List (ObservedLabel ι α)} {called final : Observed ι α}
    {len : Nat} (reached : (observedSystem ι α fifo logInitialCap).Reaches earlier before)
    (call : (observedSystem ι α fifo logInitialCap).step before .lenCall called)
    (run : (observedSystem ι α fifo logInitialCap).Run called during final)
    (few : FewPushes (earlier ++ [.lenCall] ++ during)) (returned : final.len = .returned len) :
    (observedSystem ι α fifo logInitialCap).PassesThrough called during final
      fun state => state.items.length = len := by
  have toCalled := reached.snoc call
  induction run generalizing len with
  | refl =>
      obtain ⟨choice, taken⟩ := call
      cases observedNext_moves taken with
      | lenCall idle away => cases returned
  | @snoc middle final labels label prior last ih =>
      rw [← List.append_assoc] at few
      have soFar := fun len => @ih len few.earlier
      have stepped := last
      obtain ⟨choice, taken⟩ := last
      cases observedNext_moves taken with
      | deque choice label deque taken allowed => exact (soFar len returned).snoc stepped
      | lenCall idle away => cases returned
      | lenLoadBottom atPc => cases returned
      | lenLoadTop b atPc =>
          obtain ⟨start, isInitial, toStart⟩ := toCalled
          have counted := len_at_loadTop ⟨start, isInitial, toStart.append prior⟩ few.earlier atPc
          have whole : (observedSystem ι α fifo logInitialCap).Run called _ _ := prior.snoc stepped
          refine whole.passesThrough ?_
          cases returned
          exact counted.symm
      | lenReturn len atPc => cases returned
      | isEmptyCall thief idle away => exact (soFar len returned).snoc stepped
      | isEmptyLoadTop thief atPc => exact (soFar len returned).snoc stepped
      | isEmptyLoadBottom thief t atPc => exact (soFar len returned).snoc stepped
      | isEmptyReturn thief answer atPc => exact (soFar len returned).snoc stepped

/-- One push. -/
def onePush : List (ObservedChoice (Fin 1) Nat) :=
  let only : Fin 1 := ⟨0, Nat.one_pos⟩
  [.deque (.pushCall 7), .deque (.owner false), .deque (.owner false), .deque (.owner false),
    .deque (.owner false), .deque .ownerReturn, .deque (.newStealer only)]

/-- A steal takes the element between the two loads of `len`. -/
def stolenMeanwhile : List (ObservedChoice (Fin 1) Nat) :=
  let only : Fin 1 := ⟨0, Nat.one_pos⟩
  [.lenStep, .deque (.stealCall only)] ++ List.replicate 7 (.deque (.thief only)) ++ [.lenStep]

theorem len_honest_stolenMeanwhile :
    ∃ earlier before called during final,
      (observedSystem (Fin 1) Nat false 5).Reaches earlier before ∧
      (observedSystem (Fin 1) Nat false 5).step before .lenCall called ∧
      (observedSystem (Fin 1) Nat false 5).Run called during final ∧
      FewPushes (earlier ++ [.lenCall] ++ during) ∧ final.len = .returned 0 ∧
      (observedSystem (Fin 1) Nat false 5).PassesThrough called during final
        fun state => state.items.length = 0 := by
  obtain ⟨earlier, before, reached, called, during, final, call, executed, few, returned⟩ :
      ∃ earlier before, (observedSystem (Fin 1) Nat false 5).Reaches earlier before ∧
        ∃ called during final, observedNext before .lenCall = some (.lenCall, called) ∧
          TransitionSystem.execute observedNext called stolenMeanwhile = some (during, final) ∧
          (Spec.pushed (dequeLabels (earlier ++ [.lenCall] ++ during))).length < 2 ^ 63 ∧
          final.len = .returned 0 :=
    ⟨_, _, ⟨_, rfl, TransitionSystem.execute_run onePush rfl⟩, _, _, _, rfl, rfl, by decide, rfl⟩
  have run : (observedSystem (Fin 1) Nat false 5).Run called during final :=
    TransitionSystem.execute_run stolenMeanwhile executed
  exact ⟨earlier, before, called, during, final, reached, ⟨.lenCall, call⟩, run, few, returned,
    len_honest reached ⟨.lenCall, call⟩ run few returned⟩

/-! ### `is_empty` -/

/-- Nothing that a thief could take without racing the owner for it. -/
def Observed.Vacant (state : Observed ι α) : Prop :=
  state.items = [] ∨ ∃ value, state.items = [value] ∧ state.deque.abstract.owner = .contesting

section

variable {pushes : Nat} {deque : State ι α}

theorem Storage.items_ne_nil_iff (storage : Storage pushes deque) (shared : deque.shared = true) :
    deque.abstract.items ≠ [] ↔ deque.inner.top < deque.back := by
  have count := storage.items_length shared
  rw [← List.length_pos_iff]
  omega

theorem Storage.contested_of_le (storage : Storage pushes deque) (shared : deque.shared = true)
    (low : deque.inner.bottom ≤ deque.inner.top) : deque.abstract.items = [] ∨
      ∃ value, deque.abstract.items = [value] ∧ deque.abstract.owner = .contesting := by
  have count := storage.items_length shared
  have near := storage.bottom_near_back
  by_cases empty : deque.abstract.items = []
  · exact .inl empty
  · have inside := (storage.items_ne_nil_iff shared).mp empty
    have single : deque.abstract.items.length = 1 := by omega
    obtain ⟨value, items⟩ := List.length_eq_one_iff.mp single
    refine .inr ⟨value, items, ?_⟩
    change deque.owner.status deque.inner = .contesting
    rw [OwnerPc.status_contesting_iff]
    have met := storage.protocol.owner
    change deque.owner.phase.Meets deque.inner.top deque.inner.bottom at met
    cases phase : deque.owner.phase with
    | resting =>
        rw [Storage.back_of_resting phase] at inside
        omega
    | lowered index => exact ⟨index, .inl rfl⟩
    | contending index => exact ⟨index, .inr rfl⟩
    | settling index =>
        rw [phase] at met
        simp only [State.back, phase, IndexProtocol.Owner.back] at inside
        have gone := met.2
        omega

end

/-- What the call knows after its loads: `top` is still where it was and nothing has
been there, or there has been something. -/
def IsEmptyPc.Knows (deque : State ι α) (wasOccupied wasVacant : Prop) : IsEmptyPc → Prop
  | .away | .loadTop => True
  | .loadBottom t =>
      0 ≤ t ∧ t ≤ deque.inner.top ∧ (wasOccupied ∨ t = deque.inner.top ∧ deque.back ≤ t)
  | .returned answer => if answer then wasVacant else wasOccupied

section

variable {pushes pushes' : Nat} {deque final : State ι α} {wasOccupied wasVacant : Prop}

omit [Fintype ι] [DecidableEq ι] in
theorem IsEmptyPc.Knows.mono {pc : IsEmptyPc} {wasOccupied' wasVacant' : Prop}
    (known : pc.Knows deque wasOccupied wasVacant) (occupied : wasOccupied → wasOccupied')
    (vacant : wasVacant → wasVacant') : pc.Knows deque wasOccupied' wasVacant' := by
  cases pc with
  | loadBottom t => exact ⟨known.1, known.2.1, known.2.2.imp_left occupied⟩
  | returned answer =>
      cases answer with
      | true => exact vacant known
      | false => exact occupied known
  | _ => trivial

/-- A step of the deque: `top` stays, or an element was there to be taken. -/
theorem IsEmptyPc.Knows.moves {pc : IsEmptyPc} {label : Label ι α}
    (known : pc.Knows deque wasOccupied wasVacant) (storage : Storage pushes deque)
    (few : pushes < 2 ^ 63) (storage' : Storage pushes' final)
    (shared : pc.isAway = false → final.shared = true) (moves : Moves deque label final)
    (occupied : final.abstract.items ≠ [] → wasOccupied) :
    pc.Knows final wasOccupied wasVacant := by
  cases pc with
  | loadBottom t =>
      obtain ⟨nonneg, low, seen⟩ := known
      have topLe := storage.top_le_back
      have back := storage.back_le
      have inside := moves.inside storage
      have moved := moves.top
      rw [storage'.items_ne_nil_iff (shared rfl)] at occupied
      by_cases taken : wins [label] = 0
      · rw [if_pos taken] at moved
        refine ⟨nonneg, by omega, seen.elim .inl fun same => ?_⟩
        by_cases here : final.inner.top < final.back
        · exact .inl (occupied here)
        · exact .inr (by omega)
      · have within := inside taken
        rw [if_neg taken, wrappingAdd_of_range (by omega) (by omega)] at moved
        exact ⟨nonneg, by omega, seen.imp_right fun same => by omega⟩
  | returned answer => exact known
  | _ => trivial

theorem knows_loadTop (storage : Storage pushes deque) (shared : deque.shared = true)
    (occupied : deque.abstract.items ≠ [] → wasOccupied) :
    (IsEmptyPc.loadBottom deque.inner.top).Knows deque wasOccupied wasVacant := by
  refine ⟨storage.window.topNonneg, Int.le_refl _, ?_⟩
  rw [storage.items_ne_nil_iff shared] at occupied
  by_cases here : deque.inner.top < deque.back
  · exact .inl (occupied here)
  · exact .inr ⟨rfl, Int.not_lt.mp here⟩

theorem knows_loadBottom {t : Int} (storage : Storage pushes deque) (few : pushes < 2 ^ 63)
    (shared : deque.shared = true)
    (known : (IsEmptyPc.loadBottom t).Knows deque wasOccupied wasVacant)
    (vacant : (deque.abstract.items = [] ∨ ∃ value, deque.abstract.items = [value] ∧
      deque.abstract.owner = .contesting) → wasVacant) :
    (IsEmptyPc.returned (decide (wrappingSub deque.inner.bottom t ≤ 0))).Knows deque wasOccupied
      wasVacant := by
  obtain ⟨nonneg, low, seen⟩ := known
  have near := storage.bottom_near_back
  have back := storage.back_le
  have topLe := storage.top_le_back
  rw [wrappingSub_of_range (by omega) (by omega)]
  by_cases drained : deque.inner.bottom - t ≤ 0
  · simp only [IsEmptyPc.Knows, drained, decide_true, if_true]
    exact vacant (storage.contested_of_le shared (by omega))
  · simp only [IsEmptyPc.Knows, drained, decide_false, Bool.false_eq_true, if_false]
    exact seen.resolve_right fun same => by omega

end

variable {thief : ι}

theorem isEmpty_knows {earlier during : List (ObservedLabel ι α)} {called final : Observed ι α}
    (reached : (observedSystem ι α fifo logInitialCap).Reaches earlier before)
    (call : (observedSystem ι α fifo logInitialCap).step before (.isEmptyCall thief) called)
    (run : (observedSystem ι α fifo logInitialCap).Run called during final)
    (few : FewPushes (earlier ++ [.isEmptyCall thief] ++ during)) :
    (final.isEmpty thief).Knows final.deque
      ((observedSystem ι α fifo logInitialCap).PassesThrough called during final
        fun state => state.items ≠ [])
      ((observedSystem ι α fifo logInitialCap).PassesThrough called during final
        Observed.Vacant) := by
  obtain ⟨start, isInitial, toCalled⟩ := reached.snoc call
  induction run with
  | refl =>
      obtain ⟨choice, taken⟩ := call
      cases observedNext_moves taken with
      | isEmptyCall _ idle away =>
          simp only [Observed.setIsEmpty, Function.update_self]
          trivial
  | @snoc middle final labels label prior last ih =>
      rw [← List.append_assoc] at few
      have whole : (observedSystem ι α fifo logInitialCap).Run called (labels ++ [label]) final :=
        prior.snoc last
      obtain ⟨dequeReached, looks⟩ := observed_of_reaches
        (⟨start, isInitial, toCalled.append prior⟩ :
          (observedSystem ι α fifo logInitialCap).Reaches _ middle)
      obtain ⟨dequeReached', looks'⟩ := observed_of_reaches
        (⟨start, isInitial, List.append_assoc .. ▸ toCalled.append whole⟩ :
          (observedSystem ι α fifo logInitialCap).Reaches
            (earlier ++ [.isEmptyCall thief] ++ labels ++ [label]) final)
      obtain ⟨storage, _mode, _spec⟩ := tracked_of_reaches dequeReached few.earlier
      obtain ⟨storage', _mode', _spec'⟩ := tracked_of_reaches dequeReached' few
      have known := (ih few.earlier).mono (fun passes => passes.snoc last)
        fun passes => passes.snoc last
      have shared : ∀ state : Observed ι α, state.Looks → (state.isEmpty thief).isAway = false →
          state.deque.shared = true := by
        intro state looks busy
        exact State.shared_of_thief thief (by rw [looks.isEmpty thief busy]; rfl)
      have others : ∀ (other : ι) (pc : IsEmptyPc), other ≠ thief →
          (middle.setIsEmpty other pc).isEmpty thief = middle.isEmpty thief := fun other pc apart =>
        Function.update_of_ne apart.symm ..
      have own : ∀ pc, (middle.setIsEmpty thief pc).isEmpty thief = pc := fun pc =>
        Function.update_self ..
      obtain ⟨choice, chosen⟩ := last
      cases observedNext_moves chosen with
      | deque choice label deque taken allowed =>
          exact known.moves storage few.earlier storage' (shared _ looks') (next_moves taken)
            fun occupied => whole.passesThrough occupied
      | isEmptyCall other idle away =>
          by_cases same : other = thief
          · subst same
            rw [own]
            trivial
          · rw [others other _ same]
            exact known
      | isEmptyLoadTop other atPc =>
          by_cases same : other = thief
          · subst same
            rw [own]
            exact knows_loadTop storage (shared middle looks (by rw [atPc]; rfl))
              fun occupied => whole.passesThrough occupied
          · rw [others other _ same]
            exact known
      | isEmptyLoadBottom other t atPc =>
          by_cases same : other = thief
          · subst same
            rw [own]
            rw [atPc] at known
            exact knows_loadBottom storage few.earlier (shared middle looks (by rw [atPc]; rfl))
              known fun vacant => whole.passesThrough vacant
          · rw [others other _ same]
            exact known
      | isEmptyReturn other answer atPc =>
          by_cases same : other = thief
          · subst same
            rw [own]
            trivial
          · rw [others other _ same]
            exact known
      | _ => exact known

/-- What `is_empty` answers a thief was so at some instant of the call. -/
theorem is_empty_honest {earlier during : List (ObservedLabel ι α)} {called final : Observed ι α}
    {answer : Bool} (reached : (observedSystem ι α fifo logInitialCap).Reaches earlier before)
    (call : (observedSystem ι α fifo logInitialCap).step before (.isEmptyCall thief) called)
    (run : (observedSystem ι α fifo logInitialCap).Run called during final)
    (few : FewPushes (earlier ++ [.isEmptyCall thief] ++ during))
    (returned : final.isEmpty thief = .returned answer) :
    (observedSystem ι α fifo logInitialCap).PassesThrough called during final fun state =>
      if answer then state.Vacant else state.items ≠ [] := by
  have known := isEmpty_knows reached call run few
  rw [returned] at known
  cases answer with
  | true => exact known
  | false => exact known

/-- The element comes after `top` is read and before `bottom` is. -/
def pushedMeanwhile : List (ObservedChoice (Fin 1) Nat) :=
  let only : Fin 1 := ⟨0, Nat.one_pos⟩
  .isEmptyStep only :: onePush.take 6 ++ [.isEmptyStep only]

theorem is_empty_honest_pushedMeanwhile :
    ∃ earlier before called during final,
      (observedSystem (Fin 1) Nat false 5).Reaches earlier before ∧
      (observedSystem (Fin 1) Nat false 5).step before (.isEmptyCall 0) called ∧
      (observedSystem (Fin 1) Nat false 5).Run called during final ∧
      FewPushes (earlier ++ [.isEmptyCall 0] ++ during) ∧ final.isEmpty 0 = .returned false ∧
      (observedSystem (Fin 1) Nat false 5).PassesThrough called during final
        fun state => state.items ≠ [] := by
  obtain ⟨earlier, before, reached, called, during, final, call, executed, few, returned⟩ :
      ∃ earlier before, (observedSystem (Fin 1) Nat false 5).Reaches earlier before ∧
        ∃ called during final,
          observedNext before (.isEmptyCall 0) = some (.isEmptyCall 0, called) ∧
          TransitionSystem.execute observedNext called pushedMeanwhile = some (during, final) ∧
          (Spec.pushed (dequeLabels (earlier ++ [.isEmptyCall 0] ++ during))).length < 2 ^ 63 ∧
          final.isEmpty 0 = .returned false :=
    ⟨_, _, ⟨_, rfl, TransitionSystem.execute_run [.deque (.newStealer 0)] rfl⟩, _, _, _, rfl, rfl,
      by decide, rfl⟩
  have run : (observedSystem (Fin 1) Nat false 5).Run called during final :=
    TransitionSystem.execute_run pushedMeanwhile executed
  exact ⟨earlier, before, called, during, final, reached, ⟨.isEmptyCall 0, call⟩, run, few,
    returned, is_empty_honest reached ⟨.isEmptyCall 0, call⟩ run few returned⟩

end WsDeque.ChaseLev
