import WsDeque.ChaseLev.Handles

/-
What a lost race costs. `top` moves only when some party takes an element, so a
compare-exchange that fails after its party has read `top` is paid for by
another's success: a thief gets no more retries than others take elements, and
the loop of a FIFO pop goes round no more often.
-/

namespace WsDeque.ChaseLev

open MachineWord

variable {ι α : Type*}

/-! ### Races for the front -/

/-- The party that takes an element, the owner as `none`. -/
def Label.winner : Label ι α → Option (Option ι)
  | .owner (.casTop true) => some none
  | .thief party (.casTop true) => some (some party)
  | _ => none

def Label.loser : Label ι α → Option (Option ι)
  | .owner (.casTop false) => some none
  | .thief party (.casTop false) => some (some party)
  | _ => none

/-- The value of `top` that a later compare-exchange expects. -/
def StealPc.seen : StealPc α → Option Int
  | .loadTop => none
  | .loadBottom t | .addInFlight t | .loadBuffer t | .loadCell t _ | .subInFlight t _
  | .casTop t _ => some t

def Outcome.seen : Outcome α → Option Int
  | .running pc => pc.seen
  | .returned _ | .fault => none

def ThiefPc.seen : ThiefPc α → Option Int
  | .stealing pc => pc.seen
  | _ => none

def OwnerPc.seen : OwnerPc α → Option Int
  | .popFifo pc => pc.seen
  | .popLoadCell _ t _ | .popCasTop _ t _ => some t
  | _ => none

def State.seen (state : State ι α) : Option ι → Option Int
  | none => state.owner.seen
  | some thief => (state.thief thief).seen

/-- One when the compare-exchange is already lost. -/
def outdated (top : Int) (seen : Option Int) : Nat :=
  if seen = none ∨ seen = some top then 0 else 1

/-- What an access does to `top` and to what its party expects of it. -/
inductive Tries (top : Int) (seen : Option Int) : Access → Int → Option Int → Prop
  | won (current : seen = some top) : Tries top seen (.casTop true) (wrappingAdd top 1) none
  | lost (late : outdated top seen = 1) : Tries top seen (.casTop false) top none
  | sees (access : Access) (noRace : ∀ won, access ≠ .casTop won) :
      Tries top seen access top (some top)
  | keeps (access : Access) (noRace : ∀ won, access ≠ .casTop won) : Tries top seen access top seen
  | leaves (access : Access) (noRace : ∀ won, access ≠ .casTop won) :
      Tries top seen access top none

theorem stealFrom_tries (inner : Inner α) (pc : StealPc α) :
    Tries inner.top pc.seen (stealFrom inner pc).1 (stealFrom inner pc).2.1.top
      (stealFrom inner pc).2.2.seen := by
  cases pc with
  | loadTop => exact .sees .loadTop fun won same => by cases same
  | loadBottom t =>
      simp only [stealFrom]
      split
      · exact .leaves .loadBottom fun won same => by cases same
      · exact .keeps .loadBottom fun won same => by cases same
  | addInFlight t => exact .keeps .addInFlight fun won same => by cases same
  | loadBuffer t => exact .keeps .loadBuffer fun won same => by cases same
  | loadCell t bufPtr => exact .keeps .loadCell fun won same => by cases same
  | subInFlight t boxed => exact .keeps .subInFlight fun won same => by cases same
  | casTop t boxed =>
      by_cases current : inner.top = t
      · have gone : (takeOwnership boxed).seen = none := by cases boxed <;> rfl
        simp only [stealFrom, if_pos current, gone]
        subst current
        exact .won rfl
      · simp only [stealFrom, if_neg current]
        refine .lost (if_neg ?_)
        simpa [StealPc.seen] using Ne.symm current

theorem resize_top (resize : Resize) (inner : Inner α) (spurious : Bool) (pc : ResizePc α) :
    (resize.step inner spurious pc).2.1.top = inner.top ∧
      ∀ won, (resize.step inner spurious pc).1 ≠ .casTop won := by
  cases pc with
  | casRetired head =>
      simp only [Resize.step]
      split <;> exact ⟨rfl, fun won same => by cases same⟩
  | free node => cases node <;> exact ⟨rfl, fun won same => by cases same⟩
  | _ => exact ⟨rfl, fun won same => by cases same⟩

theorem popReturn_seen (boxed : Option α) : (popReturn boxed).seen = none := by
  cases boxed <;> rfl

theorem finishResize_seen (resize : Resize) (after : After α) :
    (finishResize resize after).seen = none := by
  cases after with
  | push value b => rfl
  | pop boxed => exact popReturn_seen boxed

theorem pushGrowOrStore_top (inner : Inner α) (value : α) (b : Int) (bufPtr : BufferPtr)
    (t : Int) : (pushGrowOrStore inner value b bufPtr t).1.top = inner.top ∧
      (pushGrowOrStore inner value b bufPtr t).2.seen = none := by
  unfold pushGrowOrStore
  split <;> exact ⟨rfl, rfl⟩

theorem perhapsShrink_top (inner : Inner α) (bottom top : Int) (bufPtr : BufferPtr)
    (boxed : Option α) : (perhapsShrink inner bottom top bufPtr boxed).1.top = inner.top ∧
      (perhapsShrink inner bottom top bufPtr boxed).2.seen = none := by
  unfold perhapsShrink
  dsimp only
  split
  · exact ⟨rfl, rfl⟩
  · exact ⟨rfl, popReturn_seen boxed⟩

theorem ownerStep_tries {worker worker' : Worker} {inner inner' : Inner α} {spurious : Bool}
    {pc pc' : OwnerPc α} {access : Access}
    (stepped : ownerStep worker inner spurious pc = some (access, worker', inner', pc')) :
    Tries inner.top pc.seen access inner'.top pc'.seen := by
  cases pc with
  | pushLoadBottom value =>
      cases stepped
      exact .keeps .loadBottom fun won same => by cases same
  | pushLoadBuffer value b =>
      obtain ⟨top, seen⟩ := pushGrowOrStore_top inner value b inner.buffer worker.cachedTop
      simp only [ownerStep] at stepped
      split at stepped
      · cases stepped
        exact .keeps .loadBuffer fun won same => by cases same
      · simp only [Option.some.injEq, Prod.mk.injEq] at stepped
        obtain ⟨rfl, rfl, same⟩ := stepped
        rw [same] at top seen
        rw [top, seen]
        exact .leaves .loadBuffer fun won same => by cases same
  | pushLoadTop value b bufPtr =>
      obtain ⟨top, seen⟩ := pushGrowOrStore_top inner value b bufPtr inner.top
      simp only [ownerStep, Option.some.injEq, Prod.mk.injEq] at stepped
      obtain ⟨rfl, rfl, same⟩ := stepped
      rw [same] at top seen
      rw [top, seen]
      exact .leaves .loadTop fun won same => by cases same
  | resizing resize pc after =>
      obtain ⟨top, noRace⟩ := resize_top resize inner spurious pc
      simp only [ownerStep] at stepped
      split at stepped
      · rename_i taken
        cases stepped
        rw [taken] at top noRace
        rw [top]
        exact .leaves access noRace
      · rename_i taken
        cases stepped
        rw [taken] at top noRace
        rw [top, finishResize_seen]
        exact .leaves access noRace
  | pushStoreCell value b bufPtr =>
      cases stepped
      exact .keeps .storeCell fun won same => by cases same
  | pushStoreBottom value b =>
      cases stepped
      exact .keeps .storeBottom fun won same => by cases same
  | popLoadBottom =>
      cases stepped
      exact .keeps .loadBottom fun won same => by cases same
  | popLoadBuffer b =>
      cases stepped
      exact .keeps .loadBuffer fun won same => by cases same
  | popStoreBottom b bufPtr =>
      cases stepped
      exact .keeps .storeBottom fun won same => by cases same
  | popLoadTop b bufPtr =>
      simp only [ownerStep, Option.some.injEq, Prod.mk.injEq] at stepped
      obtain ⟨rfl, rfl, rfl, rfl⟩ := stepped
      split
      · exact .leaves .loadTop fun won same => by cases same
      · exact .sees .loadTop fun won same => by cases same
  | popRestoreBottom b t =>
      cases stepped
      exact .keeps .storeBottom fun won same => by cases same
  | popLoadCell b t bufPtr =>
      obtain ⟨top, seen⟩ :=
        perhapsShrink_top inner b t bufPtr ((inner.heap bufPtr).read b)
      simp only [ownerStep] at stepped
      split at stepped
      · simp only [Option.some.injEq, Prod.mk.injEq] at stepped
        obtain ⟨rfl, rfl, same⟩ := stepped
        rw [same] at top seen
        rw [top, seen]
        exact .leaves .loadCell fun won same => by cases same
      · cases stepped
        exact .keeps .loadCell fun won same => by cases same
  | popCasTop b t boxed =>
      simp only [ownerStep] at stepped
      split at stepped
      · rename_i current
        subst current
        cases stepped
        exact .won rfl
      · rename_i moved
        cases stepped
        refine .lost (if_neg ?_)
        simpa [OwnerPc.seen] using Ne.symm moved
  | popSettleBottom b t boxed won =>
      simp only [ownerStep, Option.some.injEq, Prod.mk.injEq] at stepped
      obtain ⟨rfl, rfl, rfl, rfl⟩ := stepped
      split
      · rw [popReturn_seen]
        exact .leaves .storeBottom fun won same => by cases same
      · exact .leaves .storeBottom fun won same => by cases same
  | popFifo pc =>
      have tries := stealFrom_tries inner pc
      simp only [ownerStep] at stepped
      split at stepped <;> rename_i taken <;> cases stepped <;> rw [taken] at tries <;> exact tries
  | idle => cases stepped
  | returned result => cases stepped
  | fault => cases stepped
  | dropped => cases stepped

/-! ### The account of the races -/

variable [DecidableEq ι]

/-- The elements the other parties took. -/
def winsBesides (party : Option ι) (labels : List (Label ι α)) : Nat :=
  labels.countP fun label => decide (label.winner ≠ none ∧ label.winner ≠ some party)

def losses (party : Option ι) (labels : List (Label ι α)) : Nat :=
  labels.countP fun label => decide (label.loser = some party)

theorem winsBesides_snoc (party : Option ι) (labels : List (Label ι α)) (label : Label ι α) :
    winsBesides party (labels ++ [label]) = winsBesides party labels + winsBesides party [label] :=
  List.countP_append

theorem losses_snoc (party : Option ι) (labels : List (Label ι α)) (label : Label ι α) :
    losses party (labels ++ [label]) = losses party labels + losses party [label] :=
  List.countP_append

def State.outdated (state : State ι α) (party : Option ι) : Nat :=
  ChaseLev.outdated state.inner.top (state.seen party)

/-- Of the mover: a race it loses was lost before the compare-exchange. -/
theorem Tries.paid {top top' : Int} {seen seen' : Option Int} {access : Access}
    (tries : Tries top seen access top' seen') :
    (if access = .casTop false then 1 else 0) + outdated top' seen' ≤ outdated top seen := by
  cases tries with
  | won current => simp [outdated]
  | lost late =>
      rw [late]
      simp [outdated]
  | sees _access noRace => simp [noRace false, outdated]
  | keeps _access noRace => simp [noRace false]
  | leaves _access noRace => simp [noRace false, outdated]

/-- Of the others: only a taken element makes what they have read outdated. -/
theorem Tries.besides {top top' : Int} {seen seen' : Option Int} {access : Access}
    (tries : Tries top seen access top' seen') (other : Option Int) :
    outdated top' other ≤ outdated top other + (if access = .casTop true then 1 else 0) := by
  cases tries with
  | won current =>
      simp only [outdated, if_true]
      split <;> omega
  | _ => exact Nat.le_add_right _ _

theorem losses_owner (party : Option ι) (access : Access) :
    losses party [(.owner access : Label ι α)] =
      if party = none then if access = .casTop false then 1 else 0 else 0 := by
  rcases access with _ | _ | _ | (_ | _) | _ <;> cases party <;> simp [losses, Label.loser]

theorem winsBesides_owner (party : Option ι) (access : Access) :
    winsBesides party [(.owner access : Label ι α)] =
      if party = none then 0 else if access = .casTop true then 1 else 0 := by
  rcases access with _ | _ | _ | (_ | _) | _ <;> cases party <;>
    simp [winsBesides, Label.winner]

theorem losses_thief (party : Option ι) (thief : ι) (access : Access) :
    losses party [(.thief thief access : Label ι α)] =
      if party = some thief then if access = .casTop false then 1 else 0 else 0 := by
  by_cases mover : party = some thief
  · rcases access with _ | _ | _ | (_ | _) | _ <;> simp [losses, Label.loser, mover]
  · rcases access with _ | _ | _ | (_ | _) | _ <;>
      simp [losses, Label.loser, mover, Ne.symm mover]

theorem winsBesides_thief (party : Option ι) (thief : ι) (access : Access) :
    winsBesides party [(.thief thief access : Label ι α)] =
      if party = some thief then 0 else if access = .casTop true then 1 else 0 := by
  by_cases mover : party = some thief
  · rcases access with _ | _ | _ | (_ | _) | _ <;> simp [winsBesides, Label.winner, mover]
  · rcases access with _ | _ | _ | (_ | _) | _ <;>
      simp [winsBesides, Label.winner, mover, Ne.symm mover]

variable {before after : State ι α} {label : Label ι α}

theorem State.seen_setThief (state : State ι α) (thief : ι) (pc : ThiefPc α) (party : Option ι) :
    (state.setThief thief pc).seen party =
      if party = some thief then pc.seen else state.seen party := by
  cases party with
  | none => rfl
  | some other =>
      by_cases same : other = thief
      · subst same
        simp [State.seen, State.setThief]
      · simp [State.seen, State.setThief, same]

/-- Nobody races, and nobody learns of a new `top`. -/
theorem paid_of_silent {party : Option ι} (loser : label.loser = none)
    (top : after.inner.top = before.inner.top)
    (seen : after.seen party = before.seen party ∨ after.seen party = none) :
    losses party [label] + after.outdated party ≤
      before.outdated party + winsBesides party [label] := by
  have noLoss : losses party [label] = 0 := by simp [losses, loser]
  have kept : after.outdated party ≤ before.outdated party := by
    unfold State.outdated
    rcases seen with same | gone
    · rw [top, same]
    · simp [gone, outdated]
  omega

theorem paid_of_thief {party : Option ι} {thief : ι} {pc : ThiefPc α}
    (loser : label.loser = none) (gone : pc.seen = none) :
    losses party [label] + (before.setThief thief pc).outdated party ≤
      before.outdated party + winsBesides party [label] := by
  apply paid_of_silent loser
  · rfl
  · rw [State.seen_setThief]
    split
    · exact .inr gone
    · exact .inl rfl

theorem paid_of_owner {party : Option ι} {pc : OwnerPc α} (loser : label.loser = none)
    (gone : pc.seen = none) :
    losses party [label] + { before with owner := pc }.outdated party ≤
      before.outdated party + winsBesides party [label] := by
  apply paid_of_silent loser
  · rfl
  · cases party with
    | none => exact .inr gone
    | some thief => exact .inl rfl

variable [Fintype ι]

omit [DecidableEq ι] in
theorem State.release_top (state : State ι α) : state.release.inner.top = state.inner.top := by
  unfold State.release
  split <;> rfl

omit [DecidableEq ι] in
theorem State.release_outdated (state : State ι α) (party : Option ι) :
    state.release.outdated party = state.outdated party := by
  unfold State.release
  split
  · rfl
  · cases party <;> rfl

theorem Moves.paid (moves : Moves before label after) (party : Option ι) :
    losses party [label] + after.outdated party ≤
      before.outdated party + winsBesides party [label] := by
  cases moves with
  | pushCall value atPc => exact paid_of_owner rfl rfl
  | popCall atPc =>
      apply paid_of_owner rfl
      split <;> rfl
  | owner spurious access worker inner pc stepped =>
      have tries := ownerStep_tries stepped
      rw [losses_owner, winsBesides_owner]
      cases party with
      | none =>
          simp only [if_true, Nat.add_zero]
          exact tries.paid
      | some thief =>
          simp only [reduceCtorEq, if_false, Nat.zero_add]
          exact tries.besides _
  | ownerReturn result atPc => exact paid_of_owner rfl rfl
  | stealCall thief atPc => exact paid_of_thief rfl rfl
  | thief thief pc atPc =>
      have tries := stealFrom_tries before.inner pc
      have landed : (ThiefPc.afterOutcome (stealFrom before.inner pc).2.2).seen =
          (stealFrom before.inner pc).2.2.seen := by
        cases (stealFrom before.inner pc).2.2 <;> rfl
      rw [losses_thief, winsBesides_thief]
      unfold State.outdated
      rw [State.seen_setThief, landed]
      by_cases mover : party = some thief
      · have known : before.seen party = pc.seen := by simp [mover, State.seen, atPc, ThiefPc.seen]
        simp only [if_pos mover, Nat.add_zero, known]
        exact tries.paid
      · simp only [if_neg mover, Nat.zero_add]
        cases party <;> exact tries.besides _
  | stealReturn thief result atPc => exact paid_of_thief rfl rfl
  | newStealer thief atPc shared => exact paid_of_thief rfl rfl
  | dropStealer thief atPc =>
      rw [State.release_outdated]
      exact paid_of_thief rfl rfl
  | dropWorker atPc =>
      rw [State.release_outdated]
      exact paid_of_owner rfl rfl

variable {fifo : Bool} {logInitialCap : Nat} {labels : List (Label ι α)}

/-- Over any stretch of a run. -/
theorem run_paid (run : (system ι α fifo logInitialCap).Run before labels after)
    (party : Option ι) :
    losses party labels + after.outdated party ≤
      before.outdated party + winsBesides party labels := by
  induction run with
  | refl => simp [losses, winsBesides]
  | snoc _prior last ih =>
      obtain ⟨choice, taken⟩ := last
      have step := (next_moves taken).paid party
      rw [losses_snoc, winsBesides_snoc]
      omega

/-! ### The elements taken -/

def wins (labels : List (Label ι α)) : Nat :=
  labels.countP fun label => decide (label.winner ≠ none)

omit [DecidableEq ι] [Fintype ι] in
theorem wins_snoc (labels : List (Label ι α)) (label : Label ι α) :
    wins (labels ++ [label]) = wins labels + wins [label] :=
  List.countP_append

omit [Fintype ι] in
theorem winsBesides_le (party : Option ι) (labels : List (Label ι α)) :
    winsBesides party labels ≤ wins labels := by
  apply List.countP_mono_left
  intro label _member won
  exact decide_eq_true (of_decide_eq_true won).1

theorem Tries.front {top top' : Int} {seen seen' : Option Int}
    (tries : Tries top seen (.casTop true) top' seen') : seen = some top := by
  cases tries with
  | won current => exact current
  | sees _access noRace => exact absurd rfl (noRace true)
  | keeps _access noRace => exact absurd rfl (noRace true)
  | leaves _access noRace => exact absurd rfl (noRace true)

theorem Tries.top {top top' : Int} {seen seen' : Option Int} {access : Access}
    (tries : Tries top seen access top' seen') :
    top' = if access = .casTop true then wrappingAdd top 1 else top := by
  cases tries with
  | won current => rfl
  | lost late => rfl
  | sees _access noRace => rw [if_neg (noRace true)]
  | keeps _access noRace => rw [if_neg (noRace true)]
  | leaves _access noRace => rw [if_neg (noRace true)]

omit [DecidableEq ι] [Fintype ι] in
theorem wins_owner (access : Access) :
    wins [(.owner access : Label ι α)] = if access = .casTop true then 1 else 0 := by
  rcases access with _ | _ | _ | (_ | _) | _ <;> simp [wins, Label.winner]

omit [DecidableEq ι] [Fintype ι] in
theorem wins_thief (thief : ι) (access : Access) :
    wins [(.thief thief access : Label ι α)] = if access = .casTop true then 1 else 0 := by
  rcases access with _ | _ | _ | (_ | _) | _ <;> simp [wins, Label.winner]

/-- `top` moves by one for every element taken. -/
theorem Moves.top (moves : Moves before label after) :
    after.inner.top = if wins [label] = 0 then before.inner.top
      else wrappingAdd before.inner.top 1 := by
  cases moves with
  | owner spurious access worker inner pc stepped =>
      rw [wins_owner]
      exact (ownerStep_tries stepped).top.trans (by split <;> rfl)
  | thief thief pc atPc =>
      rw [wins_thief]
      exact (stealFrom_tries before.inner pc).top.trans (by split <;> rfl)
  | dropStealer thief atPc => exact State.release_top _
  | dropWorker atPc => exact State.release_top _
  | _ => rfl

variable {pushes : Nat}

omit [DecidableEq ι] [Fintype ι] in
/-- A compare-exchange on the current `top` takes an element that is there. -/
theorem Storage.front_of_holds (storage : Storage pushes before) {party : Option ι}
    {pc : StealPc α} (held : before.protocol.taker party = pc.taker)
    (seen : pc.seen = some before.inner.top)
    (won : (stealFrom before.inner pc).1 = .casTop true) : before.inner.top < before.back := by
  cases pc with
  | casTop t boxed =>
      have current : t = before.inner.top := Option.some.inj seen
      subst current
      exact (storage.protocol.top_lt_back_of_holding held rfl).1
  | _ => cases won

theorem Moves.inside (storage : Storage pushes before) (moves : Moves before label after)
    (won : wins [label] ≠ 0) : before.inner.top < before.back := by
  cases moves with
  | owner spurious access worker inner pc stepped =>
      rw [wins_owner] at won
      have access' : access = .casTop true := by
        by_contra other
        exact won (if_neg other)
      subst access'
      have seen := (ownerStep_tries stepped).front
      have meets := storage.owner
      have met := storage.protocol.owner
      change before.owner.phase.Meets before.inner.top before.inner.bottom at met
      cases atPc : before.owner with
      | popFifo pc' =>
          rw [atPc] at seen stepped
          have held : before.protocol.taker none = pc'.taker := by
            simp only [State.protocol, byParty, atPc]
            rfl
          refine storage.front_of_holds held seen ?_
          simp only [ownerStep] at stepped
          split at stepped <;> rename_i taken <;> cases stepped <;> rw [taken]
      | popCasTop b t boxed =>
          rw [atPc] at seen meets
          have current : t = before.inner.top := Option.some.inj seen
          have last : t = b := meets.1
          simp only [State.back, atPc, OwnerPc.phase, IndexProtocol.Owner.back]
          omega
      | popLoadCell b t bufPtr =>
          rw [atPc] at stepped
          simp only [ownerStep] at stepped
          split at stepped <;> cases stepped
      | _ =>
          rw [atPc] at seen
          cases seen
  | thief thief pc atPc =>
      rw [wins_thief] at won
      have access : (stealFrom before.inner pc).1 = .casTop true := by
        by_contra other
        exact won (if_neg other)
      have tries := stealFrom_tries before.inner pc
      rw [access] at tries
      have held : before.protocol.taker (some thief) = pc.taker := by
        simp only [State.protocol, byParty, atPc]
        rfl
      exact storage.front_of_holds held tries.front access
  | _ => exact absurd rfl won

/-- As many elements are taken as `top` has moved, and no more than are pushed. -/
theorem wins_eq_top (reached : (system ι α fifo logInitialCap).Reaches labels after)
    (few : (Spec.pushed labels).length < 2 ^ 63) :
    (wins labels : Int) = after.inner.top := by
  refine @TransitionSystem.Reaches.induction _ _ (system ι α fifo logInitialCap)
    (fun labels state => (Spec.pushed labels).length < 2 ^ 63 →
      (wins labels : Int) = state.inner.top) ?_ ?_ _ _ reached few
  · intro start isInitial _few
    change start = _ at isInitial
    subst isInitial
    rfl
  · intro labels before label after earlier counted stepped few
    rw [Spec.pushed_append, List.length_append] at few
    obtain ⟨choice, taken⟩ := stepped
    have moves := next_moves taken
    have before' := counted (by omega)
    obtain ⟨storage, _mode, _spec⟩ := tracked_of_reaches earlier (by omega)
    have back := storage.back_le
    have nonneg := storage.window.topNonneg
    have inside := moves.inside storage
    have moved := moves.top
    rw [wins_snoc, moved]
    by_cases won : wins [label] = 0
    · rw [if_pos won, won]
      omega
    · have one : wins [label] ≤ 1 := List.countP_le_length
      rw [if_neg won, wrappingAdd_of_range] <;> have within := inside won <;> omega

/-! ### Retries -/

def ThiefPc.isRetry : ThiefPc α → Bool
  | .returned .retry => true
  | _ => false

/-- How often `steal` has returned `Retry` to a thief. -/
def retries (thief : ι) (labels : List (Label ι α)) : Nat :=
  labels.countP fun label =>
    match label with
    | .stealReturn other .retry => decide (other = thief)
    | _ => false

omit [Fintype ι] in
theorem retries_snoc (thief : ι) (labels : List (Label ι α)) (label : Label ι α) :
    retries thief (labels ++ [label]) = retries thief labels + retries thief [label] :=
  List.countP_append

/-- One while a lost call has not returned. -/
def State.retryDue (state : State ι α) (thief : ι) : Nat :=
  if (state.thief thief).isRetry then 1 else 0

omit [Fintype ι] in
theorem State.retryDue_setThief (state : State ι α) (thief other : ι) (pc : ThiefPc α) :
    (state.setThief thief pc).retryDue other =
      if other = thief then if pc.isRetry then 1 else 0 else state.retryDue other := by
  by_cases same : other = thief
  · subst same
    simp [State.retryDue, State.setThief]
  · simp [State.retryDue, State.setThief, same]

omit [Fintype ι] in
theorem retryDue_quiet (thief other : ι) {pc : ThiefPc α} (noRetry : pc.isRetry = false) :
    (before.setThief thief pc).retryDue other ≤ before.retryDue other := by
  rw [State.retryDue_setThief, noRetry]
  split
  · exact Nat.zero_le _
  · exact Nat.le_refl _

omit [DecidableEq ι] in
theorem retryDue_release (thief : ι) : before.release.retryDue thief = before.retryDue thief := by
  unfold State.release
  split <;> rfl

theorem stealFrom_retry {inner : Inner α} {pc : StealPc α}
    (retry : (ThiefPc.afterOutcome (stealFrom inner pc).2.2).isRetry = true) :
    (stealFrom inner pc).1 = .casTop false := by
  cases pc with
  | loadBottom t =>
      simp only [stealFrom] at retry
      split at retry <;> cases retry
  | casTop t boxed =>
      simp only [stealFrom] at retry ⊢
      split at retry
      · cases boxed <;> cases retry
      · rename_i late
        rw [if_neg late]
  | _ => cases retry

theorem Moves.retries (moves : Moves before label after) (thief : ι) :
    retries thief [label] + after.retryDue thief ≤
      before.retryDue thief + losses (some thief) [label] := by
  cases moves with
  | stealCall other atPc =>
      have quiet : (before.setThief other (.stealing .loadTop)).retryDue thief ≤ _ :=
        retryDue_quiet other thief rfl
      exact (Nat.zero_add _).trans_le (quiet.trans (Nat.le_add_right _ _))
  | newStealer other atPc shared =>
      have quiet : (before.setThief other .idle).retryDue thief ≤ _ :=
        retryDue_quiet other thief rfl
      exact (Nat.zero_add _).trans_le (quiet.trans (Nat.le_add_right _ _))
  | dropStealer other atPc =>
      have quiet : (before.setThief other .absent).retryDue thief ≤ _ :=
        retryDue_quiet other thief rfl
      rw [retryDue_release]
      exact (Nat.zero_add _).trans_le (quiet.trans (Nat.le_add_right _ _))
  | dropWorker atPc =>
      rw [retryDue_release]
      exact (Nat.zero_add _).trans_le (Nat.le_add_right _ _)
  | thief other pc atPc =>
      rw [State.retryDue_setThief, losses_thief]
      by_cases same : thief = other
      · subst same
        simp only [if_true]
        split
        · rename_i retry
          rw [stealFrom_retry retry]
          simp [ChaseLev.retries]
        · exact Nat.zero_le _
      · rw [if_neg same]
        exact (Nat.zero_add _).trans_le (Nat.le_add_right _ _)
  | stealReturn other result atPc =>
      rw [State.retryDue_setThief]
      by_cases same : thief = other
      · subst same
        cases result <;> simp [ChaseLev.retries, State.retryDue, atPc, ThiefPc.isRetry]
      · have others : ChaseLev.retries thief [(.stealReturn other result : Label ι α)] = 0 := by
          cases result <;> simp [ChaseLev.retries, Ne.symm same]
        rw [if_neg same, others]
        exact (Nat.zero_add _).trans_le (Nat.le_add_right _ _)
  | _ => exact (Nat.zero_add _).trans_le (Nat.le_add_right _ _)

theorem retries_le_losses (run : (system ι α fifo logInitialCap).Run before labels after)
    (thief : ι) :
    retries thief labels + after.retryDue thief ≤
      before.retryDue thief + losses (some thief) labels := by
  induction run with
  | refl => simp [retries, losses]
  | snoc _prior last ih =>
      obtain ⟨choice, taken⟩ := last
      have step := (next_moves taken).retries thief
      rw [retries_snoc, losses_snoc]
      omega

/-- A thief is told to retry no more often than others have taken an element since
the deque was made, and the owner loses no more races than thieves have won; there
are no more of these than pushes. -/
theorem retries_paid (reached : (system ι α fifo logInitialCap).Reaches labels after)
    (few : (Spec.pushed labels).length < 2 ^ 63) :
    (∀ thief, retries thief labels ≤ winsBesides (some thief) labels) ∧
      losses none labels ≤ winsBesides none labels ∧
      ∀ party, winsBesides party labels ≤ (Spec.pushed labels).length := by
  have counted := wins_eq_top reached few
  obtain ⟨storage, _mode, _spec⟩ := tracked_of_reaches reached few
  obtain ⟨start, isInitial, run⟩ := reached
  change start = _ at isInitial
  subst isInitial
  refine ⟨?_, ?_, ?_⟩
  · intro thief
    have returned := retries_le_losses run thief
    have paid := run_paid run (some thief)
    change _ ≤ 0 + _ at returned
    change _ ≤ 0 + _ at paid
    omega
  · have paid := run_paid run none
    change _ ≤ 0 + _ at paid
    omega
  · intro party
    have besides := winsBesides_le party labels
    have topLe := storage.top_le_back
    have back := storage.back_le
    omega

/-- One thief is about to take the only element when the other takes it. -/
def loseToOther : List (Choice Bool Nat) :=
  [.pushCall 7, .owner false, .owner false, .owner false, .owner false, .ownerReturn,
    .newStealer false, .newStealer true, .stealCall false] ++
    List.replicate 6 (.thief false) ++ [.stealCall true] ++ List.replicate 7 (.thief true) ++
    [.thief false, .stealReturn false]

theorem retries_paid_loseToOther :
    ∃ labels state, (system Bool Nat false 5).Reaches labels state ∧
      (Spec.pushed labels).length < 2 ^ 63 ∧ retries false labels = 1 ∧
      retries false labels ≤ winsBesides (some false) labels ∧
      winsBesides (some false) labels ≤ (Spec.pushed labels).length := by
  have reached : (system Bool Nat false 5).Reaches _ _ :=
    ⟨_, rfl, TransitionSystem.execute_run loseToOther rfl⟩
  have paid := retries_paid reached (by decide)
  exact ⟨_, _, reached, by decide, rfl, paid.1 false, paid.2.2 (some false)⟩

/-! ### The loop of a FIFO pop -/

/-- The accesses before the one `steal_from` is about to make. -/
def StealPc.done : StealPc α → Nat
  | .loadTop => 0
  | .loadBottom _ => 1
  | .addInFlight _ => 2
  | .loadBuffer _ => 3
  | .loadCell _ _ => 4
  | .subInFlight _ _ => 5
  | .casTop _ _ => 6

def ownerAccesses (labels : List (Label ι α)) : Nat :=
  labels.countP fun label =>
    match label with
    | .owner _ => true
    | _ => false

omit [Fintype ι] [DecidableEq ι] in
theorem ownerAccesses_snoc (labels : List (Label ι α)) (label : Label ι α) :
    ownerAccesses (labels ++ [label]) = ownerAccesses labels + ownerAccesses [label] :=
  List.countP_append

/-- The owner inside `pop_fifo`: seven accesses for every lost race, and those of
the round it is in. -/
inductive InFifo (labels : List (Label ι α)) : OwnerPc α → Prop
  | popping (pc : StealPc α) (count : ownerAccesses labels = 7 * losses none labels + pc.done) :
      InFifo labels (.popFifo pc)
  | returned (value : Option α) (count : ownerAccesses labels ≤ 7 * losses none labels + 7) :
      InFifo labels (.returned (.popped value))
  | fault (count : ownerAccesses labels ≤ 7 * losses none labels + 7) : InFifo labels .fault

omit [Fintype ι] in
theorem InFifo.within {pc : OwnerPc α} (inFifo : InFifo labels pc) :
    ownerAccesses labels ≤ 7 * losses none labels + 7 := by
  cases inFifo with
  | popping pc count => cases pc <;> simp only [StealPc.done] at count <;> omega
  | returned value count => exact count
  | fault count => exact count

omit [Fintype ι] in
theorem InFifo.other {pc : OwnerPc α} (inFifo : InFifo labels pc)
    (noAccess : ownerAccesses [label] = 0) (noLoss : losses none [label] = 0) :
    InFifo (labels ++ [label]) pc := by
  have accesses := ownerAccesses_snoc labels label
  have lost := losses_snoc none labels label
  rw [noAccess, Nat.add_zero] at accesses
  rw [noLoss, Nat.add_zero] at lost
  cases inFifo with
  | popping pc count => exact .popping pc (by rw [accesses, lost]; exact count)
  | returned value count => exact .returned value (by rw [accesses, lost]; exact count)
  | fault count => exact .fault (by rw [accesses, lost]; exact count)

omit [Fintype ι] in
theorem InFifo.ownerStep {worker worker' : Worker} {inner inner' : Inner α} {spurious : Bool}
    {pc pc' : OwnerPc α} {access : Access} (inFifo : InFifo labels pc)
    (stepped : ownerStep worker inner spurious pc = some (access, worker', inner', pc')) :
    InFifo (labels ++ [.owner access]) pc' := by
  have accesses := ownerAccesses_snoc labels (.owner access)
  have lost := losses_snoc none labels (.owner access)
  have one : ownerAccesses [(.owner access : Label ι α)] = 1 := rfl
  rw [one] at accesses
  rw [losses_owner, if_pos rfl] at lost
  cases inFifo with
  | popping pc count =>
      cases pc with
      | loadBottom t =>
          simp only [ChaseLev.ownerStep, stealFrom] at stepped
          by_cases drained : wrappingSub inner.bottom t ≤ 0
          · rw [if_pos drained] at stepped
            cases stepped
            refine .returned none ?_
            simp only [StealPc.done] at count
            omega
          · rw [if_neg drained] at stepped
            cases stepped
            refine .popping _ ?_
            rw [accesses, lost]
            simp only [StealPc.done] at count ⊢
            simp only [reduceCtorEq, if_false]
            omega
      | casTop t boxed =>
          simp only [StealPc.done] at count
          simp only [ChaseLev.ownerStep, stealFrom] at stepped
          by_cases current : inner.top = t
          · rw [if_pos current] at stepped
            cases boxed with
            | none =>
                cases stepped
                exact .fault (by omega)
            | some value =>
                cases stepped
                exact .returned (some value) (by omega)
          · rw [if_neg current] at stepped
            cases stepped
            refine .popping .loadTop ?_
            rw [if_pos rfl] at lost
            simp only [StealPc.done]
            omega
      | _ =>
          cases stepped
          refine .popping _ ?_
          rw [accesses, lost]
          simp only [StealPc.done] at count ⊢
          simp only [reduceCtorEq, if_false]
          omega
  | returned value count => cases stepped
  | fault count => cases stepped

theorem InFifo.next (inFifo : InFifo labels before.owner) (moves : Moves before label after)
    (running : ∀ result, label ≠ .ownerReturn result) :
    InFifo (labels ++ [label]) after.owner := by
  have busy : before.owner ≠ .idle := by
    intro idle
    rw [idle] at inFifo
    cases inFifo
  cases moves with
  | pushCall value atPc => exact absurd atPc busy
  | popCall atPc => exact absurd atPc busy
  | owner spurious access worker inner pc stepped => exact inFifo.ownerStep stepped
  | ownerReturn result atPc => exact absurd rfl (running result)
  | stealCall thief atPc => exact inFifo.other rfl rfl
  | thief thief pc atPc =>
      refine inFifo.other rfl ?_
      rw [losses_thief]
      rfl
  | stealReturn thief result atPc => exact inFifo.other rfl rfl
  | newStealer thief atPc shared => exact inFifo.other rfl rfl
  | dropStealer thief atPc =>
      have quiet : ((before.setThief thief .absent).release).owner = before.owner := by
        unfold State.release
        split <;> rfl
      rw [quiet]
      exact inFifo.other rfl rfl
  | dropWorker atPc => exact absurd atPc busy

theorem inFifo_of_run (run : (system ι α fifo logInitialCap).Run before labels after)
    (called : before.owner = .popFifo .loadTop)
    (running : ∀ result, .ownerReturn result ∉ labels) : InFifo labels after.owner := by
  induction run with
  | refl =>
      rw [called]
      exact .popping .loadTop rfl
  | snoc _prior last ih =>
      obtain ⟨choice, taken⟩ := last
      have earlier := ih fun result member => running result (List.mem_append_left _ member)
      refine earlier.next (next_moves taken) fun result same => running result ?_
      rw [same]
      exact List.mem_append_right _ (List.mem_singleton_self _)

/-- A call of `pop` on a `new_fifo` worker goes round its loop once more for each
element a thief takes during the call, and no more; and it can always go on. -/
theorem fifo_pop_paced {earlier : List (Label ι α)} {state called final : State ι α}
    (reached : (system ι α true logInitialCap).Reaches earlier state)
    (call : (system ι α true logInitialCap).step state .popCall called)
    (run : (system ι α true logInitialCap).Run called labels final)
    (running : ∀ result, .ownerReturn result ∉ labels)
    (few : (Spec.pushed (earlier ++ [.popCall] ++ labels)).length < 2 ^ 63) :
    ownerAccesses labels ≤ 7 * (winsBesides none labels + 1) ∧
      ((∃ access after, (system ι α true logInitialCap).step final (.owner access) after) ∨
        ∃ value after,
          (system ι α true logInitialCap).step final (.ownerReturn (.popped value)) after) := by
  have few' := few
  rw [Spec.pushed_append, Spec.pushed_append, List.length_append, List.length_append] at few'
  obtain ⟨_storage, mode, _spec⟩ := tracked_of_reaches reached (by omega)
  have atStart : called.owner = .popFifo .loadTop := by
    obtain ⟨choice, taken⟩ := call
    cases next_moves taken
    simp [mode]
  have inFifo := inFifo_of_run run atStart running
  have paid := run_paid run none
  have fresh : called.outdated none = 0 := by
    simp [State.outdated, State.seen, atStart, OwnerPc.seen, StealPc.seen, outdated]
  have within := inFifo.within
  refine ⟨by omega, ?_⟩
  obtain ⟨start, isInitial, before⟩ := reached
  have whole : (system ι α true logInitialCap).Reaches (earlier ++ [.popCall] ++ labels) final :=
    ⟨start, isInitial, (before.snoc call).append run⟩
  obtain ⟨storage, _mode, _spec⟩ := tracked_of_reaches whole few
  generalize atEnd : final.owner = pc at inFifo
  cases inFifo with
  | popping pc count =>
      obtain ⟨access, worker, inner, next', stepped⟩ :
          ∃ access worker inner next', ChaseLev.ownerStep final.worker final.inner false
            final.owner = some (access, worker, inner, next') := by
        rw [atEnd]
        simp only [ownerStep]
        split <;> exact ⟨_, _, _, _, rfl⟩
      refine .inl ⟨access, { final with worker := worker, inner := inner, owner := next' },
        .owner false, ?_⟩
      simp only [next, stepped, Option.map_some]
  | returned value count =>
      refine .inr ⟨value, { final with owner := .idle }, .ownerReturn, ?_⟩
      simp only [next, atEnd]
  | fault count => exact absurd atEnd storage.sound.1

/-- A thief takes one of two elements while the owner is in its first round. -/
def overtaken : List (Choice Bool Nat) :=
  List.replicate 6 (.owner false) ++ List.replicate 7 (.thief true) ++
    List.replicate 8 (.owner false)

def twoInFifo : List (Choice Bool Nat) :=
  [.pushCall 7, .owner false, .owner false, .owner false, .owner false, .ownerReturn,
    .pushCall 8, .owner false, .owner false, .owner false, .owner false, .ownerReturn,
    .newStealer true, .stealCall true]

theorem fifo_pop_paced_overtaken :
    ∃ earlier state called labels final,
      (system Bool Nat true 5).Reaches earlier state ∧
      (system Bool Nat true 5).step state .popCall called ∧
      (system Bool Nat true 5).Run called labels final ∧
      (Spec.pushed (earlier ++ [.popCall] ++ labels)).length < 2 ^ 63 ∧
      ownerAccesses labels = 14 ∧
      ownerAccesses labels ≤ 7 * (winsBesides none labels + 1) := by
  obtain ⟨earlier, state, reached, called, labels, final, call, executed, few, fourteen, silent⟩ :
      ∃ earlier state, (system Bool Nat true 5).Reaches earlier state ∧
        ∃ called labels final, next state .popCall = some (.popCall, called) ∧
          TransitionSystem.execute next called overtaken = some (labels, final) ∧
          (Spec.pushed (earlier ++ [.popCall] ++ labels)).length < 2 ^ 63 ∧
          ownerAccesses labels = 14 ∧
          (labels.all fun label => match label with
            | .ownerReturn _ => false
            | _ => true) = true :=
    ⟨_, _, ⟨_, rfl, TransitionSystem.execute_run twoInFifo rfl⟩, _, _, _, rfl, rfl, by decide,
      rfl, rfl⟩
  have run : (system Bool Nat true 5).Run called labels final :=
    TransitionSystem.execute_run overtaken executed
  have paced := fifo_pop_paced reached ⟨.popCall, call⟩ run (fun result member => by
    have spoken := List.all_eq_true.mp silent _ member
    cases spoken) few
  exact ⟨earlier, state, called, labels, final, reached, ⟨.popCall, call⟩, run, few, fourteen,
    paced.1⟩

end WsDeque.ChaseLev
