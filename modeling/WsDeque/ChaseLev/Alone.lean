import WsDeque.ChaseLev.Handles

/-
One party running alone: how a `push`, a `pop` and the claim of a thief go on
from any state of the deque.
-/

namespace WsDeque.ChaseLev

open MachineWord

variable {ι α : Type*}

/-- Calls, returns and handles: what the users of the deque see. -/
def Label.isCall : Label ι α → Bool
  | .owner _ | .thief _ _ => false
  | _ => true

def calls (labels : List (Label ι α)) : List (Label ι α) :=
  labels.filter Label.isCall

theorem calls_append (first second : List (Label ι α)) :
    calls (first ++ second) = calls first ++ calls second :=
  List.filter_append first second

/-! ### What a step inside a call does to the abstract deque -/

section

variable [DecidableEq ι] {fifo : Bool} {access : Access} {before after : Spec.State ι α}

theorem Spec.Step.of_pushing (step : Spec.Step fifo before (.owner access) after) {value : α}
    (pushing : before.owner = .pushing value) (early : access ≠ .storeBottom) :
    after = before := by
  cases step with
  | pushInternal value access pushing early => rfl
  | pushAppend value pushing => exact absurd rfl early
  | _ => simp_all

theorem Spec.Step.of_done (step : Spec.Step fifo before (.owner access) after)
    {result : OwnerResult α} (done : before.owner = .done result) : after = before := by
  cases step with
  | ownerTail access result done => rfl
  | _ => simp_all

theorem Spec.Step.of_popping (step : Spec.Step fifo before (.owner access) after)
    (popping : before.owner = .popping) (early : access ≠ .storeBottom ∧ access ≠ .casTop true)
    (lifo : fifo = false) : after = before := by
  cases step with
  | popInternal access popping early => rfl
  | _ => simp_all

theorem Spec.Step.append (step : Spec.Step fifo before (.owner .storeBottom) after) {value : α}
    (pushing : before.owner = .pushing value) : after.items = before.items ++ [value] := by
  cases step with
  | pushAppend other same =>
      rw [pushing] at same
      cases same
      rfl
  | _ => simp_all

theorem Spec.Step.contest (step : Spec.Step fifo before (.owner .storeBottom) after)
    (popping : before.owner = .popping) : after.items = before.items := by
  cases step with
  | popContest lifo popping => rfl
  | _ => simp_all

/-- The owner has read `top` and has its element. -/
theorem Spec.Step.back (step : Spec.Step fifo before (.owner .loadTop) after)
    (contesting : before.owner = .contesting) {value : α}
    (done : after.owner = .done (.popped (some value))) :
    before.items = after.items ++ [value] := by
  cases step with
  | popBack rest other lifo contesting back =>
      cases done
      exact back
  | _ => simp_all

/-- The owner has read `top` and goes on, or has nothing. -/
theorem Spec.Step.noBack (step : Spec.Step fifo before (.owner .loadTop) after)
    (contesting : before.owner = .contesting)
    (without : ∀ value, after.owner ≠ .done (.popped (some value))) :
    after.items = before.items := by
  cases step with
  | popBack rest other lifo contesting back => exact absurd rfl (without other)
  | popEmpty lifo contesting empty => rfl
  | popLast value lifo contesting last => rfl
  | _ => simp_all

theorem Spec.Step.of_contesting (step : Spec.Step fifo before (.owner .loadCell) after)
    (contesting : before.owner = .contesting) : after = before := by
  cases step with
  | popLoadCell lifo contesting => rfl
  | _ => simp_all

theorem Spec.Step.win (step : Spec.Step fifo before (.owner (.casTop true)) after)
    (contesting : before.owner = .contesting) {value : α}
    (done : after.owner = .done (.popped (some value))) :
    before.items = [value] ∧ after.items = [] := by
  cases step with
  | popWin other lifo contesting last =>
      cases done
      exact ⟨last, rfl⟩
  | _ => simp_all

theorem Spec.Step.of_stealing {thief : ι}
    (step : Spec.Step fifo before (.thief thief access) after)
    (early : access ≠ .loadBottom ∧ ∀ won, access ≠ .casTop won) : after = before := by
  cases step with
  | stealInternal thief access stealing before => rfl
  | stealFront thief value rest stealing front => exact absurd rfl (early.2 true)
  | stealRetry thief stealing => exact absurd rfl (early.2 false)
  | stealEmpty thief stealing nothing => exact absurd rfl early.1

theorem Spec.Step.front {thief : ι}
    (step : Spec.Step fifo before (.thief thief (.casTop true)) after) {value : α}
    (done : after.thief thief = .done (.success value)) : before.items = value :: after.items := by
  cases step with
  | stealInternal thief access stealing early => exact absurd rfl (early true)
  | stealFront thief other rest stealing front =>
      simp only [Spec.State.setThief, Function.update_self] at done
      cases done
      exact front

theorem Spec.Step.retry {thief : ι}
    (step : Spec.Step fifo before (.thief thief (.casTop false)) after) :
    after.items = before.items := by
  cases step with
  | stealInternal thief access stealing early => rfl
  | stealRetry thief stealing => rfl

theorem Spec.Step.bottom {thief : ι}
    (step : Spec.Step fifo before (.thief thief .loadBottom) after) :
    after.items = before.items := by
  cases step with
  | stealInternal thief access stealing early => rfl
  | stealEmpty thief stealing nothing => rfl

theorem Spec.Step.lose (step : Spec.Step fifo before (.owner (.casTop false)) after)
    (contesting : before.owner = .contesting) : after.items = before.items := by
  cases step with
  | popLose lifo contesting empty => rfl
  | _ => simp_all

end

/-! ### Steps of the owner that nobody outside sees -/

variable [Fintype ι] [DecidableEq ι]

/-- The owner runs inside its call. -/
structure Bursts (logInitialCap pushes : Nat) (before after : State ι α) : Prop where
  run : ∃ labels, (system ι α false logInitialCap).Run before labels after ∧ calls labels = []
  storage : Storage pushes after
  thief : after.thief = before.thief
  fifo : after.worker.fifo = before.worker.fifo

/-- And what it does is internal. -/
structure Quiet (logInitialCap pushes : Nat) (before after : State ι α) : Prop extends
    Bursts logInitialCap pushes before after where
  top : after.inner.top = before.inner.top
  bottom : after.inner.bottom = before.inner.bottom
  abstract : after.abstract = before.abstract

variable {logInitialCap pushes : Nat} {state middle final : State ι α} {access : Access}
  {worker : Worker} {inner : Inner α} {owner : OwnerPc α}

theorem Bursts.refl (storage : Storage pushes state) : Bursts logInitialCap pushes state state :=
  { run := ⟨[], .refl state, rfl⟩
    storage := storage
    thief := rfl
    fifo := rfl }

theorem Bursts.trans (first : Bursts logInitialCap pushes state middle)
    (second : Bursts logInitialCap pushes middle final) :
    Bursts logInitialCap pushes state final := by
  obtain ⟨labels, run, silent⟩ := first.run
  obtain ⟨more, further, stillSilent⟩ := second.run
  constructor
  · refine ⟨labels ++ more, run.append further, ?_⟩
    rw [calls_append, silent, stillSilent]
    rfl
  · exact second.storage
  · exact second.thief.trans first.thief
  · exact second.fifo.trans first.fifo

theorem Quiet.trans (first : Quiet logInitialCap pushes state middle)
    (second : Quiet logInitialCap pushes middle final) :
    Quiet logInitialCap pushes state final :=
  { toBursts := first.toBursts.trans second.toBursts
    top := second.top.trans first.top
    bottom := second.bottom.trans first.bottom
    abstract := second.abstract.trans first.abstract }

theorem Storage.bursts (storage : Storage pushes state) (few : pushes < 2 ^ 63)
    (logInitialCap : Nat)
    (moved : ChaseLev.ownerStep state.worker state.inner false state.owner =
      some (access, worker, inner, owner)) :
    Bursts logInitialCap pushes state
      { state with
        inner := inner
        worker := worker
        owner := owner } := by
  have advance := storage.ownerStep few false moved
  constructor
  · refine ⟨[.owner access], .single ⟨.owner false, ?_⟩, rfl⟩
    simp only [ChaseLev.next, moved, Option.map_some]
  · exact advance.storage
  · rfl
  · exact advance.fifo

theorem Storage.quiet (storage : Storage pushes state) (few : pushes < 2 ^ 63)
    (logInitialCap : Nat)
    (moved : ChaseLev.ownerStep state.worker state.inner false state.owner =
      some (access, worker, inner, owner))
    (top : inner.top = state.inner.top) (bottom : inner.bottom = state.inner.bottom)
    (internal : ∀ after, Spec.Step state.worker.fifo state.abstract (.owner access) after →
      after = state.abstract) :
    Quiet logInitialCap pushes state
      { state with
        inner := inner
        worker := worker
        owner := owner } :=
  { toBursts := storage.bursts few logInitialCap moved
    top := top
    bottom := bottom
    abstract := internal _ (storage.ownerStep few false moved).spec }

/-! ### Replacing the buffer -/

variable {resize : Resize} {pc pc' : ResizePc α} {after : After α}

theorem resize_internal (atPc : state.owner = .resizing resize pc after)
    (early : access ≠ .storeBottom) (abstract : Spec.State ι α)
    (step : Spec.Step state.worker.fifo state.abstract (.owner access) abstract) :
    abstract = state.abstract := by
  have status : state.abstract.owner = after.status := by
    change state.owner.status state.inner = _
    rw [atPc, resizing_status]
  cases after with
  | push value b => exact step.of_pushing status early
  | pop boxed => exact step.of_done status

omit [Fintype ι] [DecidableEq ι] in
theorem resize_indices (resize : Resize) (inner : Inner α) (pc : ResizePc α) :
    (resize.step inner false pc).2.1.top = inner.top ∧
      (resize.step inner false pc).2.1.bottom = inner.bottom ∧
        (resize.step inner false pc).1 ≠ .storeBottom := by
  cases pc with
  | casRetired head =>
      by_cases same : inner.retired = head
      · simp only [Resize.step, same, and_self, if_true]
        exact ⟨trivial, trivial, by decide⟩
      · simp only [Resize.step, same, and_false, if_false]
        exact ⟨trivial, trivial, by decide⟩
  | free node => cases node <;> exact ⟨rfl, rfl, by intro same; cases same⟩
  | _ => exact ⟨rfl, rfl, by intro same; cases same⟩

theorem Storage.quietResize (storage : Storage pushes state) (few : pushes < 2 ^ 63)
    (logInitialCap : Nat) (atPc : state.owner = .resizing resize pc after)
    (stepped : resize.step state.inner false pc = (access, inner, some pc')) :
    Quiet logInitialCap pushes state
      { state with
        inner := inner
        owner := .resizing resize pc' after } := by
  have frame := resize_indices resize state.inner pc
  rw [stepped] at frame
  apply storage.quiet few logInitialCap _ frame.1 frame.2.1 (resize_internal atPc frame.2.2)
  rw [atPc]
  simp only [ChaseLev.ownerStep, stepped]

theorem Storage.quietFinish (storage : Storage pushes state) (few : pushes < 2 ^ 63)
    (logInitialCap : Nat) (atPc : state.owner = .resizing resize pc after)
    (stepped : resize.step state.inner false pc = (access, inner, none)) :
    Quiet logInitialCap pushes state
      { state with
        inner := inner
        owner := finishResize resize after } := by
  have frame := resize_indices resize state.inner pc
  rw [stepped] at frame
  apply storage.quiet few logInitialCap _ frame.1 frame.2.1 (resize_internal atPc frame.2.2)
  rw [atPc]
  simp only [ChaseLev.ownerStep, stepped]

/-- The resize comes to its end. -/
def Finishes (logInitialCap pushes : Nat) (state : State ι α) (resize : Resize)
    (after : After α) : Prop :=
  ∃ final, Quiet logInitialCap pushes state final ∧ final.owner = finishResize resize after

theorem Quiet.finishes (first : Quiet logInitialCap pushes state middle)
    (rest : Finishes logInitialCap pushes middle resize after) :
    Finishes logInitialCap pushes state resize after := by
  obtain ⟨final, quiet, finished⟩ := rest
  exact ⟨final, first.trans quiet, finished⟩

theorem finishes_free (few : pushes < 2 ^ 63) (node : List BufferPtr) {state : State ι α}
    (storage : Storage pushes state) (atPc : state.owner = .resizing resize (.free node) after) :
    Finishes logInitialCap pushes state resize after := by
  induction node generalizing state with
  | nil => exact ⟨_, storage.quietFinish few logInitialCap atPc rfl, rfl⟩
  | cons buffer next ih =>
      cases next with
      | nil => exact ⟨_, storage.quietFinish few logInitialCap atPc rfl, rfl⟩
      | cons other rest =>
          have freed := storage.quietResize few logInitialCap atPc rfl
          exact freed.finishes (ih freed.storage rfl)

theorem finishes_swapRetired (few : pushes < 2 ^ 63) (storage : Storage pushes state)
    (atPc : state.owner = .resizing resize .swapRetired after) :
    Finishes logInitialCap pushes state resize after := by
  by_cases nothing : state.inner.retired = []
  · have stepped : resize.step state.inner false (.swapRetired : ResizePc α) =
        (.swapRetired, { state.inner with retired := [] }, none) := by
      simp only [Resize.step, if_pos nothing]
    exact ⟨_, storage.quietFinish few logInitialCap atPc stepped, rfl⟩
  · have stepped : resize.step state.inner false (.swapRetired : ResizePc α) =
        (.swapRetired, { state.inner with retired := [] }, some (.free state.inner.retired)) := by
      simp only [Resize.step, if_neg nothing]
    have swapped := storage.quietResize few logInitialCap atPc stepped
    exact swapped.finishes (finishes_free few _ swapped.storage rfl)

theorem finishes_loadInFlight (few : pushes < 2 ^ 63) (storage : Storage pushes state)
    (atPc : state.owner = .resizing resize .loadInFlight after) :
    Finishes logInitialCap pushes state resize after := by
  by_cases busy : state.inner.inFlight ≠ 0
  · have stepped : resize.step state.inner false (.loadInFlight : ResizePc α) =
        (.loadInFlight, state.inner, none) := by
      simp only [Resize.step, if_pos busy]
    exact ⟨_, storage.quietFinish few logInitialCap atPc stepped, rfl⟩
  · have stepped : resize.step state.inner false (.loadInFlight : ResizePc α) =
        (.loadInFlight, state.inner, some .swapRetired) := by
      simp only [Resize.step, if_neg busy]
    have loaded := storage.quietResize few logInitialCap atPc stepped
    exact loaded.finishes (finishes_swapRetired few loaded.storage rfl)

theorem finishes_loadRetired (few : pushes < 2 ^ 63) (storage : Storage pushes state)
    (atPc : state.owner = .resizing resize .loadRetired after) :
    Finishes logInitialCap pushes state resize after := by
  have loaded := storage.quietResize few logInitialCap atPc rfl
  apply loaded.finishes
  -- Nobody else touches the retired list, so the first attempt succeeds.
  have stepped : resize.step state.inner false (.casRetired state.inner.retired : ResizePc α) =
      (.casRetired true, { state.inner with retired := resize.old :: state.inner.retired },
        some .loadInFlight) := by
    simp only [Resize.step, and_self, if_true]
  have pushed := loaded.storage.quietResize few logInitialCap rfl stepped
  exact pushed.finishes (finishes_loadInFlight few pushed.storage rfl)

theorem finishes_copyFrom (few : pushes < 2 ^ 63) (left : Nat) {k : Nat} {state : State ι α}
    (storage : Storage pushes state) (measured : (resize.count - k).toNat = left)
    (atPc : state.owner = .resizing resize (resize.copyFrom k) after) :
    Finishes logInitialCap pushes state resize after := by
  induction left generalizing state k with
  | zero =>
      have done : (resize.copyFrom k : ResizePc α) = .storeBuffer := by
        unfold Resize.copyFrom
        rw [if_neg (by omega)]
      rw [done] at atPc
      have stored := storage.quietResize few logInitialCap atPc rfl
      exact stored.finishes (finishes_loadRetired few stored.storage rfl)
  | succ left ih =>
      have more : (resize.copyFrom k : ResizePc α) = .copyLoad k := by
        unfold Resize.copyFrom
        rw [if_pos (by omega)]
      rw [more] at atPc
      have loaded := storage.quietResize few logInitialCap atPc rfl
      have copied := loaded.storage.quietResize few logInitialCap rfl rfl
      apply loaded.finishes
      apply copied.finishes
      exact ih copied.storage (by omega) rfl

/-! ### `push` -/

omit [Fintype ι] [DecidableEq ι] in
theorem abstract_pushing {value : α} (status : state.owner.status state.inner = .pushing value)
    [Fintype ι] : state.abstract.owner = .pushing value :=
  status

/-- With room or without, the owner comes to the store of its value. -/
theorem storesCell_of_growOrStore (storage : Storage pushes state) (few : pushes < 2 ^ 63)
    (logInitialCap : Nat) {value : α} {b t : Int} {buf : BufferPtr} {loaded : Worker}
    (moved : ChaseLev.ownerStep state.worker state.inner false state.owner =
      some (access, loaded, pushGrowOrStore state.inner value b buf t))
    (status : state.owner.status state.inner = .pushing value) (early : access ≠ .storeBottom) :
    ∃ final b buf, Quiet logInitialCap pushes state final ∧
      final.owner = .pushStoreCell value b buf := by
  have internal : ∀ after, Spec.Step state.worker.fifo state.abstract (.owner access) after →
      after = state.abstract :=
    fun _after step => step.of_pushing (abstract_pushing status) early
  unfold pushGrowOrStore at moved
  split at moved
  · have started := storage.quiet few logInitialCap moved rfl rfl internal
    obtain ⟨final, quiet, finished⟩ := finishes_copyFrom few _ started.storage rfl rfl
    exact ⟨final, b, _, started.trans quiet, finished⟩
  · exact ⟨_, b, buf, storage.quiet few logInitialCap moved rfl rfl internal, rfl⟩

theorem push_alone (storage : Storage pushes state) (few : pushes < 2 ^ 63) (logInitialCap : Nat)
    {value : α} (atPc : state.owner = .pushLoadBottom value) :
    ∃ final, Bursts logInitialCap pushes state final ∧ final.owner = .returned .pushed ∧
      final.inner.top = state.inner.top ∧
      final.inner.bottom = wrappingAdd state.inner.bottom 1 ∧
      final.abstract.items = state.abstract.items ++ [value] := by
  have loaded : Quiet logInitialCap pushes state
      { state with owner := .pushLoadBuffer value state.inner.bottom } := by
    apply storage.quiet few logInitialCap (by rw [atPc]; rfl) rfl rfl
    intro after step
    exact step.of_pushing (abstract_pushing (by rw [atPc]; rfl)) (by decide)
  obtain ⟨middle, b, buf, grown, atCell⟩ : ∃ middle b buf,
      Quiet logInitialCap pushes state middle ∧ middle.owner = .pushStoreCell value b buf := by
    by_cases full : mightBeFull state.inner state.inner.buffer state.inner.bottom
        state.worker.cachedTop = true
    · have top : Quiet logInitialCap pushes
          { state with owner := .pushLoadBuffer value state.inner.bottom }
          { state with owner := .pushLoadTop value state.inner.bottom state.inner.buffer } := by
        have moved : ChaseLev.ownerStep state.worker state.inner false
            (.pushLoadBuffer value state.inner.bottom) =
              some (.loadBuffer, state.worker, state.inner,
                .pushLoadTop value state.inner.bottom state.inner.buffer) := by
          simp only [ChaseLev.ownerStep, if_pos full]
        apply loaded.storage.quiet few logInitialCap moved rfl rfl
        intro after step
        exact step.of_pushing (abstract_pushing rfl) (by decide)
      obtain ⟨middle, b, buf, quiet, atCell⟩ :=
        storesCell_of_growOrStore top.storage few logInitialCap rfl rfl (by decide)
      exact ⟨middle, b, buf, loaded.trans (top.trans quiet), atCell⟩
    · have moved : ChaseLev.ownerStep state.worker state.inner false
          (.pushLoadBuffer value state.inner.bottom) =
            some (.loadBuffer, state.worker, pushGrowOrStore state.inner value
              state.inner.bottom state.inner.buffer state.worker.cachedTop) := by
        simp only [ChaseLev.ownerStep, if_neg full]
      obtain ⟨middle, b, buf, quiet, atCell⟩ :=
        storesCell_of_growOrStore loaded.storage few logInitialCap moved rfl (by decide)
      exact ⟨middle, b, buf, loaded.trans quiet, atCell⟩
  have stored : Quiet logInitialCap pushes middle
      { middle with
        inner :=
          { middle.inner with
            heap := Function.update middle.inner.heap buf
              ((middle.inner.heap buf).write b (some value)) }
        owner := .pushStoreBottom value b } := by
    have moved : ChaseLev.ownerStep middle.worker middle.inner false middle.owner =
        some (.storeCell, middle.worker,
          { middle.inner with
            heap := Function.update middle.inner.heap buf
              ((middle.inner.heap buf).write b (some value)) },
          .pushStoreBottom value b) := by
      rw [atCell]
      rfl
    apply grown.storage.quiet few logInitialCap moved rfl rfl
    intro after step
    exact step.of_pushing (abstract_pushing (by rw [atCell]; rfl)) (by decide)
  have quiet := grown.trans stored
  have atBottom : b = middle.inner.bottom := stored.storage.owner.1
  refine ⟨_, quiet.toBursts.trans (stored.storage.bursts few logInitialCap rfl), rfl, quiet.top,
    ?_, ?_⟩
  · change wrappingAdd b 1 = _
    rw [atBottom, grown.bottom]
  · rw [← quiet.abstract]
    exact (stored.storage.ownerStep few false rfl).spec.append (abstract_pushing rfl)

/-! ### `pop` -/

/-- Up to the store of the lowered `bottom`. -/
theorem popLower_alone (storage : Storage pushes state) (few : pushes < 2 ^ 63)
    (logInitialCap : Nat) (atPc : state.owner = .popLoadBottom)
    (lifo : state.worker.fifo = false) :
    ∃ final buf, Bursts logInitialCap pushes state final ∧
      final.owner = .popLoadTop (wrappingSub state.inner.bottom 1) buf ∧
      final.inner.top = state.inner.top ∧
      final.inner.bottom = wrappingSub state.inner.bottom 1 ∧
      final.abstract.items = state.abstract.items := by
  have popping : state.abstract.owner = .popping := by
    change state.owner.status state.inner = _
    rw [atPc]
    rfl
  have loaded : Quiet logInitialCap pushes state
      { state with owner := .popLoadBuffer (wrappingSub state.inner.bottom 1) } := by
    apply storage.quiet few logInitialCap (by rw [atPc]; rfl) rfl rfl
    intro after step
    exact step.of_popping popping (by decide) lifo
  have buffer : Quiet logInitialCap pushes
      { state with owner := .popLoadBuffer (wrappingSub state.inner.bottom 1) }
      { state with
        owner := .popStoreBottom (wrappingSub state.inner.bottom 1) state.inner.buffer } := by
    apply loaded.storage.quiet few logInitialCap rfl rfl rfl
    intro after step
    exact step.of_popping rfl (by decide) lifo
  have quiet := loaded.trans buffer
  refine ⟨_, state.inner.buffer,
    quiet.toBursts.trans (buffer.storage.bursts few logInitialCap rfl), rfl, rfl, rfl, ?_⟩
  rw [← quiet.abstract]
  exact (buffer.storage.ownerStep few false rfl).spec.contest rfl

/-- With more than one element left the owner returns the one that it has read. -/
theorem popBack_alone (storage : Storage pushes state) (few : pushes < 2 ^ 63)
    (logInitialCap : Nat) {b t : Int} {buf : BufferPtr}
    (atPc : state.owner = .popLoadCell b t buf) (below : t < b) :
    ∃ final value, Quiet logInitialCap pushes state final ∧
      final.owner = .returned (.popped (some value)) ∧
      state.abstract.owner = .done (.popped (some value)) := by
  have meets := storage.owner
  rw [atPc] at meets
  obtain ⟨rfl, bottom, tNonneg, _tLe, _tTop, filled⟩ := meets
  have back := storage.back_le
  have near := storage.bottom_near_back
  obtain ⟨value, valueEq⟩ := Option.ne_none_iff_exists'.mp (filled below)
  have loaded : (state.inner.heap state.inner.buffer).read b = some value := valueEq
  have more : wrappingSub b t > 0 := by
    rw [wrappingSub_of_range (by omega) (by omega)]
    omega
  have done : state.abstract.owner = .done (.popped (some value)) := by
    change state.owner.status state.inner = _
    rw [atPc]
    simp only [OwnerPc.status, if_pos below, loaded]
  have internal : ∀ after, Spec.Step state.worker.fifo state.abstract (.owner .loadCell) after →
      after = state.abstract := fun _after step => step.of_done done
  have moved : ChaseLev.ownerStep state.worker state.inner false state.owner =
      some (.loadCell, state.worker,
        perhapsShrink state.inner b t state.inner.buffer (some value)) := by
    rw [atPc]
    simp only [ChaseLev.ownerStep, if_pos more, loaded]
  simp only [perhapsShrink] at moved
  split at moved
  · have started := storage.quiet few logInitialCap moved rfl rfl internal
    obtain ⟨final, quiet, finished⟩ := finishes_copyFrom few _ started.storage rfl rfl
    exact ⟨final, value, started.trans quiet, finished, done⟩
  · exact ⟨_, value, storage.quiet few logInitialCap moved rfl rfl internal, rfl, done⟩

/-- For the last element the owner goes on to its compare-exchange. -/
theorem popLast_alone (storage : Storage pushes state) (few : pushes < 2 ^ 63)
    (logInitialCap : Nat) {b t : Int} {buf : BufferPtr}
    (atPc : state.owner = .popLoadCell b t buf) (last : ¬ t < b) :
    Quiet logInitialCap pushes state
      { state with owner := .popCasTop b t ((state.inner.heap buf).read b) } := by
  have meets := storage.owner
  rw [atPc] at meets
  obtain ⟨_buf, bottom, tNonneg, tLe, _tTop, _filled⟩ := meets
  have back := storage.back_le
  have near := storage.bottom_near_back
  have only : ¬ wrappingSub b t > 0 := by
    rw [wrappingSub_of_range (by omega) (by omega)]
    omega
  apply storage.quiet few logInitialCap _ rfl rfl
  · intro after step
    apply step.of_contesting
    change state.owner.status state.inner = _
    rw [atPc]
    simp only [OwnerPc.status, if_neg last]
  · rw [atPc]
    simp only [ChaseLev.ownerStep, if_neg only]

/-! ### The claim of a thief -/

/-- A thief runs inside its call, and what it does is internal. -/
structure ThiefQuiet (logInitialCap pushes : Nat) (thief : ι) (before after : State ι α) :
    Prop where
  run : ∃ labels, (system ι α false logInitialCap).Run before labels after ∧ calls labels = []
  storage : Storage pushes after
  owner : after.owner = before.owner
  worker : after.worker = before.worker
  others : ∀ other, other ≠ thief → after.thief other = before.thief other
  top : after.inner.top = before.inner.top
  bottom : after.inner.bottom = before.inner.bottom
  abstract : after.abstract = before.abstract

variable {thief : ι}

theorem ThiefQuiet.refl (storage : Storage pushes state) :
    ThiefQuiet logInitialCap pushes thief state state :=
  { run := ⟨[], .refl state, rfl⟩
    storage := storage
    owner := rfl
    worker := rfl
    others := fun _other _different => rfl
    top := rfl
    bottom := rfl
    abstract := rfl }

theorem ThiefQuiet.trans (first : ThiefQuiet logInitialCap pushes thief state middle)
    (second : ThiefQuiet logInitialCap pushes thief middle final) :
    ThiefQuiet logInitialCap pushes thief state final := by
  obtain ⟨labels, run, silent⟩ := first.run
  obtain ⟨more, further, stillSilent⟩ := second.run
  constructor
  · refine ⟨labels ++ more, run.append further, ?_⟩
    rw [calls_append, silent, stillSilent]
    rfl
  · exact second.storage
  · exact second.owner.trans first.owner
  · exact second.worker.trans first.worker
  · exact fun other different =>
      (second.others other different).trans (first.others other different)
  · exact second.top.trans first.top
  · exact second.bottom.trans first.bottom
  · exact second.abstract.trans first.abstract

theorem Storage.thiefAlone (storage : Storage pushes state) (few : pushes < 2 ^ 63)
    (logInitialCap : Nat) {pc pc' : StealPc α} (atPc : state.thief thief = .stealing pc)
    (moved : stealFrom state.inner pc = (access, inner, .running pc'))
    (early : access ≠ .loadBottom ∧ ∀ won, access ≠ .casTop won)
    (top : inner.top = state.inner.top) (bottom : inner.bottom = state.inner.bottom) :
    ThiefQuiet logInitialCap pushes thief state
      ({ state with inner := inner }.setThief thief (.stealing pc')) := by
  have advance := storage.thiefStep few atPc
  rw [moved] at advance
  constructor
  · refine ⟨[.thief thief access], .single ⟨.thief thief, ?_⟩, rfl⟩
    simp only [ChaseLev.next, atPc, moved]
    rfl
  · exact advance.storage
  · rfl
  · rfl
  · intro other different
    exact Function.update_of_ne different ..
  · exact top
  · exact bottom
  · exact advance.spec.of_stealing early

/-- Up to the compare-exchange. -/
theorem claim_alone (storage : Storage pushes state) (few : pushes < 2 ^ 63)
    (logInitialCap : Nat) {t : Int} (atPc : state.thief thief = .stealing (.addInFlight t)) :
    ∃ final boxed, ThiefQuiet logInitialCap pushes thief state final ∧
      final.thief thief = .stealing (.casTop t boxed) := by
  have entered := storage.thiefAlone few logInitialCap atPc rfl
    ⟨by decide, by intro won same; cases same⟩ rfl rfl
  have loaded := entered.storage.thiefAlone few logInitialCap (Function.update_self ..) rfl
    ⟨by decide, by intro won same; cases same⟩ rfl rfl
  have read := loaded.storage.thiefAlone few logInitialCap (Function.update_self ..) rfl
    ⟨by decide, by intro won same; cases same⟩ rfl rfl
  have left := read.storage.thiefAlone few logInitialCap (Function.update_self ..) rfl
    ⟨by decide, by intro won same; cases same⟩ rfl rfl
  exact ⟨_, _, entered.trans (loaded.trans (read.trans left)), Function.update_self ..⟩

end WsDeque.ChaseLev
