import WsDeque.ChaseLev.Refinement
import WsDeque.ChaseLev.Steps

/-
Calls, returns and handles, then the deque as a whole: the code refines the
abstract double-ended list along every run.
-/

namespace WsDeque.ChaseLev

open MachineWord

variable {ι α : Type*} {pushes : Nat} {state : State ι α}

/-! ### Dropping a handle -/

/-- The abstract state before a drop of the last handle frees anything. -/
def State.unreleased (state : State ι α) : Spec.State ι α :=
  { items := state.protocol.live.reduceOption
    owner := state.owner.status state.inner
    thief := fun thief => (state.thief thief).status
    freed := state.inner.freedElements }

theorem Storage.owner_present_iff (storage : Storage pushes state) :
    state.owner.status state.inner ≠ .dropped ↔ state.owner.isDropped = false := by
  have meets := storage.owner
  cases atPc : state.owner with
  | resizing resize pc after => cases after <;> simp [OwnerPc.status, OwnerPc.isDropped]
  | popLoadCell b t bufPtr =>
      by_cases below : t < b <;> simp [OwnerPc.status, OwnerPc.isDropped, below]
  | _ => simp [OwnerPc.status, OwnerPc.isDropped]

theorem Storage.thief_present_iff (storage : Storage pushes state) (thief : ι) :
    (state.thief thief).status ≠ .absent ↔ (state.thief thief).isAbsent = false := by
  have meets := storage.thief thief
  cases atPc : state.thief thief with
  | fault =>
      rw [atPc] at meets
      exact meets.elim
  | _ => simp [ThiefPc.status, ThiefPc.isAbsent]

variable [Fintype ι]

theorem Storage.shared_iff (storage : Storage pushes state) :
    state.unreleased.Shared ↔ state.shared = true := by
  simp only [Spec.State.Shared, State.unreleased, State.shared, decide_eq_true_eq,
    storage.owner_present_iff, storage.thief_present_iff]

/-- `Drop for Inner` frees the elements of the interval and nothing else. -/
theorem Inner.drop_freedElements {inner : Inner α} (level : inner.top ≤ inner.bottom)
    (topNonneg : 0 ≤ inner.top) (bottomSmall : inner.bottom < 2 ^ 63) :
    inner.drop.freedElements =
      inner.freedElements ++ (window inner.active.read inner.top inner.bottom).reduceOption := by
  have count : max (wrappingSub inner.bottom inner.top) 0 = inner.bottom - inner.top := by
    rw [wrappingSub_of_range (by omega) (by omega)]
    omega
  simp only [Inner.drop, count]
  congr 1
  simp only [window, List.reduceOption, List.filterMap_map]
  apply List.filterMap_congr
  intro offset inside
  have below := List.mem_range.mp inside
  rw [wrappingAdd_of_range (by omega) (by omega)]
  rfl

theorem Storage.release (storage : Storage pushes state) (few : pushes < 2 ^ 63) :
    Storage pushes state.release ∧ Spec.Released state.unreleased state.release.abstract := by
  unfold State.release
  by_cases shared : state.shared = true
  · rw [if_pos shared, State.abstract_of_shared shared]
    exact ⟨storage, .kept (storage.shared_iff.mpr shared)⟩
  · rw [if_neg shared]
    have gone : state.owner.isDropped = true ∧ ∀ thief, (state.thief thief).isAbsent = true := by
      simpa [State.shared, not_or] using shared
    have dropped : state.owner = .dropped := by
      have isDropped := gone.1
      cases atPc : state.owner with
      | dropped => rfl
      | _ =>
          rw [atPc] at isDropped
          cases isDropped
    have resting : state.owner.phase = .resting := by rw [dropped]; rfl
    have backEq := Storage.back_of_resting resting
    have bound := storage.back_le
    refine ⟨?_, ?_⟩
    · exact
        { window :=
            { topNonneg := storage.window.topNonneg
              powerOfTwo := storage.window.powerOfTwo
              room := storage.window.room
              filled := storage.window.filled
              bufferAllocated := storage.window.bufferAllocated }
          protocol := storage.protocol
          level := storage.level
          bound := storage.bound
          cachedNonneg := storage.cachedNonneg
          cachedLe := storage.cachedLe
          mode := storage.mode
          owner := by
            change state.owner.Meets _
            rw [dropped]
            trivial
          thief := by
            intro thief
            have absent := gone.2 thief
            change (state.thief thief).Meets _ _
            cases atPc : state.thief thief with
            | absent => trivial
            | _ =>
                rw [atPc] at absent
                cases absent }
    · have after : State.abstract { state with inner := state.inner.drop } =
          { state.unreleased with
            items := []
            freed := state.unreleased.freed ++ state.unreleased.items } := by
        have still : State.shared { state with inner := state.inner.drop } = false :=
          Bool.eq_false_iff.mpr shared
        simp only [State.abstract, still, Bool.false_eq_true, if_false, State.unreleased,
          State.protocol_live, backEq]
        rw [Inner.drop_freedElements (storage.level resting) storage.window.topNonneg (by omega),
          dropped]
        rfl
      rw [after]
      exact .freed fun present => shared (storage.shared_iff.mp present)

/-! ### Calls and returns -/

omit [Fintype ι] in
theorem Storage.ownerCall (storage : Storage pushes state) {pushes' : Nat} {owner : OwnerPc α}
    (phase : state.owner.phase = .resting) (phaseAfter : owner.phase = .resting)
    (taker : state.owner.taker = .away) (takerAfter : owner.taker = .away)
    (bound : state.back + owner.pendingPushes ≤ pushes')
    (unpublished : state.owner.unpublished = none) (unpublishedAfter : owner.unpublished = none)
    (mode : owner.Mode state.worker.fifo) (meets : owner.Meets state.inner) :
    Storage pushes' { state with owner := owner } :=
  storage.ownerQuiet state.inner.retired state.inner.inFlight state.inner.freed
    (phaseAfter.trans phase.symm) (takerAfter.trans taker.symm) bound
    (unpublishedAfter.trans unpublished.symm) storage.cachedNonneg storage.cachedLe mode meets

theorem State.abstract_ownerCall (owner : OwnerPc α) (present : state.owner.isDropped = false)
    (presentAfter : owner.isDropped = false) (phase : owner.phase = state.owner.phase) :
    State.abstract { state with owner := owner } =
      { state.abstract with owner := owner.status state.inner } :=
  State.abstract_ownerQuiet state.worker state.inner.retired state.inner.inFlight
    state.inner.freed present presentAfter phase

theorem State.abstract_owner {status : Spec.OwnerStatus α}
    (same : state.owner.status state.inner = status) : state.abstract.owner = status :=
  same

theorem State.abstract_thief {thief : ι} {status : Spec.ThiefStatus α}
    (same : (state.thief thief).status = status) : state.abstract.thief thief = status :=
  same

variable [DecidableEq ι]

omit [Fintype ι] in
/-- A thief outside a critical moment enters or leaves a call, or gets or drops
its handle. -/
theorem Storage.thiefCall (storage : Storage pushes state) (thief : ι) {pc : ThiefPc α}
    (taker : pc.taker = .away) (meets : pc.Meets state.inner state.owner.unpublished) :
    Storage pushes (state.setThief thief pc) := by
  have leave : IndexProtocol.Step state.protocol .silent
      { state.protocol with
        taker := Function.update state.protocol.taker (some thief) pc.taker } := by
    rw [taker]
    exact .leave (some thief)
  exact storage.thiefQuiet thief pc state.inner.inFlight leave meets

theorem State.abstract_thiefCall (thief : ι) {pc : ThiefPc α} (shared : state.shared = true)
    (present : pc.isAbsent = false) :
    State.abstract (state.setThief thief pc) = state.abstract.setThief thief pc.status :=
  State.abstract_thiefQuiet state.inner.inFlight thief pc shared present

/-- Every step of the deque, at any party. -/
theorem Storage.next (storage : Storage pushes state) {choice : Choice ι α} {label : Label ι α}
    {after : State ι α} (taken : ChaseLev.next state choice = some (label, after))
    (few : pushes + (Spec.pushed [label]).length < 2 ^ 63) :
    Advance (pushes + (Spec.pushed [label]).length) state label after := by
  cases next_moves taken with
  | pushCall value atPc =>
      have bound := storage.bound
      rw [atPc] at bound
      refine ⟨storage.ownerCall (by rw [atPc]; rfl) rfl (by rw [atPc]; rfl) rfl ?_
        (by rw [atPc]; rfl) rfl trivial trivial, ?_, rfl⟩
      · simp only [OwnerPc.pendingPushes, Spec.pushed, List.length_singleton] at bound ⊢
        omega
      · rw [State.abstract_ownerCall (.pushLoadBottom value) (by rw [atPc]; rfl) rfl
            (by rw [atPc]; rfl)]
        exact .pushCall value (State.abstract_owner (by rw [atPc]; rfl))
  | popCall atPc =>
      have bound := storage.bound
      have status : state.abstract.owner = .idle :=
        State.abstract_owner (by rw [atPc]; rfl)
      rw [atPc] at bound
      cases fifo : state.worker.fifo with
      | true =>
          refine ⟨storage.ownerCall (by rw [atPc]; rfl) rfl (by rw [atPc]; rfl) rfl bound
            (by rw [atPc]; rfl) rfl fifo trivial, ?_, rfl⟩
          rw [if_pos rfl, State.abstract_ownerCall (.popFifo .loadTop) (by rw [atPc]; rfl) rfl
            (by rw [atPc]; rfl)]
          exact .popCall status
      | false =>
          refine ⟨storage.ownerCall (by rw [atPc]; rfl) rfl (by rw [atPc]; rfl) rfl bound
            (by rw [atPc]; rfl) rfl fifo trivial, ?_, rfl⟩
          rw [if_neg Bool.false_ne_true,
            State.abstract_ownerCall .popLoadBottom (by rw [atPc]; rfl) rfl
            (by rw [atPc]; rfl)]
          exact .popCall status
  | owner spurious access worker inner pc stepped => exact storage.ownerStep few spurious stepped
  | ownerReturn result atPc =>
      have bound := storage.bound
      rw [atPc] at bound
      have silent : Spec.pushed [(Label.ownerReturn result : Label ι α)] = [] := rfl
      rw [silent]
      refine ⟨storage.ownerCall (by rw [atPc]; rfl) rfl (by rw [atPc]; rfl) rfl bound
        (by rw [atPc]; rfl) rfl trivial trivial, ?_, rfl⟩
      rw [State.abstract_ownerCall .idle (by rw [atPc]; rfl) rfl
            (by rw [atPc]; rfl)]
      exact .ownerReturn result (State.abstract_owner (by rw [atPc]; rfl))
  | stealCall thief atPc =>
      refine ⟨storage.thiefCall thief rfl trivial, ?_, rfl⟩
      rw [State.abstract_thiefCall thief (State.shared_of_thief thief (by rw [atPc]; rfl)) rfl]
      exact .stealCall thief (State.abstract_thief (by rw [atPc]; rfl))
  | thief thief pc atPc => exact storage.thiefStep few atPc
  | stealReturn thief result atPc =>
      have silent : Spec.pushed [Label.stealReturn thief result] = [] := rfl
      rw [silent]
      refine ⟨storage.thiefCall thief rfl trivial, ?_, rfl⟩
      rw [State.abstract_thiefCall thief (State.shared_of_thief thief (by rw [atPc]; rfl)) rfl]
      exact .stealReturn thief result (State.abstract_thief (by rw [atPc]; rfl))
  | newStealer thief atPc shared =>
      refine ⟨storage.thiefCall thief rfl trivial, ?_, rfl⟩
      rw [State.abstract_thiefCall thief shared rfl]
      refine .newStealer thief (State.abstract_thief (by rw [atPc]; rfl)) ?_
      rw [State.abstract_of_shared shared]
      exact storage.shared_iff.mpr shared
  | dropStealer thief atPc =>
      have shared : state.shared = true := State.shared_of_thief thief (by rw [atPc]; rfl)
      have stored : Storage pushes (state.setThief thief .absent) :=
        storage.thiefCall thief rfl trivial
      have unreleased : (state.setThief thief .absent).unreleased =
          state.abstract.setThief thief .absent := by
        rw [State.abstract_of_shared shared]
        simp only [State.unreleased, State.setThief, Spec.State.setThief,
          State.status_setThief]
        rfl
      obtain ⟨kept, released⟩ := stored.release few
      refine ⟨kept, ?_, ?_⟩
      · rw [unreleased] at released
        exact .dropStealer thief _ (State.abstract_thief (by rw [atPc]; rfl)) released
      · unfold State.release
        split <;> rfl
  | dropWorker atPc =>
      have bound := storage.bound
      rw [atPc] at bound
      have stored : Storage pushes { state with owner := .dropped } :=
        storage.ownerCall (by rw [atPc]; rfl) rfl (by rw [atPc]; rfl) rfl bound
          (by rw [atPc]; rfl) rfl trivial trivial
      have unreleased : State.unreleased { state with owner := .dropped } =
          { state.abstract with owner := .dropped } := by
        rw [State.abstract_of_owner (by rw [atPc]; rfl)]
        simp only [State.unreleased, State.protocol_live, State.back, atPc]
        rfl
      obtain ⟨kept, released⟩ := stored.release few
      refine ⟨kept, ?_, ?_⟩
      · rw [unreleased] at released
        exact .dropWorker _ (State.abstract_owner (by rw [atPc]; rfl)) released
      · unfold State.release
        split <;> rfl

/-! ### What the indices show -/

omit [DecidableEq ι] in
theorem Storage.items_length [DecidableEq ι] (storage : Storage pushes state)
    (shared : state.shared = true) :
    state.abstract.items.length = (state.back - state.inner.top).toNat := by
  rw [State.abstract_of_shared shared, State.protocol_live, List.reduceOption_length_eq_iff.mpr,
    window_length]
  intro cell member
  obtain ⟨index, above, below, same⟩ := mem_window.mp member
  rw [← same]
  exact Option.isSome_iff_ne_none.mpr (storage.window.filled index above below)

omit [Fintype ι] [DecidableEq ι] in
theorem OwnerPc.status_contesting_iff (inner : Inner α) (pc : OwnerPc α) :
    pc.status inner = .contesting ↔
      ∃ index, pc.phase = .lowered index ∨ pc.phase = .contending index := by
  cases pc with
  | popLoadTop b bufPtr => simp [OwnerPc.status, OwnerPc.phase]
  | popCasTop b t boxed => simp [OwnerPc.status, OwnerPc.phase]
  | popLoadCell b t bufPtr =>
      by_cases below : t < b
      · simp [OwnerPc.status, OwnerPc.phase, below]
      · simp [OwnerPc.status, OwnerPc.phase, below]
  | resizing resize pc after => cases after <;> simp [OwnerPc.status, OwnerPc.phase]
  | _ => simp [OwnerPc.status, OwnerPc.phase]

/-! ### Whole runs -/

omit [Fintype ι] [DecidableEq ι] in
theorem Storage.initial (fifo : Bool) (logInitialCap : Nat) :
    Storage 0 (withLogCapacity ι α fifo logInitialCap) := by
  have positive : 0 < 2 ^ (logInitialCap % 64) := Nat.two_pow_pos _
  exact
    { window :=
        { topNonneg := Int.le_refl 0
          powerOfTwo := fun _bufPtr => ⟨logInitialCap % 64, by omega, rfl⟩
          room := by
            change (0 : Int) - 0 ≤ ((2 ^ (logInitialCap % 64) : Nat) : Int) - 1
            omega
          filled := fun index above below =>
            absurd (Int.lt_of_le_of_lt above below) (Int.lt_irrefl 0)
          bufferAllocated := Nat.zero_lt_one }
      protocol :=
        { owner := trivial
          taker := fun party => by cases party <;> trivial }
      level := fun _resting => Int.le_refl 0
      bound := Int.le_refl 0
      cachedNonneg := Int.le_refl 0
      cachedLe := Int.le_refl 0
      mode := trivial
      owner := trivial
      thief := fun _thief => trivial }

/-- Nobody ever turns a null pointer into a box. -/
def State.Sound (state : State ι α) : Prop :=
  state.owner ≠ .fault ∧ ∀ thief, state.thief thief ≠ .fault

omit [Fintype ι] [DecidableEq ι] in
theorem Storage.sound (storage : Storage pushes state) : state.Sound := by
  constructor
  · intro faulty
    have meets := storage.owner
    rw [faulty] at meets
    exact meets
  · intro thief faulty
    have meets := storage.thief thief
    rw [faulty] at meets
    exact meets

/-! ### Handles that are kept -/

def Label.isDrop : Label ι α → Bool
  | .dropStealer _ | .dropWorker => true
  | _ => false

omit [Fintype ι] in
theorem Spec.Step.freed {fifo : Bool} {state final : Spec.State ι α} {label : Label ι α}
    (taken : Spec.Step fifo state label final) (kept : label.isDrop = false) :
    final.freed = state.freed := by
  cases taken with
  | dropStealer thief after idle released => cases kept
  | dropWorker after idle released => cases kept
  | _ => rfl

omit [Fintype ι] in
theorem Spec.freed_of_reaches {fifo : Bool} {labels : List (Label ι α)} {state : Spec.State ι α}
    (reached : (Spec.system ι α fifo).Reaches labels state)
    (kept : ∀ label ∈ labels, label.isDrop = false) : state.freed = [] := by
  obtain ⟨start, isInitial, run⟩ := reached
  induction run with
  | refl =>
      change start = _ at isInitial
      rw [isInitial]
      rfl
  | snoc _prior last ih =>
      rw [Spec.Step.freed last (kept _ (List.mem_append_right _ (List.mem_singleton_self _)))]
      exact ih fun label member => kept label (List.mem_append_left _ member)

/-- The run so far, as long as its pushes fit the signed index. -/
def Tracked (fifo : Bool) (labels : List (Label ι α)) (state : State ι α) : Prop :=
  (Spec.pushed labels).length < 2 ^ 63 →
    Storage (Spec.pushed labels).length state ∧ state.worker.fifo = fifo ∧
      (Spec.system ι α fifo).Reaches labels state.abstract

theorem tracked_of_reaches {fifo : Bool} {logInitialCap : Nat}
    {labels : List (Label ι α)} {state : State ι α}
    (reached : (system ι α fifo logInitialCap).Reaches labels state) :
    Tracked fifo labels state := by
  refine TransitionSystem.Reaches.induction ?_ ?_ reached
  · intro start isInitial _few
    change start = withLogCapacity ι α fifo logInitialCap at isInitial
    subst isInitial
    refine ⟨Storage.initial fifo logInitialCap, rfl, State.abstract _, ?_, .refl _⟩
    exact State.abstract_of_owner rfl
  · intro labels before label after _reached soFar stepped few
    obtain ⟨choice, taken⟩ := stepped
    rw [Spec.pushed_append, List.length_append] at few
    obtain ⟨storage, mode, spec⟩ := soFar (by omega)
    have advance := storage.next taken few
    rw [Spec.pushed_append, List.length_append]
    refine ⟨advance.storage, advance.fifo.trans mode, spec.snoc ?_⟩
    have moved := advance.spec
    rw [mode] at moved
    exact moved

/-- The code refines the abstract double-ended list, step by step and with the
same labels, and every element ends up in one place. -/
theorem worker_refines_deque {fifo : Bool} {logInitialCap : Nat}
    {labels : List (Label ι α)} {state : State ι α}
    (reached : (system ι α fifo logInitialCap).Reaches labels state)
    (few : (Spec.pushed labels).length < 2 ^ 63) :
    (Spec.system ι α fifo).Reaches labels state.abstract ∧
      Spec.Conserved labels state.abstract ∧ state.Sound := by
  obtain ⟨storage, _mode, spec⟩ := tracked_of_reaches reached few
  exact ⟨spec, Spec.conserved_of_reaches spec, storage.sound⟩

/-- One push, then one steal. -/
def pushThenSteal : List (Choice (Fin 1) Nat) :=
  [.pushCall 7, .owner false, .owner false, .owner false, .owner false, .ownerReturn,
    .newStealer 0, .stealCall 0, .thief 0, .thief 0, .thief 0, .thief 0, .thief 0, .thief 0,
    .thief 0, .stealReturn 0]

theorem worker_refines_deque_pushThenSteal :
    ∃ labels state, (system (Fin 1) Nat false 5).Reaches labels state ∧
      Spec.handedOut labels = [7] ∧
      (Spec.system (Fin 1) Nat false).Reaches labels state.abstract ∧
      Spec.Conserved labels state.abstract ∧ state.Sound := by
  have reached : (system (Fin 1) Nat false 5).Reaches _ _ :=
    ⟨_, rfl, TransitionSystem.execute_run pushThenSteal rfl⟩
  exact ⟨_, _, reached, rfl, worker_refines_deque reached (by decide)⟩

end WsDeque.ChaseLev
