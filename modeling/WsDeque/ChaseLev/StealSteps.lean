import WsDeque.ChaseLev.ResizeSteps

/-
`steal_from` as a thief runs it and as a FIFO `pop` runs it: its outcomes on a
sound state, and the steps they make of the abstract deque.
-/

namespace WsDeque.ChaseLev

open MachineWord

variable {ι α : Type*} {pushes : Nat} {state : State ι α} [DecidableEq ι]

/-- The four things one step of `steal_from` can come to. -/
inductive StealCase (state : State ι α) (party : Option ι) (pc : StealPc α) :
    Access → Inner α → Outcome α → Prop
  | proceed (access : Access) (inFlight : Int) (pc' : StealPc α)
      (early : access ≠ .storeBottom ∧ ∀ won, access ≠ .casTop won)
      (step : IndexProtocol.Step state.protocol .silent
        { state.protocol with
          taker := Function.update state.protocol.taker party pc'.taker })
      (meets : ∀ unpublished, unpublished ≠ some state.inner.buffer →
        pc.Meets state.inner unpublished →
        pc'.Meets (state.inner.withReclaim state.inner.retired inFlight state.inner.freed)
          unpublished) :
      StealCase state party pc access
        (state.inner.withReclaim state.inner.retired inFlight state.inner.freed) (.running pc')
  | empty
      (nothing : state.protocol.live = [] ∨ ∃ index,
        state.protocol.live = [state.protocol.cell index] ∧
          (state.protocol.owner = .lowered index ∨ state.protocol.owner = .contending index)) :
      StealCase state party pc .loadBottom state.inner (.returned .empty)
  | success (value : α) (rest : List (Option α)) (front : state.protocol.live = some value :: rest)
      (inside : state.inner.top < state.back)
      (step : IndexProtocol.Step state.protocol (.taken (some value))
        { state.protocol with
          top := state.inner.top + 1
          taker := Function.update state.protocol.taker party .away }) :
      StealCase state party pc (.casTop true) { state.inner with top := state.inner.top + 1 }
        (.returned (.success value))
  | retry : StealCase state party pc (.casTop false) state.inner (.returned .retry)

theorem Storage.stealCase (storage : Storage pushes state) (few : pushes < 2 ^ 63)
    {party : Option ι} {pc : StealPc α} (held : state.protocol.taker party = pc.taker)
    {unpublished : Option BufferPtr} (met : pc.Meets state.inner unpublished) :
    StealCase state party pc (stealFrom state.inner pc).1 (stealFrom state.inner pc).2.1
      (stealFrom state.inner pc).2.2 := by
  have takerMet := storage.protocol.taker party
  rw [held] at takerMet
  have topNonneg := storage.window.topNonneg
  have back := storage.back_le
  have near := storage.bottom_near_back
  have topLe := storage.top_le_back
  cases pc with
  | loadTop =>
      exact .proceed .loadTop state.inner.inFlight (.loadBottom state.inner.top)
        ⟨by decide, fun won same => by cases same⟩ (.seeTop party)
        fun _unpublished _visible _met => topNonneg
  | loadBottom t =>
      change t ≤ state.inner.top at takerMet
      change 0 ≤ t at met
      have difference : wrappingSub state.inner.bottom t = state.inner.bottom - t :=
        wrappingSub_of_range (by omega) (by omega)
      by_cases drained : wrappingSub state.inner.bottom t ≤ 0
      · simp only [stealFrom, if_pos drained]
        exact .empty (storage.protocol.live_of_drained takerMet
          (show state.inner.bottom ≤ t by omega))
      · simp only [stealFrom, if_neg drained]
        exact .proceed .loadBottom state.inner.inFlight (.addInFlight t)
          ⟨by decide, fun won same => by cases same⟩
          (.enter party t held (show t < state.inner.bottom by omega))
          fun _unpublished _visible _met => trivial
  | addInFlight t =>
      exact .proceed .addInFlight (state.inner.inFlight + 1) (.loadBuffer t)
        ⟨by decide, fun won same => by cases same⟩ (.stay _ party held)
        fun _unpublished _visible _met => trivial
  | loadBuffer t =>
      exact .proceed .loadBuffer state.inner.inFlight (.loadCell t state.inner.buffer)
        ⟨by decide, fun won same => by cases same⟩ (.stay _ party held)
        fun _unpublished visible _met =>
          ⟨storage.window.bufferAllocated, visible, fun _current => rfl⟩
  | loadCell t bufPtr =>
      obtain ⟨older, _inside⟩ := takerMet
      refine .proceed .loadCell state.inner.inFlight
        (.subInFlight t ((state.inner.heap bufPtr).read t))
        ⟨by decide, fun won same => by cases same⟩ ?_
        fun _unpublished _visible _met => trivial
      have step : IndexProtocol.Step state.protocol _ _ := .read party t held
      by_cases current : t = state.inner.top
      · rw [show ((StealPc.subInFlight t ((state.inner.heap bufPtr).read t) : StealPc α).taker) =
          .holding t (state.protocol.cell t) from
          congrArg (IndexProtocol.Taker.holding t) (met.2.2 current)]
        exact step
      · exact .readOld party t _ held (fun same => current same.symm)
  | subInFlight t boxed =>
      exact .proceed .subInFlight (state.inner.inFlight - 1) (.casTop t boxed)
        ⟨by decide, fun won same => by cases same⟩ (.stay _ party held)
        fun _unpublished _visible _met => trivial
  | casTop t boxed =>
      by_cases current : state.inner.top = t
      · obtain ⟨inside, boxedEq⟩ := storage.protocol.top_lt_back_of_holding held current
        change t < state.back at inside
        obtain ⟨value, valueEq⟩ := Option.ne_none_iff_exists'.mp
          (storage.window.filled t (by omega) inside)
        have boxedSome : boxed = some value := boxedEq.trans valueEq
        subst boxedSome
        have next : wrappingAdd t 1 = state.inner.top + 1 := by
          rw [wrappingAdd_of_range (by omega) (by omega), current]
        simp only [stealFrom, if_pos current, takeOwnership, next]
        have step : IndexProtocol.Step state.protocol _ _ :=
          .take party t (some value) held current
        rw [← current] at step
        have applied := step.applies storage.protocol
        exact .success value _ applied (by omega) step
      · simp only [stealFrom, if_neg current]
        exact .retry

omit [DecidableEq ι] in
theorem Storage.buffer_published (storage : Storage pushes state) :
    state.owner.unpublished ≠ some state.inner.buffer := by
  have meets := storage.owner
  cases pc : state.owner with
  | resizing resize resizePc after =>
      rw [pc] at meets
      obtain ⟨placed, reached, _fits⟩ := meets
      have distinct := placed.distinct
      cases resizePc with
      | copyLoad k => exact fun same => distinct ((Option.some.inj same).trans reached.1)
      | copyStore k p => exact fun same => distinct ((Option.some.inj same).trans reached.1)
      | storeBuffer => exact fun same => distinct ((Option.some.inj same).trans reached.1)
      | _ => exact fun same => by cases same
  | _ => exact fun same => by cases same

/-! ### A thief moves -/

theorem ThiefPc.Meets.frame {inner inner' : Inner α} {unpublished unpublished' : Option BufferPtr}
    {pc : ThiefPc α} {back : Int} (met : pc.Meets inner unpublished)
    (entered : pc.taker.Meets inner.top back inner.active.read)
    (steal : ∀ pc', pc = .stealing pc' → pc'.Meets inner unpublished →
      pc'.taker.Meets inner.top back inner.active.read → pc'.Meets inner' unpublished') :
    pc.Meets inner' unpublished' := by
  cases pc with
  | stealing pc' => exact steal pc' rfl met entered
  | fault => exact met
  | _ => trivial

theorem Storage.thiefQuiet (storage : Storage pushes state) (thief : ι) (pc : ThiefPc α)
    (inFlight : Int)
    (step : IndexProtocol.Step state.protocol .silent
      { state.protocol with
        taker := Function.update state.protocol.taker (some thief) pc.taker })
    (meets : pc.Meets
      (state.inner.withReclaim state.inner.retired inFlight state.inner.freed)
      state.owner.unpublished) :
    Storage pushes
      ({ state with
        inner := state.inner.withReclaim state.inner.retired inFlight
          state.inner.freed }.setThief thief pc) := by
  have protocolSame : State.protocol
      ({ state with
        inner := state.inner.withReclaim state.inner.retired inFlight
          state.inner.freed }.setThief thief pc) =
      { state.protocol with
        taker := Function.update state.protocol.taker (some thief) pc.taker } := by
    unfold State.protocol State.setThief
    dsimp only
    rw [byParty_setThief]
    rfl
  have ownerMeets := storage.owner
  exact
    { window :=
        { topNonneg := storage.window.topNonneg
          powerOfTwo := storage.window.powerOfTwo
          room := storage.window.room
          filled := storage.window.filled
          bufferAllocated := storage.window.bufferAllocated }
      protocol := protocolSame ▸ step.invariant storage.protocol
      level := storage.level
      bound := storage.bound
      cachedNonneg := storage.cachedNonneg
      cachedLe := storage.cachedLe
      mode := storage.mode
      owner := by
        change state.owner.Meets _
        cases ownerPc : state.owner with
        | resizing resize resizePc after =>
            rw [ownerPc] at ownerMeets
            obtain ⟨placed, reached, fits⟩ := ownerMeets
            refine ⟨placed.withReclaim .., ?_, fits⟩
            cases resizePc <;> exact reached
        | popFifo fifoPc =>
            rw [ownerPc] at ownerMeets
            exact (StealPc.meets_withReclaim ..).mpr ownerMeets
        | _ =>
            rw [ownerPc] at ownerMeets
            exact ownerMeets
      thief := by
        intro other
        change (Function.update state.thief thief pc other).Meets _ state.owner.unpublished
        by_cases same : other = thief
        · subst same
          rw [Function.update_self]
          exact meets
        · rw [Function.update_of_ne same]
          exact (ThiefPc.meets_withReclaim ..).mpr (storage.thief other) }

omit [DecidableEq ι] in
/-- What the owner knows survives a claim at `top`. -/
theorem Storage.ownerMeets_advance (storage : Storage pushes state) :
    state.owner.Meets { state.inner with top := state.inner.top + 1 } := by
  have meets := storage.owner
  have entered := storage.protocol.taker none
  have protocolOwner := storage.protocol.owner
  simp only [State.protocol, byParty] at entered protocolOwner
  cases pc : state.owner with
  | resizing resize resizePc after =>
      rw [pc] at meets
      obtain ⟨placed, reached, fits⟩ := meets
      refine ⟨{ bottom := placed.bottom
                topNonneg := placed.topNonneg
                topLe := Int.le_trans placed.topLe (by dsimp only; omega)
                newAllocated := placed.newAllocated
                distinct := placed.distinct }, ?_, fits⟩
      cases resizePc <;> exact reached
  | pushStoreCell value b bufPtr =>
      rw [pc] at meets
      obtain ⟨bEq, bufEq, roomy⟩ := meets
      refine ⟨bEq, bufEq, ?_⟩
      change state.inner.bottom - (state.inner.top + 1) < (state.inner.active.cap : Int) - 1
      omega
  | pushStoreBottom value b =>
      rw [pc] at meets
      obtain ⟨bEq, stored, roomy⟩ := meets
      refine ⟨bEq, stored, ?_⟩
      change state.inner.bottom - (state.inner.top + 1) < (state.inner.active.cap : Int) - 1
      omega
  | popLoadCell b t bufPtr =>
      rw [pc] at meets
      obtain ⟨bufEq, bottomEq, tNonneg, tLe, tTop, filled⟩ := meets
      exact ⟨bufEq, bottomEq, tNonneg, tLe, by dsimp only; omega, filled⟩
  | popCasTop b t boxed =>
      rw [pc] at meets protocolOwner
      obtain ⟨rfl, _loaded⟩ := meets
      have contended : t ≤ state.inner.top := protocolOwner.2.1
      exact ⟨rfl, fun same => by dsimp only at same; omega⟩
  | popFifo fifoPc =>
      rw [pc] at meets entered
      exact StealPc.Meets.frame meets entered (Nat.le_refl _)
        (fun _bufPtr _known visible => visible) (by dsimp only; omega)
        (fun _bufPtr _known _visible same => by dsimp only at same; omega)
  | _ =>
      rw [pc] at meets
      exact meets

omit [DecidableEq ι] in
theorem Storage.window_advance (storage : Storage pushes state) :
    Window { state.inner with top := state.inner.top + 1 } state.back := by
  have topNonneg := storage.window.topNonneg
  have room := storage.window.room
  exact
    { topNonneg := by dsimp only; omega
      powerOfTwo := storage.window.powerOfTwo
      room := by
        change state.back - (state.inner.top + 1) ≤ (state.inner.active.cap : Int) - 1
        omega
      filled := fun index above below => by
        dsimp only at above
        exact storage.window.filled index (by omega) below
      bufferAllocated := storage.window.bufferAllocated }

omit [DecidableEq ι] in
theorem Storage.thiefMeets_advance (storage : Storage pushes state) (thief : ι) :
    (state.thief thief).Meets { state.inner with top := state.inner.top + 1 }
      state.owner.unpublished := by
  have entered := storage.protocol.taker (some thief)
  simp only [State.protocol, byParty] at entered
  refine (storage.thief thief).frame entered fun pc' _stealing met entered => ?_
  exact met.frame entered (Nat.le_refl _) (fun _bufPtr _known visible => visible)
    (by dsimp only; omega) (fun _bufPtr _known _visible same => by dsimp only at same; omega)

theorem Storage.thiefTake (storage : Storage pushes state) (thief : ι) (value : α)
    (inside : state.inner.top < state.back) {effect : IndexProtocol.Effect (Option α)}
    (step : IndexProtocol.Step state.protocol effect
      { state.protocol with
        top := state.inner.top + 1
        taker := Function.update state.protocol.taker (some thief) .away }) :
    Storage pushes
      ({ state with inner := { state.inner with top := state.inner.top + 1 } }.setThief thief
        (.returned (.success value))) := by
  have protocolSame : State.protocol
      ({ state with inner := { state.inner with top := state.inner.top + 1 } }.setThief thief
        (.returned (.success value))) =
      { state.protocol with
        top := state.inner.top + 1
        taker := Function.update state.protocol.taker (some thief) .away } := by
    unfold State.protocol State.setThief
    dsimp only
    rw [byParty_setThief]
    rfl
  have cachedLe := storage.cachedLe
  exact
    { window := storage.window_advance
      protocol := protocolSame ▸ step.invariant storage.protocol
      level := fun resting => by
        have backEq : state.back = state.inner.bottom := back_of_resting resting
        change state.inner.top + 1 ≤ state.inner.bottom
        omega
      bound := storage.bound
      cachedNonneg := storage.cachedNonneg
      cachedLe := by
        change state.worker.cachedTop ≤ state.inner.top + 1
        omega
      mode := storage.mode
      owner := storage.ownerMeets_advance
      thief := by
        intro other
        change (Function.update state.thief thief _ other).Meets _ state.owner.unpublished
        by_cases same : other = thief
        · subst same
          rw [Function.update_self]
          trivial
        · rw [Function.update_of_ne same]
          exact storage.thiefMeets_advance other }

/-! ### A FIFO pop moves -/

theorem Storage.fifoQuiet (storage : Storage pushes state) {pc : StealPc α}
    (atPc : state.owner = .popFifo pc) (owner : OwnerPc α) (inFlight : Int)
    (phase : owner.phase = .resting) (pending : owner.pendingPushes = 0)
    (unpublished : owner.unpublished = none) (mode : owner.Mode state.worker.fifo)
    (step : IndexProtocol.Step state.protocol .silent
      { state.protocol with taker := Function.update state.protocol.taker none owner.taker })
    (meets : owner.Meets
      (state.inner.withReclaim state.inner.retired inFlight state.inner.freed)) :
    Storage pushes
      { state with
        inner := state.inner.withReclaim state.inner.retired inFlight state.inner.freed
        owner := owner } := by
  have resting : state.owner.phase = .resting := by rw [atPc]; rfl
  have backSame : State.back
      { state with
        inner := state.inner.withReclaim state.inner.retired inFlight state.inner.freed
        owner := owner } = state.back := by
    unfold State.back
    rw [resting, phase]
    rfl
  have protocolSame : State.protocol
      { state with
        inner := state.inner.withReclaim state.inner.retired inFlight state.inner.freed
        owner := owner } =
      { state.protocol with taker := Function.update state.protocol.taker none owner.taker } := by
    unfold State.protocol
    dsimp only
    rw [← byParty_update_owner state.owner.taker, resting, phase]
    rfl
  have bound := storage.bound
  rw [atPc] at bound
  exact
    { window := by
        rw [backSame]
        exact
          { topNonneg := storage.window.topNonneg
            powerOfTwo := storage.window.powerOfTwo
            room := storage.window.room
            filled := storage.window.filled
            bufferAllocated := storage.window.bufferAllocated }
      protocol := protocolSame ▸ step.invariant storage.protocol
      level := fun _resting => storage.level resting
      bound := by
        rw [backSame]
        dsimp only
        rw [pending]
        exact bound
      cachedNonneg := storage.cachedNonneg
      cachedLe := storage.cachedLe
      mode := mode
      owner := meets
      thief := by
        intro thief
        have met := storage.thief thief
        rw [atPc] at met
        dsimp only
        rw [unpublished]
        exact (ThiefPc.meets_withReclaim ..).mpr met }

theorem Storage.fifoTake (storage : Storage pushes state) {pc : StealPc α}
    (atPc : state.owner = .popFifo pc) (value : α) (inside : state.inner.top < state.back)
    {effect : IndexProtocol.Effect (Option α)}
    (step : IndexProtocol.Step state.protocol effect
      { state.protocol with
        top := state.inner.top + 1
        taker := Function.update state.protocol.taker none .away }) :
    Storage pushes
      { state with
        inner := { state.inner with top := state.inner.top + 1 }
        owner := .returned (.popped (some value)) } := by
  have resting : state.owner.phase = .resting := by rw [atPc]; rfl
  have backSame : State.back
      { state with
        inner := { state.inner with top := state.inner.top + 1 }
        owner := .returned (.popped (some value)) } = state.back := by
    unfold State.back
    rw [resting]
    rfl
  have protocolSame : State.protocol
      { state with
        inner := { state.inner with top := state.inner.top + 1 }
        owner := .returned (.popped (some value)) } =
      { state.protocol with
        top := state.inner.top + 1
        taker := Function.update state.protocol.taker none .away } := by
    unfold State.protocol
    dsimp only
    rw [← byParty_update_owner state.owner.taker, resting]
    rfl
  have bound := storage.bound
  rw [atPc] at bound
  have cachedLe := storage.cachedLe
  exact
    { window := by
        rw [backSame]
        exact storage.window_advance
      protocol := protocolSame ▸ step.invariant storage.protocol
      level := fun _resting => by
        have backEq := back_of_resting resting
        change state.inner.top + 1 ≤ state.inner.bottom
        omega
      bound := by
        rw [backSame]
        exact bound
      cachedNonneg := storage.cachedNonneg
      cachedLe := by
        change state.worker.cachedTop ≤ state.inner.top + 1
        omega
      mode := trivial
      owner := trivial
      thief := fun thief => by
        have met := storage.thiefMeets_advance thief
        rw [atPc] at met
        exact met }

/-! ### The abstract deque -/

variable [Fintype ι]

omit [DecidableEq ι] in
theorem State.abstract_of_shared (shared : state.shared = true) :
    state.abstract =
      { items := state.protocol.live.reduceOption
        owner := state.owner.status state.inner
        thief := fun thief => (state.thief thief).status
        freed := state.inner.freedElements } := by
  simp only [State.abstract, shared, if_true]

omit [Fintype ι] in
theorem State.status_setThief (thieves : ι → ThiefPc α) (thief : ι) (pc : ThiefPc α) :
    (fun other => (Function.update thieves thief pc other).status) =
      Function.update (fun other => (thieves other).status) thief pc.status := by
  funext other
  by_cases same : other = thief
  · subst same
    simp
  · simp [Function.update_of_ne same]

/-- Across a thief step only the list and the thief's status change. -/
theorem State.abstract_thiefStep (inner : Inner α) (thief : ι) (pc : ThiefPc α)
    (sharedBefore : state.shared = true)
    (sharedAfter : ({ state with inner := inner }.setThief thief pc).shared = true)
    (heap : inner.heap = state.inner.heap)
    (freed : inner.freedElements = state.inner.freedElements) :
    State.abstract ({ state with inner := inner }.setThief thief pc) =
      { state.abstract with
        items := (State.protocol
          ({ state with inner := inner }.setThief thief pc)).live.reduceOption }.setThief thief
        pc.status := by
  rw [State.abstract_of_shared sharedBefore, State.abstract_of_shared sharedAfter]
  have status : state.owner.status inner = state.owner.status state.inner := by
    cases state.owner with
    | popLoadCell b t bufPtr => simp only [OwnerPc.status, heap]
    | resizing resize resizePc after => cases after <;> rfl
    | _ => rfl
  simp only [State.setThief, Spec.State.setThief, State.status_setThief, status, freed]

theorem State.abstract_thiefQuiet (inFlight : Int) (thief : ι) (pc : ThiefPc α)
    (sharedBefore : state.shared = true) (present : pc.isAbsent = false) :
    State.abstract
      ({ state with
        inner := state.inner.withReclaim state.inner.retired inFlight
          state.inner.freed }.setThief thief pc) = state.abstract.setThief thief pc.status := by
  rw [State.abstract_thiefStep
    (state.inner.withReclaim state.inner.retired inFlight state.inner.freed) thief pc
    sharedBefore (State.shared_setThief _ thief present) rfl rfl]
  have items : state.abstract.items = state.protocol.live.reduceOption := by
    rw [State.abstract_of_shared sharedBefore]
  congr 1
  ext1
  · exact items.symm
  · rfl
  · rfl
  · rfl

theorem Storage.thiefStep (storage : Storage pushes state) (few : pushes < 2 ^ 63)
    {thief : ι} {pc : StealPc α} (atPc : state.thief thief = .stealing pc) :
    Advance pushes state (.thief thief (stealFrom state.inner pc).1)
      ({ state with inner := (stealFrom state.inner pc).2.1 }.setThief thief
        (ThiefPc.afterOutcome (stealFrom state.inner pc).2.2)) := by
  have met := storage.thief thief
  rw [atPc] at met
  have held : state.protocol.taker (some thief) = pc.taker := by
    change (state.thief thief).taker = _
    rw [atPc]
    rfl
  have shared : state.shared = true := State.shared_of_thief thief (by rw [atPc]; rfl)
  have stealing : state.abstract.thief thief = .stealing := by
    change (state.thief thief).status = _
    rw [atPc]
    rfl
  have items : state.abstract.items = state.protocol.live.reduceOption := by
    rw [State.abstract_of_shared shared]
  have leave : IndexProtocol.Step state.protocol _ _ := .leave (some thief)
  have outcome := storage.stealCase few held met
  generalize (stealFrom state.inner pc).1 = access at outcome ⊢
  generalize (stealFrom state.inner pc).2.1 = inner at outcome ⊢
  generalize (stealFrom state.inner pc).2.2 = result at outcome ⊢
  cases outcome with
  | proceed access inFlight pc' early step meets =>
      refine ⟨storage.thiefQuiet thief (.stealing pc') inFlight step
        (meets _ storage.buffer_published met), ?_, rfl⟩
      have same : state.abstract.setThief thief (ThiefPc.stealing pc').status =
          state.abstract := by
        rw [Spec.State.setThief, ← show state.abstract.thief thief =
          (ThiefPc.stealing pc').status from stealing, Function.update_eq_self]
      rw [ThiefPc.afterOutcome, State.abstract_thiefQuiet inFlight thief _ shared rfl, same]
      exact .stealInternal thief access stealing early.2
  | empty nothing =>
      have quiet :=
        State.abstract_thiefQuiet state.inner.inFlight thief (.returned .empty) shared rfl
      refine ⟨storage.thiefQuiet thief (.returned .empty) state.inner.inFlight leave trivial,
        quiet ▸ ?_, rfl⟩
      refine .stealEmpty thief stealing ?_
      rw [items]
      rcases nothing with empty | ⟨index, single, contended⟩
      · left
        rw [empty]
        rfl
      · have backEq : state.protocol.back = index + 1 := by
          unfold IndexProtocol.State.back
          rcases contended with lowered | contending
          · rw [lowered]; rfl
          · rw [contending]; rfl
        have inside : state.inner.top < index + 1 := by
          have nonempty : state.protocol.live.length = 1 := by rw [single]; rfl
          simp only [IndexProtocol.State.live, WsDeque.window_length, backEq] at nonempty
          change (index + 1 - state.inner.top).toNat = 1 at nonempty
          omega
        obtain ⟨value, valueEq⟩ := Option.ne_none_iff_exists'.mp (storage.window.filled index
          (by omega) (by change index < state.protocol.back; omega))
        right
        refine ⟨value, ?_, ?_⟩
        · rw [single, show state.protocol.cell index = some value from valueEq]
          rfl
        · change state.owner.status state.inner = .contesting
          have phase : state.owner.phase = .lowered index ∨ state.owner.phase = .contending index :=
            contended
          cases ownerPc : state.owner with
          | popLoadCell b t bufPtr =>
              rw [ownerPc] at phase
              by_cases below : t < b
              · simp [OwnerPc.phase, below] at phase
              · simp only [OwnerPc.status, if_neg below]
          | popLoadTop b bufPtr => rfl
          | popCasTop b t boxed => rfl
          | _ =>
              rw [ownerPc] at phase
              simp [OwnerPc.phase] at phase
  | success value rest front inside step =>
      refine ⟨storage.thiefTake thief value inside step, ?_, rfl⟩
      rw [ThiefPc.afterOutcome,
        State.abstract_thiefStep { state.inner with top := state.inner.top + 1 } thief _ shared
          (State.shared_setThief _ thief rfl) rfl rfl]
      have applied := step.applies storage.protocol
      refine .stealFront thief value _ stealing ?_
      rw [items]
      change state.protocol.live = some value :: _ at applied
      rw [applied, List.reduceOption_cons_of_some]
      rfl
  | retry =>
      have quiet :=
        State.abstract_thiefQuiet state.inner.inFlight thief (.returned .retry) shared rfl
      refine ⟨storage.thiefQuiet thief (.returned .retry) state.inner.inFlight leave trivial,
        quiet ▸ ?_, rfl⟩
      exact .stealRetry thief stealing

end WsDeque.ChaseLev
