import WsDeque.Inline.Twin

/-
Each step of the inline deque is matched by the boxed deque that it stands for,
and so is a step of the abstract deque.
-/

namespace WsDeque.Inline

open ChaseLev (Access Advance BufferPtr Label Resize Storage Worker)
open MachineWord

variable {ι α : Type*} [Fintype ι] [DecidableEq ι] {payload : Payload α} {pushes : Nat}
  {state : State ι α} {boxed : ChaseLev.State ι α} {access : Access} {inner : Inner}
  {cachedTop : Int} {owner : OwnerPc α} {spurious : Bool}

/-- What the boxed deque does while the owner takes one step here. -/
def Matched (payload : Payload α) (pushes : Nat) (boxed : ChaseLev.State ι α) (access : Access)
    (inner : Inner) (cachedTop : Int) (owner : OwnerPc α) : Prop :=
  ∃ boxedInner boxedOwner, inner.Stands payload boxedInner ∧ owner.Stands payload boxedOwner ∧
    Advance pushes boxed (.owner access)
      { boxed with
        inner := boxedInner
        worker := { boxed.worker with cachedTop := cachedTop }
        owner := boxedOwner }

/-- The boxed deque takes the step of its own code. -/
theorem matched_ownerStep (storage : Storage pushes boxed) (few : pushes < 2 ^ 63)
    (cachedTop : Int) (boxedInner : ChaseLev.Inner α) (boxedOwner : ChaseLev.OwnerPc α)
    (moved : ChaseLev.ownerStep boxed.worker boxed.inner false boxed.owner =
      some (access, { boxed.worker with cachedTop := cachedTop }, boxedInner, boxedOwner))
    (innerStands : inner.Stands payload boxedInner)
    (ownerStands : owner.Stands payload boxedOwner) :
    Matched payload pushes boxed access inner cachedTop owner :=
  ⟨boxedInner, boxedOwner, innerStands, ownerStands, storage.ownerStep few false moved⟩

/-! ### `push` -/

/-- The doubled capacity, and at least the minimal one. -/
theorem grown_cap {exponent : Nat} (small : exponent ≤ 62) :
    max (asUsize (wrap (asIsize (2 ^ exponent) * 2))) minCapacity =
      2 ^ max (exponent + 1) 4 := by
  have bound : 2 ^ exponent ≤ 2 ^ 62 := Nat.pow_le_pow_right (by decide) small
  have doubled : asUsize (wrap (asIsize (2 ^ exponent) * 2)) = 2 ^ (exponent + 1) := by
    rw [Nat.pow_succ]
    unfold asUsize asIsize wrap
    omega
  rw [doubled]
  rcases Nat.le_total (exponent + 1) 4 with few | many
  · have least : 2 ^ (exponent + 1) ≤ 2 ^ 4 := Nat.pow_le_pow_right (by decide) few
    rw [Nat.max_eq_right few]
    exact Nat.max_eq_right least
  · have least : 2 ^ 4 ≤ 2 ^ (exponent + 1) := Nat.pow_le_pow_right (by decide) many
    rw [Nat.max_eq_left many]
    exact Nat.max_eq_left least

/-- The boxed deque takes a buffer of the size chosen here. -/
theorem matched_grow (storage : Storage pushes boxed) (few : pushes < 2 ^ 63)
    {stored : Inner} (innerStands : stored.Stands payload boxed.inner) {value : α} {t : Int}
    (early : access ≠ .storeBottom)
    (phase : boxed.owner.phase = .resting) (taker : boxed.owner.taker = .away)
    (unpublished : boxed.owner.unpublished = none) (pending : boxed.owner.pendingPushes = 1)
    (status : boxed.owner.status boxed.inner = .pushing value)
    (present : boxed.owner.isDropped = false)
    (cachedNonneg : 0 ≤ cachedTop) (cachedLe : cachedTop ≤ boxed.inner.top)
    (tNonneg : 0 ≤ t) (tLe : t ≤ boxed.inner.top)
    (current : t = boxed.inner.top ∨
      mightBeFull stored stored.buffer stored.bottom t = false) :
    Matched payload pushes boxed access
      (pushGrowOrStore stored value stored.bottom stored.buffer t).1 cachedTop
      (pushGrowOrStore stored value stored.bottom stored.buffer t).2 := by
  have level := storage.level phase
  have bound := storage.bound
  rw [Storage.back_of_resting phase, pending] at bound
  have room := storage.window.room
  rw [Storage.back_of_resting phase] at room
  obtain ⟨exponent, small, capEq⟩ := storage.window.powerOfTwo boxed.inner.buffer
  have cap : (boxed.inner.heap boxed.inner.buffer).cap =
      (stored.heap stored.buffer).cap := by
    rw [innerStands.buffer]
    exact (innerStands.heap stored.buffer).cap
  have sameFull := innerStands.mightBeFull stored.buffer stored.bottom t
  have full := ChaseLev.mightBeFull_iff (b := boxed.inner.bottom) (t := t) small capEq (by omega)
    (by omega)
  rw [innerStands.bottom, innerStands.buffer, sameFull] at full
  unfold pushGrowOrStore
  by_cases grows : mightBeFull stored stored.buffer stored.bottom t = true
  · have topNow : t = boxed.inner.top := current.resolve_right (by rw [grows]; decide)
    have crowded := full.mp grows
    rw [← innerStands.buffer, ← innerStands.bottom] at crowded
    have smaller : exponent < 63 := by
      apply (Nat.pow_lt_pow_iff_right (by decide : 1 < 2)).mp
      rw [← capEq]
      omega
    have active : boxed.inner.active.cap = 2 ^ exponent := capEq
    rw [if_pos grows, ← cap, capEq, grown_cap (Nat.le_of_lt_succ smaller)]
    have wide : 2 ^ (exponent + 1) ≤ 2 ^ max (exponent + 1) 4 :=
      Nat.pow_le_pow_right (by decide) (Nat.le_max_left ..)
    have roomy : boxed.inner.bottom - t < ((2 ^ max (exponent + 1) 4 : Nat) : Int) - 1 := by
      have positive := Nat.two_pow_pos exponent
      rw [active] at room
      rw [Nat.pow_succ] at wide
      omega
    have grown := storage.grow few { boxed.worker with cachedTop := cachedTop } access early phase
      taker pending status present rfl cachedNonneg cachedLe tNonneg tLe
      (show max (exponent + 1) 4 ≤ 63 by omega) roomy
    have started := startResize_stands innerStands stored.buffer (2 ^ max (exponent + 1) 4)
      stored.bottom t (.push value stored.bottom)
    rw [innerStands.bottom, innerStands.buffer] at grown
    exact ⟨_, _, started.1, started.2, grown⟩
  · have roomy : ChaseLev.mightBeFull boxed.inner boxed.inner.buffer boxed.inner.bottom t ≠
        true := by
      rw [innerStands.bottom, innerStands.buffer, sameFull]
      exact grows
    have kept := storage.pushGrowOrStore few { boxed.worker with cachedTop := cachedTop } access
      early phase taker unpublished pending status present rfl cachedNonneg cachedLe tNonneg tLe
      (Or.inr (Bool.eq_false_iff.mpr roomy))
    unfold ChaseLev.pushGrowOrStore at kept
    rw [if_neg roomy] at kept
    rw [if_neg grows]
    refine ⟨_, _, innerStands, ?_, kept⟩
    rw [innerStands.bottom, innerStands.buffer]
    exact .pushStoreCell ..

/-! ### Replacing the buffer -/

theorem withReclaim_stands {boxedInner : ChaseLev.Inner α}
    (stands : inner.Stands payload boxedInner) (retired : List BufferPtr)
    (boxedRetired : List BufferPtr) (inFlight : Int) (freed : List BufferPtr) :
    Inner.Stands payload { inner with retired := retired }
      (boxedInner.withReclaim boxedRetired inFlight freed) :=
  { bottom := stands.bottom
    top := stands.top
    buffer := stands.buffer
    allocated := stands.allocated
    heap := stands.heap
    freed := stands.freed }

theorem finishResize_stands (resize : Resize) {after : After α} {boxedAfter : ChaseLev.After α}
    (same : after.Stands payload boxedAfter) {bottom top : Int} {cap : Nat}
    (fits : boxedAfter.Fits bottom top cap) :
    (finishResize payload resize after).Stands payload
      (ChaseLev.finishResize resize boxedAfter) := by
  cases same with
  | push value b => exact .pushStoreCell value b resize.new
  | @pop bits boxed same =>
      obtain ⟨value, rfl⟩ := Option.ne_none_iff_exists'.mp fits.1
      have result : finishResize payload resize (.pop bits) =
          .returned (.popped (some value)) := by
        simp only [finishResize, same.fromBits]
      rw [result]
      exact .returned _

theorem matched_resize (storage : Storage pushes boxed) (few : pushes < 2 ^ 63)
    (stands : state.Stands payload boxed) {resize : Resize} {pc : ResizePc} {after : After α}
    (atPc : state.owner = .resizing resize pc after)
    (taken : ownerStep payload state.inner state.cachedTop spurious
      (.resizing resize pc after) = some (access, inner, cachedTop, owner)) :
    Matched payload pushes boxed access inner cachedTop owner := by
  have innerStands := stands.inner
  have ownerStands := stands.owner
  have cached := stands.cachedTop
  have meets := storage.owner
  rw [atPc] at ownerStands
  generalize boxedAt : boxed.owner = boxedPc at ownerStands meets
  cases ownerStands with
  | @resizing _ pc boxedPc after boxedAfter samePc sameAfter =>
      obtain ⟨_placed, _reached, fits⟩ := meets
      cases samePc with
      | copyLoad k =>
          cases taken
          have read := (innerStands.heap resize.old).read (wrappingAdd resize.top k)
          apply matched_ownerStep storage few _ _ _ _ innerStands
            (.resizing resize (.copyStore k read) sameAfter)
          rw [boxedAt, ← cached]
          rfl
      | copyStore k same =>
          cases taken
          have written := innerStands.write resize.new (wrappingAdd resize.top k) same
          apply matched_ownerStep storage few _ _ _ _ written
            (.resizing resize (copyFrom_stands resize (k + 1)) sameAfter)
          rw [boxedAt, ← cached]
          rfl
      | storeBuffer =>
          cases taken
          have installed : Inner.Stands payload { state.inner with buffer := resize.new }
              { boxed.inner with buffer := resize.new } := { innerStands with buffer := rfl }
          apply matched_ownerStep storage few _ _ _ _ installed
            (.resizing resize .loadRetired sameAfter)
          rw [boxedAt, ← cached]
          rfl
      | loadRetired =>
          cases taken
          apply matched_ownerStep storage few _ _ _ _ innerStands
            (.resizing resize (.casRetired _ boxed.inner.retired) sameAfter)
          rw [boxedAt, ← cached]
          rfl
      | casRetired head boxedHead =>
          simp only [ownerStep, resizeStep] at taken
          by_cases won : spurious = false ∧ state.inner.retired = head
          · -- The boxed deque is taken past its attempt to reclaim.
            simp only [if_pos won] at taken
            cases taken
            have finished := storage.resizeFinish (.casRetired true) boxed.inner.retired
              boxed.inner.freed boxedAt (by decide) (by rw [boxedAt]; rfl) id
            refine ⟨_, _, withReclaim_stands innerStands _ boxed.inner.retired
                boxed.inner.inFlight boxed.inner.freed,
              finishResize_stands resize sameAfter fits, ?_⟩
            rw [← cached]
            exact finished
          · simp only [if_neg won] at taken
            cases taken
            have hidden : (ChaseLev.OwnerPc.resizing resize .loadRetired boxedAfter).unpublished =
                boxed.owner.unpublished := by
              rw [boxedAt]
              rfl
            have again := storage.resizeQuiet (.casRetired false) boxed.inner.retired
              boxed.inner.freed boxedAt (by decide) hidden id
            refine ⟨_, _, withReclaim_stands innerStands _ boxed.inner.retired
                boxed.inner.inFlight boxed.inner.freed,
              .resizing resize .loadRetired sameAfter, ?_⟩
            rw [← cached]
            exact again

/-! ### The owner -/

omit [Fintype ι] [DecidableEq ι] in
/-- After the load of the back element the pop is over, or the buffer shrinks. -/
theorem perhapsShrink_stands (stands : inner.Stands payload boxed.inner) (b t : Int)
    (buf : BufferPtr) {bits : Bits} {value : α}
    (same : Stands payload bits (some value)) :
    (perhapsShrink payload inner b t buf bits).1.Stands payload
        (ChaseLev.perhapsShrink boxed.inner b t buf (some value)).1 ∧
      (perhapsShrink payload inner b t buf bits).2.Stands payload
        (ChaseLev.perhapsShrink boxed.inner b t buf (some value)).2 := by
  have cap := (stands.heap buf).cap
  have sizes : ChaseLev.minCapacity = minCapacity := rfl
  have factors : ChaseLev.shrinkFactor = shrinkFactor := rfl
  unfold perhapsShrink ChaseLev.perhapsShrink
  simp only [cap, sizes, factors]
  split
  · exact startResize_stands stands buf _ b t (.pop same)
  · refine ⟨stands, ?_⟩
    rw [same.fromBits]
    exact .returned _

theorem State.Stands.owner_step (stands : state.Stands payload boxed)
    (storage : Storage pushes boxed) (few : pushes < 2 ^ 63)
    (taken : ownerStep payload state.inner state.cachedTop spurious state.owner =
      some (access, inner, cachedTop, owner)) :
    Matched payload pushes boxed access inner cachedTop owner := by
  have innerStands := stands.inner
  have ownerStands := stands.owner
  have cached := stands.cachedTop
  have meets := storage.owner
  generalize atPc : state.owner = pc at taken ownerStands
  generalize boxedAt : boxed.owner = boxedPc at ownerStands meets
  cases ownerStands with
  | idle => cases taken
  | returned result => cases taken
  | resizing resize samePc sameAfter => exact matched_resize storage few stands atPc taken
  | pushLoadBottom value =>
      cases taken
      rw [← innerStands.bottom]
      apply matched_ownerStep storage few _ _ _ _ innerStands (.pushLoadBuffer value _)
      rw [boxedAt, ← cached]
      rfl
  | pushLoadBuffer value b =>
      have bottom : b = state.inner.bottom := meets.trans innerStands.bottom
      subst bottom
      simp only [ownerStep] at taken
      split at taken
      · rename_i full
        cases taken
        rw [← innerStands.buffer]
        apply matched_ownerStep storage few _ _ _ _ innerStands (.pushLoadTop value _ _)
        have boxedFull : ChaseLev.mightBeFull boxed.inner boxed.inner.buffer
            state.inner.bottom boxed.worker.cachedTop = true := by
          rw [innerStands.mightBeFull, innerStands.buffer, cached]
          exact full
        rw [boxedAt, ← cached]
        simp only [ChaseLev.ownerStep, boxedFull, if_true]
      · rename_i roomy
        cases taken
        exact matched_grow storage few innerStands (by decide) (by rw [boxedAt]; rfl)
          (by rw [boxedAt]; rfl) (by rw [boxedAt]; rfl) (by rw [boxedAt]; rfl)
          (by rw [boxedAt]; rfl) (by rw [boxedAt]; rfl)
          (cached ▸ storage.cachedNonneg) (cached ▸ storage.cachedLe)
          (cached ▸ storage.cachedNonneg) (cached ▸ storage.cachedLe)
          (Or.inr (Bool.eq_false_iff.mpr roomy))
  | pushLoadTop value b buf =>
      obtain ⟨bottom, buffer⟩ := meets
      have sameBottom : b = state.inner.bottom := bottom.trans innerStands.bottom
      have sameBuffer : buf = state.inner.buffer := buffer.trans innerStands.buffer
      subst sameBottom sameBuffer
      have topNonneg := storage.window.topNonneg
      cases taken
      rw [← innerStands.top]
      exact matched_grow storage few innerStands (by decide) (by rw [boxedAt]; rfl)
        (by rw [boxedAt]; rfl) (by rw [boxedAt]; rfl) (by rw [boxedAt]; rfl)
        (by rw [boxedAt]; rfl) (by rw [boxedAt]; rfl) topNonneg (Int.le_refl _) topNonneg
        (Int.le_refl _) (Or.inl rfl)
  | pushStoreCell value b buf =>
      cases taken
      have written := innerStands.write buf b (stands_toBits value)
      apply matched_ownerStep storage few _ _ _ _ written (.pushStoreBottom value b)
      rw [boxedAt, ← cached]
      rfl
  | pushStoreBottom value b =>
      cases taken
      have raised : Inner.Stands payload { state.inner with bottom := wrappingAdd b 1 }
          { boxed.inner with bottom := wrappingAdd b 1 } := { innerStands with bottom := rfl }
      apply matched_ownerStep storage few _ _ _ _ raised (.returned .pushed)
      rw [boxedAt, ← cached]
      rfl
  | popLoadBottom =>
      cases taken
      rw [← innerStands.bottom]
      apply matched_ownerStep storage few _ _ _ _ innerStands (.popLoadBuffer _)
      rw [boxedAt, ← cached]
      rfl
  | popLoadBuffer b =>
      cases taken
      rw [← innerStands.buffer]
      apply matched_ownerStep storage few _ _ _ _ innerStands (.popStoreBottom b _)
      rw [boxedAt, ← cached]
      rfl
  | popStoreBottom b buf =>
      cases taken
      have lowered : Inner.Stands payload { state.inner with bottom := b }
          { boxed.inner with bottom := b } := { innerStands with bottom := rfl }
      apply matched_ownerStep storage few _ _ _ _ lowered (.popLoadTop b buf)
      rw [boxedAt, ← cached]
      rfl
  | popLoadTop b buf =>
      cases taken
      rw [← innerStands.top]
      split
      · rename_i drained
        apply matched_ownerStep storage few _ _ _ _ innerStands (.popRestoreBottom b _)
        rw [boxedAt, ← cached]
        simp only [ChaseLev.ownerStep, if_pos drained]
      · rename_i more
        apply matched_ownerStep storage few _ _ _ _ innerStands (.popLoadCell b _ buf)
        rw [boxedAt, ← cached]
        simp only [ChaseLev.ownerStep, if_neg more]
  | popRestoreBottom b t =>
      cases taken
      have restored : Inner.Stands payload { state.inner with bottom := t }
          { boxed.inner with bottom := t } := { innerStands with bottom := rfl }
      apply matched_ownerStep storage few _ _ _ _ restored (.returned _)
      rw [boxedAt, ← cached]
      rfl
  | popLoadCell b t buf =>
      have read := (innerStands.heap buf).read b
      obtain ⟨atBuffer, bottom, tNonneg, tLe, _tTop, filled⟩ := meets
      have few' := storage.back_le
      have near := storage.bottom_near_back
      simp only [ownerStep] at taken
      split at taken
      · rename_i more
        cases taken
        have below : t < b := by
          rw [wrappingSub_of_range (by omega) (by omega)] at more
          omega
        obtain ⟨value, valueEq⟩ := Option.ne_none_iff_exists'.mp (filled below)
        have loaded : (boxed.inner.heap buf).read b = some value := by
          rw [atBuffer]
          exact valueEq
        rw [loaded] at read
        have shrunk := perhapsShrink_stands innerStands b t buf read
        apply matched_ownerStep storage few _ _ _ _ shrunk.1 shrunk.2
        rw [boxedAt, ← cached]
        simp only [ChaseLev.ownerStep, if_pos more, loaded]
      · rename_i last
        cases taken
        apply matched_ownerStep storage few _ _ _ _ innerStands (.popCasTop b t read)
        rw [boxedAt, ← cached]
        simp only [ChaseLev.ownerStep, if_neg last]
  | popCasTop b t same =>
      simp only [ownerStep] at taken
      split at taken
      · rename_i current
        cases taken
        have advanced : Inner.Stands payload { state.inner with top := wrappingAdd t 1 }
            { boxed.inner with top := wrappingAdd t 1 } := { innerStands with top := rfl }
        apply matched_ownerStep storage few _ _ _ _ advanced (.popSettleBottom b t true same)
        rw [boxedAt, ← cached]
        simp only [ChaseLev.ownerStep, if_pos (innerStands.top.trans current)]
      · rename_i moved
        cases taken
        have boxedMoved : boxed.inner.top ≠ t := by
          rw [innerStands.top]
          exact moved
        apply matched_ownerStep storage few _ _ _ _ innerStands (.popSettleBottom b t false same)
        rw [boxedAt, ← cached]
        simp only [ChaseLev.ownerStep, if_neg boxedMoved]
  | @popSettleBottom b t bits taker won same =>
      obtain ⟨_last, there⟩ := meets
      cases taken
      have settled : Inner.Stands payload { state.inner with bottom := wrappingAdd t 1 }
          { boxed.inner with bottom := wrappingAdd t 1 } := { innerStands with bottom := rfl }
      cases won with
      | false =>
          apply matched_ownerStep storage few _ _ _ _ settled (.returned _)
          rw [boxedAt, ← cached]
          rfl
      | true =>
          obtain ⟨value, rfl⟩ := Option.ne_none_iff_exists'.mp (there rfl)
          simp only [if_true, same.fromBits]
          apply matched_ownerStep storage few _ _ _ _ settled (.returned _)
          rw [boxedAt, ← cached]
          rfl

/-! ### The thieves -/

/-- The boxed deque may also enter or leave its bracket. -/
theorem advance_bracket {label : Label ι α} {thief : ι} {between after : ChaseLev.State ι α}
    (first : Advance pushes boxed label between)
    (second : Advance pushes between (.thief thief access) after)
    (bracket : access = .addInFlight ∨ access = .subInFlight) :
    Advance pushes boxed label after := by
  have same : after.abstract = between.abstract := by
    rcases bracket with rfl | rfl
    · exact second.spec.of_stealing ⟨by decide, by intro won same; cases same⟩
    · exact second.spec.of_stealing ⟨by decide, by intro won same; cases same⟩
  exact
    { storage := second.storage
      spec := same ▸ first.spec
      fifo := second.fifo.trans first.fifo }

omit [Fintype ι] in
theorem setThief_setThief (boxed : ChaseLev.State ι α) (before inner : ChaseLev.Inner α)
    (thief : ι) (first second : ChaseLev.ThiefPc α) :
    ({ ({ boxed with inner := before }.setThief thief first) with
        inner := inner }.setThief thief second) =
      { boxed with inner := inner }.setThief thief second := by
  simp only [ChaseLev.State.setThief, Function.update_idem]

theorem State.Stands.thief_step (stands : state.Stands payload boxed)
    (storage : Storage pushes boxed) (few : pushes < 2 ^ 63) {thief : ι} {pc : ThiefPc α}
    (taken : thiefStep payload state.inner (state.thief thief) = some (access, inner, pc)) :
    ∃ boxedInner boxedPc, inner.Stands payload boxedInner ∧ pc.Stands payload boxedPc ∧
      Advance pushes boxed (.thief thief access)
        ({ boxed with inner := boxedInner }.setThief thief boxedPc) := by
  have innerStands := stands.inner
  have thiefStands := stands.thief thief
  have protocol := storage.protocol.taker (some thief)
  generalize atPc : state.thief thief = before at taken thiefStands
  generalize boxedAt : boxed.thief thief = boxedBefore at thiefStands
  cases thiefStands with
  | absent => cases taken
  | idle => cases taken
  | returned result => cases taken
  | loadTop =>
      cases taken
      have advance := storage.thiefStep few boxedAt
      rw [← innerStands.top]
      exact ⟨_, _, innerStands, .loadBottom _, advance⟩
  | loadBottom t =>
      cases taken
      have advance := storage.thiefStep few boxedAt
      rw [← innerStands.bottom]
      simp only [ChaseLev.stealFrom] at advance
      by_cases drained : wrappingSub boxed.inner.bottom t ≤ 0
      · rw [if_pos drained] at advance ⊢
        exact ⟨_, _, innerStands, .returned .empty, advance⟩
      · rw [if_neg drained] at advance ⊢
        have at_bracket : (boxed.setThief thief (.stealing (.addInFlight t))).thief thief =
            .stealing (.addInFlight t) := Function.update_self ..
        have entered := advance.storage.thiefStep few at_bracket
        have both := advance_bracket advance entered (Or.inl rfl)
        rw [setThief_setThief] at both
        have counted : state.inner.Stands payload
            { boxed.inner with inFlight := boxed.inner.inFlight + 1 } := { innerStands with }
        exact ⟨_, .stealing (.loadBuffer t), counted, .loadBuffer t, both⟩
  | loadBuffer t =>
      cases taken
      have advance := storage.thiefStep few boxedAt
      rw [← innerStands.buffer]
      exact ⟨_, _, innerStands, .loadCell t _, advance⟩
  | loadCell t buf =>
      cases taken
      have read := (innerStands.heap buf).read t
      have advance := storage.thiefStep few boxedAt
      have at_bracket : (boxed.setThief thief
          (.stealing (.subInFlight t ((boxed.inner.heap buf).read t)))).thief thief =
            .stealing (.subInFlight t ((boxed.inner.heap buf).read t)) := Function.update_self ..
      have left := advance.storage.thiefStep few at_bracket
      have both := advance_bracket advance left (Or.inr rfl)
      rw [setThief_setThief] at both
      have counted : state.inner.Stands payload
          { boxed.inner with inFlight := boxed.inner.inFlight - 1 } := { innerStands with }
      exact ⟨_, .stealing (.casTop t _), counted, .casTop t read, both⟩
  | @casTop t bits taker same =>
      have advance := storage.thiefStep few boxedAt
      have held : boxed.protocol.taker (some thief) = .holding t taker := by
        change (boxed.thief thief).taker = _
        rw [boxedAt]
        rfl
      simp only [thiefStep] at taken
      split at taken
      · rename_i current
        cases taken
        have boxedCurrent : boxed.inner.top = t := innerStands.top.trans current
        obtain ⟨inside, loaded⟩ := storage.protocol.top_lt_back_of_holding held boxedCurrent
        obtain ⟨value, valueEq⟩ := Option.ne_none_iff_exists'.mp
          (storage.window.filled t (Int.le_of_eq boxedCurrent) inside)
        have there : taker = some value := loaded.trans valueEq
        subst there
        rw [same.fromBits]
        simp only [ChaseLev.stealFrom, if_pos boxedCurrent, ChaseLev.takeOwnership] at advance
        have taken : Inner.Stands payload { state.inner with top := wrappingAdd t 1 }
            { boxed.inner with top := wrappingAdd t 1 } := { innerStands with top := rfl }
        exact ⟨_, _, taken, .returned (.success value), advance⟩
      · rename_i moved
        cases taken
        have boxedMoved : boxed.inner.top ≠ t := by
          rw [innerStands.top]
          exact moved
        simp only [ChaseLev.stealFrom, if_neg boxedMoved] at advance
        exact ⟨_, _, innerStands, .returned .retry, advance⟩

end WsDeque.Inline
