import WsDeque.Inline.Refinement

/-
Whatever the inline deque returns, a boxed deque of any initial capacity can
return in the same calls: its owner goes through a `push` when this one stores
`bottom`, and its thief through a claim when this one exchanges `top`.
-/

namespace WsDeque.Inline

open ChaseLev (Access Bursts Label Storage ThiefQuiet calls)
open MachineWord

variable {ι α : Type*} (payload : Payload α)

/-- The pop has its result and still has to put `bottom` back. -/
def OwnerPc.owesBottom : OwnerPc α → Bool
  | .popRestoreBottom _ _ | .popSettleBottom _ _ _ _ => true
  | _ => false

inductive OwnerPc.Behind (inner : Inner) : OwnerPc α → ChaseLev.OwnerPc α → Prop
  | idle : OwnerPc.Behind inner .idle .idle
  | pushing {pc : OwnerPc α} (value : α) (status : pc.status payload inner = .pushing value) :
      OwnerPc.Behind inner pc (.pushLoadBottom value)
  | popping {pc : OwnerPc α} (status : pc.status payload inner = .popping) :
      OwnerPc.Behind inner pc .popLoadBottom
  | popLoadTop (b : Int) (buf boxedBuf : ChaseLev.BufferPtr) :
      OwnerPc.Behind inner (.popLoadTop b buf) (.popLoadTop b boxedBuf)
  | restore (b t : Int) : OwnerPc.Behind inner (.popRestoreBottom b t) (.popRestoreBottom b t)
  | lastCell (b t : Int) (buf boxedBuf : ChaseLev.BufferPtr) (last : ¬ t < b) :
      OwnerPc.Behind inner (.popLoadCell b t buf) (.popLoadCell b t boxedBuf)
  | lastCas (b t : Int) (bits : Bits) (boxedBuf : ChaseLev.BufferPtr) (last : ¬ t < b) :
      OwnerPc.Behind inner (.popCasTop b t bits) (.popLoadCell b t boxedBuf)
  | settle (b t : Int) (bits : Bits) {boxed : Option α} (won : Bool)
      (same : won = true → boxed = some (fromBits payload bits)) :
      OwnerPc.Behind inner (.popSettleBottom b t bits won) (.popSettleBottom b t boxed won)
  | done {pc : OwnerPc α} (result : ChaseLev.OwnerResult α)
      (status : pc.status payload inner = .done result) (settled : pc.owesBottom = false) :
      OwnerPc.Behind inner pc (.returned result)

inductive ThiefPc.Behind : ThiefPc α → ChaseLev.ThiefPc α → Prop
  | absent : ThiefPc.Behind .absent .absent
  | idle : ThiefPc.Behind .idle .idle
  | loadTop : ThiefPc.Behind .loadTop (.stealing .loadTop)
  | loadBottom (t : Int) : ThiefPc.Behind (.loadBottom t) (.stealing (.loadBottom t))
  | loadBuffer (t : Int) : ThiefPc.Behind (.loadBuffer t) (.stealing (.addInFlight t))
  | loadCell (t : Int) (buf : ChaseLev.BufferPtr) :
      ThiefPc.Behind (.loadCell t buf) (.stealing (.addInFlight t))
  | casTop (t : Int) (bits : Bits) : ThiefPc.Behind (.casTop t bits) (.stealing (.addInFlight t))
  | returned (result : Steal α) : ThiefPc.Behind (.returned result) (.returned result)

structure State.Behind [Fintype ι] (state : State ι α) (boxed : ChaseLev.State ι α) : Prop where
  top : boxed.inner.top = state.inner.top
  bottom : boxed.inner.bottom = state.inner.bottom
  items : boxed.abstract.items = state.items payload
  lifo : boxed.worker.fifo = false
  owner : state.owner.Behind payload state.inner boxed.owner
  thief : ∀ thief, (state.thief thief).Behind (boxed.thief thief)

variable {payload} {pushes logInitialCap : Nat} {state : State ι α}
  {boxed : ChaseLev.State ι α} {access : Access} {inner : Inner} {cachedTop : Int}
  {owner : OwnerPc α} {spurious : Bool}

/-- Most steps of the owner leave both indices alone. -/
theorem ownerStep_frame {before : Inner} {cached : Int} {pc : OwnerPc α}
    (taken : ownerStep payload before cached spurious pc = some (access, inner, cachedTop, owner)) :
    (inner.top = before.top ∧ inner.bottom = before.bottom ∧ access ≠ .storeBottom ∧
        access ≠ .casTop true ∧ owner.owesBottom = false) ∨
      (∃ value b, pc = .pushStoreBottom value b) ∨ (∃ b buf, pc = .popStoreBottom b buf) ∨
      (∃ b buf, pc = .popLoadTop b buf) ∨ (∃ b t bits, pc = .popCasTop b t bits) ∨
      pc.owesBottom = true := by
  cases pc with
  | idle => cases taken
  | returned result => cases taken
  | pushStoreBottom value b => exact .inr (.inl ⟨value, b, rfl⟩)
  | popStoreBottom b buf => exact .inr (.inr (.inl ⟨b, buf, rfl⟩))
  | popLoadTop b buf => exact .inr (.inr (.inr (.inl ⟨b, buf, rfl⟩)))
  | popCasTop b t bits => exact .inr (.inr (.inr (.inr (.inl ⟨b, t, bits, rfl⟩))))
  | popRestoreBottom b t => exact .inr (.inr (.inr (.inr (.inr rfl))))
  | popSettleBottom b t bits won => exact .inr (.inr (.inr (.inr (.inr rfl))))
  | pushLoadBuffer value b =>
      simp only [ownerStep] at taken
      split at taken
      · cases taken
        exact .inl ⟨rfl, rfl, by decide, by decide, rfl⟩
      · simp only [pushGrowOrStore] at taken
        split at taken <;> cases taken <;>
          exact .inl ⟨rfl, rfl, by decide, by decide, rfl⟩
  | pushLoadTop value b buf =>
      simp only [ownerStep, pushGrowOrStore] at taken
      split at taken <;> cases taken <;> exact .inl ⟨rfl, rfl, by decide, by decide, rfl⟩
  | resizing resize pc after =>
      cases pc with
      | casRetired head =>
          simp only [ownerStep, resizeStep] at taken
          by_cases won : spurious = false ∧ before.retired = head
          · simp only [if_pos won] at taken
            cases taken
            cases after <;> exact .inl ⟨rfl, rfl, by decide, by decide, rfl⟩
          · simp only [if_neg won] at taken
            cases taken
            exact .inl ⟨rfl, rfl, by decide, by decide, rfl⟩
      | _ =>
          cases taken
          exact .inl ⟨rfl, rfl, by decide, by decide, rfl⟩
  | popLoadCell b t buf =>
      simp only [ownerStep, perhapsShrink] at taken
      split at taken
      · split at taken <;> cases taken <;> exact .inl ⟨rfl, rfl, by decide, by decide, rfl⟩
      · cases taken
        exact .inl ⟨rfl, rfl, by decide, by decide, rfl⟩
  | _ =>
      cases taken
      exact .inl ⟨rfl, rfl, by decide, by decide, rfl⟩

theorem OwnerPc.status_of_owes {pc : OwnerPc α} (inner : Inner) (owes : pc.owesBottom = true) :
    ∃ result, pc.status payload inner = .done result := by
  cases pc with
  | popRestoreBottom b t => exact ⟨_, rfl⟩
  | popSettleBottom b t bits won => exact ⟨_, rfl⟩
  | _ => cases owes

/-! ### The owner -/

variable [Fintype ι] [DecidableEq ι]

/-- The boxed deque goes on to a state that is behind this one again. -/
def Imitated (payload : Payload α) (logInitialCap pushes : Nat) (boxed : ChaseLev.State ι α)
    (after : State ι α) : Prop :=
  ∃ final, Bursts logInitialCap pushes boxed final ∧ after.Behind payload final

theorem State.Behind.follow (behind : state.Behind payload boxed)
    {final : ChaseLev.State ι α} (bursts : Bursts logInitialCap pushes boxed final)
    (top : final.inner.top = inner.top) (bottom : final.inner.bottom = inner.bottom)
    (items : final.abstract.items = State.items payload
      { state with
        inner := inner
        cachedTop := cachedTop
        owner := owner })
    (ownerBehind : owner.Behind payload inner final.owner) :
    Imitated payload logInitialCap pushes boxed
      { state with
        inner := inner
        cachedTop := cachedTop
        owner := owner } := by
  refine ⟨final, bursts, ?_⟩
  exact
    { top := top
      bottom := bottom
      items := items
      lifo := bursts.fifo.trans behind.lifo
      owner := ownerBehind
      thief := by
        intro thief
        rw [bursts.thief]
        exact behind.thief thief }

/-- The boxed deque waits. -/
theorem State.Behind.wait (behind : state.Behind payload boxed) (storage : Storage pushes boxed)
    (top : inner.top = state.inner.top) (bottom : inner.bottom = state.inner.bottom)
    (items : State.items payload
      { state with
        inner := inner
        cachedTop := cachedTop
        owner := owner } = state.items payload)
    (ownerBehind : owner.Behind payload inner boxed.owner) :
    Imitated payload logInitialCap pushes boxed
      { state with
        inner := inner
        cachedTop := cachedTop
        owner := owner } :=
  behind.follow (.refl storage) (behind.top.trans top.symm) (behind.bottom.trans bottom.symm)
    (behind.items.trans items.symm) ownerBehind

/-- The abstract step of the owner here. -/
def Moves (payload : Payload α) (state : State ι α) (access : Access) (inner : Inner)
    (cachedTop : Int) (owner : OwnerPc α) : Prop :=
  ChaseLev.Spec.Step false (state.abstract payload) (.owner access)
    (State.abstract payload
      { state with
        inner := inner
        cachedTop := cachedTop
        owner := owner })

variable {before : OwnerPc α}

theorem imitated_pushing (behind : state.Behind payload boxed) (storage : Storage pushes boxed)
    (few : pushes < 2 ^ 63) {value : α}
    (status : state.owner.status payload state.inner = .pushing value)
    (boxedAt : boxed.owner = .pushLoadBottom value)
    (taken : ownerStep payload state.inner state.cachedTop spurious state.owner =
      some (access, inner, cachedTop, owner))
    (spec : Moves payload state access inner cachedTop owner) (bottomStored : ∀ stored b,
      state.owner = .pushStoreBottom stored b → b = state.inner.bottom) :
    Imitated payload logInitialCap pushes boxed
      { state with
        inner := inner
        cachedTop := cachedTop
        owner := owner } := by
  rcases ownerStep_frame taken with ⟨top, bottom, noStore, _noCas, _settled⟩ |
    ⟨stored, b, atPc⟩ | ⟨b, buf, atPc⟩ | ⟨b, buf, atPc⟩ | ⟨b, t, bits, atPc⟩ | owes
  · have same := spec.of_pushing status noStore
    apply behind.wait storage top bottom (congrArg ChaseLev.Spec.State.items same)
    rw [boxedAt]
    exact .pushing value ((congrArg ChaseLev.Spec.State.owner same).trans status)
  · obtain ⟨final, bursts, returned, top, bottom, items⟩ :=
      ChaseLev.push_alone storage few logInitialCap boxedAt
    have atBottom := bottomStored stored b atPc
    rw [atPc] at taken
    cases taken
    have appended := spec.append status
    apply behind.follow bursts
    · exact top.trans behind.top
    · rw [bottom, behind.bottom, atBottom]
    · rw [items, behind.items]
      exact appended.symm
    · rw [returned]
      exact .done .pushed rfl rfl
  · rw [atPc] at status
    cases status
  · rw [atPc] at status
    cases status
  · rw [atPc] at status
    cases status
  · obtain ⟨result, done⟩ := OwnerPc.status_of_owes state.inner owes
    rw [status] at done
    cases done

theorem imitated_popping (behind : state.Behind payload boxed) (storage : Storage pushes boxed)
    (few : pushes < 2 ^ 63) (status : state.owner.status payload state.inner = .popping)
    (boxedAt : boxed.owner = .popLoadBottom)
    (taken : ownerStep payload state.inner state.cachedTop spurious state.owner =
      some (access, inner, cachedTop, owner))
    (spec : Moves payload state access inner cachedTop owner) (bottomLowered : ∀ b buf,
      state.owner = .popStoreBottom b buf → b = wrappingSub state.inner.bottom 1) :
    Imitated payload logInitialCap pushes boxed
      { state with
        inner := inner
        cachedTop := cachedTop
        owner := owner } := by
  rcases ownerStep_frame taken with ⟨top, bottom, noStore, noCas, _settled⟩ |
    ⟨stored, b, atPc⟩ | ⟨b, buf, atPc⟩ | ⟨b, buf, atPc⟩ | ⟨b, t, bits, atPc⟩ | owes
  · have same := spec.of_popping status ⟨noStore, noCas⟩ rfl
    apply behind.wait storage top bottom (congrArg ChaseLev.Spec.State.items same)
    rw [boxedAt]
    exact .popping ((congrArg ChaseLev.Spec.State.owner same).trans status)
  · rw [atPc] at status
    cases status
  · obtain ⟨final, boxedBuf, bursts, lowered, top, bottom, items⟩ :=
      ChaseLev.popLower_alone storage few logInitialCap boxedAt behind.lifo
    have atBottom := bottomLowered b buf atPc
    rw [atPc] at taken
    cases taken
    have contested := spec.contest status
    apply behind.follow bursts
    · exact top.trans behind.top
    · rw [bottom, behind.bottom, atBottom]
    · rw [items, behind.items]
      exact contested.symm
    · rw [lowered, behind.bottom, atBottom]
      exact .popLoadTop ..
  · rw [atPc] at status
    cases status
  · rw [atPc] at status
    cases status
  · obtain ⟨result, done⟩ := OwnerPc.status_of_owes state.inner owes
    rw [status] at done
    cases done

theorem imitated_done (behind : state.Behind payload boxed) (storage : Storage pushes boxed)
    {result : ChaseLev.OwnerResult α}
    (status : state.owner.status payload state.inner = .done result)
    (settled : state.owner.owesBottom = false) (boxedAt : boxed.owner = .returned result)
    (taken : ownerStep payload state.inner state.cachedTop spurious state.owner =
      some (access, inner, cachedTop, owner))
    (spec : Moves payload state access inner cachedTop owner) :
    Imitated payload logInitialCap pushes boxed
      { state with
        inner := inner
        cachedTop := cachedTop
        owner := owner } := by
  rcases ownerStep_frame taken with ⟨top, bottom, _noStore, _noCas, stillSettled⟩ |
    ⟨stored, b, atPc⟩ | ⟨b, buf, atPc⟩ | ⟨b, buf, atPc⟩ | ⟨b, t, bits, atPc⟩ | owes
  · have same := spec.of_done status
    apply behind.wait storage top bottom (congrArg ChaseLev.Spec.State.items same)
    rw [boxedAt]
    exact .done result ((congrArg ChaseLev.Spec.State.owner same).trans status) stillSettled
  · rw [atPc] at status
    cases status
  · rw [atPc] at status
    cases status
  · rw [atPc] at status
    cases status
  · rw [atPc] at status
    cases status
  · rw [settled] at owes
    cases owes

omit [DecidableEq ι] in
theorem boxed_status {status : ChaseLev.Spec.OwnerStatus α}
    (same : boxed.owner.status boxed.inner = status) : boxed.abstract.owner = status :=
  same

theorem imitated_loadTop (behind : state.Behind payload boxed) (storage : Storage pushes boxed)
    (few : pushes < 2 ^ 63) {b : Int} {buf boxedBuf : ChaseLev.BufferPtr}
    (atPc : state.owner = .popLoadTop b buf) (boxedAt : boxed.owner = .popLoadTop b boxedBuf)
    (taken : ownerStep payload state.inner state.cachedTop spurious (.popLoadTop b buf) =
      some (access, inner, cachedTop, owner))
    (spec : Moves payload state access inner cachedTop owner) :
    Imitated payload logInitialCap pushes boxed
      { state with
        inner := inner
        cachedTop := cachedTop
        owner := owner } := by
  have contesting : (state.abstract payload).owner = .contesting := by
    change state.owner.status payload state.inner = _
    rw [atPc]
    rfl
  have boxedContesting : boxed.abstract.owner = .contesting :=
    boxed_status (by rw [boxedAt]; rfl)
  have sameTop := behind.top
  cases taken
  by_cases drained : wrappingSub b state.inner.top < 0
  · have moved : ChaseLev.ownerStep boxed.worker boxed.inner false boxed.owner =
        some (.loadTop, boxed.worker, boxed.inner, .popRestoreBottom b state.inner.top) := by
      rw [boxedAt, ← sameTop]
      rw [← sameTop] at drained
      simp only [ChaseLev.ownerStep, if_pos drained]
    have boxedSpec := (storage.ownerStep few false moved).spec
    rw [if_pos drained] at spec ⊢
    apply behind.follow (storage.bursts few logInitialCap moved) behind.top behind.bottom
    · rw [boxedSpec.noBack boxedContesting (by intro value same; cases same), behind.items]
      exact (spec.noBack contesting (by intro value same; cases same)).symm
    · exact .restore ..
  · have moved : ChaseLev.ownerStep boxed.worker boxed.inner false boxed.owner =
        some (.loadTop, boxed.worker, boxed.inner, .popLoadCell b state.inner.top boxedBuf) := by
      rw [boxedAt, ← sameTop]
      rw [← sameTop] at drained
      simp only [ChaseLev.ownerStep, if_neg drained]
    have boxedAdvance := storage.ownerStep few false moved
    have first := storage.bursts few logInitialCap moved
    rw [if_neg drained] at spec ⊢
    by_cases below : state.inner.top < b
    · obtain ⟨final, value, quiet, returned, done⟩ :=
        ChaseLev.popBack_alone first.storage few logInitialCap rfl below
      have status : OwnerPc.status payload state.inner
          (.popLoadCell b state.inner.top buf) = .done (.popped (some (fromBits payload
            ((state.inner.heap buf).read b)))) := by
        simp only [OwnerPc.status, if_pos below]
      have here := spec.back contesting status
      have there := boxedAdvance.spec.back boxedContesting done
      rw [behind.items] at there
      obtain ⟨rest, last⟩ := List.append_inj' (there.symm.trans here) rfl
      cases last
      apply behind.follow (first.trans quiet.toBursts)
      · exact quiet.top.trans behind.top
      · exact quiet.bottom.trans behind.bottom
      · rw [quiet.abstract]
        exact rest
      · rw [returned]
        exact .done _ status rfl
    · have notDone : ∀ value, OwnerPc.status payload state.inner
          (.popLoadCell b state.inner.top buf) ≠ .done (.popped (some value)) := by
        intro value same
        simp only [OwnerPc.status, if_neg below] at same
        cases same
      have boxedNotDone : ∀ value, ChaseLev.OwnerPc.status boxed.inner
          (.popLoadCell b state.inner.top boxedBuf) ≠ .done (.popped (some value)) := by
        intro value same
        simp only [ChaseLev.OwnerPc.status, if_neg below] at same
        cases same
      apply behind.follow first behind.top behind.bottom
      · rw [boxedAdvance.spec.noBack boxedContesting boxedNotDone, behind.items]
        exact (spec.noBack contesting notDone).symm
      · exact .lastCell b _ buf boxedBuf below

/-- The last element is read; the boxed deque waits for the compare-exchange. -/
theorem imitated_lastCell (behind : state.Behind payload boxed) (storage : Storage pushes boxed)
    (few : pushes < 2 ^ 63) {b t : Int} {buf boxedBuf : ChaseLev.BufferPtr} (last : ¬ t < b)
    (atPc : state.owner = .popLoadCell b t buf) (boxedAt : boxed.owner = .popLoadCell b t boxedBuf)
    (taken : ownerStep payload state.inner state.cachedTop spurious (.popLoadCell b t buf) =
      some (access, inner, cachedTop, owner))
    (spec : Moves payload state access inner cachedTop owner) :
    Imitated payload logInitialCap pushes boxed
      { state with
        inner := inner
        cachedTop := cachedTop
        owner := owner } := by
  have meets := storage.owner
  rw [boxedAt] at meets
  obtain ⟨_buf, bottom, tNonneg, tLe, _tTop, _filled⟩ := meets
  have back : boxed.back < 2 ^ 63 := Int.lt_of_le_of_lt storage.back_le (by exact_mod_cast few)
  have near := storage.bottom_near_back
  have only : ¬ wrappingSub b t > 0 := by
    rw [wrappingSub_of_range (by omega) (by omega)]
    omega
  have contesting : (state.abstract payload).owner = .contesting := by
    change state.owner.status payload state.inner = _
    rw [atPc]
    simp only [OwnerPc.status, if_neg last]
  simp only [ownerStep, if_neg only] at taken
  cases taken
  have same := spec.of_contesting contesting
  apply behind.wait storage rfl rfl (congrArg ChaseLev.Spec.State.items same)
  rw [boxedAt]
  exact .lastCas b t _ boxedBuf last

theorem imitated_casTop (behind : state.Behind payload boxed) (storage : Storage pushes boxed)
    (few : pushes < 2 ^ 63) {b t : Int} {bits : Bits} {boxedBuf : ChaseLev.BufferPtr}
    (last : ¬ t < b) (atPc : state.owner = .popCasTop b t bits)
    (boxedAt : boxed.owner = .popLoadCell b t boxedBuf)
    (taken : ownerStep payload state.inner state.cachedTop spurious (.popCasTop b t bits) =
      some (access, inner, cachedTop, owner))
    (spec : Moves payload state access inner cachedTop owner) :
    Imitated payload logInitialCap pushes boxed
      { state with
        inner := inner
        cachedTop := cachedTop
        owner := owner } := by
  have contesting : (state.abstract payload).owner = .contesting := by
    change state.owner.status payload state.inner = _
    rw [atPc]
    rfl
  have quiet := ChaseLev.popLast_alone storage few logInitialCap boxedAt last
  have sameTop := behind.top
  simp only [ownerStep] at taken
  split at taken
  · rename_i current
    cases taken
    have boxedCurrent : boxed.inner.top = t := sameTop.trans current
    have moved : ChaseLev.ownerStep boxed.worker boxed.inner false
        (.popCasTop b t ((boxed.inner.heap boxedBuf).read b)) =
          some (.casTop true, boxed.worker, { boxed.inner with top := wrappingAdd t 1 },
            .popSettleBottom b t ((boxed.inner.heap boxedBuf).read b) true) := by
      simp only [ChaseLev.ownerStep, if_pos boxedCurrent]
    have boxedAdvance := quiet.storage.ownerStep few false moved
    obtain ⟨value, valueEq⟩ := Option.ne_none_iff_exists'.mp
      (boxedAdvance.storage.owner.2 rfl)
    obtain ⟨single, nothing⟩ := spec.win contesting rfl
    obtain ⟨boxedSingle, boxedNothing⟩ := boxedAdvance.spec.win rfl
      (congrArg (fun taker => ChaseLev.Spec.OwnerStatus.done (.popped taker)) valueEq)
    have same : [value] = [fromBits payload bits] := by
      rw [← boxedSingle, quiet.abstract, behind.items]
      exact single
    cases same
    apply behind.follow (quiet.toBursts.trans (quiet.storage.bursts few logInitialCap moved))
    · rfl
    · exact behind.bottom
    · exact boxedNothing.trans nothing.symm
    · rw [valueEq]
      exact .settle b t bits true fun _won => rfl
  · rename_i missed
    cases taken
    have boxedMissed : boxed.inner.top ≠ t := by
      rw [sameTop]
      exact missed
    have moved : ChaseLev.ownerStep boxed.worker boxed.inner false
        (.popCasTop b t ((boxed.inner.heap boxedBuf).read b)) =
          some (.casTop false, boxed.worker, boxed.inner,
            .popSettleBottom b t ((boxed.inner.heap boxedBuf).read b) false) := by
      simp only [ChaseLev.ownerStep, if_neg boxedMissed]
    have boxedAdvance := quiet.storage.ownerStep few false moved
    apply behind.follow (quiet.toBursts.trans (quiet.storage.bursts few logInitialCap moved))
    · exact behind.top
    · exact behind.bottom
    · rw [boxedAdvance.spec.lose rfl, quiet.abstract, behind.items]
      exact (spec.lose contesting).symm
    · exact .settle b t bits false (by intro won; cases won)

theorem imitated_restore (behind : state.Behind payload boxed) (storage : Storage pushes boxed)
    (few : pushes < 2 ^ 63) {b t : Int} (atPc : state.owner = .popRestoreBottom b t)
    (boxedAt : boxed.owner = .popRestoreBottom b t)
    (taken : ownerStep payload state.inner state.cachedTop spurious (.popRestoreBottom b t) =
      some (access, inner, cachedTop, owner))
    (spec : Moves payload state access inner cachedTop owner) :
    Imitated payload logInitialCap pushes boxed
      { state with
        inner := inner
        cachedTop := cachedTop
        owner := owner } := by
  have done : (state.abstract payload).owner = .done (.popped none) := by
    change state.owner.status payload state.inner = _
    rw [atPc]
    rfl
  have boxedDone : boxed.abstract.owner = .done (.popped none) :=
    boxed_status (by rw [boxedAt]; rfl)
  cases taken
  have moved : ChaseLev.ownerStep boxed.worker boxed.inner false boxed.owner =
      some (.storeBottom, boxed.worker, { boxed.inner with bottom := t },
        .returned (.popped none)) := by
    rw [boxedAt]
    rfl
  have same := spec.of_done done
  have boxedSame := (storage.ownerStep few false moved).spec.of_done boxedDone
  apply behind.follow (storage.bursts few logInitialCap moved)
  · exact behind.top
  · rfl
  · rw [boxedSame, behind.items]
    exact (congrArg ChaseLev.Spec.State.items same).symm
  · exact .done _ rfl rfl

theorem imitated_settle (behind : state.Behind payload boxed) (storage : Storage pushes boxed)
    (few : pushes < 2 ^ 63) {b t : Int} {bits : Bits} {taker : Option α} {won : Bool}
    (read : won = true → taker = some (fromBits payload bits))
    (atPc : state.owner = .popSettleBottom b t bits won)
    (boxedAt : boxed.owner = .popSettleBottom b t taker won)
    (taken : ownerStep payload state.inner state.cachedTop spurious
      (.popSettleBottom b t bits won) = some (access, inner, cachedTop, owner))
    (spec : Moves payload state access inner cachedTop owner) :
    Imitated payload logInitialCap pushes boxed
      { state with
        inner := inner
        cachedTop := cachedTop
        owner := owner } := by
  have done : (state.abstract payload).owner =
      .done (.popped (if won then some (fromBits payload bits) else none)) := by
    change state.owner.status payload state.inner = _
    rw [atPc]
    rfl
  have boxedDone : boxed.abstract.owner = .done (.popped (if won then taker else none)) :=
    boxed_status (by rw [boxedAt]; rfl)
  cases taken
  have moved : ChaseLev.ownerStep boxed.worker boxed.inner false boxed.owner =
      some (.storeBottom, boxed.worker, { boxed.inner with bottom := wrappingAdd t 1 },
        .returned (.popped (if won then some (fromBits payload bits) else none))) := by
    rw [boxedAt]
    cases won with
    | false => rfl
    | true =>
        rw [read rfl]
        rfl
  have same := spec.of_done done
  have boxedSame := (storage.ownerStep few false moved).spec.of_done boxedDone
  apply behind.follow (storage.bursts few logInitialCap moved)
  · exact behind.top
  · rfl
  · rw [boxedSame, behind.items]
    exact (congrArg ChaseLev.Spec.State.items same).symm
  · exact .done _ rfl rfl

theorem State.Behind.owner_step (behind : state.Behind payload boxed)
    (storage : Storage pushes boxed) (few : pushes < 2 ^ 63) {twin : ChaseLev.State ι α}
    (stands : state.Stands payload twin) (twinStorage : Storage pushes twin)
    (taken : ownerStep payload state.inner state.cachedTop spurious state.owner =
      some (access, inner, cachedTop, owner))
    (spec : Moves payload state access inner cachedTop owner) :
    Imitated payload logInitialCap pushes boxed
      { state with
        inner := inner
        cachedTop := cachedTop
        owner := owner } := by
  have ownerBehind := behind.owner
  have ownerStands := stands.owner
  have meets := twinStorage.owner
  generalize atPc : state.owner = pc at ownerBehind ownerStands
  generalize boxedAt : boxed.owner = boxedPc at ownerBehind
  generalize twinAt : twin.owner = twinPc at ownerStands meets
  cases ownerBehind with
  | idle =>
      rw [atPc] at taken
      cases taken
  | pushing value status =>
      rw [← atPc] at status
      apply imitated_pushing behind storage few status boxedAt taken spec
      intro stored b atStore
      rw [← atPc, atStore] at ownerStands
      cases ownerStands
      exact meets.1.trans stands.inner.bottom
  | popping status =>
      rw [← atPc] at status
      apply imitated_popping behind storage few status boxedAt taken spec
      intro b buf atStore
      rw [← atPc, atStore] at ownerStands
      cases ownerStands
      have back := twinStorage.back_le
      have near := twinStorage.bottom_near_back
      have topLe := twinStorage.top_le_back
      have topNonneg := twinStorage.window.topNonneg
      rw [← stands.inner.bottom, wrappingSub_of_range (by omega) (by omega)]
      exact meets.1
  | popLoadTop b buf boxedBuf =>
      rw [atPc] at taken
      exact imitated_loadTop behind storage few atPc boxedAt taken spec
  | restore b t =>
      rw [atPc] at taken
      exact imitated_restore behind storage few atPc boxedAt taken spec
  | lastCell b t buf boxedBuf last =>
      rw [atPc] at taken
      exact imitated_lastCell behind storage few last atPc boxedAt taken spec
  | lastCas b t bits boxedBuf last =>
      rw [atPc] at taken
      exact imitated_casTop behind storage few last atPc boxedAt taken spec
  | settle b t bits won read =>
      rw [atPc] at taken
      exact imitated_settle behind storage few read atPc boxedAt taken spec
  | done result status settled =>
      rw [← atPc] at status settled
      exact imitated_done behind storage status settled boxedAt taken spec

/-! ### The thieves -/

variable {thief : ι} {pc : ThiefPc α}

/-- What the boxed deque runs while a thief here takes one step. -/
def ImitatedThief (payload : Payload α) (logInitialCap pushes : Nat)
    (boxed : ChaseLev.State ι α) (after : State ι α) : Prop :=
  ∃ labels final, (ChaseLev.system ι α false logInitialCap).Run boxed labels final ∧
    calls labels = [] ∧ Storage pushes final ∧ after.Behind payload final

omit [DecidableEq ι] in
theorem State.Behind.keep (behind : state.Behind payload boxed) {final : ChaseLev.State ι α}
    {after : State ι α} (cachedOwner : after.owner = state.owner)
    (heap : after.inner.heap = state.inner.heap)
    (boxedOwner : final.owner = boxed.owner) (fifo : final.worker.fifo = boxed.worker.fifo)
    (top : final.inner.top = after.inner.top) (bottom : final.inner.bottom = after.inner.bottom)
    (items : final.abstract.items = after.items payload)
    (thieves : ∀ thief, (after.thief thief).Behind (final.thief thief)) :
    after.Behind payload final := by
  refine
    { top := top
      bottom := bottom
      items := items
      lifo := fifo.trans behind.lifo
      owner := ?_
      thief := thieves }
  rw [cachedOwner, boxedOwner]
  have status :
      ∀ pc : OwnerPc α, pc.status payload after.inner = pc.status payload state.inner := by
    intro pc
    cases pc with
    | popLoadCell b t buf => simp only [OwnerPc.status, heap]
    | resizing resize pc after => cases after <;> rfl
    | _ => rfl
  have ownerBehind := behind.owner
  generalize state.owner = pc at ownerBehind ⊢
  generalize boxed.owner = boxedPc at ownerBehind ⊢
  cases ownerBehind with
  | idle => exact .idle
  | pushing value same => exact .pushing value ((status _).trans same)
  | popping same => exact .popping ((status _).trans same)
  | popLoadTop b buf boxedBuf => exact .popLoadTop b buf boxedBuf
  | restore b t => exact .restore b t
  | lastCell b t buf boxedBuf last => exact .lastCell b t buf boxedBuf last
  | lastCas b t bits boxedBuf last => exact .lastCas b t bits boxedBuf last
  | settle b t bits won same => exact .settle b t bits won same
  | done result same settled => exact .done result ((status _).trans same) settled

omit [Fintype ι] in
theorem behind_setThief {thieves : ι → ThiefPc α} {boxedThieves : ι → ChaseLev.ThiefPc α}
    (behind : ∀ thief, (thieves thief).Behind (boxedThieves thief))
    {others : ι → ChaseLev.ThiefPc α}
    (same : ∀ other, other ≠ thief → others other = boxedThieves other)
    (here : pc.Behind (others thief)) (other : ι) :
    (Function.update thieves thief pc other).Behind (others other) := by
  by_cases equal : other = thief
  · subst equal
    rw [Function.update_self]
    exact here
  · rw [Function.update_of_ne equal, same other equal]
    exact behind other

/-- One step of the boxed thief. -/
theorem State.Behind.follow_thief (behind : state.Behind payload boxed)
    {middle : ChaseLev.State ι α}
    (quiet : ThiefQuiet logInitialCap pushes thief boxed middle) (few : pushes < 2 ^ 63)
    {boxedPc : ChaseLev.StealPc α} (atPc : middle.thief thief = .stealing boxedPc)
    {boxedInner : ChaseLev.Inner α} {outcome : ChaseLev.Outcome α}
    (moved : ChaseLev.stealFrom middle.inner boxedPc = (access, boxedInner, outcome))
    (heap : inner.heap = state.inner.heap)
    (top : boxedInner.top = inner.top) (bottom : boxedInner.bottom = inner.bottom)
    (items : ∀ final : ChaseLev.State ι α,
      ChaseLev.Spec.Step middle.worker.fifo middle.abstract (.thief thief access) final.abstract →
      final.thief thief = ChaseLev.ThiefPc.afterOutcome outcome →
      final.abstract.items =
        State.items payload ({ state with inner := inner }.setThief thief pc))
    (here : pc.Behind (ChaseLev.ThiefPc.afterOutcome outcome)) :
    ImitatedThief payload logInitialCap pushes boxed
      ({ state with inner := inner }.setThief thief pc) := by
  have advance := quiet.storage.thiefStep few atPc
  rw [moved] at advance
  obtain ⟨labels, run, silent⟩ := quiet.run
  refine ⟨labels ++ [.thief thief access],
    { middle with inner := boxedInner }.setThief thief (ChaseLev.ThiefPc.afterOutcome outcome),
    ?_, ?_, advance.storage, ?_⟩
  · apply run.append
    apply TransitionSystem.Run.single
    refine ⟨.thief thief, ?_⟩
    simp only [ChaseLev.next, atPc, moved]
  · rw [ChaseLev.calls_append, silent]
    rfl
  · refine behind.keep ?_ ?_ ?_ ?_ ?_ ?_ ?_ ?_
    · rfl
    · exact heap
    · exact quiet.owner
    · exact congrArg ChaseLev.Worker.fifo quiet.worker
    · exact top
    · exact bottom
    · exact items _ advance.spec (Function.update_self ..)
    · apply behind_setThief behind.thief
      · intro other different
        exact (Function.update_of_ne different ..).trans (quiet.others other different)
      · simp only [ChaseLev.State.setThief, Function.update_self]
        exact here

/-- The boxed thief waits. -/
theorem State.Behind.wait_thief (behind : state.Behind payload boxed)
    (storage : Storage pushes boxed)
    (items : State.items payload ({ state with inner := inner }.setThief thief pc) =
      state.items payload)
    (only : inner = state.inner) (here : pc.Behind (boxed.thief thief)) :
    ImitatedThief payload logInitialCap pushes boxed
      ({ state with inner := inner }.setThief thief pc) := by
  subst only
  refine ⟨[], boxed, .refl boxed, rfl, storage, ?_⟩
  refine behind.keep ?_ ?_ ?_ ?_ ?_ ?_ ?_ ?_
  · rfl
  · rfl
  · rfl
  · rfl
  · exact behind.top
  · exact behind.bottom
  · exact behind.items.trans items.symm
  · exact behind_setThief behind.thief (fun _other _different => rfl) here

theorem State.Behind.thief_step (behind : state.Behind payload boxed)
    (storage : Storage pushes boxed) (few : pushes < 2 ^ 63)
    (taken : thiefStep payload state.inner (state.thief thief) = some (access, inner, pc))
    (spec : ChaseLev.Spec.Step false (state.abstract payload) (.thief thief access)
      (State.abstract payload ({ state with inner := inner }.setThief thief pc))) :
    ImitatedThief payload logInitialCap pushes boxed
      ({ state with inner := inner }.setThief thief pc) := by
  have thiefBehind := behind.thief thief
  generalize atPc : state.thief thief = before at taken thiefBehind
  generalize boxedAt : boxed.thief thief = boxedBefore at thiefBehind
  cases thiefBehind with
  | absent => cases taken
  | idle => cases taken
  | returned result => cases taken
  | loadTop =>
      cases taken
      have same := spec.of_stealing ⟨by decide, by intro won equal; cases equal⟩
      apply behind.follow_thief (.refl storage) few boxedAt rfl rfl behind.top behind.bottom
      · intro final step _atFinal
        rw [step.of_stealing ⟨by decide, by intro won equal; cases equal⟩, behind.items]
        exact (congrArg ChaseLev.Spec.State.items same).symm
      · rw [behind.top]
        exact .loadBottom _
  | loadBottom t =>
      cases taken
      have same := spec.bottom
      apply behind.follow_thief (.refl storage) few boxedAt rfl rfl behind.top behind.bottom
      · intro final step _atFinal
        rw [step.bottom, behind.items]
        exact same.symm
      · rw [behind.bottom]
        by_cases drained : wrappingSub state.inner.bottom t ≤ 0
        · simp only [if_pos drained]
          exact .returned .empty
        · simp only [if_neg drained]
          exact .loadBuffer t
  | loadBuffer t =>
      cases taken
      have same := spec.of_stealing ⟨by decide, by intro won equal; cases equal⟩
      apply behind.wait_thief storage (congrArg ChaseLev.Spec.State.items same) rfl
      rw [boxedAt]
      exact .loadCell t _
  | loadCell t buf =>
      cases taken
      have same := spec.of_stealing ⟨by decide, by intro won equal; cases equal⟩
      apply behind.wait_thief storage (congrArg ChaseLev.Spec.State.items same) rfl
      rw [boxedAt]
      exact .casTop t _
  | casTop t bits =>
      obtain ⟨middle, taker, quiet, atCas⟩ :=
        ChaseLev.claim_alone storage few logInitialCap boxedAt
      have sameTop : middle.inner.top = state.inner.top := quiet.top.trans behind.top
      have sameBottom : middle.inner.bottom = state.inner.bottom :=
        quiet.bottom.trans behind.bottom
      simp only [thiefStep] at taken
      split at taken
      · rename_i current
        cases taken
        have boxedCurrent : middle.inner.top = t := sameTop.trans current
        have held : middle.protocol.taker (some thief) = .holding t taker := by
          change (middle.thief thief).taker = _
          rw [atCas]
          rfl
        obtain ⟨inside, loaded⟩ :=
          quiet.storage.protocol.top_lt_back_of_holding held boxedCurrent
        obtain ⟨value, valueEq⟩ := Option.ne_none_iff_exists'.mp
          (quiet.storage.window.filled t (Int.le_of_eq boxedCurrent) inside)
        have there : taker = some value := loaded.trans valueEq
        subst there
        have front := spec.front
          (congrArg ThiefPc.status (Function.update_self thief _ state.thief))
        have moved : ChaseLev.stealFrom middle.inner (.casTop t (some value)) =
            (.casTop true, { middle.inner with top := wrappingAdd t 1 },
              .returned (.success value)) := by
          simp only [ChaseLev.stealFrom, if_pos boxedCurrent, ChaseLev.takeOwnership]
        have advance := quiet.storage.thiefStep few atCas
        rw [moved] at advance
        have boxedFront := advance.spec.front
          (congrArg ChaseLev.ThiefPc.status (Function.update_self thief _ middle.thief))
        rw [quiet.abstract, behind.items] at boxedFront
        obtain ⟨same, rest⟩ := List.cons.inj (front.symm.trans boxedFront)
        refine behind.follow_thief quiet few atCas moved ?_ ?_ ?_ ?_ ?_
        · rfl
        · rfl
        · exact sameBottom
        · intro final step atFinal
          have again := step.front (congrArg ChaseLev.ThiefPc.status atFinal)
          rw [quiet.abstract, behind.items] at again
          exact (List.cons.inj (again.symm.trans front)).2
        · rw [same]
          exact .returned (.success value)
      · rename_i missed
        cases taken
        have boxedMissed : middle.inner.top ≠ t := by
          rw [sameTop]
          exact missed
        have moved : ChaseLev.stealFrom middle.inner (.casTop t taker) =
            (.casTop false, middle.inner, .returned .retry) := by
          simp only [ChaseLev.stealFrom, if_neg boxedMissed]
        apply behind.follow_thief quiet few atCas moved rfl sameTop sameBottom
        · intro final step _atFinal
          rw [step.retry, quiet.abstract, behind.items]
          exact spec.retry.symm
        · exact .returned .retry

/-! ### Every step -/

variable {choice : Choice ι α} {label : Label ι α} {after : State ι α}

omit [DecidableEq ι] in
theorem State.Behind.quiet_owner {boxedOwner : ChaseLev.OwnerPc α}
    (behind : state.Behind payload boxed)
    (items : (ChaseLev.State.abstract { boxed with owner := boxedOwner }).items =
      boxed.abstract.items)
    (sameItems : State.items payload { state with owner := owner } = state.items payload)
    (ownerBehind : owner.Behind payload state.inner boxedOwner) :
    State.Behind payload { state with owner := owner } { boxed with owner := boxedOwner } :=
  { behind with
    items := items.trans (behind.items.trans sameItems.symm)
    owner := ownerBehind }

theorem State.Behind.quiet_thief {thief : ι} {pc : ThiefPc α} {boxedPc : ChaseLev.ThiefPc α}
    (behind : state.Behind payload boxed)
    (items : (boxed.setThief thief boxedPc).abstract.items = boxed.abstract.items)
    (here : pc.Behind boxedPc) :
    (state.setThief thief pc).Behind payload (boxed.setThief thief boxedPc) := by
  refine behind.keep ?_ ?_ ?_ ?_ ?_ ?_ ?_ ?_
  · rfl
  · rfl
  · rfl
  · rfl
  · exact behind.top
  · exact behind.bottom
  · exact items.trans behind.items
  · apply behind_setThief behind.thief
    · intro other different
      exact Function.update_of_ne different ..
    · simp only [ChaseLev.State.setThief, Function.update_self]
      exact here

/-- A label that gives up a handle; no such call stands in an inline run. -/
def dropsHandle {ι α : Type*} : ChaseLev.Label ι α → Bool
  | .dropStealer _ | .dropWorker => true
  | _ => false

omit [Fintype ι] [DecidableEq ι] in
theorem spec_call_items [Fintype ι] [DecidableEq ι] {before final : ChaseLev.Spec.State ι α}
    {fifo : Bool} (step : ChaseLev.Spec.Step fifo before label final)
    (isCall : label.isCall = true) (keeps : dropsHandle label = false) :
    final.items = before.items := by
  cases step with
  | dropStealer thief after idle released => cases keeps
  | dropWorker after idle released => cases keeps
  | pushCall value idle => rfl
  | popCall idle => rfl
  | ownerReturn result done => rfl
  | stealCall thief idle => rfl
  | stealReturn thief result done => rfl
  | newStealer thief absent shared => rfl
  | _ => cases isCall

/-- The boxed deque takes steps with the same calls and returns. -/
theorem State.Behind.next (behind : state.Behind payload boxed) (storage : Storage pushes boxed)
    {twin : ChaseLev.State ι α} (stands : state.Stands payload twin)
    (twinStorage : Storage pushes twin)
    (taken : next payload state choice = some (label, after))
    (spec : ChaseLev.Spec.Step false (state.abstract payload) label (after.abstract payload))
    (few : pushes + (ChaseLev.Spec.pushed [label]).length < 2 ^ 63) :
    ∃ labels final, (ChaseLev.system ι α false logInitialCap).Run boxed labels final ∧
      calls labels = calls [label] ∧
      Storage (pushes + (ChaseLev.Spec.pushed [label]).length) final ∧
      after.Behind payload final := by
  have single : ∀ {choice label final}, ChaseLev.next boxed choice = some (label, final) →
      (ChaseLev.system ι α false logInitialCap).Run boxed [label] final :=
    fun called => .single ⟨_, called⟩
  have ownerBehind := behind.owner
  cases next_moves taken with
  | pushCall value atPc =>
      rw [atPc] at ownerBehind
      generalize boxedAt : boxed.owner = boxedPc at ownerBehind
      cases ownerBehind with
      | pushing value status => cases status
      | popping status => cases status
      | done result status settled => cases status
      | idle =>
          have called : ChaseLev.next boxed (.pushCall value) =
              some (.pushCall value, { boxed with owner := .pushLoadBottom value }) := by
            simp only [ChaseLev.next, boxedAt]
          have advance := storage.next called few
          refine ⟨_, _, single called, rfl, advance.storage, ?_⟩
          apply behind.quiet_owner
          · exact spec_call_items advance.spec rfl rfl
          · exact spec_call_items spec rfl rfl
          · exact .pushing value rfl
  | popCall atPc =>
      rw [atPc] at ownerBehind
      generalize boxedAt : boxed.owner = boxedPc at ownerBehind
      cases ownerBehind with
      | pushing value status => cases status
      | popping status => cases status
      | done result status settled => cases status
      | idle =>
          have called : ChaseLev.next boxed .popCall =
              some (.popCall, { boxed with owner := .popLoadBottom }) := by
            simp only [ChaseLev.next, boxedAt, behind.lifo]
            rfl
          have advance := storage.next called few
          refine ⟨_, _, single called, rfl, advance.storage, ?_⟩
          apply behind.quiet_owner
          · exact spec_call_items advance.spec rfl rfl
          · exact spec_call_items spec rfl rfl
          · exact .popping rfl
  | owner spurious access inner cachedTop owner stepped =>
      obtain ⟨final, bursts, behindAfter⟩ :=
        behind.owner_step storage few stands twinStorage stepped spec
      obtain ⟨labels, run, silent⟩ := bursts.run
      exact ⟨labels, final, run, silent, bursts.storage, behindAfter⟩
  | ownerReturn result atPc =>
      rw [atPc] at ownerBehind
      generalize boxedAt : boxed.owner = boxedPc at ownerBehind
      cases ownerBehind with
      | pushing value status => cases status
      | popping status => cases status
      | done other status settled =>
          cases status
          have called : ChaseLev.next boxed .ownerReturn =
              some (.ownerReturn result, { boxed with owner := .idle }) := by
            simp only [ChaseLev.next, boxedAt]
          have advance := storage.next called few
          refine ⟨_, _, single called, rfl, advance.storage, ?_⟩
          apply behind.quiet_owner
          · exact spec_call_items advance.spec rfl rfl
          · exact spec_call_items spec rfl rfl
          · exact .idle
  | newStealer thief atPc =>
      have thiefBehind := behind.thief thief
      rw [atPc] at thiefBehind
      generalize boxedAt : boxed.thief thief = boxedPc at thiefBehind
      cases thiefBehind
      have present : boxed.owner.isDropped = false := by
        generalize state.owner = pc at ownerBehind
        generalize boxed.owner = boxedPc at ownerBehind ⊢
        cases ownerBehind <;> rfl
      have called : ChaseLev.next boxed (.newStealer thief) =
          some (.newStealer thief, boxed.setThief thief .idle) := by
        simp only [ChaseLev.next, boxedAt, ChaseLev.State.shared_of_owner present, if_true]
      have advance := storage.next called few
      refine ⟨_, _, single called, rfl, advance.storage, ?_⟩
      exact behind.quiet_thief (spec_call_items advance.spec rfl rfl) .idle
  | stealCall thief atPc =>
      have thiefBehind := behind.thief thief
      rw [atPc] at thiefBehind
      generalize boxedAt : boxed.thief thief = boxedPc at thiefBehind
      cases thiefBehind
      have called : ChaseLev.next boxed (.stealCall thief) =
          some (.stealCall thief, boxed.setThief thief (.stealing .loadTop)) := by
        simp only [ChaseLev.next, boxedAt]
      have advance := storage.next called few
      refine ⟨_, _, single called, rfl, advance.storage, ?_⟩
      exact behind.quiet_thief (spec_call_items advance.spec rfl rfl) .loadTop
  | thief thief access inner pc stepped =>
      obtain ⟨labels, final, run, silent, stored, behindAfter⟩ :=
        behind.thief_step storage few stepped spec
      exact ⟨labels, final, run, silent, stored, behindAfter⟩
  | stealReturn thief result atPc =>
      have thiefBehind := behind.thief thief
      rw [atPc] at thiefBehind
      generalize boxedAt : boxed.thief thief = boxedPc at thiefBehind
      cases thiefBehind
      have called : ChaseLev.next boxed (.stealReturn thief) =
          some (.stealReturn thief result, boxed.setThief thief .idle) := by
        simp only [ChaseLev.next, boxedAt]
      have advance := storage.next called few
      refine ⟨_, _, single called, rfl, advance.storage, ?_⟩
      exact behind.quiet_thief (spec_call_items advance.spec rfl rfl) .idle

/-! ### Whole runs -/

omit [DecidableEq ι] in
theorem behind_initial (logCap logInitialCap : Nat) :
    (withLogCapacity ι α logCap).Behind payload
      (ChaseLev.withLogCapacity ι α false logInitialCap) :=
  { top := rfl
    bottom := rfl
    items := congrArg ChaseLev.Spec.State.items (ChaseLev.State.abstract_of_owner rfl)
    lifo := rfl
    owner := .idle
    thief := fun _thief => .absent }

theorem behind_of_reaches {logCap : Nat} (logInitialCap : Nat) {labels : List (Label ι α)}
    (reached : (system payload ι logCap).Reaches labels state)
    (few : (ChaseLev.Spec.pushed labels).length < 2 ^ 63) :
    ∃ boxedLabels boxed,
      (ChaseLev.system ι α false logInitialCap).Reaches boxedLabels boxed ∧
      calls boxedLabels = calls labels ∧ Storage (ChaseLev.Spec.pushed labels).length boxed ∧
      state.Behind payload boxed := by
  revert few
  apply reached.induction
  · rintro start rfl _few
    exact ⟨[], _, ⟨_, rfl, .refl _⟩, rfl, Storage.initial false logInitialCap,
      behind_initial logCap logInitialCap⟩
  · rintro labels before label after reached soFar ⟨choice, taken⟩ few
    rw [ChaseLev.Spec.pushed_append, List.length_append] at few ⊢
    obtain ⟨boxedLabels, boxed, ⟨start, isInitial, run⟩, same, storage, behind⟩ :=
      soFar (by omega)
    obtain ⟨⟨twin, stands, twinStorage⟩, _spec⟩ := tracked_of_reaches reached (by omega)
    obtain ⟨twinAfter, standsAfter, advance⟩ := stands.next twinStorage taken few
    have spec := advance.spec
    rw [stands.lifo, stands.abstract twinStorage, standsAfter.abstract advance.storage] at spec
    obtain ⟨more, final, further, sameCalls, stored, behindAfter⟩ :=
      behind.next storage stands twinStorage taken spec few
    refine ⟨boxedLabels ++ more, final, ⟨start, isInitial, run.append further⟩, ?_, stored,
      behindAfter⟩
    rw [ChaseLev.calls_append, ChaseLev.calls_append, same, sameCalls]

/-- The inline deque refines the abstract list of the boxed LIFO one, step by
step and with the same labels, and what its calls return the boxed one can
return too. -/
theorem inline_refines_deque {logCap : Nat} {labels : List (Label ι α)}
    (reached : (system payload ι logCap).Reaches labels state)
    (few : (ChaseLev.Spec.pushed labels).length < 2 ^ 63) :
    (ChaseLev.Spec.system ι α false).Reaches labels (state.abstract payload) ∧
    ChaseLev.Spec.Conserved labels (state.abstract payload) ∧
    ∀ logInitialCap, ∃ boxedLabels boxed,
      (ChaseLev.system ι α false logInitialCap).Reaches boxedLabels boxed ∧
        calls boxedLabels = calls labels := by
  obtain ⟨_twin, spec⟩ := tracked_of_reaches reached few
  refine ⟨spec, ChaseLev.Spec.conserved_of_reaches spec, ?_⟩
  intro logInitialCap
  obtain ⟨boxedLabels, boxed, boxedReached, same, _storage, _behind⟩ :=
    behind_of_reaches logInitialCap reached few
  exact ⟨boxedLabels, boxed, boxedReached, same⟩

def bytePayload : Payload UInt8 :=
  { size := 1
    fits := Nat.succ_le_succ (Nat.zero_le 7)
    bytes := fun value _position => value
    ofBytes := fun bytes => bytes ⟨0, Nat.one_pos⟩
    ofBytes_bytes := fun _value => rfl }

/-- A thief holds the first buffer while the second push replaces it, and then
steals through that buffer. -/
def stealFromRetired : List (Choice Unit UInt8) :=
  [.pushCall 7, .owner false, .owner false, .owner false, .owner false, .ownerReturn,
    .newStealer (), .stealCall (), .thief (), .thief (), .thief (), .pushCall 8] ++
    List.replicate 10 (.owner false) ++ [.ownerReturn, .thief (), .thief (), .stealReturn ()]

theorem inline_refines_deque_stealFromRetired :
    ∃ labels state, (system bytePayload Unit 1).Reaches labels state ∧
      state.inner.retired = [0] ∧ ChaseLev.Spec.handedOut labels = [7] ∧
      ∃ boxedLabels boxed, (ChaseLev.system Unit UInt8 false 5).Reaches boxedLabels boxed ∧
        calls boxedLabels = calls labels := by
  obtain ⟨labels, state, run, retired, stolen, few⟩ :=
    TransitionSystem.execute_finds (next bytePayload) (withLogCapacity Unit UInt8 1)
      stealFromRetired
      (fun labels state => state.inner.retired = [0] ∧ ChaseLev.Spec.handedOut labels = [7] ∧
        (ChaseLev.Spec.pushed labels).length < 2 ^ 63)
      (by decide +kernel)
  exact ⟨labels, state, ⟨_, rfl, run⟩, retired, stolen,
    (inline_refines_deque ⟨_, rfl, run⟩ few).2.2 5⟩

end WsDeque.Inline
