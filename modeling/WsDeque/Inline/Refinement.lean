import WsDeque.Inline.TwinSteps

/-
The inline deque refines the abstract double-ended list of the boxed one, in
every interleaving of its owner with any number of thieves.
-/

namespace WsDeque.Inline

open ChaseLev (Advance BufferPtr Label Storage)

variable {ι α : Type*} (payload : Payload α)

/-! ### The abstract state -/

/-- One past the last index that is still in the list. -/
def OwnerPc.back (bottom : Int) : OwnerPc α → Int
  | .popLoadTop b _ | .popRestoreBottom b _ | .popCasTop b _ _ | .popSettleBottom b _ _ _ => b + 1
  | .popLoadCell b t _ => if t < b then bottom else b + 1
  | _ => bottom

def State.items (state : State ι α) : List α :=
  window (fun index => fromBits payload ((state.inner.heap state.inner.buffer).read index))
    state.inner.top (state.owner.back state.inner.bottom)

def OwnerPc.status (inner : Inner) : OwnerPc α → ChaseLev.Spec.OwnerStatus α
  | .idle => .idle
  | .pushLoadBottom value | .pushLoadBuffer value _ | .pushLoadTop value _ _
  | .pushStoreCell value _ _ | .pushStoreBottom value _ | .resizing _ _ (.push value _) =>
      .pushing value
  | .popLoadBottom | .popLoadBuffer _ | .popStoreBottom _ _ => .popping
  | .popLoadTop _ _ | .popCasTop _ _ _ => .contesting
  | .popRestoreBottom _ _ => .done (.popped none)
  | .popLoadCell b t buf =>
      if t < b then .done (.popped (some (fromBits payload ((inner.heap buf).read b))))
      else .contesting
  | .popSettleBottom _ _ bits won =>
      .done (.popped (if won then some (fromBits payload bits) else none))
  | .resizing _ _ (.pop bits) => .done (.popped (some (fromBits payload bits)))
  | .returned result => .done result

def ThiefPc.status : ThiefPc α → ChaseLev.Spec.ThiefStatus α
  | .absent => .absent
  | .idle => .idle
  | .loadTop | .loadBottom _ | .loadBuffer _ | .loadCell _ _ | .casTop _ _ => .stealing
  | .returned result => .done result

/-- Values that are not taken are never dropped: they have no destructor. -/
def State.abstract (state : State ι α) : ChaseLev.Spec.State ι α :=
  { items := state.items payload
    owner := state.owner.status payload state.inner
    thief := fun thief => (state.thief thief).status
    freed := [] }

variable {payload} {pushes : Nat} {state : State ι α} {boxed : ChaseLev.State ι α}

theorem reduceOption_window {cell : Int → Option α} {value : Int → α} {low high : Int}
    (filled : ∀ index, low ≤ index → index < high → cell index = some (value index)) :
    (window cell low high).reduceOption = window value low high := by
  have agree : window cell low high = window (fun index => some (value index)) low high :=
    window_congr filled
  rw [agree, ← window_map]
  unfold List.reduceOption
  rw [List.filterMap_map]
  exact List.filterMap_some

/-! ### What the twin makes of it -/

theorem OwnerPc.Stands.present {pc : OwnerPc α} {boxedPc : ChaseLev.OwnerPc α}
    (stands : pc.Stands payload boxedPc) : boxedPc.isDropped = false := by
  cases stands <;> rfl

theorem OwnerPc.Stands.back {pc : OwnerPc α} {boxedPc : ChaseLev.OwnerPc α}
    (stands : pc.Stands payload boxedPc) (bottom : Int) :
    boxedPc.phase.back bottom = pc.back bottom := by
  cases stands with
  | popLoadCell b t buf =>
      change (if t < b then IndexProtocol.Owner.resting else .contending b).back bottom =
        if t < b then bottom else b + 1
      split <;> rfl
  | _ => rfl

theorem OwnerPc.Stands.status {pc : OwnerPc α} {boxedInner : ChaseLev.Inner α} {inner : Inner}
    (innerStands : inner.Stands payload boxedInner) {boxedPc : ChaseLev.OwnerPc α}
    (stands : pc.Stands payload boxedPc) (meets : boxedPc.Meets boxedInner) :
    boxedPc.status boxedInner = pc.status payload inner := by
  cases stands with
  | popLoadCell b t buf =>
      obtain ⟨atBuffer, _bottom, _tNonneg, _tLe, _tTop, filled⟩ := meets
      by_cases below : t < b
      · simp only [ChaseLev.OwnerPc.status, OwnerPc.status, if_pos below]
        obtain ⟨value, valueEq⟩ := Option.ne_none_iff_exists'.mp (filled below)
        have loaded : (boxedInner.heap buf).read b = some value := by
          rw [atBuffer]
          exact valueEq
        have read := (innerStands.heap buf).read b
        rw [loaded] at read
        rw [loaded, read.fromBits]
      · simp only [ChaseLev.OwnerPc.status, OwnerPc.status, if_neg below]
  | resizing resize samePc sameAfter =>
      obtain ⟨_placed, _reached, fits⟩ := meets
      cases sameAfter with
      | push value b => rfl
      | pop same =>
          obtain ⟨value, rfl⟩ := Option.ne_none_iff_exists'.mp fits.1
          simp only [ChaseLev.OwnerPc.status, OwnerPc.status, same.fromBits]
  | popSettleBottom b t won same =>
      obtain ⟨_last, there⟩ := meets
      cases won with
      | false => rfl
      | true =>
          obtain ⟨value, rfl⟩ := Option.ne_none_iff_exists'.mp (there rfl)
          simp only [ChaseLev.OwnerPc.status, OwnerPc.status, if_true, same.fromBits]
  | _ => rfl

theorem ThiefPc.Stands.status {pc : ThiefPc α} {boxedPc : ChaseLev.ThiefPc α}
    (stands : pc.Stands payload boxedPc) : boxedPc.status = pc.status := by
  cases stands <;> rfl

theorem State.Stands.items (stands : state.Stands payload boxed)
    (storage : Storage pushes boxed) :
    boxed.protocol.live.reduceOption = state.items payload := by
  have back : boxed.back = state.owner.back state.inner.bottom := by
    unfold ChaseLev.State.back
    rw [stands.owner.back, stands.inner.bottom]
  rw [ChaseLev.State.protocol_live, back, stands.inner.top]
  apply reduceOption_window
  intro index above below
  rw [← stands.inner.top] at above
  rw [← back] at below
  obtain ⟨value, valueEq⟩ := Option.ne_none_iff_exists'.mp
    (storage.window.filled index above below)
  have read := (stands.inner.heap state.inner.buffer).read index
  have loaded : (boxed.inner.heap state.inner.buffer).read index = some value := by
    rw [← stands.inner.buffer]
    exact valueEq
  rw [loaded] at read
  rw [valueEq, read.fromBits]

variable [Fintype ι]

theorem State.Stands.abstract (stands : state.Stands payload boxed)
    (storage : Storage pushes boxed) : boxed.abstract = state.abstract payload := by
  rw [ChaseLev.State.abstract_of_owner stands.owner.present, stands.items storage,
    stands.owner.status stands.inner storage.owner, stands.inner.freed]
  unfold State.abstract
  congr 1
  funext thief
  exact (stands.thief thief).status

/-! ### Every step -/

variable [DecidableEq ι] {label : Label ι α} {choice : Choice ι α} {after : State ι α}

omit [Fintype ι] [DecidableEq ι] in
theorem State.Stands.setOwner {pc : OwnerPc α} {boxedPc : ChaseLev.OwnerPc α}
    (stands : state.Stands payload boxed) (pcStands : pc.Stands payload boxedPc) :
    State.Stands payload { state with owner := pc } { boxed with owner := boxedPc } :=
  { stands with owner := pcStands }

omit [Fintype ι] in
theorem State.Stands.setThief {boxedInner : ChaseLev.Inner α} {inner : Inner} {thief : ι}
    {pc : ThiefPc α} {boxedPc : ChaseLev.ThiefPc α} (stands : state.Stands payload boxed)
    (innerStands : inner.Stands payload boxedInner) (pcStands : pc.Stands payload boxedPc) :
    State.Stands payload ({ state with inner := inner }.setThief thief pc)
      ({ boxed with inner := boxedInner }.setThief thief boxedPc) := by
  refine
    { inner := innerStands
      cachedTop := stands.cachedTop
      lifo := stands.lifo
      owner := stands.owner
      thief := ?_ }
  intro other
  by_cases same : other = thief
  · subst same
    simp only [State.setThief, ChaseLev.State.setThief, Function.update_self]
    exact pcStands
  · simp only [State.setThief, ChaseLev.State.setThief, Function.update_of_ne same]
    exact stands.thief other

omit [Fintype ι] in
/-- What one step of the inline deque can be. -/
inductive NextMoves (payload : Payload α) (before : State ι α) : Label ι α → State ι α → Prop
  | pushCall (value : α) (atPc : before.owner = .idle) :
      NextMoves payload before (.pushCall value) { before with owner := .pushLoadBottom value }
  | popCall (atPc : before.owner = .idle) :
      NextMoves payload before .popCall { before with owner := .popLoadBottom }
  | owner (spurious : Bool) (access : ChaseLev.Access) (inner : Inner) (cachedTop : Int)
      (pc : OwnerPc α)
      (stepped : ownerStep payload before.inner before.cachedTop spurious before.owner =
        some (access, inner, cachedTop, pc)) :
      NextMoves payload before (.owner access)
        { before with
          inner := inner
          cachedTop := cachedTop
          owner := pc }
  | ownerReturn (result : ChaseLev.OwnerResult α) (atPc : before.owner = .returned result) :
      NextMoves payload before (.ownerReturn result) { before with owner := .idle }
  | newStealer (thief : ι) (atPc : before.thief thief = .absent) :
      NextMoves payload before (.newStealer thief) (before.setThief thief .idle)
  | stealCall (thief : ι) (atPc : before.thief thief = .idle) :
      NextMoves payload before (.stealCall thief) (before.setThief thief .loadTop)
  | thief (thief : ι) (access : ChaseLev.Access) (inner : Inner) (pc : ThiefPc α)
      (stepped : thiefStep payload before.inner (before.thief thief) =
        some (access, inner, pc)) :
      NextMoves payload before (.thief thief access)
        ({ before with inner := inner }.setThief thief pc)
  | stealReturn (thief : ι) (result : Steal α) (atPc : before.thief thief = .returned result) :
      NextMoves payload before (.stealReturn thief result) (before.setThief thief .idle)

omit [Fintype ι] in
theorem next_moves (taken : next payload state choice = some (label, after)) :
    NextMoves payload state label after := by
  cases choice with
  | pushCall value =>
      simp only [next] at taken
      split at taken <;> cases taken
      rename_i atPc
      exact .pushCall value atPc
  | popCall =>
      simp only [next] at taken
      split at taken <;> cases taken
      rename_i atPc
      exact .popCall atPc
  | owner spurious =>
      obtain ⟨moved, stepped, same⟩ := Option.map_eq_some_iff.mp taken
      cases same
      exact .owner spurious _ _ _ _ stepped
  | ownerReturn =>
      simp only [next] at taken
      split at taken <;> cases taken
      rename_i result atPc
      exact .ownerReturn result atPc
  | newStealer thief =>
      simp only [next] at taken
      split at taken <;> cases taken
      rename_i atPc
      exact .newStealer thief atPc
  | stealCall thief =>
      simp only [next] at taken
      split at taken <;> cases taken
      rename_i atPc
      exact .stealCall thief atPc
  | thief thief =>
      obtain ⟨moved, stepped, same⟩ := Option.map_eq_some_iff.mp taken
      cases same
      exact .thief thief _ _ _ stepped
  | stealReturn thief =>
      simp only [next] at taken
      split at taken <;> cases taken
      rename_i result atPc
      exact .stealReturn thief result atPc

theorem State.Stands.next (stands : state.Stands payload boxed)
    (storage : Storage pushes boxed) (taken : next payload state choice = some (label, after))
    (few : pushes + (ChaseLev.Spec.pushed [label]).length < 2 ^ 63) :
    ∃ boxedAfter, after.Stands payload boxedAfter ∧
      Advance (pushes + (ChaseLev.Spec.pushed [label]).length) boxed label boxedAfter := by
  have ownerStands := stands.owner
  cases next_moves taken with
  | pushCall value atPc =>
      rw [atPc] at ownerStands
      generalize boxedAt : boxed.owner = boxedPc at ownerStands
      cases ownerStands
      have called : ChaseLev.next boxed (.pushCall value) =
          some (.pushCall value, { boxed with owner := .pushLoadBottom value }) := by
        simp only [ChaseLev.next, boxedAt]
      exact ⟨_, stands.setOwner (.pushLoadBottom value), storage.next called few⟩
  | popCall atPc =>
      rw [atPc] at ownerStands
      generalize boxedAt : boxed.owner = boxedPc at ownerStands
      cases ownerStands
      have called : ChaseLev.next boxed .popCall =
          some (.popCall, { boxed with owner := .popLoadBottom }) := by
        simp only [ChaseLev.next, boxedAt, stands.lifo]
        rfl
      exact ⟨_, stands.setOwner .popLoadBottom, storage.next called few⟩
  | owner spurious access inner cachedTop owner stepped =>
      obtain ⟨boxedInner, boxedOwner, innerStands, ownerStands, advance⟩ :=
        stands.owner_step storage few stepped
      refine ⟨_, ?_, advance⟩
      exact
        { inner := innerStands
          cachedTop := rfl
          lifo := stands.lifo
          owner := ownerStands
          thief := stands.thief }
  | ownerReturn result atPc =>
      rw [atPc] at ownerStands
      generalize boxedAt : boxed.owner = boxedPc at ownerStands
      cases ownerStands
      have called : ChaseLev.next boxed .ownerReturn =
          some (.ownerReturn result, { boxed with owner := .idle }) := by
        simp only [ChaseLev.next, boxedAt]
      exact ⟨_, stands.setOwner .idle, storage.next called few⟩
  | newStealer thief atPc =>
      have thiefStands := stands.thief thief
      rw [atPc] at thiefStands
      generalize boxedAt : boxed.thief thief = boxedPc at thiefStands
      cases thiefStands
      have called : ChaseLev.next boxed (.newStealer thief) =
          some (.newStealer thief, boxed.setThief thief .idle) := by
        simp only [ChaseLev.next, boxedAt,
          ChaseLev.State.shared_of_owner stands.owner.present, if_true]
      exact ⟨_, stands.setThief stands.inner .idle, storage.next called few⟩
  | stealCall thief atPc =>
      have thiefStands := stands.thief thief
      rw [atPc] at thiefStands
      generalize boxedAt : boxed.thief thief = boxedPc at thiefStands
      cases thiefStands
      have called : ChaseLev.next boxed (.stealCall thief) =
          some (.stealCall thief, boxed.setThief thief (.stealing .loadTop)) := by
        simp only [ChaseLev.next, boxedAt]
      exact ⟨_, stands.setThief stands.inner .loadTop, storage.next called few⟩
  | thief thief access inner pc stepped =>
      obtain ⟨boxedInner, boxedPc, innerStands, pcStands, advance⟩ :=
        stands.thief_step storage few stepped
      exact ⟨_, stands.setThief innerStands pcStands, advance⟩
  | stealReturn thief result atPc =>
      have thiefStands := stands.thief thief
      rw [atPc] at thiefStands
      generalize boxedAt : boxed.thief thief = boxedPc at thiefStands
      cases thiefStands
      have called : ChaseLev.next boxed (.stealReturn thief) =
          some (.stealReturn thief result, boxed.setThief thief .idle) := by
        simp only [ChaseLev.next, boxedAt]
      exact ⟨_, stands.setThief stands.inner .idle, storage.next called few⟩

/-! ### Whole runs -/

omit [Fintype ι] [DecidableEq ι] in
theorem stands_initial (logCap : Nat) :
    (withLogCapacity ι α logCap).Stands payload
      (ChaseLev.withLogCapacity ι α false logCap) :=
  { inner :=
      { bottom := rfl
        top := rfl
        buffer := rfl
        allocated := rfl
        heap := fun _ptr => buffer_alloc_stands (2 ^ (logCap % 64))
        freed := rfl }
    cachedTop := rfl
    lifo := rfl
    owner := .idle
    thief := fun _thief => .absent }

/-- The run so far, as long as its pushes fit the signed index. -/
def Tracked (payload : Payload α) (labels : List (Label ι α)) (state : State ι α) : Prop :=
  (ChaseLev.Spec.pushed labels).length < 2 ^ 63 →
    (∃ boxed, state.Stands payload boxed ∧
      Storage (ChaseLev.Spec.pushed labels).length boxed) ∧
    (ChaseLev.Spec.system ι α false).Reaches labels (state.abstract payload)

theorem tracked_of_reaches {logCap : Nat} {labels : List (Label ι α)}
    (reached : (system payload ι logCap).Reaches labels state) :
    Tracked payload labels state := by
  apply reached.induction
  · rintro start rfl _few
    refine ⟨⟨_, stands_initial logCap, Storage.initial false logCap⟩, ?_⟩
    exact ⟨_, rfl, .refl _⟩
  · rintro labels before label after _reached soFar ⟨choice, taken⟩ few
    rw [ChaseLev.Spec.pushed_append, List.length_append] at few ⊢
    obtain ⟨⟨boxed, stands, storage⟩, spec⟩ := soFar (by omega)
    obtain ⟨boxedAfter, standsAfter, advance⟩ := stands.next storage taken few
    refine ⟨⟨boxedAfter, standsAfter, advance.storage⟩, spec.snoc ?_⟩
    have moved := advance.spec
    rw [stands.lifo, stands.abstract storage, standsAfter.abstract advance.storage] at moved
    exact moved

end WsDeque.Inline
