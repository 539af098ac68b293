import WsDeque.ChaseLev.Handles

/-
The active buffer is never overfilled, and no resize is asked for a buffer that
is too small, whatever the thieves do to `top` meanwhile.
-/

namespace WsDeque.ChaseLev

open MachineWord

variable {ι α : Type*}

/-! ### Shrinking -/

/-- The buffer that a `pop` shrinks into is not below the smallest one. -/
def OwnerPc.ShrinksTo (inner : Inner α) : OwnerPc α → Prop
  | .resizing resize _ (.pop _) => minCapacity ≤ (inner.heap resize.new).cap
  | _ => True

section

variable {worker worker' : Worker} {inner after : Inner α} {spurious : Bool} {pc pc' : OwnerPc α}
  {access : Access}

theorem popReturn_shrinksTo (inner : Inner α) (boxed : Option α) :
    (popReturn boxed).ShrinksTo inner := by
  cases boxed <;> trivial

theorem startResize_shrinksTo (inner : Inner α) (bufPtr : BufferPtr) {newCap : Nat}
    (bottom top : Int) {rest : After α}
    (large : ∀ boxed, rest = .pop boxed → minCapacity ≤ newCap) :
    (startResize inner bufPtr newCap bottom top rest).2.ShrinksTo
      (startResize inner bufPtr newCap bottom top rest).1 := by
  cases rest with
  | push value b => trivial
  | pop boxed =>
      change minCapacity ≤ (Function.update inner.heap inner.allocated (Buffer.alloc newCap)
        inner.allocated).cap
      rw [Function.update_self]
      exact large boxed rfl

/-- A step of the resize leaves the capacities alone. -/
theorem resize_cap (resize : Resize) (inner : Inner α) (spurious : Bool) (pc : ResizePc α)
    (bufPtr : BufferPtr) :
    ((resize.step inner spurious pc).2.1.heap bufPtr).cap = (inner.heap bufPtr).cap := by
  cases pc with
  | copyStore k p =>
      simp only [Resize.step]
      by_cases same : bufPtr = resize.new
      · subst same
        rw [Function.update_self, Buffer.write_cap]
      · rw [Function.update_of_ne same]
  | casRetired head =>
      simp only [Resize.step]
      split <;> rfl
  | free node => cases node <;> rfl
  | _ => rfl

theorem pushGrowOrStore_shrinksTo (inner : Inner α) (value : α) (b : Int) (bufPtr : BufferPtr)
    (t : Int) : (pushGrowOrStore inner value b bufPtr t).2.ShrinksTo
      (pushGrowOrStore inner value b bufPtr t).1 := by
  unfold pushGrowOrStore
  split
  · apply startResize_shrinksTo
    intro boxed impossible
    cases impossible
  · trivial

theorem perhapsShrink_shrinksTo (inner : Inner α) (bottom top : Int) (bufPtr : BufferPtr)
    (boxed : Option α) : (perhapsShrink inner bottom top bufPtr boxed).2.ShrinksTo
      (perhapsShrink inner bottom top bufPtr boxed).1 := by
  simp only [perhapsShrink]
  split
  · apply startResize_shrinksTo
    intro _boxed _same
    exact Nat.le_max_right _ _
  · exact popReturn_shrinksTo inner boxed

theorem ownerStep_shrinksTo (shrinksTo : pc.ShrinksTo inner)
    (taken : ownerStep worker inner spurious pc = some (access, worker', after, pc')) :
    pc'.ShrinksTo after := by
  cases pc with
  | idle => cases taken
  | returned result => cases taken
  | fault => cases taken
  | dropped => cases taken
  | pushLoadBuffer value b =>
      simp only [ownerStep] at taken
      split at taken
      · cases taken
        trivial
      · have both := pushGrowOrStore_shrinksTo inner value b inner.buffer worker.cachedTop
        simp only [Option.some.injEq, Prod.mk.injEq] at taken
        rw [taken.2.2] at both
        exact both
  | pushLoadTop value b bufPtr =>
      have both := pushGrowOrStore_shrinksTo inner value b bufPtr inner.top
      simp only [ownerStep, Option.some.injEq, Prod.mk.injEq] at taken
      rw [taken.2.2] at both
      exact both
  | resizing resize at' rest =>
      have caps := resize_cap resize inner spurious at' resize.new
      simp only [ownerStep] at taken
      cases moved : resize.step inner spurious at' with
      | mk access' stepped =>
          obtain ⟨inner', next⟩ := stepped
          rw [moved] at taken caps
          cases next with
          | some pc'' =>
              cases taken
              cases rest with
              | push value b => trivial
              | pop boxed =>
                  change minCapacity ≤ (after.heap resize.new).cap
                  rw [caps]
                  exact shrinksTo
          | none =>
              cases taken
              cases rest with
              | push value b => trivial
              | pop boxed => exact popReturn_shrinksTo ..
  | popLoadTop b bufPtr =>
      simp only [ownerStep] at taken
      cases taken
      split <;> trivial
  | popLoadCell b t bufPtr =>
      simp only [ownerStep] at taken
      split at taken
      · have both := perhapsShrink_shrinksTo inner b t bufPtr ((inner.heap bufPtr).read b)
        simp only [Option.some.injEq, Prod.mk.injEq] at taken
        rw [taken.2.2] at both
        exact both
      · cases taken
        trivial
  | popCasTop b t boxed =>
      simp only [ownerStep] at taken
      split at taken <;> cases taken <;> trivial
  | popSettleBottom b t boxed won =>
      cases taken
      cases won with
      | true => exact popReturn_shrinksTo ..
      | false => trivial
  | popFifo stealPc =>
      simp only [ownerStep] at taken
      split at taken <;> cases taken <;> trivial
  | _ =>
      cases taken
      trivial

theorem stealFrom_heap (inner : Inner α) (pc : StealPc α) :
    (stealFrom inner pc).2.1.heap = inner.heap := by
  cases pc with
  | casTop t boxed =>
      simp only [stealFrom]
      split <;> rfl
  | _ => rfl

end

variable [Fintype ι] [DecidableEq ι] {state after : State ι α} {choice : Choice ι α}
  {label : Label ι α}

omit [DecidableEq ι] in
theorem release_shrinksTo (shrinksTo : state.owner.ShrinksTo state.inner) :
    state.release.owner.ShrinksTo state.release.inner := by
  unfold State.release
  split <;> exact shrinksTo

theorem next_shrinksTo (shrinksTo : state.owner.ShrinksTo state.inner)
    (taken : next state choice = some (label, after)) :
    after.owner.ShrinksTo after.inner := by
  cases next_moves taken with
  | pushCall value atPc => trivial
  | popCall atPc =>
      dsimp only
      split <;> trivial
  | owner spurious access worker inner pc stepped => exact ownerStep_shrinksTo shrinksTo stepped
  | ownerReturn result atPc => trivial
  | stealCall thief atPc | stealReturn thief result atPc | newStealer thief atPc shared =>
      exact shrinksTo
  | thief thief pc atPc =>
      have heap := stealFrom_heap state.inner pc
      change state.owner.ShrinksTo (stealFrom state.inner pc).2.1
      cases owner : state.owner with
      | resizing resize at' rest =>
          rw [owner] at shrinksTo
          cases rest with
          | push value b => trivial
          | pop boxed =>
              change minCapacity ≤ ((stealFrom state.inner pc).2.1.heap resize.new).cap
              rw [heap]
              exact shrinksTo
      | _ => trivial
  | dropStealer thief atPc => exact release_shrinksTo shrinksTo
  | dropWorker atPc =>
      apply release_shrinksTo
      trivial

theorem shrinksTo_of_reaches {fifo : Bool} {logInitialCap : Nat} {labels : List (Label ι α)}
    (reached : (system ι α fifo logInitialCap).Reaches labels state) :
    state.owner.ShrinksTo state.inner := by
  apply TransitionSystem.Reachable.induction _ _ reached.reachable
  · rintro start rfl
    trivial
  · rintro before label after shrinksTo ⟨choice, taken⟩
    exact next_shrinksTo shrinksTo taken

/-! ### Room -/

/-- What `push`, `pop` and `resized` rely on. -/
structure State.Roomy (state : State ι α) : Prop where
  cached : ∀ value b bufPtr, state.owner = .pushStoreCell value b bufPtr →
    state.worker.cachedTop ≤ state.inner.top
  unused : ∀ value b bufPtr, state.owner = .pushStoreCell value b bufPtr →
    bufPtr = state.inner.buffer ∧
      ∀ index, state.inner.top ≤ index → index < state.inner.bottom →
        state.inner.active.cell index ≠ state.inner.active.cell b
  pushed : state.owner = .returned .pushed →
    state.inner.bottom - state.inner.top ≤ state.inner.active.cap - 1
  powerOfTwo : ∀ bufPtr, ∃ exponent, (state.inner.heap bufPtr).cap = 2 ^ exponent
  shrunk : ∀ resize pc boxed, state.owner = .resizing resize pc (.pop boxed) →
    minCapacity ≤ (state.inner.heap resize.new).cap
  asserted : ∀ resize pc rest, state.owner = .resizing resize pc rest →
    resize.count = resize.bottom - resize.top ∧ 0 ≤ resize.count ∧
      resize.count ≤ (state.inner.heap resize.new).cap - 1
  covered : ∀ resize pc rest, state.owner = .resizing resize pc rest →
    ∀ index, state.inner.top ≤ index → index < state.inner.bottom →
      resize.top ≤ index ∧ index < resize.bottom
  copied : ∀ resize rest, state.owner = .resizing resize .storeBuffer rest →
    ∀ index, state.inner.top ≤ index → index < state.inner.bottom →
      (state.inner.heap resize.new).read index = state.inner.active.read index

section

variable {pushes : Nat} {state : State ι α}

omit [Fintype ι] [DecidableEq ι]

/-- An index that is less than a capacity below another has its own cell. -/
theorem cell_ne_of_near {buffer : Buffer α} {exponent : Nat} (small : exponent ≤ 63)
    (capEq : buffer.cap = 2 ^ exponent) {index other : Int} (below : index < other)
    (near : other - index < buffer.cap) : buffer.cell index ≠ buffer.cell other := by
  rw [Buffer.cell_eq small capEq, Buffer.cell_eq small capEq]
  intro same
  have positive : 0 < buffer.cap := by
    rw [capEq]
    exact Nat.two_pow_pos exponent
  have equal := eq_of_toNat_emod_eq same positive near (by omega)
  omega

theorem Storage.unused (storage : Storage pushes state) {value : α} {b : Int}
    {bufPtr : BufferPtr} (atPc : state.owner = .pushStoreCell value b bufPtr) :
    bufPtr = state.inner.buffer ∧
      ∀ index, state.inner.top ≤ index → index < state.inner.bottom →
        state.inner.active.cell index ≠ state.inner.active.cell b := by
  have meets := storage.owner
  rw [atPc] at meets
  obtain ⟨rfl, rfl, room⟩ := meets
  refine ⟨rfl, ?_⟩
  intro index above below
  obtain ⟨exponent, small, capEq⟩ := storage.window.powerOfTwo state.inner.buffer
  have near : state.inner.bottom - index < state.inner.active.cap := by omega
  exact cell_ne_of_near small capEq below near

theorem Storage.asserted (storage : Storage pushes state) (few : pushes < 2 ^ 63)
    {resize : Resize} {pc : ResizePc α} {rest : After α}
    (atPc : state.owner = .resizing resize pc rest) :
    resize.count = resize.bottom - resize.top ∧ 0 ≤ resize.count ∧
      resize.count ≤ (state.inner.heap resize.new).cap - 1 := by
  have resting : state.owner.phase = .resting := by
    rw [atPc]
    rfl
  have level := storage.level resting
  have back := storage.back_le
  rw [Storage.back_of_resting resting] at back
  have meets := storage.owner
  rw [atPc] at meets
  obtain ⟨⟨bottom, topNonneg, topLe, _allocated, _distinct⟩, _pc, fits⟩ := meets
  have count : resize.count = resize.bottom - resize.top :=
    wrappingSub_of_range (by omega) (by omega)
  refine ⟨count, by omega, ?_⟩
  cases rest with
  | push value b =>
      have below := fits.2
      omega
  | pop boxed =>
      have below := fits.2
      omega

theorem Storage.roomy (storage : Storage pushes state) (few : pushes < 2 ^ 63)
    (shrinksTo : state.owner.ShrinksTo state.inner) : state.Roomy where
  cached := fun _value _b _bufPtr _atPc => storage.cachedLe
  unused := fun _value _b _bufPtr atPc => storage.unused atPc
  pushed := by
    intro atPc
    have room := storage.window.room
    rwa [State.back, atPc] at room
  powerOfTwo := by
    intro bufPtr
    obtain ⟨exponent, _small, capEq⟩ := storage.window.powerOfTwo bufPtr
    exact ⟨exponent, capEq⟩
  shrunk := by
    intro resize pc boxed atPc
    rw [atPc] at shrinksTo
    exact shrinksTo
  asserted := fun _resize _pc _rest atPc => storage.asserted few atPc
  covered := by
    intro resize pc rest atPc index above below
    have meets := storage.owner
    rw [atPc] at meets
    obtain ⟨⟨bottom, _topNonneg, topLe, _allocated, _distinct⟩, _rest⟩ := meets
    exact ⟨Int.le_trans topLe above, bottom.symm ▸ below⟩
  copied := by
    intro resize rest atPc index above below
    have meets := storage.owner
    rw [atPc] at meets
    obtain ⟨⟨bottom, _topNonneg, topLe, _allocated, _distinct⟩, ⟨old, same⟩, _fits⟩ := meets
    have copied := same (index - resize.top).toNat (by omega)
    have offset : resize.top + ((index - resize.top).toNat : Int) = index := by omega
    rw [offset, ← old] at copied
    exact copied

end

/-- No interleaving overfills a buffer or fails the assertion of `resized`. -/
theorem never_overfilled {fifo : Bool} {logInitialCap : Nat} {labels : List (Label ι α)}
    (reached : (system ι α fifo logInitialCap).Reaches labels state)
    (few : (Spec.pushed labels).length < 2 ^ 63) : state.Roomy := by
  obtain ⟨storage, _mode, _spec⟩ := tracked_of_reaches reached few
  exact storage.roomy few (shrinksTo_of_reaches reached)

/-- Into one cell: the first push grows the buffer. -/
def growAtOnce : List (Choice (Fin 1) Nat) :=
  [.pushCall 7, .owner false, .owner false, .owner false]

theorem never_overfilled_growAtOnce :
    ∃ labels state resize pc rest, (system (Fin 1) Nat false 0).Reaches labels state ∧
      state.owner = .resizing resize pc rest ∧ (state.inner.heap resize.new).cap = 2 ∧
        state.Roomy := by
  have reached : (system (Fin 1) Nat false 0).Reaches _ _ :=
    ⟨_, rfl, TransitionSystem.execute_run growAtOnce rfl⟩
  exact ⟨_, _, _, _, _, reached, rfl, rfl, never_overfilled reached (by decide)⟩

end WsDeque.ChaseLev
