import WsDeque.ChaseLev.Capacity
import WsDeque.DynamicTable

/-
What the resizes cost over a whole run, with thieves emptying the deque at any
moment: each push pays for a fixed number of cells.
-/

namespace WsDeque.ChaseLev

open MachineWord DynamicTable

variable {ι α : Type*}

def Label.isCellStore : Label ι α → Bool
  | .owner .storeCell => true
  | _ => false

/-- The cells that were written, by pushes and by copying. -/
def cellStores (labels : List (Label ι α)) : Nat :=
  labels.countP Label.isCellStore

/-- The cells of all buffers there have been, freed ones included. -/
def Inner.cellsAllocated (inner : Inner α) : Nat :=
  ∑ bufPtr ∈ Finset.range inner.allocated, (inner.heap bufPtr).cap

/-! ### What is owed -/

def ResizePc.copiesLeft (resize : Resize) : ResizePc α → Nat
  | .copyLoad k | .copyStore k _ => resize.count.toNat - k
  | _ => 0

def After.paidIn : After α → Nat
  | .push _ _ => 45
  | .pop _ => 0

/-- What the running push has paid in and not used yet, and the copies that are to be made. -/
def OwnerPc.owed : OwnerPc α → Nat
  | .pushLoadBottom _ | .pushLoadBuffer _ _ | .pushLoadTop _ _ _ | .pushStoreCell _ _ _ => 45
  | .pushStoreBottom _ _ => 42
  | .resizing resize pc after => after.paidIn + 3 * pc.copiesLeft resize
  | _ => 0

/-- The capacity of the buffer in use, or of the one that is being filled to replace it. -/
def OwnerPc.room (inner : Inner α) : OwnerPc α → Nat
  | .resizing resize _ _ => (inner.heap resize.new).cap
  | _ => inner.active.cap

/-- Cells made so far, and what is put by for those to come. -/
def OwnerPc.account (inner : Inner α) (size : Nat) (pc : OwnerPc α) : Nat :=
  3 * inner.cellsAllocated + pc.owed + savings (pc.room inner) size

def Access.cellStores : Access → Nat
  | .storeCell => 1
  | _ => 0

section

variable {inner after : Inner α} {pc : OwnerPc α} {size : Nat}

theorem OwnerPc.account_mono {other : Nat} (fewer : size ≤ other) (inner : Inner α)
    (pc : OwnerPc α) : pc.account inner size ≤ pc.account inner other :=
  Nat.add_le_add_left (savings_mono fewer) _

/-- A step that makes no buffer leaves the capacities alone. -/
structure Inner.SameCaps (inner after : Inner α) : Prop where
  allocated : after.allocated = inner.allocated
  cap : ∀ bufPtr, (after.heap bufPtr).cap = (inner.heap bufPtr).cap

theorem Inner.SameCaps.cellsAllocated (same : inner.SameCaps after) :
    after.cellsAllocated = inner.cellsAllocated := by
  unfold Inner.cellsAllocated
  rw [same.allocated]
  exact Finset.sum_congr rfl fun bufPtr _member => same.cap bufPtr

theorem Inner.SameCaps.account (same : inner.SameCaps after)
    (buffer : after.buffer = inner.buffer) (size : Nat) (pc : OwnerPc α) :
    pc.account after size = pc.account inner size := by
  have room : pc.room after = pc.room inner := by
    cases pc with
    | resizing resize at' rest => exact same.cap resize.new
    | _ =>
        simp only [OwnerPc.room, Inner.active, buffer]
        exact same.cap inner.buffer
  unfold OwnerPc.account
  rw [same.cellsAllocated, room]

theorem write_sameCaps (inner : Inner α) (bufPtr : BufferPtr) (index : Int) (boxed : Option α) :
    inner.SameCaps
      { inner with
        heap := Function.update inner.heap bufPtr ((inner.heap bufPtr).write index boxed) } := by
  refine ⟨rfl, fun other => ?_⟩
  change (Function.update inner.heap bufPtr ((inner.heap bufPtr).write index boxed) other).cap = _
  by_cases written : other = bufPtr
  · rw [written, Function.update_self, Buffer.write_cap]
  · rw [Function.update_of_ne written]

theorem stealFrom_sameCaps (inner : Inner α) (pc : StealPc α) :
    inner.SameCaps (stealFrom inner pc).2.1 ∧ (stealFrom inner pc).2.1.buffer = inner.buffer := by
  cases pc with
  | casTop t boxed =>
      simp only [stealFrom]
      split <;> exact ⟨⟨rfl, fun _bufPtr => rfl⟩, rfl⟩
  | _ => exact ⟨⟨rfl, fun _bufPtr => rfl⟩, rfl⟩

theorem stealFrom_cellStores (inner : Inner α) (pc : StealPc α) :
    (stealFrom inner pc).1.cellStores = 0 := by
  cases pc with
  | casTop t boxed =>
      simp only [stealFrom]
      split <;> rfl
  | _ => rfl

theorem startResize_cellsAllocated (inner : Inner α) (bufPtr : BufferPtr) (newCap : Nat)
    (bottom top : Int) (rest : After α) :
    (startResize inner bufPtr newCap bottom top rest).1.cellsAllocated =
      inner.cellsAllocated + newCap := by
  change ∑ other ∈ Finset.range (inner.allocated + 1),
    (Function.update inner.heap inner.allocated (Buffer.alloc newCap) other).cap = _
  rw [Finset.sum_range_succ, Function.update_self]
  congr 1
  refine Finset.sum_congr rfl fun other member => ?_
  rw [Function.update_of_ne (Nat.ne_of_lt (Finset.mem_range.mp member))]

theorem Resize.copiesLeft_copyFrom (resize : Resize) (k : Nat) :
    (resize.copyFrom k : ResizePc α).copiesLeft resize = resize.count.toNat - k := by
  unfold Resize.copyFrom
  split
  · rfl
  · change 0 = _
    omega

theorem resize_sameCaps (resize : Resize) (inner : Inner α) (spurious : Bool)
    (pc : ResizePc α) : inner.SameCaps (resize.step inner spurious pc).2.1 := by
  refine ⟨?_, fun bufPtr => resize_cap resize inner spurious pc bufPtr⟩
  cases pc with
  | casRetired head =>
      simp only [Resize.step]
      split <;> rfl
  | free node => cases node <;> rfl
  | _ => rfl

theorem resize_early (resize : Resize) (inner : Inner α) (spurious : Bool) (pc : ResizePc α) :
    (resize.step inner spurious pc).1 ≠ .storeBottom := by
  cases pc with
  | casRetired head =>
      simp only [Resize.step]
      split <;> exact Access.noConfusion
  | free node => cases node <;> exact Access.noConfusion
  | _ => exact Access.noConfusion

/-- Whoever is done with a resize has the new buffer in use. -/
theorem resize_finished {resize : Resize} {pc : ResizePc α} (spurious : Bool)
    (reached : pc.Meets inner resize) (done : (resize.step inner spurious pc).2.2 = none) :
    (resize.step inner spurious pc).2.1.buffer = resize.new := by
  cases pc with
  | copyLoad k | copyStore k p | storeBuffer | loadRetired => cases done
  | casRetired head =>
      simp only [Resize.step] at done
      split at done <;> cases done
  | loadInFlight | swapRetired => exact reached
  | free node => cases node <;> exact reached

theorem resize_copies {resize : Resize} {pc : ResizePc α} (spurious : Bool)
    (reached : pc.Meets inner resize) (count : resize.count = resize.bottom - resize.top) :
    (resize.step inner spurious pc).1.cellStores +
        (resize.step inner spurious pc).2.2.elim 0 (ResizePc.copiesLeft resize) ≤
      pc.copiesLeft resize := by
  cases pc with
  | copyLoad k => exact Nat.le_of_eq (Nat.zero_add _)
  | copyStore k p =>
      have below := reached.2.1
      change 1 + (resize.copyFrom (k + 1)).copiesLeft resize ≤ resize.count.toNat - k
      rw [Resize.copiesLeft_copyFrom]
      omega
  | casRetired head =>
      simp only [Resize.step]
      split <;> exact Nat.le_refl 0
  | loadInFlight | swapRetired =>
      simp only [Resize.step]
      split <;> exact Nat.le_refl 0
  | free node =>
      cases node with
      | nil => exact Nat.le_refl 0
      | cons buffer next =>
          simp only [Resize.step]
          split <;> exact Nat.le_refl 0
  | _ => exact Nat.le_refl 0

theorem popReturn_account (inner : Inner α) (size : Nat) (boxed : Option α) :
    (popReturn boxed).account inner size =
      3 * inner.cellsAllocated + savings inner.active.cap size := by
  cases boxed <;> rfl

theorem finishResize_account (inner : Inner α) (size : Nat) (resize : Resize) (rest : After α) :
    (finishResize resize rest).account inner size =
      3 * inner.cellsAllocated + rest.paidIn + savings inner.active.cap size := by
  cases rest with
  | push value b => rfl
  | pop boxed => exact popReturn_account inner size boxed

/-- The new element is saved for. -/
theorem storeBottom_account (inner : Inner α) (value : α) (b : Int) (size : Nat) :
    (OwnerPc.returned .pushed).account { inner with bottom := wrappingAdd b 1 } (size + 1) ≤
      (OwnerPc.pushStoreBottom value b).account inner size := by
  have saved := savings_succ inner.active.cap size
  change 3 * inner.cellsAllocated + 0 + savings inner.active.cap (size + 1) ≤
    3 * inner.cellsAllocated + 42 + savings inner.active.cap size
  omega

/-- A capacity above the smallest one is even. -/
theorem two_mul_halved {cap exponent : Nat} (powerOfTwo : cap = 2 ^ exponent)
    (large : minCapacity < cap) : 2 * max (cap / 2) minCapacity = cap := by
  subst powerOfTwo
  unfold minCapacity at large ⊢
  have above : 4 < exponent := (Nat.pow_lt_pow_iff_right (by decide : 1 < 2)).mp large
  obtain ⟨rest, rfl⟩ := Nat.exists_eq_add_of_le' above
  have positive := Nat.two_pow_pos rest
  rw [Nat.pow_add]
  omega

/-- A new buffer and the copies into it are taken from the savings. -/
theorem startResize_account (inner : Inner α) (bufPtr : BufferPtr) (newCap : Nat)
    (bottom top : Int) (rest : After α) (size : Nat) :
    (startResize inner bufPtr newCap bottom top rest).2.account
        (startResize inner bufPtr newCap bottom top rest).1 size =
      3 * inner.cellsAllocated + rest.paidIn +
        (savings newCap size + 3 * ((wrappingSub bottom top).toNat + newCap)) := by
  have cells := startResize_cellsAllocated inner bufPtr newCap bottom top rest
  have room : (startResize inner bufPtr newCap bottom top rest).2.room
      (startResize inner bufPtr newCap bottom top rest).1 = newCap := by
    change (Function.update inner.heap inner.allocated (Buffer.alloc newCap)
      inner.allocated).cap = _
    rw [Function.update_self]
    rfl
  unfold OwnerPc.account
  rw [cells, room]
  simp only [startResize, OwnerPc.owed, Resize.copiesLeft_copyFrom, Resize.count]
  omega

end

/-! ### The owner -/

section

variable [Fintype ι] [DecidableEq ι] {pushes : Nat} {state : State ι α} {worker : Worker}
  {inner : Inner α} {spurious : Bool} {pc : OwnerPc α} {access : Access}

omit [Fintype ι] [DecidableEq ι] in
/-- Each copy is owed until it is made. -/
theorem Storage.resize_pays (storage : Storage pushes state) (few : pushes < 2 ^ 63)
    {resize : Resize} {at' : ResizePc α} {rest : After α}
    (atPc : state.owner = .resizing resize at' rest)
    (stepped : ChaseLev.ownerStep state.worker state.inner spurious (.resizing resize at' rest) =
      some (access, worker, inner, pc)) (size : Nat) :
    3 * access.cellStores + pc.account inner size ≤
      (OwnerPc.resizing resize at' rest).account state.inner size := by
  have meets := storage.owner
  rw [atPc] at meets
  obtain ⟨_placed, reached, _fits⟩ := meets
  obtain ⟨count, _nonneg, _room⟩ := storage.asserted few atPc
  have copies := resize_copies spurious reached count
  have finished := resize_finished spurious reached
  have same := resize_sameCaps resize state.inner spurious at'
  have cells := same.cellsAllocated
  have room := same.cap resize.new
  simp only [ChaseLev.ownerStep] at stepped
  split at stepped
  · rename_i access' inner' pc' moved
    cases stepped
    rw [moved] at copies cells room
    change (inner.heap resize.new).cap = _ at room
    simp only [OwnerPc.account, OwnerPc.owed, OwnerPc.room, cells, room]
    simp only [Option.elim_some] at copies
    omega
  · rename_i access' inner' moved
    cases stepped
    rw [moved] at copies cells room finished
    change (inner.heap resize.new).cap = _ at room
    have active : inner.active.cap = (state.inner.heap resize.new).cap := by
      unfold Inner.active
      rw [finished rfl, room]
    rw [finishResize_account, cells, active]
    simp only [OwnerPc.account, OwnerPc.owed, OwnerPc.room]
    simp only [Option.elim_none] at copies
    omega

theorem Storage.push_pays (storage : Storage pushes state) (few : pushes < 2 ^ 63)
    (value : α) {t : Int} (phase : state.owner.phase = .resting)
    (present : state.owner.isDropped = false) (pending : state.owner.pendingPushes = 1)
    (tNonneg : 0 ≤ t) (tLe : t ≤ state.inner.top)
    (current : t = state.inner.top ∨
      mightBeFull state.inner state.inner.buffer state.inner.bottom t = false) :
    (ChaseLev.pushGrowOrStore state.inner value state.inner.bottom state.inner.buffer t).2.account
        (ChaseLev.pushGrowOrStore state.inner value state.inner.bottom state.inner.buffer t).1
        state.abstract.items.length ≤
      3 * state.inner.cellsAllocated + 45 +
        savings state.inner.active.cap state.abstract.items.length := by
  have level := storage.level phase
  have bound := storage.bound
  rw [Storage.back_of_resting phase, pending] at bound
  have fits := storage.window.room
  rw [Storage.back_of_resting phase] at fits
  have topNonneg := storage.window.topNonneg
  obtain ⟨exponent, small, capEq⟩ := storage.window.powerOfTwo state.inner.buffer
  have full := mightBeFull_iff (b := state.inner.bottom) (t := t) small capEq (by omega) (by omega)
  unfold ChaseLev.pushGrowOrStore
  by_cases grows : mightBeFull state.inner state.inner.buffer state.inner.bottom t = true
  · obtain rfl : t = state.inner.top := current.resolve_right (by rw [grows]; decide)
    have crowded := full.mp grows
    change ((state.inner.active.cap : Nat) : Int) - 1 ≤ _ at crowded
    have smaller : exponent < 63 := by
      apply (Nat.pow_lt_pow_iff_right (by decide : 1 < 2)).mp
      rw [← capEq]
      change state.inner.active.cap < _
      omega
    have doubled : (state.inner.heap state.inner.buffer).cap * 2 % 2 ^ 64 =
        2 * state.inner.active.cap := by
      change state.inner.active.cap * 2 % 2 ^ 64 = _
      rw [Nat.mul_comm]
      apply Nat.mod_eq_of_lt
      omega
    have size := storage.items_length (State.shared_of_owner present)
    rw [Storage.back_of_resting phase] at size
    have held : state.abstract.items.length + 1 = state.inner.active.cap := by omega
    rw [if_pos grows, doubled, startResize_account,
      wrappingSub_of_range (by omega) (by omega), ← size]
    exact Nat.add_le_add_left (savings_double held) _
  · rw [if_neg grows]
    exact Nat.le_refl _

theorem Storage.pop_pays (storage : Storage pushes state) (few : pushes < 2 ^ 63)
    {b t : Int} (bottom : state.inner.bottom = b) (tNonneg : 0 ≤ t) (below : t < b)
    (tLe : t ≤ state.inner.top) (phase : state.owner.phase = .resting)
    (present : state.owner.isDropped = false) (boxed : Option α) :
    (perhapsShrink state.inner b t state.inner.buffer boxed).2.account
        (perhapsShrink state.inner b t state.inner.buffer boxed).1
        state.abstract.items.length ≤
      3 * state.inner.cellsAllocated +
        savings state.inner.active.cap state.abstract.items.length := by
  have back := storage.back_le
  rw [Storage.back_of_resting phase] at back
  have size := storage.items_length (State.shared_of_owner present)
  rw [Storage.back_of_resting phase] at size
  have count : wrappingSub b t = b - t := wrappingSub_of_range (by omega) (by omega)
  simp only [perhapsShrink]
  split
  · rename_i shrinks
    obtain ⟨large, third⟩ := shrinks
    obtain ⟨exponent, _small, capEq⟩ := storage.window.powerOfTwo state.inner.buffer
    have half : 2 * max (state.inner.active.cap / 2) minCapacity = state.inner.active.cap :=
      two_mul_halved capEq large
    have moved : 3 * ((b - t).toNat + 1) ≤ state.inner.active.cap := by
      rw [count] at third
      change (max (b - t) 0).toNat < state.inner.active.cap / 3 at third
      omega
    have fewer : state.abstract.items.length ≤ (b - t).toNat := by omega
    have paid := savings_halve half moved fewer
    rw [startResize_account, count]
    change 3 * state.inner.cellsAllocated + 0 + _ ≤ _
    exact Nat.add_le_add_left paid _
  · exact Nat.le_of_eq (popReturn_account ..)

/-- As long as the deque has not grown by an element, a step costs what it takes from
the account. -/
theorem Storage.owner_pays (storage : Storage pushes state) (few : pushes < 2 ^ 63)
    (stepped : ChaseLev.ownerStep state.worker state.inner spurious state.owner =
      some (access, worker, inner, pc)) :
    3 * access.cellStores + pc.account inner state.abstract.items.length ≤
      state.owner.account state.inner state.abstract.items.length := by
  have meets := storage.owner
  have back := storage.back_le
  cases atPc : state.owner with
  | resizing resize at' rest =>
      rw [atPc] at stepped
      exact storage.resize_pays few atPc stepped _
  | pushLoadBuffer value b =>
      rw [atPc] at stepped meets
      obtain rfl : b = state.inner.bottom := meets
      simp only [ChaseLev.ownerStep] at stepped
      split at stepped
      · cases stepped
        exact Nat.le_of_eq (Nat.zero_add _)
      · rename_i roomy
        have paid := storage.push_pays few value (t := state.worker.cachedTop)
          (by rw [atPc]; rfl) (by rw [atPc]; rfl) (by rw [atPc]; rfl) storage.cachedNonneg
          storage.cachedLe (.inr (Bool.eq_false_iff.mpr roomy))
        simp only [Option.some.injEq, Prod.mk.injEq] at stepped
        obtain ⟨rfl, -, moved⟩ := stepped
        rw [moved] at paid
        exact (Nat.zero_add _).trans_le paid
  | pushLoadTop value b bufPtr =>
      rw [atPc] at stepped meets
      obtain ⟨rfl, rfl⟩ := meets
      have paid := storage.push_pays few value (t := state.inner.top)
        (by rw [atPc]; rfl) (by rw [atPc]; rfl) (by rw [atPc]; rfl) storage.window.topNonneg
        (Int.le_refl _) (.inl rfl)
      simp only [ChaseLev.ownerStep, Option.some.injEq, Prod.mk.injEq] at stepped
      obtain ⟨rfl, -, moved⟩ := stepped
      rw [moved] at paid
      exact (Nat.zero_add _).trans_le paid
  | pushStoreCell value b bufPtr =>
      rw [atPc] at stepped
      cases stepped
      rw [(write_sameCaps state.inner bufPtr b (some value)).account rfl]
      simp only [OwnerPc.account, OwnerPc.owed, OwnerPc.room, Access.cellStores]
      omega
  | popLoadCell b t bufPtr =>
      rw [atPc] at stepped meets
      obtain ⟨rfl, bottom, tNonneg, _tLe, tTop, _held⟩ := meets
      simp only [ChaseLev.ownerStep] at stepped
      split at stepped
      · rename_i several
        have below : t < b := by
          have near := storage.bottom_near_back
          rw [wrappingSub_of_range (by omega) (by omega)] at several
          omega
        have paid := storage.pop_pays few bottom tNonneg below tTop
          (by rw [atPc]; exact if_pos below) (by rw [atPc]; rfl)
          ((state.inner.heap state.inner.buffer).read b)
        simp only [Option.some.injEq, Prod.mk.injEq] at stepped
        obtain ⟨rfl, -, moved⟩ := stepped
        rw [moved] at paid
        exact (Nat.zero_add _).trans_le paid
      · cases stepped
        exact Nat.le_of_eq (Nat.zero_add _)
  | popCasTop b t boxed =>
      rw [atPc] at stepped
      simp only [ChaseLev.ownerStep] at stepped
      split at stepped <;> cases stepped <;> exact Nat.le_of_eq (Nat.zero_add _)
  | popSettleBottom b t boxed won =>
      rw [atPc] at stepped
      cases stepped
      cases won with
      | true => exact Nat.le_of_eq ((Nat.zero_add _).trans (popReturn_account ..))
      | false => exact Nat.le_of_eq (Nat.zero_add _)
  | popFifo at' =>
      obtain ⟨same, buffer⟩ := stealFrom_sameCaps state.inner at'
      have stores := stealFrom_cellStores state.inner at'
      rw [atPc] at stepped
      simp only [ChaseLev.ownerStep] at stepped
      split at stepped
      all_goals
        rename_i taken
        cases stepped
        rw [taken] at same buffer stores
        change access.cellStores = 0 at stores
        rw [same.account buffer, stores]
        exact Nat.le_of_eq (Nat.zero_add _)
  | popLoadTop b bufPtr =>
      rw [atPc] at stepped
      simp only [ChaseLev.ownerStep] at stepped
      cases stepped
      split <;> exact Nat.le_of_eq (Nat.zero_add _)
  | idle | returned result | fault | dropped =>
      rw [atPc] at stepped
      cases stepped
  | pushStoreBottom value b =>
      rw [atPc] at stepped
      cases stepped
      refine (Nat.zero_add _).trans_le ((OwnerPc.account_mono (Nat.le_succ _) _ _).trans ?_)
      exact storeBottom_account ..
  | _ =>
      rw [atPc] at stepped
      cases stepped
      exact Nat.le_of_eq (Nat.zero_add _)

omit [Fintype ι] in
/-- The deque grows by one element, when a push stores `bottom`, or not at all. -/
theorem Spec.Step.items_le {fifo : Bool} {before after : Spec.State ι α} {label : Label ι α}
    (step : Spec.Step fifo before label after) :
    after.items.length ≤ before.items.length ∨
      label = .owner .storeBottom ∧ (∃ value, before.owner = .pushing value) ∧
        after.items.length = before.items.length + 1 := by
  cases step with
  | pushAppend value pushing => exact .inr ⟨rfl, ⟨value, pushing⟩, List.length_append⟩
  | popBack rest value lifo contesting back =>
      rw [back]
      exact .inl (by simp)
  | popWin value lifo contesting last => exact .inl (Nat.zero_le _)
  | popFront value rest isFifo popping front | stealFront thief value rest stealing front =>
      rw [front]
      exact .inl (Nat.le_succ _)
  | dropStealer thief after idle released | dropWorker after idle released =>
      cases released with
      | kept shared => exact .inl (Nat.le_refl _)
      | freed unshared => exact .inl (Nat.zero_le _)
  | _ => exact .inl (Nat.le_refl _)

/-- A push in progress stores `bottom` at one point. -/
theorem at_pushStoreBottom {value : α} (pushing : pc.status inner = .pushing value)
    {after : Inner α} {pc' : OwnerPc α} {worker' : Worker}
    (stepped : ownerStep worker inner spurious pc = some (.storeBottom, worker', after, pc')) :
    ∃ b, pc = .pushStoreBottom value b := by
  cases pc with
  | pushStoreBottom other b =>
      cases pushing
      exact ⟨b, rfl⟩
  | pushLoadBuffer other b =>
      simp only [ownerStep] at stepped
      split at stepped <;> cases stepped
  | resizing resize at' rest =>
      have early := resize_early resize inner spurious at'
      simp only [ownerStep] at stepped
      split at stepped
      all_goals
        rename_i moved
        cases stepped
        rw [moved] at early
        exact absurd rfl early
  | popLoadCell b t bufPtr =>
      simp only [OwnerPc.status] at pushing
      split at pushing <;> cases pushing
  | pushLoadBottom other | pushLoadTop other b bufPtr | pushStoreCell other b bufPtr =>
      cases stepped
  | _ => cases pushing

/-! ### Whole runs -/

def State.account (state : State ι α) : Nat :=
  state.owner.account state.inner state.abstract.items.length

omit [DecidableEq ι] in
theorem release_sameCaps (state : State ι α) :
    state.inner.SameCaps state.release.inner ∧ state.release.inner.buffer = state.inner.buffer ∧
      state.release.owner = state.owner := by
  unfold State.release
  split <;> exact ⟨⟨rfl, fun _bufPtr => rfl⟩, rfl, rfl⟩

theorem Storage.owner_account (storage : Storage pushes state) (few : pushes < 2 ^ 63)
    (stepped : ChaseLev.ownerStep state.worker state.inner spurious state.owner =
      some (access, worker, inner, pc)) {after : State ι α} (owner : after.owner = pc)
    (atInner : after.inner = inner)
    (step : Spec.Step state.worker.fifo state.abstract (.owner access) after.abstract) :
    3 * access.cellStores + after.account ≤ state.account := by
  unfold State.account
  rw [owner, atInner]
  rcases step.items_le with fewer | ⟨stores, ⟨value, pushing⟩, grown⟩
  · have less := OwnerPc.account_mono fewer inner pc
    exact (Nat.add_le_add_left less _).trans (storage.owner_pays few stepped)
  · cases stores
    obtain ⟨b, atPc⟩ := at_pushStoreBottom pushing stepped
    rw [atPc] at stepped
    cases stepped
    rw [grown, atPc]
    exact (Nat.zero_add _).trans_le (storeBottom_account ..)

omit [DecidableEq ι] in
/-- A step that adds no element and leaves the owner's part alone takes nothing out. -/
theorem State.account_le {after : State ι α}
    (fewer : after.abstract.items.length ≤ state.abstract.items.length)
    (kept : ∀ size,
      after.owner.account after.inner size = state.owner.account state.inner size) :
    after.account ≤ state.account :=
  (kept _).trans_le (OwnerPc.account_mono fewer state.inner state.owner)

/-- A step of anyone costs what it takes from the account, where each push pays in. -/
theorem Storage.pays (storage : Storage pushes state) {label : Label ι α} {choice : Choice ι α}
    {after : State ι α} (taken : ChaseLev.next state choice = some (label, after))
    (few : pushes + (Spec.pushed [label]).length < 2 ^ 63) :
    3 * cellStores [label] + after.account ≤
      state.account + 45 * (Spec.pushed [label]).length := by
  have step := (storage.next taken few).spec
  have shrunk : label ≠ .owner .storeBottom →
      after.abstract.items.length ≤ state.abstract.items.length :=
    fun aside => step.items_le.resolve_right fun grown => aside grown.1
  cases next_moves taken with
  | owner spurious access worker inner pc stepped =>
      have stores : cellStores [(.owner access : Label ι α)] = access.cellStores := by
        cases access <;> rfl
      rw [stores]
      exact storage.owner_account (by omega) stepped rfl rfl step
  | pushCall value atPc =>
      have less := OwnerPc.account_mono (shrunk (by simp)) state.inner (.pushLoadBottom value)
      have paidIn : (OwnerPc.pushLoadBottom value).account state.inner state.abstract.items.length =
          state.account + 45 := by
        unfold State.account
        rw [atPc]
        simp only [OwnerPc.account, OwnerPc.owed, OwnerPc.room]
        omega
      exact (Nat.zero_add _).trans_le (less.trans_eq paidIn)
  | popCall atPc =>
      refine (Nat.zero_add _).trans_le (State.account_le (shrunk (by simp)) fun size => ?_)
      rw [atPc]
      dsimp only
      split <;> rfl
  | ownerReturn result atPc =>
      refine (Nat.zero_add _).trans_le (State.account_le (shrunk (by simp)) fun size => ?_)
      rw [atPc]
      rfl
  | thief thief pc atPc =>
      obtain ⟨same, buffer⟩ := stealFrom_sameCaps state.inner pc
      refine (Nat.zero_add _).trans_le (State.account_le (shrunk (by simp)) fun size => ?_)
      exact same.account buffer size state.owner
  | stealCall thief atPc | stealReturn thief result atPc | newStealer thief atPc shared =>
      exact (Nat.zero_add _).trans_le (State.account_le (shrunk (by simp)) fun _size => rfl)
  | dropStealer thief atPc =>
      obtain ⟨same, buffer, owner⟩ := release_sameCaps (state.setThief thief .absent)
      refine (Nat.zero_add _).trans_le (State.account_le (shrunk (by simp)) fun size => ?_)
      rw [owner]
      exact same.account buffer size state.owner
  | dropWorker atPc =>
      obtain ⟨same, buffer, owner⟩ := release_sameCaps { state with owner := .dropped }
      refine (Nat.zero_add _).trans_le (State.account_le (shrunk (by simp)) fun size => ?_)
      rw [owner, atPc]
      exact same.account buffer size .dropped

variable {fifo : Bool} {logInitialCap : Nat} {labels : List (Label ι α)}

omit [Fintype ι] [DecidableEq ι] in
theorem cellStores_append (first second : List (Label ι α)) :
    cellStores (first ++ second) = cellStores first + cellStores second :=
  List.countP_append

omit [DecidableEq ι] in
theorem account_initial :
    (withLogCapacity ι α fifo logInitialCap).account ≤ 8 * 2 ^ (logInitialCap % 64) + 14 := by
  have paid := savings_zero (Nat.two_pow_pos (logInitialCap % 64))
  have empty : (withLogCapacity ι α fifo logInitialCap).abstract.items.length = 0 := by
    rw [State.abstract_of_owner rfl]
    rfl
  have cells : (Inner.new α logInitialCap).cellsAllocated = 2 ^ (logInitialCap % 64) :=
    Finset.sum_range_one _
  unfold State.account OwnerPc.account
  rw [empty]
  change 3 * (Inner.new α logInitialCap).cellsAllocated + 0 +
    savings (2 ^ (logInitialCap % 64)) 0 ≤ _
  omega

theorem paid_of_reaches (reached : (system ι α fifo logInitialCap).Reaches labels state)
    (few : (Spec.pushed labels).length < 2 ^ 63) :
    3 * cellStores labels + state.account ≤
      45 * (Spec.pushed labels).length + (8 * 2 ^ (logInitialCap % 64) + 14) := by
  revert few
  refine @TransitionSystem.Reaches.induction _ _ (system ι α fifo logInitialCap)
    (fun labels state => (Spec.pushed labels).length < 2 ^ 63 →
      3 * cellStores labels + state.account ≤
        45 * (Spec.pushed labels).length + (8 * 2 ^ (logInitialCap % 64) + 14)) ?_ ?_ _ _ reached
  · rintro start rfl _few
    exact (Nat.zero_add _).trans_le (account_initial.trans (Nat.le_add_left _ _))
  · rintro labels before label after earlier paid ⟨choice, taken⟩ few
    rw [Spec.pushed_append, List.length_append] at few ⊢
    obtain ⟨storage, _mode, _spec⟩ := tracked_of_reaches earlier (by omega)
    have stepped := storage.pays taken few
    have soFar := paid (by omega)
    rw [cellStores_append]
    omega

/-- A push costs at most fifteen cells, written or allocated, on average over any run:
the one it stores itself, and its share of what all resizes copy and of all the
buffers they make. -/
theorem resizes_amortized (reached : (system ι α fifo logInitialCap).Reaches labels state)
    (few : (Spec.pushed labels).length < 2 ^ 63) :
    3 * (cellStores labels + state.inner.cellsAllocated) ≤
      45 * (Spec.pushed labels).length + (8 * 2 ^ (logInitialCap % 64) + 14) := by
  have paid := paid_of_reaches reached few
  unfold State.account OwnerPc.account at paid
  omega

/-- Into one cell: each push grows the buffer, and a thief takes the first element while
it is copied. -/
def growsTwice : List (Choice (Fin 1) Nat) :=
  let only : Fin 1 := ⟨0, Nat.one_pos⟩
  [.newStealer only, .pushCall 7] ++ List.replicate 11 (.owner false) ++
    [.ownerReturn, .pushCall 8] ++ List.replicate 4 (.owner false) ++
    .stealCall only :: List.replicate 7 (.thief only) ++ List.replicate 9 (.owner false) ++
    [.ownerReturn, .stealReturn only]

theorem resizes_amortized_growsTwice :
    ∃ labels state, (system (Fin 1) Nat false 0).Reaches labels state ∧
      (Spec.pushed labels).length = 2 ∧ cellStores labels = 3 ∧ state.inner.cellsAllocated = 7 ∧
        3 * (cellStores labels + state.inner.cellsAllocated) ≤
          45 * (Spec.pushed labels).length + (8 * 2 ^ (0 % 64) + 14) := by
  have reached : (system (Fin 1) Nat false 0).Reaches _ _ :=
    ⟨_, rfl, TransitionSystem.execute_run growsTwice rfl⟩
  exact ⟨_, _, reached, rfl, rfl, rfl, resizes_amortized reached (by decide)⟩

end

end WsDeque.ChaseLev
