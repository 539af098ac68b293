import WsDeque.ChaseLev.Backlog
import WsDeque.ChaseLev.Capacity

/-
A thief that sleeps between its two updates of `in_flight` keeps the owner from
ever freeing a buffer. Around the two thresholds a few elements are then enough
for as many retired buffers as one likes.
-/

namespace WsDeque.ChaseLev

open MachineWord

variable {α : Type*}

/-- The elements from index zero on, and a thief in flight. -/
structure Sits (size cap retired : Nat) (worker : Worker) (inner : Inner α) : Prop where
  bottom : inner.bottom = size
  top : inner.top = 0
  cached : worker.cachedTop = 0
  lifo : worker.fifo = false
  busy : inner.inFlight ≠ 0
  cap : (inner.heap inner.buffer).cap = cap
  retired : inner.retired.length = retired

/-- Sitting so with the owner at such a point, after this many failed tests. -/
structure Stays (size cap retired failed : Nat) (At : Inner α → OwnerPc α → Prop)
    (now : State Unit α × Watch) : Prop where
  sits : Sits size cap retired now.1.worker now.1.inner
  storage : Storage 40 now.1
  owner : At now.1.inner now.1.owner
  held : now.2.held ≤ 16
  deferred : now.2.deferred = failed
  longest : now.2.longest = failed

def Exactly (pc : OwnerPc α) (_inner : Inner α) (owner : OwnerPc α) : Prop :=
  owner = pc

def Storing (value : α) (size : Nat) (_inner : Inner α) (owner : OwnerPc α) : Prop :=
  ∃ buf, owner = .pushStoreCell value size buf

def Popping (size : Nat) (inner : Inner α) (owner : OwnerPc α) : Prop :=
  owner = .popLoadCell size 0 inner.buffer

def Returned (_inner : Inner α) (owner : OwnerPc α) : Prop :=
  ∃ result, owner = .returned result

section

variable {size size' cap cap' retired retired' failed : Nat} {worker worker' : Worker}
  {inner inner' : Inner α} {state after : State Unit α} {label : Label Unit α}
  {From To : Inner α → OwnerPc α → Prop} {now : State Unit α × Watch}

theorem wrappingSub_zero (few : size ≤ 16) : wrappingSub (size : Int) 0 = size := by
  rw [wrappingSub_of_range] <;> omega

theorem Sits.len (sits : Sits size cap retired state.worker state.inner) (few : size ≤ 16) :
    state.len ≤ 16 := by
  unfold State.len
  rw [sits.bottom, sits.top, wrappingSub_zero few]
  omega

theorem Storage.lower {pushes fewer : Nat} (storage : Storage pushes state)
    (bound : state.back + state.owner.pendingPushes ≤ fewer) : Storage fewer state :=
  { storage with bound := bound }

theorem Stays.weaken (stays : Stays size cap retired failed From now)
    (weaker : From now.1.inner now.1.owner → To now.1.inner now.1.owner) :
    Stays size cap retired failed To now :=
  { stays with owner := weaker stays.owner }

/-- One step for each state that stays so. -/
theorem leads_of_next {tests : Nat} (few : size' ≤ 16)
    (each : ∀ state : State Unit α, Sits size cap retired state.worker state.inner →
      Storage 40 state → From state.inner state.owner → ∃ choice label after,
        next state choice = some (label, after) ∧
        (∀ watch : Watch, (watch.see state label after).deferred = watch.deferred + tests) ∧
        Sits size' cap' retired' after.worker after.inner ∧ Storage 40 after ∧
        To after.inner after.owner) :
    (watched Unit α false 4).Leads (Stays size cap retired failed From)
      (Stays size' cap' retired' (failed + tests) To) := by
  rintro ⟨state, watch⟩ ⟨sits, storage, owner, held, deferred, longest⟩
  dsimp only at sits storage owner held deferred longest
  obtain ⟨choice, label, after, moved, row, sits', storage', owner'⟩ :=
    each state sits storage owner
  have count : (watch.see state label after).deferred = failed + tests := by
    rw [row, deferred]
  refine ⟨[label], (after, watch.see state label after), .single ⟨⟨choice, moved⟩, rfl⟩, sits',
    storage', owner', Nat.max_le.mpr ⟨held, sits'.len few⟩, count, ?_⟩
  change max watch.longest (watch.see state label after).deferred = _
  rw [count, longest]
  omega

/-- The owner moves on, and does not test `in_flight`. -/
theorem leads_of_ownerStep (few : size' ≤ 16)
    (each : ∀ state : State Unit α, Sits size cap retired state.worker state.inner →
      Storage 40 state → From state.inner state.owner → ∃ access worker' inner' pc',
        ownerStep state.worker state.inner false state.owner =
          some (access, worker', inner', pc') ∧ access ≠ .loadInFlight ∧
        Sits size' cap' retired' worker' inner' ∧ To inner' pc') :
    (watched Unit α false 4).Leads (Stays size cap retired failed From)
      (Stays size' cap' retired' failed To) := by
  change (watched Unit α false 4).Leads _ (Stays size' cap' retired' (failed + 0) To)
  apply leads_of_next few
  intro state sits storage owner
  obtain ⟨access, worker', inner', pc', taken, untested, sits', owner'⟩ :=
    each state sits storage owner
  have moved : next state (.owner false) = some (.owner access,
      { state with
        worker := worker'
        inner := inner'
        owner := pc' }) := by
    simp only [next, taken, Option.map_some]
  have small : 40 + 0 < 2 ^ 63 := by decide
  refine ⟨_, _, _, moved, ?_, sits', (storage.next moved small).storage, owner'⟩
  intro watch
  rw [Watch.see_owner]
  exact if_neg untested

/-! ### Resizes -/

/-- In the copy loop, with at most so many indices to go. -/
def Copies (newCap : Nat) (rest : After α) (at' : Resize → Nat → ResizePc α → Prop)
    (remaining : Nat) (inner : Inner α) (owner : OwnerPc α) : Prop :=
  ∃ resize k pc, owner = .resizing resize pc rest ∧ at' resize k pc ∧
    (inner.heap resize.new).cap = newCap ∧ (resize.count - k).toNat ≤ remaining

/-- At a point after the loop. -/
def Resizes (newCap : Nat) (rest : After α) (at' : Inner α → ResizePc α) (inner : Inner α)
    (owner : OwnerPc α) : Prop :=
  ∃ resize : Resize, owner = .resizing resize (at' inner) rest ∧
    (inner.heap resize.new).cap = newCap

/-- Behind the resize, and a `pop` has its box. -/
def ResizeDone (rest : After α) (_inner : Inner α) (owner : OwnerPc α) : Prop :=
  ∃ resize : Resize, owner = finishResize resize rest ∧ rest ≠ .pop none

def LoopHead (resize : Resize) (k : Nat) (pc : ResizePc α) : Prop :=
  pc = resize.copyFrom k

variable {newCap : Nat} {rest : After α}

theorem copyLoad_leads (few : size ≤ 16) (remaining : Nat) :
    (watched Unit α false 4).Leads
      (Stays size cap retired failed
        (Copies newCap rest (fun _ k pc => pc = .copyLoad k) remaining))
      (Stays size cap retired failed
        (Copies newCap rest (fun _ k pc => ∃ p, pc = .copyStore k p) remaining)) := by
  apply leads_of_ownerStep few
  rintro state sits _storage ⟨resize, k, _, atPc, rfl, capacity, enough⟩
  let p := (state.inner.heap resize.old).read (wrappingAdd resize.top k)
  have taken : ownerStep state.worker state.inner false state.owner =
      some (.loadCell, state.worker, state.inner, .resizing resize (.copyStore k p) rest) := by
    rw [atPc]
    rfl
  exact ⟨_, _, _, _, taken, Access.noConfusion, sits, resize, k, _, rfl, ⟨p, rfl⟩, capacity,
    enough⟩

theorem copyStore_leads (few : size ≤ 16) (remaining : Nat) :
    (watched Unit α false 4).Leads
      (Stays size cap retired failed
        (Copies newCap rest (fun _ k pc => ∃ p, pc = .copyStore k p) (remaining + 1)))
      (Stays size cap retired failed (Copies newCap rest LoopHead remaining)) := by
  apply leads_of_ownerStep few
  rintro state sits _storage ⟨resize, k, _, atPc, ⟨p, rfl⟩, capacity, enough⟩
  have same := resize_cap resize state.inner false (.copyStore k p)
  let stored := (resize.step state.inner false (.copyStore k p)).2.1
  have sits' : Sits size cap retired state.worker stored :=
    ⟨sits.bottom, sits.top, sits.cached, sits.lifo, sits.busy, (same _).trans sits.cap,
      sits.retired⟩
  refine ⟨.storeCell, state.worker, stored, _, ?_, Access.noConfusion, sits', resize, k + 1, _,
    rfl, rfl, (same _).trans capacity, by omega⟩
  rw [atPc]
  rfl

theorem copies_lead (few : size ≤ 16) (remaining : Nat) :
    (watched Unit α false 4).Leads
      (Stays size cap retired failed (Copies newCap rest LoopHead remaining))
      (Stays size cap retired failed (Resizes newCap rest fun _ => .storeBuffer)) := by
  induction remaining with
  | zero =>
      intro now stays
      refine ⟨[], now, .refl now, stays.weaken ?_⟩
      rintro ⟨resize, k, _, atPc, rfl, capacity, enough⟩
      have last : (resize.copyFrom k : ResizePc α) = .storeBuffer := if_neg (by omega)
      exact ⟨resize, last ▸ atPc, capacity⟩
  | succ remaining ih =>
      intro now stays
      obtain ⟨resize, k, _, atPc, rfl, capacity, enough⟩ := stays.owner
      by_cases more : (k : Int) < resize.count
      · have loads : (resize.copyFrom k : ResizePc α) = .copyLoad k := if_pos more
        have round := (copyLoad_leads few (remaining + 1)).trans
          ((copyStore_leads few remaining).trans ih)
        exact round now (stays.weaken fun _ => ⟨resize, k, _, atPc, loads, capacity, enough⟩)
      · have last : (resize.copyFrom k : ResizePc α) = .storeBuffer := if_neg more
        exact ⟨[], now, .refl now, stays.weaken fun _ => ⟨resize, last ▸ atPc, capacity⟩⟩

theorem storeBuffer_leads (few : size ≤ 16) :
    (watched Unit α false 4).Leads
      (Stays size cap retired failed (Resizes newCap rest fun _ => .storeBuffer))
      (Stays size newCap retired failed (Resizes newCap rest fun _ => .loadRetired)) := by
  apply leads_of_ownerStep few
  rintro state sits _storage ⟨resize, atPc, capacity⟩
  refine ⟨.storeBuffer, state.worker, { state.inner with buffer := resize.new }, _, ?_,
    Access.noConfusion, ⟨sits.bottom, sits.top, sits.cached, sits.lifo, sits.busy, capacity,
      sits.retired⟩, resize, rfl, capacity⟩
  rw [atPc]
  rfl

theorem loadRetired_leads (few : size ≤ 16) :
    (watched Unit α false 4).Leads
      (Stays size cap retired failed (Resizes newCap rest fun _ => .loadRetired))
      (Stays size cap retired failed
        (Resizes newCap rest fun inner => .casRetired inner.retired)) := by
  apply leads_of_ownerStep few
  rintro state sits _storage ⟨resize, atPc, capacity⟩
  refine ⟨.loadRetired, state.worker, state.inner, _, ?_, Access.noConfusion, sits, resize, rfl,
    capacity⟩
  rw [atPc]
  rfl

theorem casRetired_leads (few : size ≤ 16) :
    (watched Unit α false 4).Leads
      (Stays size cap retired failed (Resizes newCap rest fun inner => .casRetired inner.retired))
      (Stays size cap (retired + 1) failed (Resizes newCap rest fun _ => .loadInFlight)) := by
  apply leads_of_ownerStep few
  rintro state sits _storage ⟨resize, atPc, capacity⟩
  have wins : resize.step state.inner false (.casRetired state.inner.retired) =
      (.casRetired true, { state.inner with retired := resize.old :: state.inner.retired },
        some .loadInFlight) :=
    if_pos ⟨rfl, rfl⟩
  refine ⟨.casRetired true, state.worker,
    { state.inner with retired := resize.old :: state.inner.retired }, _, ?_, Access.noConfusion,
    ⟨sits.bottom, sits.top, sits.cached, sits.lifo, sits.busy, sits.cap,
      congrArg Nat.succ sits.retired⟩, resize, rfl, capacity⟩
  simp only [atPc, ownerStep]
  rw [wins]

/-- The thief is in flight, so the owner frees nothing. -/
theorem loadInFlight_leads (few : size ≤ 16) :
    (watched Unit α false 4).Leads
      (Stays size cap retired failed (Resizes newCap rest fun _ => .loadInFlight))
      (Stays size cap retired (failed + 1) (ResizeDone rest)) := by
  apply leads_of_next few
  rintro state sits storage ⟨resize, atPc, capacity⟩
  have gives : resize.step state.inner false .loadInFlight =
      (.loadInFlight, state.inner, (none : Option (ResizePc α))) := by
    simp only [Resize.step, if_pos sits.busy]
  have moved : next state (.owner false) = some (.owner .loadInFlight,
      { state with owner := finishResize resize rest }) := by
    simp only [next, atPc, ownerStep]
    rw [gives]
    rfl
  have small : 40 + 0 < 2 ^ 63 := by decide
  have boxed : rest ≠ .pop none := by
    rintro rfl
    have meets := storage.owner
    rw [atPc] at meets
    exact meets.2.2.1 rfl
  refine ⟨_, _, _, moved, ?_, sits, (storage.next moved small).storage, resize, rfl, boxed⟩
  intro watch
  exact if_pos sits.busy

/-- A resize ends with one more buffer retired and one more failed test. -/
theorem resize_leads (few : size ≤ 16) (remaining : Nat) :
    (watched Unit α false 4).Leads
      (Stays size cap retired failed (Copies newCap rest LoopHead remaining))
      (Stays size newCap (retired + 1) (failed + 1) (ResizeDone rest)) :=
  (copies_lead few remaining).trans ((storeBuffer_leads few).trans ((loadRetired_leads few).trans
    ((casRetired_leads few).trans (loadInFlight_leads few))))

/-! ### Pushes -/

theorem pushCall_leads (value : α) (few : size ≤ 16) :
    (watched Unit α false 4).Leads (Stays size cap retired failed (Exactly .idle))
      (Stays size cap retired failed (Exactly (.pushLoadBottom value))) := by
  change (watched Unit α false 4).Leads _ (Stays size cap retired (failed + 0) _)
  apply leads_of_next few
  intro state sits storage atPc
  have moved : next state (.pushCall value) =
      some (.pushCall value, { state with owner := .pushLoadBottom value }) := by
    simp only [next, show state.owner = .idle from atPc]
  have small : 40 + 1 < 2 ^ 63 := by decide
  refine ⟨_, _, _, moved, fun _watch => rfl, sits, (storage.next moved small).storage.lower ?_,
    rfl⟩
  change state.inner.bottom + 1 ≤ 40
  rw [sits.bottom]
  omega

theorem return_leads (few : size ≤ 16) :
    (watched Unit α false 4).Leads
      (Stays size cap retired failed Returned)
      (Stays size cap retired failed (Exactly .idle)) := by
  change (watched Unit α false 4).Leads _ (Stays size cap retired (failed + 0) _)
  apply leads_of_next few
  rintro state sits storage ⟨result, atPc⟩
  have moved : next state .ownerReturn =
      some (.ownerReturn result, { state with owner := .idle }) := by
    simp only [next, atPc]
  have small : 40 + 0 < 2 ^ 63 := by decide
  exact ⟨_, _, _, moved, fun _watch => rfl, sits, (storage.next moved small).storage, rfl⟩

theorem pushLoadBottom_leads (value : α) (few : size ≤ 16) :
    (watched Unit α false 4).Leads
      (Stays size cap retired failed (Exactly (.pushLoadBottom value)))
      (Stays size cap retired failed (Exactly (.pushLoadBuffer value size))) := by
  apply leads_of_ownerStep few
  intro state sits _storage atPc
  have taken : ownerStep state.worker state.inner false state.owner =
      some (.loadBottom, state.worker, state.inner, .pushLoadBuffer value state.inner.bottom) := by
    rw [atPc]
    rfl
  rw [sits.bottom] at taken
  exact ⟨_, _, _, _, taken, Access.noConfusion, sits, rfl⟩

theorem Sits.full (sits : Sits size cap retired state.worker state.inner)
    (storage : Storage 40 state) (few : size ≤ 16) :
    mightBeFull state.inner state.inner.buffer size 0 = decide (cap ≤ size + 1) := by
  obtain ⟨exponent, small, capEq⟩ := storage.window.powerOfTwo state.inner.buffer
  have full := mightBeFull_iff small capEq (b := size) (t := 0) (by omega) (by omega)
  rw [sits.cap] at full
  apply Bool.eq_iff_iff.mpr
  rw [full, decide_eq_true_eq]
  omega

theorem pushLoadBuffer_keeps (value : α) (few : size ≤ 16) (room : size + 1 < cap) :
    (watched Unit α false 4).Leads
      (Stays size cap retired failed (Exactly (.pushLoadBuffer value size)))
      (Stays size cap retired failed (Storing value size)) := by
  apply leads_of_ownerStep few
  intro state sits storage atPc
  have empty := sits.full storage few
  rw [decide_eq_false (by omega), ← sits.cached] at empty
  have taken : ownerStep state.worker state.inner false state.owner =
      some (.loadBuffer, state.worker, state.inner,
        .pushStoreCell value size state.inner.buffer) := by
    rw [atPc]
    simp only [ownerStep, pushGrowOrStore, empty, Bool.false_eq_true, if_false]
  exact ⟨_, _, _, _, taken, Access.noConfusion, sits, _, rfl⟩

theorem pushLoadBuffer_looks (value : α) (few : size ≤ 16) (full : cap ≤ size + 1) :
    (watched Unit α false 4).Leads
      (Stays size cap retired failed (Exactly (.pushLoadBuffer value size)))
      (Stays size cap retired failed fun inner owner =>
        owner = .pushLoadTop value size inner.buffer) := by
  apply leads_of_ownerStep few
  intro state sits storage atPc
  have might := sits.full storage few
  rw [decide_eq_true full, ← sits.cached] at might
  have taken : ownerStep state.worker state.inner false state.owner =
      some (.loadBuffer, state.worker, state.inner,
        .pushLoadTop value size state.inner.buffer) := by
    rw [atPc]
    simp only [ownerStep, might, if_true]
  exact ⟨_, _, _, _, taken, Access.noConfusion, sits, rfl⟩

/-- The copy loop begins with at most sixteen indices to go. -/
theorem startResize_leads (sits : Sits size cap retired worker state.inner)
    (storage : Storage 40 state) (few : size ≤ 16) (newCap : Nat) (rest : After α) :
    Sits size cap retired worker
        (startResize state.inner state.inner.buffer newCap size 0 rest).1 ∧
      Copies newCap rest LoopHead 16
        (startResize state.inner state.inner.buffer newCap size 0 rest).1
        (startResize state.inner state.inner.buffer newCap size 0 rest).2 := by
  have different : state.inner.buffer ≠ state.inner.allocated :=
    Nat.ne_of_lt storage.window.bufferAllocated
  let resize : Resize :=
    { old := state.inner.buffer
      new := state.inner.allocated
      bottom := size
      top := 0 }
  have count : resize.count = size := wrappingSub_zero few
  have capacity : ((startResize state.inner state.inner.buffer newCap size 0 rest).1.heap
      resize.new).cap = newCap := by
    change (Function.update state.inner.heap state.inner.allocated (Buffer.alloc newCap)
      state.inner.allocated).cap = newCap
    rw [Function.update_self]
    rfl
  have same : ((startResize state.inner state.inner.buffer newCap size 0 rest).1.heap
      state.inner.buffer).cap = cap := by
    rw [← sits.cap]
    exact congrArg Buffer.cap (Function.update_of_ne different ..)
  exact ⟨⟨sits.bottom, sits.top, sits.cached, sits.lifo, sits.busy, same, sits.retired⟩,
    resize, 0, _, rfl, rfl, capacity, by omega⟩

/-- The sixteenth element does not fit into sixteen cells. -/
theorem pushLoadTop_leads (value : α) :
    (watched Unit α false 4).Leads
      (Stays 15 16 retired failed fun inner owner =>
        owner = .pushLoadTop value (15 : Nat) inner.buffer)
      (Stays 15 16 retired failed (Copies 32 (.push value (15 : Nat)) LoopHead 16)) := by
  apply leads_of_ownerStep (by decide)
  intro state sits storage atPc
  have full := sits.full storage (by decide)
  rw [decide_eq_true (by decide)] at full
  let begun := startResize state.inner state.inner.buffer 32 (15 : Nat) 0 (.push value (15 : Nat))
  have taken : ownerStep state.worker state.inner false state.owner =
      some (.loadTop, { state.worker with cachedTop := 0 }, begun.1, begun.2) := by
    have doubled : 16 * 2 % 2 ^ 64 = 32 := by decide
    rw [atPc]
    simp only [ownerStep, pushGrowOrStore, sits.top, full, if_true, sits.cap, doubled, begun]
  have sits' : Sits 15 16 retired { state.worker with cachedTop := 0 } state.inner :=
    { sits with cached := rfl }
  obtain ⟨started, copies⟩ :=
    startResize_leads sits' storage (by decide) 32 (.push value (15 : Nat))
  exact ⟨_, _, _, _, taken, Access.noConfusion, started, copies⟩

theorem pushStoreCell_leads (value : α) (few : size ≤ 16) :
    (watched Unit α false 4).Leads
      (Stays size cap retired failed (Storing value size))
      (Stays size cap retired failed (Exactly (.pushStoreBottom value size))) := by
  apply leads_of_ownerStep few
  rintro state sits _storage ⟨buf, atPc⟩
  let heap := Function.update state.inner.heap buf ((state.inner.heap buf).write size (some value))
  have taken : ownerStep state.worker state.inner false state.owner =
      some (.storeCell, state.worker, { state.inner with heap := heap },
        .pushStoreBottom value size) := by
    rw [atPc]
    rfl
  have same : (heap state.inner.buffer).cap = cap := by
    rw [← sits.cap]
    by_cases written : state.inner.buffer = buf
    · rw [written]
      simp only [heap, Function.update_self, Buffer.write_cap]
    · simp only [heap, Function.update_of_ne written]
  exact ⟨_, _, _, _, taken, Access.noConfusion, ⟨sits.bottom, sits.top, sits.cached, sits.lifo,
    sits.busy, same, sits.retired⟩, rfl⟩

theorem pushStoreBottom_leads (value : α) (few : size + 1 ≤ 16) :
    (watched Unit α false 4).Leads
      (Stays size cap retired failed (Exactly (.pushStoreBottom value size)))
      (Stays (size + 1) cap retired failed Returned) := by
  apply leads_of_ownerStep few
  intro state sits _storage atPc
  have above : wrappingAdd (size : Int) 1 = ((size + 1 : Nat) : Int) := by
    rw [wrappingAdd_of_range] <;> omega
  have taken : ownerStep state.worker state.inner false state.owner =
      some (.storeBottom, state.worker, { state.inner with bottom := wrappingAdd size 1 },
        .returned .pushed) := by
    rw [atPc]
    rfl
  exact ⟨_, _, _, _, taken, Access.noConfusion, ⟨above, sits.top, sits.cached, sits.lifo,
    sits.busy, sits.cap, sits.retired⟩, _, rfl⟩

theorem push_ends (value : α) (few : size + 1 ≤ 16) :
    (watched Unit α false 4).Leads
      (Stays size cap retired failed (Storing value size))
      (Stays (size + 1) cap retired failed (Exactly .idle)) :=
  (pushStoreCell_leads value (by omega)).trans ((pushStoreBottom_leads value few).trans
    (return_leads few))

theorem push_keeps (value : α) (few : size + 1 ≤ 16) (room : size + 1 < cap) :
    (watched Unit α false 4).Leads (Stays size cap retired failed (Exactly .idle))
      (Stays (size + 1) cap retired failed (Exactly .idle)) :=
  (pushCall_leads value (by omega)).trans ((pushLoadBottom_leads value (by omega)).trans
    ((pushLoadBuffer_keeps value (by omega) room).trans (push_ends value few)))

theorem push_grows (value : α) :
    (watched Unit α false 4).Leads (Stays 15 16 retired failed (Exactly .idle))
      (Stays 16 32 (retired + 1) (failed + 1) (Exactly .idle)) := by
  have grown : (watched Unit α false 4).Leads
      (Stays 15 32 (retired + 1) (failed + 1) (ResizeDone (.push value (15 : Nat))))
      (Stays 16 32 (retired + 1) (failed + 1) (Exactly .idle)) := by
    intro now stays
    exact push_ends value (by decide) now
      (stays.weaken fun ⟨resize, atPc, _boxed⟩ => ⟨resize.new, atPc⟩)
  exact (pushCall_leads value (by decide)).trans ((pushLoadBottom_leads value (by decide)).trans
    ((pushLoadBuffer_looks value (by decide) (by decide)).trans ((pushLoadTop_leads value).trans
      ((resize_leads (by decide) 16).trans grown))))

/-! ### Pops -/

theorem popCall_leads (few : size ≤ 16) :
    (watched Unit α false 4).Leads (Stays size cap retired failed (Exactly .idle))
      (Stays size cap retired failed (Exactly .popLoadBottom)) := by
  change (watched Unit α false 4).Leads _ (Stays size cap retired (failed + 0) _)
  apply leads_of_next few
  intro state sits storage atPc
  have moved : next state .popCall = some (.popCall, { state with owner := .popLoadBottom }) := by
    simp only [next, show state.owner = .idle from atPc, sits.lifo, Bool.false_eq_true, if_false]
  have small : 40 + 0 < 2 ^ 63 := by decide
  exact ⟨_, _, _, moved, fun _watch => rfl, sits, (storage.next moved small).storage, rfl⟩

theorem popLoadBottom_leads (few : size + 1 ≤ 16) :
    (watched Unit α false 4).Leads
      (Stays (size + 1) cap retired failed (Exactly .popLoadBottom))
      (Stays (size + 1) cap retired failed (Exactly (.popLoadBuffer size))) := by
  apply leads_of_ownerStep few
  intro state sits _storage atPc
  have below : wrappingSub ((size + 1 : Nat) : Int) 1 = size := by
    rw [wrappingSub_of_range] <;> omega
  have taken : ownerStep state.worker state.inner false state.owner =
      some (.loadBottom, state.worker, state.inner,
        .popLoadBuffer (wrappingSub state.inner.bottom 1)) := by
    rw [atPc]
    rfl
  rw [sits.bottom, below] at taken
  exact ⟨_, _, _, _, taken, Access.noConfusion, sits, rfl⟩

theorem popLoadBuffer_leads (few : size + 1 ≤ 16) :
    (watched Unit α false 4).Leads
      (Stays (size + 1) cap retired failed (Exactly (.popLoadBuffer size)))
      (Stays (size + 1) cap retired failed fun inner owner =>
        owner = .popStoreBottom size inner.buffer) := by
  apply leads_of_ownerStep few
  intro state sits _storage atPc
  have taken : ownerStep state.worker state.inner false state.owner =
      some (.loadBuffer, state.worker, state.inner, .popStoreBottom size state.inner.buffer) := by
    rw [atPc]
    rfl
  exact ⟨_, _, _, _, taken, Access.noConfusion, sits, rfl⟩

theorem popStoreBottom_leads (few : size ≤ 16) :
    (watched Unit α false 4).Leads
      (Stays (size + 1) cap retired failed fun inner owner =>
        owner = .popStoreBottom size inner.buffer)
      (Stays size cap retired failed fun inner owner =>
        owner = .popLoadTop size inner.buffer) := by
  apply leads_of_ownerStep few
  intro state sits _storage atPc
  have taken : ownerStep state.worker state.inner false state.owner =
      some (.storeBottom, state.worker, { state.inner with bottom := size },
        .popLoadTop size state.inner.buffer) := by
    rw [atPc]
    rfl
  exact ⟨_, _, _, _, taken, Access.noConfusion, ⟨rfl, sits.top, sits.cached, sits.lifo, sits.busy,
    sits.cap, sits.retired⟩, rfl⟩

theorem popLoadTop_leads (few : size ≤ 16) :
    (watched Unit α false 4).Leads
      (Stays size cap retired failed fun inner owner => owner = .popLoadTop size inner.buffer)
      (Stays size cap retired failed (Popping size)) := by
  apply leads_of_ownerStep few
  intro state sits _storage atPc
  have level : ¬ wrappingSub (size : Int) 0 < 0 := by
    rw [wrappingSub_zero few]
    omega
  have taken : ownerStep state.worker state.inner false state.owner =
      some (.loadTop, state.worker, state.inner, .popLoadCell size 0 state.inner.buffer) := by
    rw [atPc]
    simp only [ownerStep, sits.top, if_neg level]
  exact ⟨_, _, _, _, taken, Access.noConfusion, sits, rfl⟩

theorem pop_begins (few : size + 1 ≤ 16) :
    (watched Unit α false 4).Leads (Stays (size + 1) cap retired failed (Exactly .idle))
      (Stays size cap retired failed (Popping size)) :=
  (popCall_leads few).trans ((popLoadBottom_leads few).trans ((popLoadBuffer_leads few).trans
    ((popStoreBottom_leads (by omega)).trans (popLoadTop_leads (by omega)))))

/-- The box that a `pop` of the last of several elements finds. -/
theorem Storage.boxed (storage : Storage 40 state) (more : 0 < size)
    (atPc : state.owner = .popLoadCell size 0 state.inner.buffer) :
    ∃ value, (state.inner.heap state.inner.buffer).read size = some value := by
  have meets := storage.owner
  rw [atPc] at meets
  exact Option.ne_none_iff_exists'.mp (meets.2.2.2.2.2 (by omega))

/-- What `perhaps_shrink` decides for a `pop` that leaves this many elements. -/
theorem popLoadCell_keeps (few : size ≤ 16) (more : 0 < size)
    (stays : ¬ (cap > minCapacity ∧ size < cap / shrinkFactor)) :
    (watched Unit α false 4).Leads
      (Stays size cap retired failed (Popping size))
      (Stays size cap retired failed Returned) := by
  apply leads_of_ownerStep few
  intro state sits storage atPc
  obtain ⟨value, found⟩ := storage.boxed more atPc
  have positive : wrappingSub (size : Int) 0 > 0 := by
    rw [wrappingSub_zero few]
    omega
  have same : (max (wrappingSub (size : Int) 0) 0).toNat = size := by
    rw [wrappingSub_zero few]
    omega
  have taken : ownerStep state.worker state.inner false state.owner =
      some (.loadCell, state.worker, state.inner, .returned (.popped (some value))) := by
    rw [atPc]
    simp only [ownerStep, perhapsShrink, if_pos positive, sits.cap, same, if_neg stays, found,
      popReturn]
  exact ⟨_, _, _, _, taken, Access.noConfusion, sits, _, rfl⟩

/-- Nine elements are fewer than a third of thirty-two. -/
theorem popLoadCell_shrinks :
    (watched Unit α false 4).Leads
      (Stays 9 32 retired failed (Popping 9))
      (Stays 9 32 retired failed fun inner owner =>
        ∃ boxed, Copies 16 (.pop boxed) LoopHead 16 inner owner) := by
  apply leads_of_ownerStep (by decide)
  intro state sits storage atPc
  let boxed := (state.inner.heap state.inner.buffer).read (9 : Nat)
  let begun := startResize state.inner state.inner.buffer 16 (9 : Nat) 0 (.pop boxed)
  have taken : ownerStep state.worker state.inner false state.owner =
      some (.loadCell, state.worker, begun.1, begun.2) := by
    have positive : wrappingSub ((9 : Nat) : Int) 0 > 0 := by decide
    have due : (32 : Nat) > minCapacity ∧
        (max (wrappingSub ((9 : Nat) : Int) 0) 0).toNat < 32 / shrinkFactor := by decide
    have halved : max (32 / 2) minCapacity = 16 := by decide
    rw [atPc]
    simp only [ownerStep, perhapsShrink, if_pos positive, sits.cap, if_pos due, halved, begun,
      boxed]
  obtain ⟨started, copies⟩ := startResize_leads sits storage (by decide) 16 (.pop boxed)
  exact ⟨_, _, _, _, taken, Access.noConfusion, started, boxed, copies⟩

theorem pop_keeps (few : size + 1 ≤ 16) (more : 0 < size)
    (stays : ¬ (cap > minCapacity ∧ size < cap / shrinkFactor)) :
    (watched Unit α false 4).Leads (Stays (size + 1) cap retired failed (Exactly .idle))
      (Stays size cap retired failed (Exactly .idle)) :=
  (pop_begins few).trans ((popLoadCell_keeps (by omega) more stays).trans
    (return_leads (by omega)))

theorem pop_shrinks :
    (watched Unit α false 4).Leads (Stays 10 32 retired failed (Exactly .idle))
      (Stays 9 16 (retired + 1) (failed + 1) (Exactly .idle)) := by
  refine (pop_begins (by decide)).trans (popLoadCell_shrinks.trans ?_)
  intro now stays
  obtain ⟨boxed, copies⟩ := stays.owner
  refine ((resize_leads (by decide) 16).trans ?_) now (stays.weaken fun _ => copies)
  intro later finished
  refine return_leads (by decide) later (finished.weaken ?_)
  rintro ⟨resize, atPc, present⟩
  cases boxed with
  | none => exact absurd rfl present
  | some value => exact ⟨_, atPc⟩

/-! ### Grow and shrink for ever -/

theorem pushes_keep (value : α) (count : Nat) (few : size + count ≤ 16)
    (room : size + count < cap) :
    (watched Unit α false 4).Leads (Stays size cap retired failed (Exactly .idle))
      (Stays (size + count) cap retired failed (Exactly .idle)) := by
  induction count with
  | zero => exact fun start stays => ⟨[], start, .refl start, stays⟩
  | succ count ih =>
      exact (ih (by omega) (by omega)).trans (push_keeps value (by omega) (by omega))

theorem pops_keep (count : Nat) (few : size + count ≤ 16) (more : 10 ≤ size) :
    (watched Unit α false 4).Leads (Stays (size + count) 32 retired failed (Exactly .idle))
      (Stays size 32 retired failed (Exactly .idle)) := by
  induction count with
  | zero => exact fun start stays => ⟨[], start, .refl start, stays⟩
  | succ count ih =>
      have stays : ¬ ((32 : Nat) > minCapacity ∧ size + count < 32 / shrinkFactor) := by
        have third : 32 / shrinkFactor = 10 := rfl
        omega
      exact (pop_keeps (by omega) (by omega) stays).trans (ih (by omega))

/-- Seven pushes and seven pops: the buffer grows and shrinks, and both tests
find the thief. -/
theorem turn_leads (value : α) (round : Nat) :
    (watched Unit α false 4).Leads (Stays 9 16 (2 * round) (2 * round) (Exactly .idle))
      (Stays 9 16 (2 * (round + 1)) (2 * (round + 1)) (Exactly .idle)) :=
  (pushes_keep value 6 (by decide) (by decide)).trans ((push_grows value).trans
    ((pops_keep 6 (by decide) (by decide)).trans pop_shrinks))

end

/-! ### One thief falls asleep -/

/-- At this state, with no test so far. -/
structure Here (pushes : Nat) (state : State Unit α) (now : State Unit α × Watch) : Prop where
  state : now.1 = state
  storage : Storage pushes now.1
  held : now.2.held ≤ 16
  deferred : now.2.deferred = 0
  longest : now.2.longest = 0

theorem here_leads {pushes pushes' : Nat} {state after : State Unit α} {choice : Choice Unit α}
    {label : Label Unit α} (moved : next state choice = some (label, after))
    (count : pushes + (Spec.pushed [label]).length = pushes') (few : pushes' ≤ 1)
    (held : after.len ≤ 16)
    (untested : ∀ watch : Watch, (watch.see state label after).deferred = watch.deferred) :
    (watched Unit α false 4).Leads (Here pushes state) (Here pushes' after) := by
  rintro ⟨now, watch⟩ ⟨rfl, storage, low, deferred, longest⟩
  dsimp only at storage low deferred longest
  have row : (watch.see now label after).deferred = 0 := (untested watch).trans deferred
  have advance := storage.next moved (by omega)
  rw [count] at advance
  refine ⟨[label], (after, watch.see now label after), .single ⟨⟨choice, moved⟩, rfl⟩, rfl,
    advance.storage, Nat.max_le.mpr ⟨low, held⟩, row, ?_⟩
  change max watch.longest (watch.see now label after).deferred = 0
  rw [row, longest]
  rfl

/-- One element is pushed. -/
def onePushed (value : α) : State Unit α :=
  { withLogCapacity Unit α false 4 with
    inner := { Inner.new α 4 with
      bottom := 1
      heap := Function.update (fun _ => Buffer.alloc 16) 0
        ((Buffer.alloc 16).write 0 (some value)) } }

theorem onePushed_leads (value : α) :
    (watched Unit α false 4).Leads (Here 0 (withLogCapacity Unit α false 4))
      (Here 1 (onePushed value)) := by
  let start := withLogCapacity Unit α false 4
  let stored := { onePushed value with
    inner := { (onePushed value).inner with bottom := 0 }
    owner := OwnerPc.pushStoreBottom value 0 }
  have empty : (max (wrappingSub 0 0) 0).toNat ≤ 16 := by decide
  have one : (max (wrappingSub 1 0) 0).toNat ≤ 16 := by decide
  have room : mightBeFull start.inner 0 0 0 = false := by
    change decide (wrappingSub 0 0 ≥ wrappingSub (asIsize 16) 1) = false
    decide
  have calls : next start (.pushCall value) =
      some (.pushCall value, { start with owner := .pushLoadBottom value }) := rfl
  have loads : next { start with owner := .pushLoadBottom value } (.owner false) =
      some (.owner .loadBottom, { start with owner := .pushLoadBuffer value 0 }) := rfl
  have looks : next { start with owner := .pushLoadBuffer value 0 } (.owner false) =
      some (.owner .loadBuffer, { start with owner := .pushStoreCell value 0 0 }) := by
    have taken : ownerStep start.worker start.inner false (.pushLoadBuffer value 0) =
        some (.loadBuffer, start.worker, start.inner, .pushStoreCell value 0 0) := by
      simp only [ownerStep, pushGrowOrStore]
      have early : mightBeFull start.inner start.inner.buffer 0 start.worker.cachedTop = false :=
        room
      rw [early]
      rfl
    simp only [next, taken, Option.map_some]
  have stores : next { start with owner := .pushStoreCell value 0 0 } (.owner false) =
      some (.owner .storeCell, stored) := rfl
  have raises : next stored (.owner false) =
      some (.owner .storeBottom, { onePushed value with owner := .returned .pushed }) := rfl
  have returns : next { onePushed value with owner := .returned .pushed } .ownerReturn =
      some (.ownerReturn .pushed, onePushed value) := rfl
  have single := Nat.le_refl 1
  exact (here_leads calls rfl single empty fun _ => rfl).trans
    ((here_leads loads rfl single empty fun _ => rfl).trans
      ((here_leads looks rfl single empty fun _ => rfl).trans
        ((here_leads stores rfl single empty fun _ => rfl).trans
          ((here_leads raises rfl single one fun _ => rfl).trans
            (here_leads returns rfl single one fun _ => rfl)))))

/-- A thief stops inside its critical section. -/
def stalled (value : α) : State Unit α :=
  { onePushed value with
    inner := { (onePushed value).inner with inFlight := 1 }
    thief := fun _ => .stealing (.loadBuffer 0) }

theorem stalled_leads (value : α) :
    (watched Unit α false 4).Leads (Here 1 (onePushed value)) (Here 1 (stalled value)) := by
  let start := onePushed value
  have one : (max (wrappingSub 1 0) 0).toNat ≤ 16 := by decide
  have arrives : next start (.newStealer ()) =
      some (.newStealer (), { start with thief := fun _ => .idle }) := rfl
  have calls : next { start with thief := fun _ => .idle } (.stealCall ()) =
      some (.stealCall (), { start with thief := fun _ => .stealing .loadTop }) := rfl
  have looks : next { start with thief := fun _ => .stealing .loadTop } (.thief ()) =
      some (.thief () .loadTop, { start with thief := fun _ => .stealing (.loadBottom 0) }) := rfl
  have finds : next { start with thief := fun _ => .stealing (.loadBottom 0) } (.thief ()) =
      some (.thief () .loadBottom,
        { start with thief := fun _ => .stealing (.addInFlight 0) }) := by
    have nonempty : ¬ wrappingSub start.inner.bottom 0 ≤ 0 := by
      change ¬ wrappingSub 1 0 ≤ 0
      decide
    simp only [next, stealFrom, if_neg nonempty]
    rfl
  have enters : next { start with thief := fun _ => .stealing (.addInFlight 0) } (.thief ()) =
      some (.thief () .addInFlight, stalled value) := rfl
  have single := Nat.le_refl 1
  exact (here_leads arrives rfl single one fun _ => rfl).trans
    ((here_leads calls rfl single one fun _ => rfl).trans
      ((here_leads looks rfl single one fun _ => rfl).trans
        ((here_leads finds rfl single one fun _ => rfl).trans
          (here_leads enters rfl single one fun _ => rfl))))

theorem stalled_stays (value : α) {now : State Unit α × Watch}
    (here : Here 1 (stalled value) now) : Stays 1 16 0 0 (Exactly .idle) now := by
  obtain ⟨same, storage, held, deferred, longest⟩ := here
  have sits : Sits 1 16 0 (stalled value).worker (stalled value).inner :=
    ⟨rfl, rfl, rfl, rfl, Int.one_ne_zero, rfl, rfl⟩
  have atPc : (stalled value).owner = .idle := rfl
  rw [← same] at sits atPc
  exact ⟨sits, storage.lower (storage.bound.trans (by decide)), atPc, held, deferred, longest⟩

/-- As many failed tests and retired buffers as one likes. -/
theorem backlog_grows (value : α) (count : Nat) : ∃ labels state watch,
    (watched Unit α false 4).Reaches labels (state, watch) ∧ watch.held ≤ 16 ∧
      watch.longest = count ∧ state.inner.retired.length = count := by
  let start : State Unit α × Watch := (withLogCapacity Unit α false 4, ⟨0, 0, 0⟩)
  have isInitial : (watched Unit α false 4).initial start := ⟨rfl, rfl⟩
  have here : Here 0 (withLogCapacity Unit α false 4) start :=
    ⟨rfl, Storage.initial false 4, Nat.zero_le _, rfl, rfl⟩
  obtain ⟨before, middle, run, asleep⟩ :=
    ((onePushed_leads value).trans (stalled_leads value)) start here
  have stays := stalled_stays value asleep
  have turns := (pushes_keep value 8 (by decide) (by decide)).trans
    (TransitionSystem.Leads.iterate (turn_leads value) (count / 2))
  by_cases even : 2 * (count / 2) = count
  · obtain ⟨labels, ⟨state, watch⟩, more, ends⟩ := turns middle stays
    exact ⟨_, state, watch, ⟨start, isInitial, run.append more⟩, ends.held,
      ends.longest.trans even, ends.sits.retired.trans even⟩
  · have odd : 2 * (count / 2) + 1 = count := by omega
    obtain ⟨labels, ⟨state, watch⟩, more, ends⟩ := (turns.trans
      ((pushes_keep value 6 (by decide) (by decide)).trans (push_grows value))) middle stays
    exact ⟨_, state, watch, ⟨start, isInitial, run.append more⟩, ends.held,
      ends.longest.trans odd, ends.sits.retired.trans odd⟩

theorem bounded_of_backlogBounded (value : α) {allowed : Nat → Prop}
    (bounded : BacklogBounded α allowed) : ∃ few, ∀ row, allowed row → row ≤ few := by
  obtain ⟨bound, covers⟩ := bounded 16
  use bound
  intro row isAllowed
  obtain ⟨labels, state, watch, reached, held, longest, retired⟩ := backlog_grows value row
  rw [← retired]
  exact covers Unit false 4 labels state watch reached held (longest ▸ isAllowed)

/-- The backlog is bounded in just those runs whose rows of tests that find a
thief in flight are bounded. -/
theorem backlogBounded_iff [Nonempty α] (allowed : Nat → Prop) :
    BacklogBounded α allowed ↔ ∃ few, ∀ row, allowed row → row ≤ few := by
  obtain ⟨value⟩ := ‹Nonempty α›
  constructor
  · exact bounded_of_backlogBounded value
  · rintro ⟨few, bounded⟩
    exact backlogBounded_of_le bounded

theorem backlogBounded_iff_none : BacklogBounded Nat (fun row => row = 0) := by
  apply (backlogBounded_iff fun row => row = 0).mpr
  exact ⟨0, fun row none => Nat.le_of_eq none⟩

/-- One thief asleep in its critical section is enough. -/
theorem not_backlogBounded : ¬ BacklogBounded Nat (fun _ => True) := by
  intro bounded
  obtain ⟨few, fewer⟩ := bounded_of_backlogBounded 0 bounded
  exact Nat.lt_irrefl few (fewer (few + 1) trivial)

end WsDeque.ChaseLev
