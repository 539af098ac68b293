import WsDeque.Inline.Imitation

/-
How many buffers the inline deque retains: every resize retires one and nothing
is freed, so a run that shrinks again and again retains as many as it likes.
-/

namespace WsDeque.Inline

open ChaseLev (Access BufferPtr Label Resize)
open MachineWord

variable {ι α : Type*}

/-- `InlineWorker::len`. -/
def State.len (state : State ι α) : Nat :=
  (max (wrappingSub state.inner.bottom state.inner.top) 0).toNat

/-- What the labels say about the owner: whether its last call is a `pop`, and
how many buffers it has stored inside one. -/
structure Tally where
  popping : Bool
  shrinks : Nat

def Tally.see (tally : Tally) : Label ι α → Tally
  | .pushCall _ => { tally with popping := false }
  | .popCall => { tally with popping := true }
  | .owner .storeBuffer =>
      { tally with shrinks := tally.shrinks + if tally.popping then 1 else 0 }
  | _ => tally

def tallyOf (labels : List (Label ι α)) : Tally :=
  labels.foldl Tally.see
    { popping := false
      shrinks := 0 }

/-- How often a `pop` has replaced the buffer. -/
def shrinks (labels : List (Label ι α)) : Nat :=
  (tallyOf labels).shrinks

theorem tallyOf_snoc (labels : List (Label ι α)) (label : Label ι α) :
    tallyOf (labels ++ [label]) = (tallyOf labels).see label :=
  List.foldl_concat ..

/-! ### What the owner knows about the sizes -/

/-- The capacity that the resize leads to, and why. -/
def After.Resizes (after : After α) (exponent peak newCap : Nat) : Prop :=
  match after with
  | .push _ _ => newCap = 2 ^ (exponent + 1) ∧ 2 ^ exponent ≤ peak + 1
  | .pop _ => 5 ≤ exponent ∧ newCap = 2 ^ (exponent - 1)

def OwnerPc.Knows (inner : Inner) (exponent peak : Nat) : OwnerPc α → Prop
  | .pushLoadBuffer _ b => b = inner.bottom
  | .pushLoadTop _ b buf => b = inner.bottom ∧ buf = inner.buffer
  | .popStoreBottom _ buf | .popLoadTop _ buf | .popLoadCell _ _ buf => buf = inner.buffer
  | .resizing resize pc after =>
      match pc with
      | .copyLoad _ | .copyStore _ _ | .storeBuffer =>
          resize.new < inner.allocated ∧ resize.new ≠ inner.buffer ∧
            after.Resizes exponent peak (inner.heap resize.new).cap
      | .loadRetired | .casRetired _ => True
  | _ => True

/-- Whether the owner is inside a `pop`, where it is inside a call. -/
def OwnerPc.Popping (popping : Bool) : OwnerPc α → Prop
  | .idle | .returned _ => True
  | .pushLoadBottom _ | .pushLoadBuffer _ _ | .pushLoadTop _ _ _ | .pushStoreCell _ _ _
  | .pushStoreBottom _ _ | .resizing _ _ (.push _ _) => popping = false
  | .popLoadBottom | .popLoadBuffer _ | .popStoreBottom _ _ | .popLoadTop _ _
  | .popRestoreBottom _ _ | .popLoadCell _ _ _ | .popCasTop _ _ _ | .popSettleBottom _ _ _ _
  | .resizing _ _ (.pop _) => popping = true

/-- A buffer that is replaced but not yet on the retired list. -/
def OwnerPc.pending : OwnerPc α → Nat
  | .resizing _ .loadRetired _ | .resizing _ (.casRetired _) _ => 1
  | _ => 0

structure Retains (exponent : Nat) (inner : Inner) (owner : OwnerPc α) (tally : Tally)
    (peak : Nat) : Prop where
  cap : (inner.heap inner.buffer).cap = 2 ^ exponent
  allocated : inner.buffer < inner.allocated
  low : 4 ≤ exponent
  high : 2 ^ exponent ≤ max 32 (2 * (peak + 1))
  knows : owner.Knows inner exponent peak
  popping : owner.Popping tally.popping
  count : inner.retired.length + owner.pending + 5 = exponent + 2 * tally.shrinks

variable {payload : Payload α} {exponent peak peak' : Nat} {inner after : Inner}
  {pc pc' : OwnerPc α} {tally : Tally} {cached cached' : Int} {spurious : Bool}
  {access : Access} {state : State ι α}

theorem After.Resizes.mono {rest : After α} {newCap : Nat}
    (resizes : rest.Resizes exponent peak newCap) (grows : peak ≤ peak') :
    rest.Resizes exponent peak' newCap := by
  cases rest with
  | push value b => exact ⟨resizes.1, Nat.le_trans resizes.2 (Nat.succ_le_succ grows)⟩
  | pop bits => exact resizes

theorem Retains.mono (retains : Retains exponent inner pc tally peak) (grows : peak ≤ peak') :
    Retains exponent inner pc tally peak' := by
  have high := retains.high
  have knows := retains.knows
  refine { retains with high := by omega, knows := ?_ }
  cases pc with
  | resizing resize pc rest =>
      cases pc with
      | loadRetired => exact knows
      | casRetired head => exact knows
      | _ => exact ⟨knows.1, knows.2.1, knows.2.2.mono grows⟩
  | _ => exact knows

/-- A step to a control point that has nothing to do with a resize. -/
theorem Retains.move (retains : Retains exponent inner pc tally peak)
    (knows : pc'.Knows inner exponent peak) (popping : pc'.Popping tally.popping)
    (pending : pc'.pending = pc.pending) : Retains exponent inner pc' tally peak :=
  { retains with
    knows := knows
    popping := popping
    count := by rw [pending]; exact retains.count }

/-! ### The owner's steps -/

theorem Retains.exponent_le (retains : Retains exponent inner pc tally peak)
    (few : peak + 1 < 2 ^ 63) : exponent ≤ 63 := by
  have high := retains.high
  have below : 2 ^ exponent < 2 ^ 64 := by omega
  exact Nat.le_of_lt_succ ((Nat.pow_lt_pow_iff_right (by decide)).mp below)

/-- Only a deque with that many elements seems full from a `top` just read. -/
theorem Retains.full (retains : Retains exponent inner pc tally peak)
    (held : (max (wrappingSub inner.bottom inner.top) 0).toNat ≤ peak)
    (few : peak + 1 < 2 ^ 63)
    (full : mightBeFull inner inner.buffer inner.bottom inner.top = true) :
    2 ^ exponent ≤ peak + 1 ∧ exponent ≤ 62 := by
  have small := retains.exponent_le few
  have positive : 0 < 2 ^ exponent := Nat.two_pow_pos exponent
  have bound : 2 ^ exponent ≤ 2 ^ 63 := Nat.pow_le_pow_right (by decide) small
  have reached := of_decide_eq_true full
  rw [retains.cap, asIsize_sub_one positive bound] at reached
  have reaches : 2 ^ exponent ≤ peak + 1 := by omega
  have below : 2 ^ exponent < 2 ^ 63 := by omega
  exact ⟨reaches, Nat.le_of_lt_succ ((Nat.pow_lt_pow_iff_right (by decide)).mp below)⟩

/-- A fresh buffer is beside the active one until it is stored. -/
theorem Retains.startResize (retains : Retains exponent inner pc tally peak) {newCap : Nat}
    {bottom top : Int} {rest : After α} (resizes : rest.Resizes exponent peak newCap)
    (popping : (OwnerPc.resizing
      { old := inner.buffer
        new := inner.allocated
        bottom := bottom
        top := top } .storeBuffer rest).Popping tally.popping) (none : pc.pending = 0) :
    Retains exponent (startResize inner inner.buffer newCap bottom top rest).1
      (startResize inner inner.buffer newCap bottom top rest).2 tally peak := by
  have different : inner.buffer ≠ inner.allocated := Nat.ne_of_lt retains.allocated
  have kept : (Function.update inner.heap inner.allocated (Buffer.alloc newCap)) inner.buffer =
      inner.heap inner.buffer := Function.update_of_ne different ..
  have fresh : (Function.update inner.heap inner.allocated (Buffer.alloc newCap))
      inner.allocated = Buffer.alloc newCap := Function.update_self ..
  have count := retains.count
  rw [none] at count
  unfold Inline.startResize copyFrom
  constructor
  · rw [← retains.cap, ← kept]
  · exact Nat.lt_succ_of_lt retains.allocated
  · exact retains.low
  · exact retains.high
  · have resized : rest.Resizes exponent peak
        (Function.update inner.heap inner.allocated (Buffer.alloc newCap) inner.allocated).cap := by
      rw [fresh]
      exact resizes
    dsimp only
    split <;> exact ⟨Nat.lt_succ_self _, different.symm, resized⟩
  · dsimp only
    cases rest <;> exact popping
  · dsimp only
    split <;> exact count

theorem cap_write (heap : BufferPtr → Buffer) (ptr other : BufferPtr) (index : Int)
    (bits : Bits) :
    (Function.update heap ptr ((heap ptr).write index bits) other).cap = (heap other).cap := by
  by_cases same : other = ptr
  · rw [same, Function.update_self]
    rfl
  · rw [Function.update_of_ne same]

/-- A cell that is written changes no size. -/
theorem Retains.write (retains : Retains exponent inner pc tally peak) (ptr : BufferPtr)
    (index : Int) (bits : Bits)
    (knows : pc'.Knows inner exponent peak) (popping : pc'.Popping tally.popping)
    (pending : pc'.pending = pc.pending) :
    Retains exponent
      { inner with
        heap := Function.update inner.heap ptr ((inner.heap ptr).write index bits) }
      pc' tally peak := by
  have same := cap_write inner.heap ptr
  constructor
  · rw [← retains.cap]
    exact same inner.buffer index bits
  · exact retains.allocated
  · exact retains.low
  · exact retains.high
  · cases pc' with
    | resizing resize pc rest =>
        cases pc with
        | loadRetired => exact knows
        | casRetired head => exact knows
        | _ =>
            obtain ⟨fresh, different, resizes⟩ := knows
            rw [← same resize.new index bits] at resizes
            exact ⟨fresh, different, resizes⟩
    | _ => exact knows
  · exact popping
  · rw [pending]
    exact retains.count

theorem copyFrom_knows (resize : Resize) (k : Nat) {rest : After α}
    (knows : (OwnerPc.resizing resize .storeBuffer rest).Knows inner exponent peak) :
    (OwnerPc.resizing resize (copyFrom resize k) rest).Knows inner exponent peak := by
  unfold copyFrom
  split <;> exact knows

theorem copyFrom_pending (resize : Resize) (k : Nat) (rest : After α) :
    (OwnerPc.resizing resize (copyFrom resize k) rest).pending = 0 := by
  unfold copyFrom
  split <;> rfl

theorem popping_resizing {popping : Bool} {resize : Resize} {at' : ResizePc} {rest : After α}
    (inside : (OwnerPc.resizing resize at' rest).Popping popping) (there : ResizePc) :
    (OwnerPc.resizing resize there rest).Popping popping := by
  cases rest <;> exact inside

/-- The store that makes the fresh buffer the active one. -/
theorem Retains.storeBuffer {resize : Resize} {rest : After α}
    (retains : Retains exponent inner (.resizing resize .storeBuffer rest) tally peak) :
    ∃ exponent', Retains exponent' { inner with buffer := resize.new }
      (.resizing resize .loadRetired rest) (tally.see (.owner .storeBuffer : Label ι α)) peak := by
  obtain ⟨fresh, different, resizes⟩ := retains.knows
  have popping := retains.popping
  have count := retains.count
  have low := retains.low
  have high := retains.high
  cases rest with
  | push value b =>
      obtain ⟨doubled, reached⟩ := resizes
      refine ⟨exponent + 1, doubled, fresh, Nat.le_succ_of_le low, ?_, trivial, popping, ?_⟩
      · rw [Nat.pow_succ]
        omega
      · have still : tally.popping = false := popping
        simp only [Tally.see, still, OwnerPc.pending] at count ⊢
        simp only [Bool.false_eq_true, if_false]
        omega
  | pop bits =>
      obtain ⟨large, halved⟩ := resizes
      refine ⟨exponent - 1, halved, fresh, Nat.le_sub_one_of_lt large, ?_, trivial, popping, ?_⟩
      · have less : 2 ^ (exponent - 1) ≤ 2 ^ exponent :=
          Nat.pow_le_pow_right (by decide) (Nat.sub_le ..)
        omega
      · have still : tally.popping = true := popping
        simp only [Tally.see, still, OwnerPc.pending, if_true] at count ⊢
        omega

theorem Retains.resize_step {resize : Resize} {at' : ResizePc} {rest : After α}
    (retains : Retains exponent inner (.resizing resize at' rest) tally peak)
    (taken : ownerStep payload inner cached spurious (.resizing resize at' rest) =
      some (access, after, cached', pc')) :
    ∃ exponent', Retains exponent' after pc' (tally.see (.owner access : Label ι α)) peak := by
  cases at' with
  | copyLoad k =>
      cases taken
      exact ⟨exponent, retains.move retains.knows (popping_resizing retains.popping _) rfl⟩
  | copyStore k bits =>
      cases taken
      exact ⟨exponent, retains.write _ _ _ (copyFrom_knows resize (k + 1) retains.knows)
        (popping_resizing retains.popping _) (copyFrom_pending resize (k + 1) rest)⟩
  | storeBuffer =>
      cases taken
      exact retains.storeBuffer
  | loadRetired =>
      cases taken
      exact ⟨exponent, retains.move trivial (popping_resizing retains.popping _) rfl⟩
  | casRetired head =>
      simp only [ownerStep, resizeStep] at taken
      by_cases won : spurious = false ∧ inner.retired = head
      · simp only [if_pos won] at taken
        cases taken
        have count := retains.count
        simp only [OwnerPc.pending, won.2] at count
        refine ⟨exponent, retains.cap, retains.allocated, retains.low, retains.high, ?_, ?_, ?_⟩
        · cases rest <;> trivial
        · have popping := retains.popping
          cases rest with
          | push value b => exact popping
          | pop bits => trivial
        · have none : (finishResize payload resize rest).pending = 0 := by cases rest <;> rfl
          rw [none]
          simp only [Tally.see, List.length_cons]
          omega
      · simp only [if_neg won] at taken
        cases taken
        exact ⟨exponent, retains.move trivial (popping_resizing retains.popping _) rfl⟩

theorem Retains.owner_step (retains : Retains exponent inner pc tally peak)
    (held : (max (wrappingSub inner.bottom inner.top) 0).toNat ≤ peak)
    (few : peak + 1 < 2 ^ 63)
    (taken : ownerStep payload inner cached spurious pc = some (access, after, cached', pc')) :
    ∃ exponent', Retains exponent' after pc' (tally.see (.owner access : Label ι α)) peak := by
  have knows := retains.knows
  have popping := retains.popping
  cases pc with
  | idle => cases taken
  | returned result => cases taken
  | resizing resize at' rest => exact retains.resize_step taken
  | pushLoadBottom value =>
      cases taken
      exact ⟨exponent, retains.move rfl popping rfl⟩
  | pushLoadBuffer value b =>
      simp only [ownerStep] at taken
      split at taken
      · cases taken
        exact ⟨exponent, retains.move ⟨knows, rfl⟩ popping rfl⟩
      · rename_i room
        simp only [pushGrowOrStore, if_neg room] at taken
        cases taken
        exact ⟨exponent, retains.move trivial popping rfl⟩
  | pushLoadTop value b buf =>
      obtain ⟨rfl, rfl⟩ := knows
      simp only [ownerStep, pushGrowOrStore] at taken
      split at taken
      · rename_i full
        cases taken
        obtain ⟨reaches, small⟩ := retains.full held few full
        have low := retains.low
        have doubled := grown_cap small
        rw [← retains.cap, Nat.max_eq_left (by omega : 4 ≤ exponent + 1)] at doubled
        exact ⟨exponent, retains.startResize ⟨doubled, reaches⟩ popping rfl⟩
      · cases taken
        exact ⟨exponent, retains.move trivial popping rfl⟩
  | pushStoreCell value b buf =>
      cases taken
      exact ⟨exponent, retains.write _ _ _ trivial popping rfl⟩
  | pushStoreBottom value b =>
      cases taken
      exact ⟨exponent, retains.cap, retains.allocated, retains.low, retains.high, trivial, trivial,
        retains.count⟩
  | popLoadBottom =>
      cases taken
      exact ⟨exponent, retains.move trivial popping rfl⟩
  | popLoadBuffer b =>
      cases taken
      exact ⟨exponent, retains.move rfl popping rfl⟩
  | popStoreBottom b buf =>
      cases taken
      exact ⟨exponent, retains.cap, retains.allocated, retains.low, retains.high, knows, popping,
        retains.count⟩
  | popLoadTop b buf =>
      simp only [ownerStep] at taken
      cases taken
      refine ⟨exponent, retains.move ?_ ?_ ?_⟩
      · split
        · trivial
        · exact knows
      · split <;> exact popping
      · split <;> rfl
  | popRestoreBottom b t =>
      cases taken
      exact ⟨exponent, retains.cap, retains.allocated, retains.low, retains.high, trivial, trivial,
        retains.count⟩
  | popLoadCell b t buf =>
      obtain rfl := knows
      simp only [ownerStep, perhapsShrink] at taken
      split at taken
      · split at taken
        · rename_i small
          cases taken
          have low := retains.low
          have large : 5 ≤ exponent := by
            by_contra least
            have four : exponent = 4 := by omega
            have cap := retains.cap
            rw [four] at cap
            exact Nat.lt_irrefl _ (cap ▸ small.1)
          have halved : max ((inner.heap inner.buffer).cap / 2) minCapacity =
              2 ^ (exponent - 1) := by
            have least : 2 ^ 4 ≤ 2 ^ (exponent - 1) :=
              Nat.pow_le_pow_right (by decide) (by omega)
            have double : 2 ^ exponent = 2 ^ (exponent - 1) * 2 := by
              rw [← Nat.pow_succ, Nat.succ_eq_add_one, Nat.sub_add_cancel (by omega)]
            rw [retains.cap, double, Nat.mul_div_cancel _ Nat.two_pos]
            exact Nat.max_eq_left least
          exact ⟨exponent, retains.startResize ⟨large, halved⟩ popping rfl⟩
        · cases taken
          exact ⟨exponent, retains.move trivial trivial rfl⟩
      · cases taken
        exact ⟨exponent, retains.move trivial popping rfl⟩
  | popCasTop b t bits =>
      simp only [ownerStep] at taken
      split at taken
      · cases taken
        exact ⟨exponent, retains.cap, retains.allocated, retains.low, retains.high, trivial,
          popping, retains.count⟩
      · cases taken
        exact ⟨exponent, retains.move trivial popping rfl⟩
  | popSettleBottom b t bits won =>
      cases taken
      exact ⟨exponent, retains.cap, retains.allocated, retains.low, retains.high, trivial, trivial,
        retains.count⟩

/-! ### Runs -/

variable [DecidableEq ι] {choice : Choice ι α} {label : Label ι α} {state' : State ι α}
  {labels : List (Label ι α)}

theorem thiefStep_only {thiefPc thiefPc' : ThiefPc α}
    (taken : thiefStep payload inner thiefPc = some (access, after, thiefPc')) :
    after = { inner with top := after.top } := by
  cases thiefPc with
  | casTop t bits =>
      simp only [thiefStep] at taken
      split at taken <;> cases taken <;> rfl
  | absent => cases taken
  | idle => cases taken
  | returned result => cases taken
  | _ =>
      cases taken
      rfl

theorem Retains.next (retains : Retains exponent state.inner state.owner tally peak)
    (held : state.len ≤ peak) (few : peak + 1 < 2 ^ 63)
    (moved : next payload state choice = some (label, state')) :
    ∃ exponent', Retains exponent' state'.inner state'.owner (tally.see label) peak := by
  cases next_moves moved with
  | pushCall value atPc | popCall atPc =>
      rw [atPc] at retains
      exact ⟨exponent, retains.cap, retains.allocated, retains.low, retains.high, trivial, rfl,
        retains.count⟩
  | owner spurious access inner cachedTop pc stepped => exact retains.owner_step held few stepped
  | ownerReturn result atPc =>
      rw [atPc] at retains
      exact ⟨exponent, retains.move trivial trivial rfl⟩
  | newStealer thief atPc | stealCall thief atPc | stealReturn thief result atPc =>
      exact ⟨exponent, retains⟩
  | thief thief access inner pc stepped =>
      have only := thiefStep_only stepped
      refine ⟨exponent, ?_⟩
      change Retains exponent inner state.owner tally peak
      rw [only]
      refine ⟨retains.cap, retains.allocated, retains.low, retains.high, ?_, retains.popping,
        retains.count⟩
      have knows := retains.knows
      cases pc : state.owner with
      | resizing resize at' rest =>
          rw [pc] at knows
          cases at' <;> exact knows
      | _ =>
          rw [pc] at knows
          exact knows

theorem retains_of_reaches
    (reached : ((system payload ι 5).peaked State.len).Reaches labels (state, peak))
    (few : peak + 1 < 2 ^ 63) :
    state.len ≤ peak ∧ ∃ exponent,
      Retains exponent state.inner state.owner (tallyOf labels) peak := by
  obtain ⟨⟨start, low⟩, ⟨isInitial, lowest⟩, run⟩ := reached
  generalize final : (state, peak) = last at run
  induction run generalizing state peak with
  | refl =>
      cases final
      obtain rfl : start = withLogCapacity ι α 5 := isInitial
      obtain rfl : low = (withLogCapacity ι α 5).len := lowest
      exact ⟨Nat.le_refl _, 5, rfl, Nat.one_pos, by decide, Nat.le_max_left 32 _, trivial, trivial,
        rfl⟩
  | @snoc middle last labels label prior taken ih =>
      cases final
      obtain ⟨⟨choice, moved⟩, higher⟩ := taken
      dsimp only at moved higher
      have grows : middle.2 ≤ peak := by omega
      obtain ⟨held, exponent, retains⟩ := ih (by omega) rfl
      obtain ⟨exponent', after⟩ := retains.next held (by omega) moved
      rw [tallyOf_snoc]
      exact ⟨by omega, exponent', after.mono grows⟩

/-- The list of retired buffers is logarithmic in the runs whose number of
shrinks is one of these. -/
def RetainsLogarithmically (ι : Type*) [DecidableEq ι] (payload : Payload α)
    (allowed : Nat → Prop) : Prop :=
  ∃ constant, ∀ labels state peak,
    ((system payload ι 5).peaked State.len).Reaches labels (state, peak) →
      peak + 1 < 2 ^ 63 → allowed (shrinks labels) →
        state.inner.retired.length ≤ constant + Nat.log2 (peak + 1)

theorem retainsLogarithmically_of_le (payload : Payload α) {allowed : Nat → Prop} {few : Nat}
    (bounded : ∀ count, allowed count → count ≤ few) :
    RetainsLogarithmically ι payload allowed := by
  use 2 * few
  intro labels state peak reached small shrunk
  obtain ⟨_held, exponent, retains⟩ := retains_of_reaches reached small
  have count := retains.count
  have high := retains.high
  have less := bounded _ shrunk
  unfold shrinks at less
  by_cases default : exponent ≤ 5
  · omega
  · have power : 2 ^ exponent = 2 ^ (exponent - 1) * 2 := by
      rw [← Nat.pow_succ, Nat.succ_eq_add_one, Nat.sub_add_cancel (by omega)]
    have large : 2 ^ 5 ≤ 2 ^ (exponent - 1) := Nat.pow_le_pow_right (by decide) (by omega)
    have reached : 2 ^ (exponent - 1) ≤ peak + 1 := by omega
    have log := (Nat.le_log2 (by omega : peak + 1 ≠ 0)).mpr reached
    omega

/-! ### Around the two thresholds -/

/-- At this state with at most sixteen elements so far. -/
def At (state : State ι α) (watched : State ι α × Nat) : Prop :=
  watched.1 = state ∧ watched.2 ≤ 16

theorem leads_of_next (moved : next payload state choice = some (label, state'))
    (held : state'.len ≤ 16) :
    ((system payload ι 5).peaked State.len).Leads (At state) (At state') := by
  rintro ⟨now, peak⟩ ⟨rfl, low⟩
  refine ⟨[label], (state', max peak state'.len), .single ⟨⟨choice, moved⟩, rfl⟩, rfl, ?_⟩
  exact Nat.max_le.mpr ⟨low, held⟩

/-- A step of the owner that has the same number of elements. -/
theorem leads_of_ownerStep {spurious : Bool}
    (taken : ownerStep payload state.inner state.cachedTop spurious state.owner =
      some (access, after, cached', pc'))
    (held : (max (wrappingSub after.bottom after.top) 0).toNat ≤ 16) :
    ((system payload ι 5).peaked State.len).Leads (At state)
      (At { state with
        inner := after
        cachedTop := cached'
        owner := pc' }) := by
  have moved : next payload state (.owner spurious) = some (.owner access,
      { state with
        inner := after
        cachedTop := cached'
        owner := pc' }) := by
    simp only [next, taken, Option.map_some]
  exact leads_of_next moved held

theorem wrappingSub_zero {size : Nat} (few : size ≤ 32) : wrappingSub (size : Int) 0 = size := by
  rw [wrappingSub_of_range] <;> omega

theorem mightBeFull_iff {buf : BufferPtr} {cap size : Nat} (capacity : (inner.heap buf).cap = cap)
    (positive : 0 < cap) (small : cap ≤ 32) (few : size ≤ 32) :
    mightBeFull inner buf size 0 = decide (cap ≤ size + 1) := by
  unfold mightBeFull
  rw [capacity, asIsize_sub_one positive (by omega), wrappingSub_zero few]
  apply decide_eq_decide.mpr
  omega

/-- The same state with other cells in its buffers. -/
def State.reheap (state : State ι α) (heap : BufferPtr → Buffer) (pc : OwnerPc α) : State ι α :=
  { state with
    inner := { state.inner with heap := heap }
    owner := pc }

/-- The copy loop runs to its end and changes no capacity. -/
theorem copies_lead (payload : Payload α) {resize : Resize} {rest : After α}
    (remaining : Nat) {k : Nat} (enough : (resize.count - k).toNat ≤ remaining)
    (atPc : state.owner = .resizing resize (copyFrom resize k) rest) (held : state.len ≤ 16) :
    ((system payload ι 5).peaked State.len).Leads (At state) fun watched =>
      ∃ heap, (∀ ptr, (heap ptr).cap = (state.inner.heap ptr).cap) ∧
        At (state.reheap heap (.resizing resize .storeBuffer rest)) watched := by
  induction remaining generalizing k state with
  | zero =>
      have last : copyFrom resize k = .storeBuffer := if_neg (by omega)
      rw [last] at atPc
      intro watched here
      refine ⟨[], watched, .refl watched, state.inner.heap, fun _ptr => rfl, ?_⟩
      unfold State.reheap
      rw [← atPc]
      exact here
  | succ remaining ih =>
      by_cases more : (k : Int) < resize.count
      · have loop : copyFrom resize k = .copyLoad k := if_pos more
        rw [loop] at atPc
        let bits := (state.inner.heap resize.old).read (wrappingAdd resize.top k)
        let loaded := { state with owner := .resizing resize (.copyStore k bits) rest }
        let heap := Function.update state.inner.heap resize.new
          ((state.inner.heap resize.new).write (wrappingAdd resize.top k) bits)
        have loads : next payload state (.owner false) = some (.owner .loadCell, loaded) := by
          simp only [next, atPc, ownerStep, resizeStep, Option.map_some]
          rfl
        have stores : next payload loaded (.owner false) = some (.owner .storeCell,
            state.reheap heap (.resizing resize (copyFrom resize (k + 1)) rest)) := rfl
        have fewer : (resize.count - (k + 1 : Nat)).toNat ≤ remaining := by omega
        have later : ((system payload ι 5).peaked State.len).Leads
            (At (state.reheap heap (.resizing resize (copyFrom resize (k + 1)) rest))) _ :=
          ih fewer rfl held
        refine ((leads_of_next loads held).trans (leads_of_next stores held)).trans ?_
        intro watched here
        obtain ⟨labels, final, run, heap', same, there⟩ := later watched here
        refine ⟨labels, final, run, heap', ?_, there⟩
        intro ptr
        exact (same ptr).trans (cap_write state.inner.heap resize.new ptr _ _)
      · have last : copyFrom resize k = .storeBuffer := if_neg more
        rw [last] at atPc
        intro watched here
        refine ⟨[], watched, .refl watched, state.inner.heap, fun _ptr => rfl, ?_⟩
        unfold State.reheap
        rw [← atPc]
        exact here

/-- After the resize: the fresh buffer is active and the old one retired. -/
def State.resized (payload : Payload α) (state : State ι α) (heap : BufferPtr → Buffer)
    (resize : Resize) (rest : After α) : State ι α :=
  { state with
    inner := { state.inner with
      heap := heap
      buffer := resize.new
      retired := resize.old :: state.inner.retired }
    owner := finishResize payload resize rest }

theorem resize_leads (payload : Payload α) {resize : Resize} {rest : After α}
    (atPc : state.owner = .resizing resize (copyFrom resize 0) rest) (held : state.len ≤ 16) :
    ((system payload ι 5).peaked State.len).Leads (At state) fun watched =>
      ∃ heap, (∀ ptr, (heap ptr).cap = (state.inner.heap ptr).cap) ∧
        At (state.resized payload heap resize rest) watched := by
  refine (copies_lead payload _ (Nat.le_refl _) atPc held).trans ?_
  rintro watched ⟨heap, same, here⟩
  let copied := state.reheap heap (.resizing resize .storeBuffer rest)
  let stored := { copied with
    inner := { copied.inner with buffer := resize.new }
    owner := OwnerPc.resizing resize .loadRetired rest }
  let loaded := { stored with
    owner := OwnerPc.resizing resize (.casRetired state.inner.retired) rest }
  have stores : next payload copied (.owner false) = some (.owner .storeBuffer, stored) := rfl
  have loads : next payload stored (.owner false) = some (.owner .loadRetired, loaded) := rfl
  have wins : next payload loaded (.owner false) =
      some (.owner (.casRetired true), state.resized payload heap resize rest) := by
    have retires : resizeStep resize loaded.inner false (.casRetired state.inner.retired) =
        (.casRetired true,
          { loaded.inner with retired := resize.old :: state.inner.retired }, none) :=
      if_pos ⟨rfl, rfl⟩
    simp only [next, loaded, ownerStep]
    rw [retires]
    rfl
  obtain ⟨labels, final, run, there⟩ := ((leads_of_next stores held).trans
    ((leads_of_next loads held).trans (leads_of_next wins held))) watched here
  exact ⟨labels, final, run, heap, same, there⟩

/-- The elements from index zero on, in a buffer of this capacity. -/
structure Sits (size cap retired : Nat) (state : State ι α) : Prop where
  bottom : state.inner.bottom = size
  top : state.inner.top = 0
  cached : state.cachedTop = 0
  cap : (state.inner.heap state.inner.buffer).cap = cap
  allocated : state.inner.buffer < state.inner.allocated
  retired : state.inner.retired.length = retired

/-- Sitting so at this point of the owner. -/
structure Stays (size cap retired : Nat) (owner : OwnerPc α) (watched : State ι α × Nat) :
    Prop where
  sits : Sits size cap retired watched.1
  owner : watched.1.owner = owner
  low : watched.2 ≤ 16

variable {size cap retired : Nat}

omit [DecidableEq ι] in
theorem Sits.len (sits : Sits size cap retired state) (few : size ≤ 16) : state.len ≤ 16 := by
  unfold State.len
  rw [sits.bottom, sits.top, wrappingSub_zero (by omega)]
  omega

omit [DecidableEq ι] in
theorem Sits.full (sits : Sits size cap retired state) (positive : 0 < cap) (small : cap ≤ 32)
    (few : size ≤ 16) : mightBeFull state.inner state.inner.buffer size 0 =
      decide (cap ≤ size + 1) :=
  mightBeFull_iff sits.cap positive small (by omega)

/-- To lead from a kind of state is to lead from each of its states. -/
theorem leads_of_at {To : State ι α × Nat → Prop}
    (each : ∀ state : State ι α, Sits size cap retired state → state.owner = pc →
      ((system payload ι 5).peaked State.len).Leads (At state) To) :
    ((system payload ι 5).peaked State.len).Leads (Stays size cap retired pc) To :=
  fun watched stays => each watched.1 stays.sits stays.owner watched ⟨rfl, stays.low⟩

theorem resize_ends (payload : Payload α) {resize : Resize} {rest : After α} {newCap : Nat}
    (sits : Sits size cap retired state) (few : size ≤ 16)
    (atPc : state.owner = .resizing resize (copyFrom resize 0) rest)
    (fresh : resize.new < state.inner.allocated)
    (capacity : (state.inner.heap resize.new).cap = newCap) :
    ((system payload ι 5).peaked State.len).Leads (At state)
      (Stays size newCap (retired + 1) (finishResize payload resize rest)) := by
  intro watched here
  obtain ⟨labels, ⟨final, peak⟩, run, heap, same, rfl, low⟩ :=
    resize_leads payload atPc (sits.len few) watched here
  refine ⟨labels, _, run, ⟨sits.bottom, sits.top, sits.cached, (same _).trans capacity, fresh, ?_⟩,
    rfl, low⟩
  exact congrArg Nat.succ sits.retired

/-! ### Pushes -/

theorem push_begins (payload : Payload α) (value : α) (few : size ≤ 16) :
    ((system payload ι 5).peaked State.len).Leads (Stays size cap retired .idle)
      (Stays size cap retired (.pushLoadBuffer value size)) := by
  apply leads_of_at
  intro state sits atPc
  have held := sits.len few
  have calls : next payload state (.pushCall value) =
      some (.pushCall value, { state with owner := .pushLoadBottom value }) := by
    simp only [next, atPc]
  have loads : next payload { state with owner := .pushLoadBottom value } (.owner false) =
      some (.owner .loadBottom, { state with owner := .pushLoadBuffer value (size : Int) }) := by
    simp only [next, ownerStep, sits.bottom, Option.map_some]
  intro watched here
  obtain ⟨labels, ⟨final, peak⟩, run, rfl, low⟩ :=
    ((leads_of_next calls held).trans (leads_of_next loads held)) watched here
  exact ⟨labels, _, run, ⟨sits.bottom, sits.top, sits.cached, sits.cap, sits.allocated,
    sits.retired⟩, rfl, low⟩

theorem push_ends (payload : Payload α) (value : α) (buf : BufferPtr) (few : size + 1 ≤ 16) :
    ((system payload ι 5).peaked State.len).Leads
      (Stays size cap retired (.pushStoreCell value size buf))
      (Stays (size + 1) cap retired .idle) := by
  apply leads_of_at
  intro state sits atPc
  have held : state.len ≤ 16 := sits.len (by omega)
  let heap := Function.update state.inner.heap buf
    ((state.inner.heap buf).write size (toBits payload value))
  let stored := state.reheap heap (.pushStoreBottom value size)
  let pushed := { stored with
    inner := { stored.inner with bottom := ((size + 1 : Nat) : Int) }
    owner := OwnerPc.returned .pushed }
  have stores : next payload state (.owner false) = some (.owner .storeCell, stored) := by
    simp only [next, atPc, ownerStep, Option.map_some]
    rfl
  have raises : next payload stored (.owner false) = some (.owner .storeBottom, pushed) := by
    have above : wrappingAdd (size : Int) 1 = ((size + 1 : Nat) : Int) := by
      rw [wrappingAdd_of_range] <;> omega
    have moved : next payload stored (.owner false) = some (.owner .storeBottom,
        { stored with
          inner := { stored.inner with bottom := wrappingAdd size 1 }
          owner := OwnerPc.returned .pushed }) := rfl
    rw [moved, above]
  have returns : next payload pushed .ownerReturn =
      some (.ownerReturn .pushed, { pushed with owner := .idle }) := rfl
  have capacity : (heap state.inner.buffer).cap = cap :=
    (cap_write state.inner.heap buf _ _ _).trans sits.cap
  have ends : Sits (size + 1) cap retired { pushed with owner := .idle } :=
    ⟨rfl, sits.top, sits.cached, capacity, sits.allocated, sits.retired⟩
  intro watched here
  obtain ⟨labels, ⟨final, peak⟩, run, rfl, low⟩ := ((leads_of_next stores held).trans
    ((leads_of_next raises (ends.len few)).trans (leads_of_next returns (ends.len few))))
      watched here
  exact ⟨labels, _, run, ends, rfl, low⟩

theorem push_keeps (payload : Payload α) (value : α) (room : size + 1 < cap) (small : cap ≤ 32)
    (few : size + 1 ≤ 16) :
    ((system payload ι 5).peaked State.len).Leads (Stays size cap retired .idle)
      (Stays (size + 1) cap retired .idle) := by
  refine (push_begins payload value (by omega)).trans (leads_of_at ?_)
  intro state sits atPc
  have empty := sits.full (by omega) small (by omega)
  rw [decide_eq_false (by omega), ← sits.cached] at empty
  have chooses : ownerStep payload state.inner state.cachedTop false state.owner =
      some (.loadBuffer, state.inner, state.cachedTop,
        .pushStoreCell value size state.inner.buffer) := by
    simp only [atPc, ownerStep, pushGrowOrStore, empty, Bool.false_eq_true, if_false]
  refine (leads_of_ownerStep chooses (sits.len (by omega))).trans ?_
  rintro ⟨now, peak⟩ ⟨rfl, low⟩
  exact push_ends payload value _ few _ ⟨⟨sits.bottom, sits.top, sits.cached, sits.cap,
    sits.allocated, sits.retired⟩, rfl, low⟩

/-- The sixteenth element does not fit into sixteen cells. -/
theorem push_grows (payload : Payload α) (value : α) :
    ((system payload ι 5).peaked State.len).Leads (Stays 15 16 retired .idle)
      (Stays 16 32 (retired + 1) .idle) := by
  refine (push_begins payload value (by decide)).trans (leads_of_at ?_)
  intro state sits atPc
  have held := sits.len (by decide)
  have full := sits.full (by decide) (by decide) (by decide)
  rw [decide_eq_true (by decide)] at full
  have early := full
  rw [← sits.cached] at early
  rw [← sits.top] at full
  let looked := { state with
    owner := OwnerPc.pushLoadTop value ((15 : Nat) : Int) state.inner.buffer }
  have looks : next payload state (.owner false) = some (.owner .loadBuffer, looked) := by
    simp only [next, atPc, ownerStep, early, if_true, Option.map_some]
    rfl
  have cap : max (asUsize (wrap (asIsize (state.inner.heap state.inner.buffer).cap * 2)))
      minCapacity = 32 := by
    rw [sits.cap]
    decide
  let begun := startResize state.inner state.inner.buffer 32 ((15 : Nat) : Int) state.inner.top
    (.push value ((15 : Nat) : Int))
  have grows : ownerStep payload looked.inner looked.cachedTop false looked.owner =
      some (.loadTop, begun.1, state.inner.top, begun.2) := by
    change some (Access.loadTop, _) = _
    simp only [pushGrowOrStore, looked, begun, full, if_true, cap]
  have different : state.inner.buffer ≠ state.inner.allocated := Nat.ne_of_lt sits.allocated
  have started : Sits 15 16 retired
      { looked with
        inner := begun.1
        cachedTop := state.inner.top
        owner := begun.2 } := by
    refine ⟨sits.bottom, sits.top, sits.top, ?_, Nat.lt_succ_of_lt sits.allocated, sits.retired⟩
    rw [← sits.cap]
    exact congrArg Buffer.cap (Function.update_of_ne different ..)
  have fresh : (begun.1.heap state.inner.allocated).cap = 32 := by
    change (Function.update state.inner.heap state.inner.allocated (Buffer.alloc 32)
      state.inner.allocated).cap = 32
    rw [Function.update_self]
    rfl
  exact (leads_of_next looks held).trans ((leads_of_ownerStep grows held).trans
    ((resize_ends payload started (by decide) rfl (Nat.lt_succ_self _) fresh).trans
      (push_ends payload value _ (by decide))))

/-! ### Pops -/

theorem pop_begins (payload : Payload α) (few : size + 1 ≤ 16) (more : 0 < size) :
    ((system payload ι 5).peaked State.len).Leads (Stays (size + 1) cap retired .idle)
      fun watched => ∃ buf, watched.1.inner.buffer = buf ∧
        Stays size cap retired (.popLoadCell size 0 buf) watched := by
  have above : wrappingSub ((size + 1 : Nat) : Int) 1 = size := by
    rw [wrappingSub_of_range] <;> omega
  have positive : ¬ wrappingSub (size : Int) 0 < 0 := by
    rw [wrappingSub_zero (by omega)]
    omega
  apply leads_of_at
  intro state sits atPc
  have held := sits.len few
  let loaded := { state with owner := OwnerPc.popLoadBuffer (size : Int) }
  let ready := { state with owner := OwnerPc.popStoreBottom (size : Int) state.inner.buffer }
  let lowered := { state with
    inner := { state.inner with bottom := (size : Int) }
    owner := OwnerPc.popLoadTop (size : Int) state.inner.buffer }
  let looked := { lowered with
    owner := OwnerPc.popLoadCell (size : Int) 0 state.inner.buffer }
  have calls : next payload state .popCall =
      some (.popCall, { state with owner := .popLoadBottom }) := by
    simp only [next, atPc]
  have loads : next payload { state with owner := .popLoadBottom } (.owner false) =
      some (.owner .loadBottom, loaded) := by
    simp only [next, ownerStep, sits.bottom, above, Option.map_some]
    rfl
  have buffers : next payload loaded (.owner false) = some (.owner .loadBuffer, ready) := rfl
  have lowers : next payload ready (.owner false) = some (.owner .storeBottom, lowered) := rfl
  have looks : next payload lowered (.owner false) = some (.owner .loadTop, looked) := by
    have moved : next payload lowered (.owner false) = some (.owner .loadTop,
        { lowered with
          owner := if wrappingSub (size : Int) state.inner.top < 0 then
            .popRestoreBottom (size : Int) state.inner.top
            else .popLoadCell (size : Int) state.inner.top state.inner.buffer }) := rfl
    rw [moved, sits.top, if_neg positive]
  have after : Sits size cap retired looked :=
    ⟨rfl, sits.top, sits.cached, sits.cap, sits.allocated, sits.retired⟩
  have fewer := after.len (by omega)
  intro watched here
  obtain ⟨labels, ⟨final, peak⟩, run, rfl, low⟩ := ((leads_of_next calls held).trans
    ((leads_of_next loads held).trans ((leads_of_next buffers held).trans
      ((leads_of_next lowers fewer).trans (leads_of_next looks fewer))))) watched here
  exact ⟨labels, _, run, _, rfl, after, rfl, low⟩

theorem pop_returns (payload : Payload α) {value : Option α} (few : size ≤ 16) :
    ((system payload ι 5).peaked State.len).Leads
      (Stays size cap retired (.returned (.popped value))) (Stays size cap retired .idle) := by
  apply leads_of_at
  intro state sits atPc
  have returns : next payload state .ownerReturn =
      some (.ownerReturn (.popped value), { state with owner := .idle }) := by
    simp only [next, atPc]
  intro watched here
  obtain ⟨labels, ⟨final, peak⟩, run, rfl, low⟩ :=
    leads_of_next returns (sits.len few) watched here
  exact ⟨labels, _, run, ⟨sits.bottom, sits.top, sits.cached, sits.cap, sits.allocated,
    sits.retired⟩, rfl, low⟩

/-- What `perhaps_shrink` decides for a `pop` that leaves this many elements. -/
theorem pop_keeps (payload : Payload α) (few : size + 1 ≤ 16) (more : 0 < size)
    (stays : ¬ (cap > minCapacity ∧ size < cap / shrinkFactor)) :
    ((system payload ι 5).peaked State.len).Leads (Stays (size + 1) cap retired .idle)
      (Stays size cap retired .idle) := by
  refine (pop_begins payload few more).trans ?_
  rintro ⟨state, peak⟩ ⟨buf, rfl, sits, atPc, low⟩
  dsimp only at sits atPc low
  have positive : wrappingSub (size : Int) 0 > 0 := by
    rw [wrappingSub_zero (by omega)]
    omega
  have same : (max (wrappingSub (size : Int) 0) 0).toNat = size := by
    rw [wrappingSub_zero (by omega)]
    omega
  let bits := (state.inner.heap state.inner.buffer).read (size : Int)
  have takes : next payload state (.owner false) = some (.owner .loadCell,
      { state with owner := .returned (.popped (some (fromBits payload bits))) }) := by
    simp only [next, atPc, ownerStep, perhapsShrink, if_pos positive, sits.cap, same,
      if_neg stays, Option.map_some]
    rfl
  obtain ⟨labels, ⟨final, peak'⟩, run, rfl, low⟩ :=
    leads_of_next takes (sits.len (by omega)) (state, peak) ⟨rfl, low⟩
  obtain ⟨labels', last, run', there⟩ := pop_returns payload (by omega) _
    ⟨⟨sits.bottom, sits.top, sits.cached, sits.cap, sits.allocated, sits.retired⟩, rfl, low⟩
  exact ⟨labels ++ labels', last, run.append run', there⟩

/-- Nine elements are fewer than a third of thirty-two. -/
theorem pop_shrinks (payload : Payload α) :
    ((system payload ι 5).peaked State.len).Leads (Stays 10 32 retired .idle)
      (Stays 9 16 (retired + 1) .idle) := by
  refine (pop_begins payload (by decide) (by decide)).trans ?_
  rintro ⟨state, peak⟩ ⟨buf, rfl, sits, atPc, low⟩
  dsimp only at sits atPc low
  have held := sits.len (by decide)
  have positive : wrappingSub ((9 : Nat) : Int) 0 > 0 := by decide
  let bits := (state.inner.heap state.inner.buffer).read ((9 : Nat) : Int)
  let begun := startResize state.inner state.inner.buffer 16 ((9 : Nat) : Int) 0
    (After.pop bits : After α)
  have takes : ownerStep payload state.inner state.cachedTop false state.owner =
      some (.loadCell, begun.1, state.cachedTop, begun.2) := by
    have due : (32 : Nat) > minCapacity ∧
        (max (wrappingSub ((9 : Nat) : Int) 0) 0).toNat < 32 / shrinkFactor := by decide
    have halved : max (32 / 2) minCapacity = 16 := by decide
    simp only [atPc, ownerStep, perhapsShrink, if_pos positive, sits.cap, if_pos due, halved]
    rfl
  have different : state.inner.buffer ≠ state.inner.allocated := Nat.ne_of_lt sits.allocated
  have started : Sits 9 32 retired
      { state with
        inner := begun.1
        owner := begun.2 } := by
    refine ⟨sits.bottom, sits.top, sits.cached, ?_, Nat.lt_succ_of_lt sits.allocated, sits.retired⟩
    rw [← sits.cap]
    exact congrArg Buffer.cap (Function.update_of_ne different ..)
  have fresh : (begun.1.heap state.inner.allocated).cap = 16 := by
    change (Function.update state.inner.heap state.inner.allocated (Buffer.alloc 16)
      state.inner.allocated).cap = 16
    rw [Function.update_self]
    rfl
  exact ((leads_of_ownerStep takes held).trans
    ((resize_ends payload started (by decide) rfl (Nat.lt_succ_self _) fresh).trans
      (pop_returns payload (by decide)))) (state, peak) ⟨rfl, low⟩

/-! ### Grow and shrink for ever -/

theorem pushes_keep (payload : Payload α) (value : α) (small : cap ≤ 32) (count : Nat)
    (room : size + count < cap) (few : size + count ≤ 16) :
    ((system payload ι 5).peaked State.len).Leads (Stays size cap retired .idle)
      (Stays (size + count) cap retired .idle) := by
  induction count with
  | zero => exact fun start stays => ⟨[], start, .refl start, stays⟩
  | succ count ih =>
      exact (ih (by omega) (by omega)).trans (push_keeps payload value (by omega) small (by omega))

theorem pops_keep (payload : Payload α) (count : Nat) (more : 10 ≤ size)
    (few : size + count ≤ 16) :
    ((system payload ι 5).peaked State.len).Leads (Stays (size + count) 32 retired .idle)
      (Stays size 32 retired .idle) := by
  induction count with
  | zero => exact fun start stays => ⟨[], start, .refl start, stays⟩
  | succ count ih =>
      have stays : ¬ ((32 : Nat) > minCapacity ∧ size + count < 32 / shrinkFactor) := by
        have third : 32 / shrinkFactor = 10 := rfl
        omega
      exact (pop_keeps payload (by omega) (by omega) stays).trans (ih (by omega))

/-- Seven pushes and seven pops: the buffer grows and shrinks. -/
theorem turn_leads (payload : Payload α) (value : α) (round : Nat) :
    ((system payload ι 5).peaked State.len).Leads (Stays 9 16 (2 * round + 1) .idle)
      (Stays 9 16 (2 * (round + 1) + 1) .idle) :=
  (pushes_keep payload value (by decide) 6 (by decide) (by decide)).trans
    ((push_grows payload value).trans
      ((pops_keep payload 6 (by decide) (by decide)).trans (pop_shrinks payload)))

theorem turns_lead (payload : Payload α) (value : α) (rounds : Nat) :
    ∃ labels state peak, ((system payload ι 5).peaked State.len).Reaches labels (state, peak) ∧
      Stays 9 16 (2 * rounds + 1) .idle (state, peak) := by
  have first : ((system payload ι 5).peaked State.len).Leads (Stays 0 32 0 .idle)
      (Stays 9 16 1 .idle) :=
    (pushes_keep payload value (by decide) 10 (by decide) (by decide)).trans (pop_shrinks payload)
  have turns := TransitionSystem.Leads.iterate (turn_leads (ι := ι) payload value) rounds
  have empty : Stays 0 32 0 .idle (withLogCapacity ι α 5, 0) :=
    ⟨⟨rfl, rfl, rfl, rfl, Nat.one_pos, rfl⟩, rfl, Nat.zero_le _⟩
  obtain ⟨labels, ⟨state, peak⟩, run, stays⟩ := (first.trans turns) _ empty
  exact ⟨labels, state, peak, ⟨(withLogCapacity ι α 5, 0), ⟨rfl, rfl⟩, run⟩, stays⟩

theorem bounded_of_retainsLogarithmically {payload : Payload α} (value : α)
    {allowed : Nat → Prop} (logarithmic : RetainsLogarithmically ι payload allowed) :
    ∃ few, ∀ count, allowed count → count ≤ few := by
  obtain ⟨constant, bound⟩ := logarithmic
  use constant + 5
  intro count isAllowed
  by_contra many
  obtain ⟨labels, state, peak, reached, stays⟩ := turns_lead (ι := ι) payload value (count - 1)
  have low : peak ≤ 16 := stays.low
  obtain ⟨_held, exponent, retains⟩ := retains_of_reaches reached (by omega)
  -- The capacity tells the number of shrinks from that of the retired buffers.
  have four : exponent = 4 := by
    have same := retains.cap
    rw [stays.sits.cap] at same
    exact (Nat.pow_right_injective (Nat.le_refl 2) (same.symm.trans (by decide : 16 = 2 ^ 4)))
  have listed : state.inner.retired.length = 2 * (count - 1) + 1 := stays.sits.retired
  have pending : state.owner.pending = 0 := by
    rw [show state.owner = .idle from stays.owner]
    rfl
  have shrunk := retains.count
  rw [pending, four, listed] at shrunk
  have counted : shrinks labels = count := by
    unfold shrinks
    omega
  have retired := bound labels state peak reached (by omega) (counted ▸ isAllowed)
  have log : Nat.log2 (peak + 1) < 5 := (Nat.log2_lt (by omega)).mpr (by omega)
  omega

/-- The bound holds of just those runs whose number of shrinks is bounded. -/
theorem retainsLogarithmically_iff [Nonempty α] (payload : Payload α) (allowed : Nat → Prop) :
    RetainsLogarithmically ι payload allowed ↔ ∃ few, ∀ count, allowed count → count ≤ few := by
  obtain ⟨value⟩ := ‹Nonempty α›
  constructor
  · exact bounded_of_retainsLogarithmically value
  · rintro ⟨few, bounded⟩
    exact retainsLogarithmically_of_le payload bounded

theorem retainsLogarithmically_iff_bytes :
    RetainsLogarithmically Unit bytePayload (fun count => count = 0) := by
  apply (retainsLogarithmically_iff bytePayload fun count => count = 0).mpr
  exact ⟨0, fun count none => Nat.le_of_eq none⟩

/-- Bytes, seven of them pushed and popped again and again. -/
theorem not_retainsLogarithmically :
    ¬ RetainsLogarithmically Unit bytePayload (fun _ => True) := by
  intro logarithmic
  obtain ⟨few, bounded⟩ := bounded_of_retainsLogarithmically (0 : UInt8) logarithmic
  exact Nat.lt_irrefl few (bounded (few + 1) trivial)

end WsDeque.Inline
