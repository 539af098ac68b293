import Mathlib.Data.List.Perm.Subperm
import WsDeque.Jiffy.Consumer

/-
Dropping the queue after the last call: the walk along the chain drops just the
values that nobody has dequeued, and frees what has not been freed before.
-/

namespace WsDeque.Jiffy

variable {ι α : Type*} {size : Nat} {inner : Inner α} {chain : List BufferPtr}
  {buf : BufferPtr} {i front : Nat} {values : List α}

/-! ### The values of one buffer -/

/-- No enqueue is in progress: each slot of the chain is handled, set or empty. -/
structure Settled (size : Nat) (values : List α) (front : Nat) (inner : Inner α)
    (chain : List BufferPtr) : Prop where
  handled : ∀ idx slot, idx < front → cellAt size inner chain idx = some slot →
    slot.state = .handled
  stored : ∀ idx value, front ≤ idx → values[idx]? = some value →
    cellAt size inner chain idx = some { state := .set, value := some value }
  untouched : ∀ idx slot, cellAt size inner chain idx = some slot → values.length ≤ idx →
    slot.state = .empty

theorem Filled.settled {claimed written : ι → Option (Nat × α)}
    (filled : Filled size values front inner chain claimed written)
    (ended : ∀ producer, claimed producer = none) : Settled size values front inner chain where
  handled := by
    intro idx slot below here
    obtain ⟨slot', there, state⟩ := filled.handled idx below
    obtain rfl := Option.some.inj (here.symm.trans there)
    exact state
  stored := by
    intro idx value above given
    apply filled.stored idx value above given
    rintro ⟨producer, _, claim⟩
    rw [ended producer] at claim
    cases claim
  untouched := fun idx slot here beyond => filled.untouched idx slot here (.inr beyond)

/-- The values at the indices from the front on, of the first so many slots of
this buffer. -/
def sliceOf (size : Nat) (values : List α) (front i count : Nat) : List α :=
  (values.take (i * size + count)).drop (max front (i * size))

section

variable {count : Nat} {value : α}

theorem sliceOf_zero : sliceOf size values front i 0 = [] := by
  apply List.drop_eq_nil_of_le
  rw [List.length_take]
  omega

theorem sliceOf_handled (below : i * size + count < front) :
    sliceOf size values front i (count + 1) = sliceOf size values front i count := by
  have empty : ∀ least, least ≤ front → (values.take least).drop (max front (i * size)) = [] := by
    intro least early
    apply List.drop_eq_nil_of_le
    rw [List.length_take]
    omega
  unfold sliceOf
  rw [empty _ (by omega), empty _ (by omega)]

theorem sliceOf_stored (above : front ≤ i * size + count)
    (given : values[i * size + count]? = some value) :
    sliceOf size values front i (count + 1) = sliceOf size values front i count ++ [value] := by
  have inside := (List.getElem?_eq_some_iff.mp given).1
  unfold sliceOf
  rw [← Nat.add_assoc, List.take_add_one, given, Option.toList_some,
    List.drop_append_of_le_length]
  rw [List.length_take]
  omega

theorem sliceOf_beyond (beyond : values.length ≤ i * size + count) :
    sliceOf size values front i (count + 1) = sliceOf size values front i count := by
  unfold sliceOf
  rw [List.take_of_length_le (by omega), List.take_of_length_le beyond]

/-- What one buffer holds goes before what the later buffers hold. -/
theorem sliceOf_append : sliceOf size values front i size ++
    values.drop (max front ((i + 1) * size)) = values.drop (max front (i * size)) := by
  unfold sliceOf
  rw [Nat.succ_mul]
  by_cases early : front ≤ i * size + size
  · obtain ⟨rest, whole⟩ : ∃ rest, i * size + size = max front (i * size) + rest :=
      Nat.exists_eq_add_of_le (by omega)
    rw [Nat.max_eq_right early, whole, List.drop_take, Nat.add_sub_cancel_left, ← List.drop_drop]
    exact List.take_append_drop ..
  · have none : (values.take (i * size + size)).drop (max front (i * size)) = [] := by
      apply List.drop_eq_nil_of_le
      rw [List.length_take]
      omega
    rw [none, List.nil_append]
    congr 1
    omega

end

theorem Settled.dropSlots (settled : Settled size values front inner chain)
    (there : chain[i]? = some buf) (count : Nat) (inside : count ≤ size) :
    (inner.heap buf).dropSlots count = some (sliceOf size values front i count) := by
  induction count with
  | zero =>
      rw [sliceOf_zero]
      rfl
  | succ count ih =>
      obtain ⟨quotient, remainder⟩ :=
        position_of_range (Nat.le_add_right (i * size) count) (by omega : _ < i * size + size)
      rw [Nat.add_sub_cancel_left] at remainder
      have cell : cellAt size inner chain (i * size + count) =
          some ((inner.heap buf).slots ((i * size + count) % size)) :=
        cellAt_of_getElem? (quotient.symm ▸ there)
      rw [← remainder] at cell
      simp only [Buffer.dropSlots, ih (Nat.le_of_succ_le inside), Option.bind_some]
      by_cases below : i * size + count < front
      · rw [settled.handled _ _ below cell, sliceOf_handled below]
        rfl
      · have above := Nat.le_of_not_lt below
        cases given : values[i * size + count]? with
        | none =>
            have beyond := List.getElem?_eq_none_iff.mp given
            rw [settled.untouched _ _ cell beyond, sliceOf_beyond beyond]
            rfl
        | some value =>
            have stored := settled.stored _ value above given
            rw [Option.some.inj (cell.symm.trans stored), sliceOf_stored above given]
            rfl

/-! ### The walk along the chain -/

/-- The memory in the middle of the walk. -/
def Inner.freedTo (inner : Inner α) (chain : List BufferPtr) (i : Nat) : Inner α :=
  { inner with freed := inner.freed ++ chain.take i }

theorem Chained.deref_freedTo (chained : Chained size inner chain) (there : chain[i]? = some buf) :
    (inner.freedTo chain i).deref buf = some (inner.heap buf) := by
  have member := List.mem_of_getElem? there
  refine if_pos ⟨chained.allocated buf member, ?_⟩
  intro freed
  rcases List.mem_append.mp freed with before | walked
  · exact chained.live buf member before
  · obtain ⟨j, inside, same⟩ := List.mem_take_iff_getElem.mp walked
    have early : chain[j]? = some buf := by
      rw [List.getElem?_eq_getElem (by omega), same]
    have position := chained.position early there
    omega

theorem Chained.free_freedTo (there : chain[i]? = some buf) :
    (inner.freedTo chain i).free buf = inner.freedTo chain (i + 1) := by
  unfold Inner.free Inner.freedTo
  rw [List.take_add_one, there, Option.toList_some, List.append_assoc]

theorem Settled.dropFrom (settled : Settled size values front inner chain)
    (chained : Chained size inner chain) (covered : values.length ≤ chain.length * size)
    (remaining : Nat) {fuel : Nat} (enough : remaining ≤ fuel)
    (left : i + remaining = chain.length) :
    Inner.dropFrom size fuel chain[i]? (inner.freedTo chain i) =
      some (values.drop (max front (i * size)), inner.freedTo chain chain.length) := by
  induction remaining generalizing i fuel with
  | zero =>
      obtain rfl : i = chain.length := left
      have none : values.drop (max front (chain.length * size)) = [] :=
        List.drop_eq_nil_of_le (by omega)
      rw [List.getElem?_eq_none_iff.mpr (Nat.le_refl _), none]
      cases fuel <;> rfl
  | succ remaining ih =>
      obtain ⟨fuel, rfl⟩ : ∃ less, fuel = less + 1 := ⟨fuel - 1, by omega⟩
      have inside : i < chain.length := by omega
      have there := List.getElem?_eq_getElem inside
      have rest := ih (by omega : remaining ≤ fuel) (by omega : i + 1 + remaining = chain.length)
      rw [there]
      simp only [Inner.dropFrom]
      rw [chained.deref_freedTo there, Option.bind_some,
        settled.dropSlots there size (Nat.le_refl _), Option.bind_some,
        Chained.free_freedTo there, chained.next i _ there, rest, Option.map_some, sliceOf_append]

variable {state : State ι α} {taken : List α}

/-- Each claimed index has its buffer once its enqueue has ended. -/
theorem Sound.covered (positive : 0 < size) (sound : Sound size values taken chain state)
    (ended : ∀ producer, state.claimed producer = none) :
    values.length ≤ chain.length * size := by
  rcases Nat.eq_zero_or_pos values.length with empty | nonempty
  · omega
  · have inside : values.length - 1 < values.length := by omega
    have cell : ∃ slot, cellAt size state.inner chain (values.length - 1) = some slot := by
      by_cases below : values.length - 1 < state.front
      · obtain ⟨slot, here, _state⟩ := sound.filled.handled _ below
        exact ⟨slot, here⟩
      · refine ⟨_, sound.filled.stored _ _ (Nat.le_of_not_lt below)
          (List.getElem?_eq_getElem inside) ?_⟩
        rintro ⟨producer, _, claim⟩
        rw [ended producer] at claim
        cases claim
    obtain ⟨slot, here⟩ := cell
    obtain ⟨buf, there, _same⟩ := Option.map_eq_some_iff.mp here
    have linked := (List.getElem?_eq_some_iff.mp there).1
    have last := (Nat.div_lt_iff_lt_mul positive).mp linked
    omega

theorem Chained.length_le (chained : Chained size inner chain) :
    chain.length ≤ inner.allocated := by
  have within : chain ⊆ List.range inner.allocated :=
    fun buf member => List.mem_range.mpr (chained.allocated buf member)
  have fewer := (chained.distinct.subperm within).length_le
  rwa [List.length_range] at fewer

/-- All calls have ended: dropping the queue drops the values not dequeued, and
after it each buffer has been freed once. -/
theorem Sound.drop (positive : 0 < size) (sound : Sound size values taken chain state)
    (producers : ∀ producer, state.producer producer = .idle)
    (consumer : state.consumer = .idle) :
    ∃ after, state.inner.drop size state.inner.allocated =
        some (values.drop taken.length, after) ∧
      after.freed.Nodup ∧ ∀ buf, buf ∈ after.freed ↔ buf < after.allocated := by
  have ended : ∀ producer, state.claimed producer = none :=
    fun producer => congrArg ProducerPc.claimed (producers producer)
  have front : state.front = taken.length := by
    have kept := sound.taken
    rw [consumer] at kept
    have lengths := congrArg List.length kept
    have within := sound.filled.within
    simp only [ConsumerPc.inHand, List.append_nil, List.length_take] at lengths
    omega
  have start : state.inner.freedTo chain 0 = state.inner := by
    unfold Inner.freedTo
    rw [List.take_zero, List.append_nil]
  have walked := (sound.filled.settled ended).dropFrom sound.chained
    (sound.covered positive ended) chain.length sound.chained.length_le (Nat.zero_add _)
  rw [start, sound.chained.first, Nat.zero_mul, Nat.max_eq_left (Nat.zero_le _), front] at walked
  refine ⟨state.inner.freedTo chain chain.length, walked, ?_, ?_⟩
  · refine List.nodup_append.mpr ⟨sound.owned.once, ?_, ?_⟩
    · rw [List.take_length]
      exact sound.chained.distinct
    · rintro buf freed other member rfl
      rw [List.take_length] at member
      exact sound.chained.live buf member freed
  · intro buf
    change buf ∈ state.inner.freed ++ chain.take chain.length ↔ buf < state.inner.allocated
    rw [List.take_length, List.mem_append]
    constructor
    · rintro (freed | linked)
      · exact sound.owned.bound buf freed
      · exact sound.chained.allocated buf linked
    · intro below
      rcases sound.owned.accounted buf below with linked | freed | ⟨producer, tail, holding⟩
      · exact .inr linked
      · exact .inl freed
      · rw [State.held, producers producer] at holding
        cases holding

end WsDeque.Jiffy
