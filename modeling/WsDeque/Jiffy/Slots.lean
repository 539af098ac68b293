import WsDeque.Jiffy.Storage

/-
The slots by global index: which are claimed and not yet stored, which hold a
value, and which have been handled.
-/

namespace WsDeque.Jiffy

variable {ι α : Type*} {size : Nat} {inner after : Inner α} {chain chain' : List BufferPtr}
  {buf fresh : BufferPtr} {idx other offset front : Nat} {slot : Slot α} {values : List α}
  {value : α}

/-! ### Cells -/

/-- The slot of a global index, where its buffer is linked. -/
def cellAt (size : Nat) (inner : Inner α) (chain : List BufferPtr) (idx : Nat) :
    Option (Slot α) :=
  chain[idx / size]?.map fun buf => (inner.heap buf).slots (idx % size)

theorem cellAt_of_getElem? (there : chain[idx / size]? = some buf) :
    cellAt size inner chain idx = some ((inner.heap buf).slots (idx % size)) := by
  unfold cellAt
  rw [there, Option.map_some]

theorem cellAt_congr
    (same : ∀ buf ∈ chain, (after.heap buf).slots = (inner.heap buf).slots) :
    cellAt size after chain idx = cellAt size inner chain idx := by
  unfold cellAt
  cases there : chain[idx / size]? with
  | none => rfl
  | some buf => rw [Option.map_some, Option.map_some, same buf (List.mem_of_getElem? there)]

theorem cellAt_setSlot_self (there : chain[idx / size]? = some buf) (slot : Slot α) :
    cellAt size (inner.setSlot buf (idx % size) slot) chain idx = some slot := by
  rw [cellAt_of_getElem? there]
  simp only [Inner.setSlot, Inner.setBuffer, Function.update_self]

/-- Writing the slot of one index leaves that of another alone. -/
theorem cellAt_setSlot_of_ne (chained : Chained size inner chain)
    (there : chain[idx / size]? = some buf) (different : other ≠ idx) (slot : Slot α) :
    cellAt size (inner.setSlot buf (idx % size) slot) chain other =
      cellAt size inner chain other := by
  unfold cellAt
  cases here : chain[other / size]? with
  | none => rfl
  | some buf' =>
      rw [Option.map_some, Option.map_some]
      unfold Inner.setSlot Inner.setBuffer
      by_cases same : buf' = buf
      · subst same
        have quotient := chained.position here there
        have remainder : other % size ≠ idx % size := by
          intro equal
          have left := Nat.div_add_mod other size
          have right := Nat.div_add_mod idx size
          rw [quotient, equal] at left
          exact different (left.symm.trans right)
        simp only [Function.update_self, Function.update_of_ne remainder]
      · simp only [Function.update_of_ne same]

theorem Inner.setSlot_base (inner : Inner α) (buf : BufferPtr) (offset : Nat) (slot : Slot α)
    (other : BufferPtr) :
    ((inner.setSlot buf offset slot).heap other).base = (inner.heap other).base := by
  unfold setSlot setBuffer
  by_cases same : other = buf
  · subst same
    simp only [Function.update_self]
  · simp only [Function.update_of_ne same]

theorem Inner.setSlot_next (inner : Inner α) (buf : BufferPtr) (offset : Nat) (slot : Slot α)
    (other : BufferPtr) :
    ((inner.setSlot buf offset slot).heap other).next = (inner.heap other).next := by
  unfold setSlot setBuffer
  by_cases same : other = buf
  · subst same
    simp only [Function.update_self]
  · simp only [Function.update_of_ne same]

theorem Chained.setSlot (chained : Chained size inner chain) (buf : BufferPtr) (offset : Nat)
    (slot : Slot α) : Chained size (inner.setSlot buf offset slot) chain :=
  chained.transport rfl (fun other _linked => inner.setSlot_base buf offset slot other)
    (fun other _linked => inner.setSlot_next buf offset slot other) (Nat.le_refl _) chained.live
    chained.tailBuf chained.headBuf

theorem Owned.setSlot {held : ι → Option (BufferPtr × BufferPtr)}
    (owned : Owned size inner chain held) (there : buf ∈ chain) (offset : Nat) (slot : Slot α) :
    Owned size (inner.setSlot buf offset slot) chain held := by
  apply owned.transport (fun other _linked => inner.setSlot_base buf offset slot other) _ rfl rfl
  intro other _below unlinked
  have different : other ≠ buf := by
    rintro rfl
    exact unlinked there
  exact Function.update_of_ne different ..

/-- What a longer chain shows: the slots there were, and new empty ones. -/
def Extends (size : Nat) (inner : Inner α) (chain : List BufferPtr) (after : Inner α)
    (chain' : List BufferPtr) : Prop :=
  (∀ idx slot, cellAt size inner chain idx = some slot →
    cellAt size after chain' idx = some slot) ∧
  ∀ idx slot, cellAt size after chain' idx = some slot →
    cellAt size inner chain idx = some slot ∨ slot.state = .empty

theorem Extends.of_cells
    (same : ∀ idx, cellAt size after chain idx = cellAt size inner chain idx) :
    Extends size inner chain after chain :=
  ⟨fun idx _slot here => (same idx).trans here,
    fun idx _slot here => .inl ((same idx).symm.trans here)⟩

theorem Extends.link (buf : BufferPtr) {base : Nat} (isNew : inner.heap fresh = .new α base)
    (different : fresh ≠ buf) :
    Extends size inner chain (inner.setNext buf fresh) (chain ++ [fresh]) := by
  have slots :
      ∀ other, ((inner.setNext buf fresh).heap other).slots = (inner.heap other).slots := by
    intro other
    unfold Inner.setNext Inner.setBuffer
    by_cases same : other = buf
    · subst same
      simp only [Function.update_self]
    · simp only [Function.update_of_ne same]
  constructor
  · intro idx slot here
    obtain ⟨buf', there, same⟩ := Option.map_eq_some_iff.mp here
    have inside := (List.getElem?_eq_some_iff.mp there).1
    refine Option.map_eq_some_iff.mpr ⟨buf', ?_, ?_⟩
    · rw [List.getElem?_append_left inside]
      exact there
    · rw [slots]
      exact same
  · intro idx slot here
    obtain ⟨buf', there, same⟩ := Option.map_eq_some_iff.mp here
    rw [slots] at same
    by_cases inside : idx / size < chain.length
    · rw [List.getElem?_append_left inside] at there
      exact .inl (Option.map_eq_some_iff.mpr ⟨buf', there, same⟩)
    · rw [List.getElem?_append_right (Nat.le_of_not_lt inside), List.getElem?_singleton] at there
      split at there
      · cases there
        rw [isNew] at same
        exact .inr (congrArg Slot.state same).symm
      · cases there

/-! ### What the slots hold -/

/-- Some producer has this index and has not yet stored its value. -/
def Pending (claimed : ι → Option (Nat × α)) (idx : Nat) : Prop :=
  ∃ producer value, claimed producer = some (idx, value)

/-- The values are those of the enqueues by claimed index; the consumer has
handled the slots below `front`. -/
structure Filled (size : Nat) (values : List α) (front : Nat) (inner : Inner α)
    (chain : List BufferPtr) (claimed written : ι → Option (Nat × α)) : Prop where
  handled : ∀ idx, idx < front →
    ∃ slot, cellAt size inner chain idx = some slot ∧ slot.state = .handled
  stored : ∀ idx value, front ≤ idx → values[idx]? = some value → ¬Pending claimed idx →
    cellAt size inner chain idx = some { state := .set, value := some value }
  untouched : ∀ idx slot, cellAt size inner chain idx = some slot →
    Pending claimed idx ∨ values.length ≤ idx → slot.state = .empty
  ahead : ∀ idx, Pending claimed idx → front ≤ idx
  within : front ≤ values.length
  claims : ∀ producer idx value, claimed producer = some (idx, value) →
    values[idx]? = some value
  apart : ∀ producer other idx value value', claimed producer = some (idx, value) →
    claimed other = some (idx, value') → producer = other
  written : ∀ producer idx value, written producer = some (idx, value) →
    claimed producer = some (idx, value) ∧
      ∃ slot, cellAt size inner chain idx = some slot ∧ slot.value = some value

variable {claimed written : ι → Option (Nat × α)} {producer : ι}

theorem Filled.extends (filled : Filled size values front inner chain claimed written)
    (extension : Extends size inner chain after chain') :
    Filled size values front after chain' claimed written := by
  obtain ⟨kept, isNew⟩ := extension
  constructor
  · intro idx below
    obtain ⟨slot, here, state⟩ := filled.handled idx below
    exact ⟨slot, kept idx slot here, state⟩
  · intro idx value above given free
    exact kept idx _ (filled.stored idx value above given free)
  · intro idx slot here clean
    rcases isNew idx slot here with before | state
    · exact filled.untouched idx slot before clean
    · exact state
  · exact filled.ahead
  · exact filled.within
  · exact filled.claims
  · exact filled.apart
  · intro producer idx value given
    obtain ⟨claim, slot, here, same⟩ := filled.written producer idx value given
    exact ⟨claim, slot, kept idx slot here, same⟩

section

variable [DecidableEq ι]

/-- The `fetch_add` of a producer that claims nothing yet. -/
theorem Filled.claim (filled : Filled size values front inner chain claimed written)
    (free : claimed producer = none) (value : α) :
    Filled size (values ++ [value]) front inner chain
      (Function.update claimed producer (some (values.length, value))) written := by
  have below : ∀ other idx value', claimed other = some (idx, value') → idx < values.length :=
    fun other idx value' claim =>
      (List.getElem?_eq_some_iff.mp (filled.claims other idx value' claim)).1
  have claimer : ∀ other idx value',
      Function.update claimed producer (some (values.length, value)) other =
        some (idx, value') →
      (other = producer ∧ idx = values.length ∧ value' = value) ∨
        claimed other = some (idx, value') := by
    intro other idx value' claim
    by_cases same : other = producer
    · subst same
      rw [Function.update_self] at claim
      cases claim
      exact .inl ⟨rfl, rfl, rfl⟩
    · rw [Function.update_of_ne same] at claim
      exact .inr claim
  have others : ∀ other idx value', claimed other = some (idx, value') →
      Function.update claimed producer (some (values.length, value)) other =
        some (idx, value') := by
    intro other idx value' claim
    have different : other ≠ producer := by
      rintro rfl
      rw [free] at claim
      cases claim
    rw [Function.update_of_ne different]
    exact claim
  have pending : ∀ idx,
      Pending (Function.update claimed producer (some (values.length, value))) idx ↔
        idx = values.length ∨ Pending claimed idx := by
    intro idx
    constructor
    · rintro ⟨other, value', claim⟩
      rcases claimer other idx value' claim with ⟨_, rfl, _⟩ | before
      · exact .inl rfl
      · exact .inr ⟨other, value', before⟩
    · rintro (rfl | ⟨other, value', claim⟩)
      · exact ⟨producer, value, Function.update_self ..⟩
      · exact ⟨other, value', others other idx value' claim⟩
  constructor
  · exact filled.handled
  · intro idx value' above given free'
    rw [pending, not_or] at free'
    have inside : idx < values.length := by
      have bound := (List.getElem?_eq_some_iff.mp given).1
      rw [List.length_append, List.length_singleton] at bound
      omega
    rw [List.getElem?_append_left inside] at given
    exact filled.stored idx value' above given free'.2
  · intro idx slot here clean
    rw [pending, List.length_append, List.length_singleton] at clean
    apply filled.untouched idx slot here
    rcases clean with (rfl | before) | beyond
    · exact .inr (Nat.le_refl _)
    · exact .inl before
    · exact .inr (by omega)
  · intro idx claim
    rcases (pending idx).mp claim with rfl | before
    · exact filled.within
    · exact filled.ahead idx before
  · rw [List.length_append]
    exact Nat.le_trans filled.within (Nat.le_add_right _ _)
  · intro other idx value' claim
    rcases claimer other idx value' claim with ⟨_, rfl, rfl⟩ | before
    · rw [List.getElem?_concat_length]
    · rw [List.getElem?_append_left (below other idx value' before)]
      exact filled.claims other idx value' before
  · intro one other idx value' value'' left right
    rcases claimer one idx value' left with ⟨rfl, rfl, _⟩ | before
    · rcases claimer other _ value'' right with ⟨rfl, _⟩ | before
      · rfl
      · exact absurd (below other _ value'' before) (Nat.lt_irrefl _)
    · rcases claimer other idx value'' right with ⟨rfl, rfl, _⟩ | before'
      · exact absurd (below one _ value' before) (Nat.lt_irrefl _)
      · exact filled.apart one other idx value' value'' before before'
  · intro other idx value' given
    obtain ⟨claim, rest⟩ := filled.written other idx value' given
    exact ⟨others other idx value' claim, rest⟩

/-- The plain write of a claimed slot's value. -/
theorem Filled.write (filled : Filled size values front inner chain claimed written)
    (claim : claimed producer = some (idx, value))
    (before : cellAt size inner chain idx = some slot)
    (here : cellAt size after chain idx = some { slot with value := some value })
    (elsewhere : ∀ other, other ≠ idx →
      cellAt size after chain other = cellAt size inner chain other) :
    Filled size values front after chain claimed
      (Function.update written producer (some (idx, value))) := by
  have pending : Pending claimed idx := ⟨producer, value, claim⟩
  have ahead := filled.ahead idx pending
  constructor
  · intro other below
    rw [elsewhere other (by omega)]
    exact filled.handled other below
  · intro other value' above given free
    have different : other ≠ idx := by
      rintro rfl
      exact free pending
    rw [elsewhere other different]
    exact filled.stored other value' above given free
  · intro other slot' found clean
    by_cases same : other = idx
    · subst same
      rw [here] at found
      cases found
      exact filled.untouched other slot before clean
    · rw [elsewhere other same] at found
      exact filled.untouched other slot' found clean
  · exact filled.ahead
  · exact filled.within
  · exact filled.claims
  · exact filled.apart
  · intro other idx' value' given
    by_cases same : other = producer
    · subst same
      rw [Function.update_self] at given
      cases given
      exact ⟨claim, _, here, rfl⟩
    · rw [Function.update_of_ne same] at given
      obtain ⟨claim', slot', found, holds⟩ := filled.written other idx' value' given
      have different : idx' ≠ idx := by
        rintro rfl
        exact same (filled.apart other producer _ _ _ claim' claim)
      refine ⟨claim', slot', ?_, holds⟩
      rw [elsewhere idx' different]
      exact found

/-- The store of `SET`, which ends the claim. -/
theorem Filled.store (filled : Filled size values front inner chain claimed written)
    (given : written producer = some (idx, value))
    (before : cellAt size inner chain idx = some slot)
    (here : cellAt size after chain idx = some { slot with state := .set })
    (elsewhere : ∀ other, other ≠ idx →
      cellAt size after chain other = cellAt size inner chain other) :
    Filled size values front after chain (Function.update claimed producer none)
      (Function.update written producer none) := by
  obtain ⟨claim, slot', found, holds⟩ := filled.written producer idx value given
  obtain rfl : slot' = slot := Option.some.inj (found.symm.trans before)
  have pending : Pending claimed idx := ⟨producer, value, claim⟩
  have ahead := filled.ahead idx pending
  have stillPending : ∀ other, Pending (Function.update claimed producer none) other →
      other ≠ idx ∧ Pending claimed other := by
    rintro other ⟨claimer, value', claim'⟩
    obtain ⟨different, before'⟩ := update_eq_some claim'
    refine ⟨?_, claimer, value', before'⟩
    rintro rfl
    exact different (filled.apart claimer producer _ _ _ before' claim)
  have pendingStill : ∀ other, other ≠ idx → Pending claimed other →
      Pending (Function.update claimed producer none) other := by
    rintro other different ⟨claimer, value', claim'⟩
    refine ⟨claimer, value', ?_⟩
    have apart : claimer ≠ producer := by
      rintro rfl
      exact different (Prod.mk.inj (Option.some.inj (claim'.symm.trans claim))).1
    rw [Function.update_of_ne apart]
    exact claim'
  constructor
  · intro other below
    rw [elsewhere other (by omega)]
    exact filled.handled other below
  · intro other value' above valued free
    by_cases same : other = idx
    · subst same
      have own := filled.claims producer other value claim
      rw [valued] at own
      cases own
      rw [here, ← holds]
    · rw [elsewhere other same]
      exact filled.stored other value' above valued fun claimed' =>
        free (pendingStill other same claimed')
  · intro other slot'' found' clean
    have different : other ≠ idx := by
      rintro rfl
      have inside := (List.getElem?_eq_some_iff.mp (filled.claims producer other value claim)).1
      rcases clean with claimed' | beyond
      · exact (stillPending other claimed').1 rfl
      · omega
    rw [elsewhere other different] at found'
    apply filled.untouched other slot'' found'
    rcases clean with claimed' | beyond
    · exact .inl (stillPending other claimed').2
    · exact .inr beyond
  · intro other claimed'
    exact filled.ahead other (stillPending other claimed').2
  · exact filled.within
  · intro other idx' value' claim'
    exact filled.claims other idx' value' (update_eq_some claim').2
  · intro one other idx' value' value'' left right
    exact filled.apart one other idx' value' value'' (update_eq_some left).2
      (update_eq_some right).2
  · intro other idx' value' given'
    obtain ⟨different, before'⟩ := update_eq_some given'
    obtain ⟨claim', slot'', found', holds'⟩ := filled.written other idx' value' before'
    have apart : idx' ≠ idx := by
      rintro rfl
      exact different (filled.apart other producer _ _ _ claim' claim)
    refine ⟨?_, slot'', ?_, holds'⟩
    · rw [Function.update_of_ne different]
      exact claim'
    · rw [elsewhere idx' apart]
      exact found'

end

/-- The store of `HANDLED` over the first slot that holds a value. -/
theorem Filled.take (filled : Filled size values front inner chain claimed written)
    (before : cellAt size inner chain front = some { state := .set, value := some value })
    (here : cellAt size after chain front = some { state := .handled, value := some value })
    (elsewhere : ∀ other, other ≠ front →
      cellAt size after chain other = cellAt size inner chain other) :
    Filled size values (front + 1) after chain claimed written := by
  have notClean : ¬(Pending claimed front ∨ values.length ≤ front) := by
    intro clean
    cases filled.untouched front _ before clean
  rw [not_or] at notClean
  obtain ⟨free, inside⟩ := notClean
  have different : ∀ other, Pending claimed other → other ≠ front := by
    rintro other pending rfl
    exact free pending
  constructor
  · intro other below
    rcases Nat.lt_succ_iff_lt_or_eq.mp below with earlier | rfl
    · rw [elsewhere other (Nat.ne_of_lt earlier)]
      exact filled.handled other earlier
    · exact ⟨_, here, rfl⟩
  · intro other value' above given unclaimed
    rw [elsewhere other (by omega)]
    exact filled.stored other value' (Nat.le_of_succ_le above) given unclaimed
  · intro other slot' found clean
    have apart : other ≠ front := by
      rintro rfl
      rcases clean with pending | beyond
      · exact free pending
      · exact inside beyond
    rw [elsewhere other apart] at found
    exact filled.untouched other slot' found clean
  · intro other pending
    have above := filled.ahead other pending
    have apart := different other pending
    omega
  · exact Nat.lt_of_not_le inside
  · exact filled.claims
  · exact filled.apart
  · intro producer idx value' given
    obtain ⟨claim, slot', found, holds⟩ := filled.written producer idx value' given
    refine ⟨claim, slot', ?_, holds⟩
    rw [elsewhere idx (different idx ⟨producer, value', claim⟩)]
    exact found

end WsDeque.Jiffy
