import Mathlib.Data.List.Nodup
import WsDeque.Jiffy.Model

/-
The chain of buffers, who owns a buffer outside of it, and what the slot of each
index holds.
-/

namespace WsDeque.Jiffy

variable {ι α : Type*} {size : Nat} {inner after : Inner α} {chain : List BufferPtr}
  {buf fresh : BufferPtr} {idx : Nat}

theorem Inner.setNext_base (inner : Inner α) (buf next other : BufferPtr) :
    ((inner.setNext buf next).heap other).base = (inner.heap other).base := by
  unfold setNext setBuffer
  by_cases same : other = buf
  · subst same
    simp only [Function.update_self]
  · simp only [Function.update_of_ne same]

/-! ### The chain -/

/-- The buffers from the first one on, as `next` links them. -/
structure Chained (size : Nat) (inner : Inner α) (chain : List BufferPtr) : Prop where
  first : chain[0]? = some inner.first
  base : ∀ i buf, chain[i]? = some buf → (inner.heap buf).base = i * size
  next : ∀ i buf, chain[i]? = some buf → (inner.heap buf).next = chain[i + 1]?
  distinct : chain.Nodup
  allocated : ∀ buf ∈ chain, buf < inner.allocated
  live : ∀ buf ∈ chain, buf ∉ inner.freed
  tailBuf : inner.tailBuf ∈ chain
  headBuf : inner.headBuf ∈ chain

theorem Chained.deref (chained : Chained size inner chain) (there : buf ∈ chain) :
    inner.deref buf = some (inner.heap buf) :=
  if_pos ⟨chained.allocated buf there, chained.live buf there⟩

/-- Two positions of the chain are different buffers. -/
theorem Chained.position (chained : Chained size inner chain) {i j : Nat}
    (left : chain[i]? = some buf) (right : chain[j]? = some buf) : i = j := by
  obtain ⟨inside, here⟩ := List.getElem?_eq_some_iff.mp left
  obtain ⟨inside', there⟩ := List.getElem?_eq_some_iff.mp right
  exact (List.Nodup.getElem_inj_iff chained.distinct).mp (here.trans there.symm)

/-- Only the slots of the chain may change. -/
theorem Chained.transport (chained : Chained size inner chain)
    (first : after.first = inner.first)
    (base : ∀ buf ∈ chain, (after.heap buf).base = (inner.heap buf).base)
    (next : ∀ buf ∈ chain, (after.heap buf).next = (inner.heap buf).next)
    (allocated : inner.allocated ≤ after.allocated) (live : ∀ buf ∈ chain, buf ∉ after.freed)
    (tailBuf : after.tailBuf ∈ chain) (headBuf : after.headBuf ∈ chain) :
    Chained size after chain :=
  { first := by
      rw [first]
      exact chained.first
    base := by
      intro i buf at'
      rw [base buf (List.mem_of_getElem? at')]
      exact chained.base i buf at'
    next := by
      intro i buf at'
      rw [next buf (List.mem_of_getElem? at')]
      exact chained.next i buf at'
    distinct := chained.distinct
    allocated := fun buf there => Nat.lt_of_lt_of_le (chained.allocated buf there) allocated
    live := live
    tailBuf := tailBuf
    headBuf := headBuf }

/-- A buffer becomes the last one of the chain. -/
theorem Chained.link (chained : Chained size inner chain) {i : Nat}
    (here : chain[i]? = some buf) (last : chain[i + 1]? = none)
    (isNew : inner.heap fresh = .new α ((inner.heap buf).base + size)) (outside : fresh ∉ chain)
    (allocated : fresh < inner.allocated) (live : fresh ∉ inner.freed) :
    Chained size (inner.setNext buf fresh) (chain ++ [fresh]) := by
  have length : chain.length = i + 1 := by
    have above := List.getElem?_eq_none_iff.mp last
    have below := (List.getElem?_eq_some_iff.mp here).1
    omega
  have different : fresh ≠ buf := by
    rintro rfl
    exact outside (List.mem_of_getElem? here)
  have unchanged : ∀ other, other ≠ buf → (inner.setNext buf fresh).heap other =
      inner.heap other := fun other apart => Function.update_of_ne apart ..
  have changed : (inner.setNext buf fresh).heap buf =
      { inner.heap buf with next := some fresh } := Function.update_self ..
  have positions : ∀ j other, (chain ++ [fresh])[j]? = some other →
      chain[j]? = some other ∨ j = i + 1 ∧ other = fresh := by
    intro j other at'
    by_cases inside : j < chain.length
    · rw [List.getElem?_append_left inside] at at'
      exact .inl at'
    · rw [List.getElem?_append_right (Nat.le_of_not_lt inside), List.getElem?_singleton] at at'
      split at at'
      · cases at'
        exact .inr ⟨by omega, rfl⟩
      · cases at'
  constructor
  · rw [List.getElem?_append_left (by omega)]
    exact chained.first
  · intro j other at'
    rw [inner.setNext_base]
    rcases positions j other at' with old | ⟨rfl, rfl⟩
    · exact chained.base j other old
    · rw [isNew, chained.base i buf here, Nat.succ_mul]
      rfl
  · intro j other at'
    rcases positions j other at' with old | ⟨rfl, rfl⟩
    · by_cases same : other = buf
      · subst same
        obtain rfl := chained.position old here
        rw [changed, ← length, List.getElem?_concat_length]
      · rw [unchanged other same, chained.next j other old]
        have inside := (List.getElem?_eq_some_iff.mp old).1
        have apart : j ≠ i := by
          rintro rfl
          exact same (Option.some.inj (old.symm.trans here))
        rw [List.getElem?_append_left (by omega)]
    · rw [unchanged other different, isNew]
      refine (List.getElem?_eq_none_iff.mpr ?_).symm
      rw [List.length_append, List.length_singleton]
      omega
  · exact List.nodup_append.mpr ⟨chained.distinct, List.nodup_singleton fresh,
      fun other old last single same =>
        outside (List.mem_singleton.mp single ▸ same ▸ old)⟩
  · intro other member
    rcases List.mem_append.mp member with old | single
    · exact chained.allocated other old
    · exact List.mem_singleton.mp single ▸ allocated
  · intro other member
    rcases List.mem_append.mp member with old | single
    · exact chained.live other old
    · exact List.mem_singleton.mp single ▸ live
  · exact List.mem_append_left _ chained.tailBuf
  · exact List.mem_append_left _ chained.headBuf

/-! ### Buffers outside of the chain -/

/-- A producer about to link holds the tail it saw and its own fresh buffer; any
other buffer is on the chain or has been freed, once. -/
structure Owned (size : Nat) (inner : Inner α) (chain : List BufferPtr)
    (held : ι → Option (BufferPtr × BufferPtr)) : Prop where
  holds : ∀ producer buf fresh, held producer = some (buf, fresh) →
    buf ∈ chain ∧ fresh < inner.allocated ∧ fresh ∉ chain ∧ fresh ∉ inner.freed ∧
      inner.heap fresh = .new α ((inner.heap buf).base + size)
  apart : ∀ producer other buf buf' fresh, held producer = some (buf, fresh) →
    held other = some (buf', fresh) → producer = other
  accounted : ∀ buf, buf < inner.allocated →
    buf ∈ chain ∨ buf ∈ inner.freed ∨ ∃ producer tail, held producer = some (tail, buf)
  bound : ∀ buf ∈ inner.freed, buf < inner.allocated
  once : inner.freed.Nodup

variable {held : ι → Option (BufferPtr × BufferPtr)} {producer : ι}

theorem Owned.transport (owned : Owned size inner chain held)
    (base : ∀ buf ∈ chain, (after.heap buf).base = (inner.heap buf).base)
    (outside : ∀ buf, buf < inner.allocated → buf ∉ chain → after.heap buf = inner.heap buf)
    (allocated : after.allocated = inner.allocated) (freed : after.freed = inner.freed) :
    Owned size after chain held := by
  obtain ⟨holds, apart, accounted, bound, once⟩ := owned
  constructor
  · intro producer buf fresh holding
    obtain ⟨linked, below, unlinked, live, isNew⟩ := holds producer buf fresh holding
    rw [allocated, freed, base buf linked, outside fresh below unlinked]
    exact ⟨linked, below, unlinked, live, isNew⟩
  · exact apart
  · rw [allocated, freed]
    exact accounted
  · rw [allocated, freed]
    exact bound
  · rw [freed]
    exact once

section

variable [DecidableEq ι]

theorem update_eq_some {β : Type*} {f : ι → Option β} {value : β} {other : ι}
    (given : Function.update f producer none other = some value) :
    other ≠ producer ∧ f other = some value := by
  by_cases same : other = producer
  · subst same
    rw [Function.update_self] at given
    cases given
  · rw [Function.update_of_ne same] at given
    exact ⟨same, given⟩

theorem Owned.alloc (owned : Owned size inner chain held) (chained : Chained size inner chain)
    (there : buf ∈ chain) (free : held producer = none) :
    Owned size (inner.alloc ((inner.heap buf).base + size)) chain
      (Function.update held producer (some (buf, inner.allocated))) := by
  have old : ∀ other, other < inner.allocated →
      (inner.alloc ((inner.heap buf).base + size)).heap other = inner.heap other :=
    fun other below => Function.update_of_ne (Nat.ne_of_lt below) ..
  have notYet : ∀ other from', held other ≠ some (from', inner.allocated) := by
    intro other from' holding
    exact Nat.lt_irrefl _ (owned.holds other from' _ holding).2.1
  have holder : ∀ other tail fresh,
      Function.update held producer (some (buf, inner.allocated)) other = some (tail, fresh) →
      (other = producer ∧ tail = buf ∧ fresh = inner.allocated) ∨
        other ≠ producer ∧ held other = some (tail, fresh) := by
    intro other tail fresh holding
    by_cases same : other = producer
    · subst same
      rw [Function.update_self] at holding
      cases holding
      exact .inl ⟨rfl, rfl, rfl⟩
    · rw [Function.update_of_ne same] at holding
      exact .inr ⟨same, holding⟩
  constructor
  · intro other tail fresh holding
    rcases holder other tail fresh holding with ⟨rfl, rfl, rfl⟩ | ⟨_different, before⟩
    · refine ⟨there, Nat.lt_succ_self _, ?_, ?_, ?_⟩
      · intro linked
        exact Nat.lt_irrefl _ (chained.allocated _ linked)
      · intro freed
        exact Nat.lt_irrefl _ (owned.bound _ freed)
      · rw [old tail (chained.allocated tail there)]
        exact Function.update_self ..
    · obtain ⟨linked, below, unlinked, live, isNew⟩ := owned.holds other tail fresh before
      rw [old fresh below, old tail (chained.allocated tail linked)]
      exact ⟨linked, Nat.lt_succ_of_lt below, unlinked, live, isNew⟩
  · intro one other tail tail' fresh left right
    rcases holder one tail fresh left with ⟨rfl, _, rfl⟩ | ⟨_different, before⟩
    · rcases holder other tail' _ right with ⟨rfl, _⟩ | ⟨_different, before⟩
      · rfl
      · exact absurd before (notYet other tail')
    · rcases holder other tail' fresh right with ⟨rfl, _, rfl⟩ | ⟨_different', before'⟩
      · exact absurd before (notYet one tail)
      · exact owned.apart one other tail tail' fresh before before'
  · intro other below
    rcases Nat.lt_succ_iff_lt_or_eq.mp below with earlier | rfl
    · rcases owned.accounted other earlier with linked | freed | ⟨holder', tail, holding⟩
      · exact .inl linked
      · exact .inr (.inl freed)
      · have different : holder' ≠ producer := by
          rintro rfl
          rw [free] at holding
          cases holding
        refine .inr (.inr ⟨holder', tail, ?_⟩)
        rw [Function.update_of_ne different]
        exact holding
    · exact .inr (.inr ⟨producer, buf, Function.update_self ..⟩)
  · intro other freed
    exact Nat.lt_succ_of_lt (owned.bound other freed)
  · exact owned.once

/-- The link race is won. -/
theorem Owned.link (owned : Owned size inner chain held)
    (holding : held producer = some (buf, fresh)) :
    Owned size (inner.setNext buf fresh) (chain ++ [fresh])
      (Function.update held producer none) := by
  obtain ⟨linked, _below, unlinked, _live, _isNew⟩ := owned.holds producer buf fresh holding
  constructor
  · intro other tail fresh' holding'
    obtain ⟨different, before⟩ := update_eq_some holding'
    obtain ⟨linked', below', unlinked', live', isNew'⟩ := owned.holds other tail fresh' before
    refine ⟨List.mem_append_left _ linked', below', ?_, live', ?_⟩
    · intro member
      rcases List.mem_append.mp member with old | single
      · exact unlinked' old
      · obtain rfl := List.mem_singleton.mp single
        exact different (owned.apart other producer tail buf _ before holding)
    · have different' : fresh' ≠ buf := by
        rintro rfl
        exact unlinked' linked
      rw [inner.setNext_base, ← isNew']
      exact Function.update_of_ne different' ..
  · intro one other tail tail' fresh' left right
    exact owned.apart one other tail tail' fresh' (update_eq_some left).2 (update_eq_some right).2
  · intro other below
    rcases owned.accounted other below with linked' | freed | ⟨holder, tail, holding'⟩
    · exact .inl (List.mem_append_left _ linked')
    · exact .inr (.inl freed)
    · by_cases same : holder = producer
      · subst same
        obtain ⟨_, rfl⟩ := Prod.mk.inj (Option.some.inj (holding'.symm.trans holding))
        exact .inl (List.mem_append_right _ (List.mem_singleton.mpr rfl))
      · refine .inr (.inr ⟨holder, tail, ?_⟩)
        rw [Function.update_of_ne same]
        exact holding'
  · exact owned.bound
  · exact owned.once

/-- The link race is lost. -/
theorem Owned.free (owned : Owned size inner chain held)
    (holding : held producer = some (buf, fresh)) :
    Owned size (inner.free fresh) chain (Function.update held producer none) := by
  obtain ⟨_linked, below, _unlinked, live, _isNew⟩ := owned.holds producer buf fresh holding
  constructor
  · intro other tail fresh' holding'
    obtain ⟨different, before⟩ := update_eq_some holding'
    obtain ⟨linked', below', unlinked', live', isNew'⟩ := owned.holds other tail fresh' before
    refine ⟨linked', below', unlinked', ?_, isNew'⟩
    intro member
    rcases List.mem_append.mp member with old | single
    · exact live' old
    · obtain rfl := List.mem_singleton.mp single
      exact different (owned.apart other producer tail buf _ before holding)
  · intro one other tail tail' fresh' left right
    exact owned.apart one other tail tail' fresh' (update_eq_some left).2 (update_eq_some right).2
  · intro other below'
    rcases owned.accounted other below' with linked' | freed | ⟨holder, tail, holding'⟩
    · exact .inl linked'
    · exact .inr (.inl (List.mem_append_left _ freed))
    · by_cases same : holder = producer
      · subst same
        obtain ⟨_, rfl⟩ := Prod.mk.inj (Option.some.inj (holding'.symm.trans holding))
        exact .inr (.inl (List.mem_append_right _ (List.mem_singleton.mpr rfl)))
      · refine .inr (.inr ⟨holder, tail, ?_⟩)
        rw [Function.update_of_ne same]
        exact holding'
  · intro other member
    rcases List.mem_append.mp member with old | single
    · exact owned.bound other old
    · exact List.mem_singleton.mp single ▸ below
  · refine List.nodup_append.mpr ⟨owned.once, List.nodup_singleton fresh, ?_⟩
    intro other old last single same
    exact live (List.mem_singleton.mp single ▸ same ▸ old)

end

end WsDeque.Jiffy
