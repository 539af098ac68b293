import WsDeque.Jiffy.Slots

/-
What every reachable state of the channel keeps, whoever wins the races.
-/

namespace WsDeque.Jiffy

variable {ι α : Type*} {size : Nat} {inner after : Inner α} {chain chain' : List BufferPtr}
  {buf : BufferPtr} {idx i : Nat} {value : α}

/-! ### What a producer has and knows -/

def LinkFor.claimed : LinkFor α → Option (Nat × α)
  | .locate value idx => some (idx, value)
  | .finish => none

/-- The index whose value it has not stored yet. -/
def ProducerPc.claimed : ProducerPc α → Option (Nat × α)
  | .loadTailBuf value idx | .loadNext value idx _ | .advance value idx _ _
  | .loadHeadBuf value idx | .walkNext value idx _ | .writeValue value idx _ _
  | .storeSet value idx _ _ => some (idx, value)
  | .linkLoad caller _ | .linkCas caller _ _ => caller.claimed
  | .idle | .claim _ | .returned | .panicked | .nullBuffer | .dangling => none

/-- The buffer it is about to link, with the one that it links it to. -/
def ProducerPc.held : ProducerPc α → Option (BufferPtr × BufferPtr)
  | .linkCas _ buf fresh => some (buf, fresh)
  | _ => none

def ProducerPc.written : ProducerPc α → Option (Nat × α)
  | .storeSet value idx _ _ => some (idx, value)
  | _ => none

def LinkFor.Meets (size i : Nat) : LinkFor α → Prop
  | .locate _ idx => (i + 1) * size ≤ idx
  | .finish => True

/-- What a producer knows of the chain, which only grows. -/
def ProducerPc.Meets (size : Nat) (chain : List BufferPtr) : ProducerPc α → Prop
  | .idle | .claim _ | .loadTailBuf _ _ | .returned => True
  | .linkLoad caller buf | .linkCas caller buf _ =>
      ∃ i, chain[i]? = some buf ∧ caller.Meets size i
  | .loadNext _ idx buf => ∃ i, chain[i]? = some buf ∧ (i + 1) * size ≤ idx ∧ i + 1 < chain.length
  | .advance _ idx buf next =>
      ∃ i, chain[i]? = some buf ∧ (i + 1) * size ≤ idx ∧ chain[i + 1]? = some next
  | .loadHeadBuf _ idx => idx < chain.length * size
  | .walkNext _ idx buf =>
      ∃ i, chain[i]? = some buf ∧ (i + 1) * size ≤ idx ∧ idx < chain.length * size
  | .writeValue _ idx buf offset | .storeSet _ idx buf offset =>
      chain[idx / size]? = some buf ∧ offset = idx % size
  | .panicked | .nullBuffer | .dangling => False

theorem getElem?_of_grows {β : Type*} {front whole : List β} {item : β}
    (grows : front <+: whole) (there : front[i]? = some item) : whole[i]? = some item := by
  obtain ⟨rest, rfl⟩ := grows
  rw [List.getElem?_append_left (List.getElem?_eq_some_iff.mp there).1]
  exact there

theorem ProducerPc.Meets.mono {pc : ProducerPc α} (meets : pc.Meets size chain)
    (grows : chain <+: chain') : pc.Meets size chain' := by
  have length : chain.length ≤ chain'.length := grows.length_le
  have slots : chain.length * size ≤ chain'.length * size := Nat.mul_le_mul_right size length
  cases pc with
  | linkLoad caller buf =>
      obtain ⟨i, there, bound⟩ := meets
      exact ⟨i, getElem?_of_grows grows there, bound⟩
  | linkCas caller buf fresh =>
      obtain ⟨i, there, bound⟩ := meets
      exact ⟨i, getElem?_of_grows grows there, bound⟩
  | loadNext value idx buf =>
      obtain ⟨i, there, bound, linked⟩ := meets
      exact ⟨i, getElem?_of_grows grows there, bound, Nat.lt_of_lt_of_le linked length⟩
  | advance value idx buf next =>
      obtain ⟨i, there, bound, linked⟩ := meets
      exact ⟨i, getElem?_of_grows grows there, bound, getElem?_of_grows grows linked⟩
  | loadHeadBuf value idx => exact Nat.lt_of_lt_of_le meets slots
  | walkNext value idx buf =>
      obtain ⟨i, there, bound, below⟩ := meets
      exact ⟨i, getElem?_of_grows grows there, bound, Nat.lt_of_lt_of_le below slots⟩
  | writeValue value idx buf offset => exact ⟨getElem?_of_grows grows meets.1, meets.2⟩
  | storeSet value idx buf offset => exact ⟨getElem?_of_grows grows meets.1, meets.2⟩
  | _ => exact meets

/-! ### Locating -/

theorem position_of_range (above : i * size ≤ idx) (below : idx < i * size + size) :
    idx / size = i ∧ idx - i * size = idx % size := by
  have positive : 0 < size := by omega
  have quotient : idx / size = i := by
    rw [Nat.div_eq_iff positive]
    constructor
    · exact above
    · omega
  have whole := Nat.div_add_mod idx size
  rw [quotient, Nat.mul_comm] at whole
  exact ⟨quotient, by omega⟩

/-- Still looking for the buffer of a claimed index, or just there. -/
structure Locates (size : Nat) (chain : List BufferPtr) (value : α) (idx : Nat)
    (pc : ProducerPc α) : Prop where
  meets : pc.Meets size chain
  claimed : pc.claimed = some (idx, value)
  held : pc.held = none
  written : pc.written = none

/-- The subtraction of the base does not go below zero, and the offset is one of
a slot. -/
theorem located_spec (chained : Chained size inner chain) (there : chain[i]? = some buf)
    (above : i * size ≤ idx) (below : idx < i * size + size) (value : α) :
    located size inner value idx buf = .writeValue value idx buf (idx % size) ∧
      Locates size chain value idx (located size inner value idx buf) := by
  obtain ⟨quotient, remainder⟩ := position_of_range above below
  have inRange : ¬(idx < i * size ∨ size ≤ idx - i * size) := by omega
  have result : located size inner value idx buf = .writeValue value idx buf (idx % size) := by
    unfold located
    rw [chained.deref (List.mem_of_getElem? there)]
    simp only [chained.base i buf there]
    rw [if_neg inRange, remainder]
  refine ⟨result, ?_⟩
  rw [result]
  exact
    { meets := ⟨quotient.symm ▸ there, rfl⟩
      claimed := rfl
      held := rfl
      written := rfl }

theorem locateIn_spec (chained : Chained size inner chain) (there : chain[i]? = some buf)
    (value : α) (idx : Nat) : Locates size chain value idx (locateIn size inner value idx buf) := by
  have inside := (List.getElem?_eq_some_iff.mp there).1
  have slots : (i + 1) * size ≤ chain.length * size := Nat.mul_le_mul_right size inside
  unfold locateIn
  rw [chained.deref (List.mem_of_getElem? there)]
  simp only [chained.base i buf there]
  rw [Nat.succ_mul] at slots
  split
  · rename_i earlier
    exact
      { meets := (by omega : idx < chain.length * size)
        claimed := rfl
        held := rfl
        written := rfl }
  · rename_i above
    split
    · rename_i below
      exact (located_spec chained there (Nat.le_of_not_lt above) below value).2
    · rename_i beyond
      exact
        { meets := ⟨i, there, (by rw [Nat.succ_mul]; omega : (i + 1) * size ≤ idx)⟩
          claimed := rfl
          held := rfl
          written := rfl }

theorem walkFrom_spec (chained : Chained size inner chain) (there : chain[i]? = some buf)
    (above : i * size ≤ idx) (linked : idx < chain.length * size) (value : α) :
    Locates size chain value idx (walkFrom size inner value idx buf) := by
  unfold walkFrom
  rw [chained.deref (List.mem_of_getElem? there)]
  simp only [chained.base i buf there]
  split
  · rename_i below
    exact (located_spec chained there above below value).2
  · rename_i beyond
    exact
      { meets := ⟨i, there, by rw [Nat.succ_mul]; omega, linked⟩
        claimed := rfl
        held := rfl
        written := rfl }

/-! ### What the consumer has and knows -/

/-- How far slots are handled; the index follows by one step. -/
def ConsumerPc.front (head : Nat) : ConsumerPc α → Nat
  | .storeHead _ _ => head + 1
  | _ => head

/-- What it has taken out and not yet returned. -/
def ConsumerPc.inHand : ConsumerPc α → List α
  | .storeHead _ value | .returned (some value) => [value]
  | _ => []

def ConsumerPc.Meets (size : Nat) (values : List α) (inner : Inner α) (chain : List BufferPtr)
    (pending : Nat → Prop) : ConsumerPc α → Prop
  | .idle | .loadHead | .returned _ => True
  | .loadTail head => head = inner.head
  | .loadHeadBuf head => head = inner.head ∧ head < values.length
  | .loadNext buf =>
      ∃ i, chain[i]? = some buf ∧ inner.head = (i + 1) * size ∧ inner.head < values.length
  | .storeHeadBuf next => ∃ i, chain[i + 1]? = some next ∧ inner.head = (i + 1) * size
  | .loadState head buf offset =>
      head = inner.head ∧ offset = head % size ∧ buf = inner.headBuf ∧
        chain[head / size]? = some buf ∧ head < values.length
  | .readValue head buf offset =>
      head = inner.head ∧ offset = head % size ∧ buf = inner.headBuf ∧
        chain[head / size]? = some buf ∧ head < values.length ∧ ¬pending head
  | .storeHandled head buf offset value =>
      head = inner.head ∧ offset = head % size ∧ buf = inner.headBuf ∧
        chain[head / size]? = some buf ∧ values[head]? = some value ∧ ¬pending head
  | .storeHead head _ => head = inner.head ∧ chain[head / size]? = some inner.headBuf
  | .skipHead _ | .panicked | .uninitialised | .dangling => False

/-- The producers' steps add to what the consumer knows. -/
theorem ConsumerPc.Meets.mono {pc : ConsumerPc α} {values more : List α}
    {pending pending' : Nat → Prop} (meets : pc.Meets size values inner chain pending)
    (grows : chain <+: chain') (given : values <+: more) (head : after.head = inner.head)
    (headBuf : after.headBuf = inner.headBuf)
    (old : ∀ idx, idx < values.length → pending' idx → pending idx) :
    pc.Meets size more after chain' pending' := by
  have length := given.length_le
  cases pc with
  | loadTail h => exact meets.trans head.symm
  | loadHeadBuf h => exact ⟨meets.1.trans head.symm, Nat.lt_of_lt_of_le meets.2 length⟩
  | loadNext buf =>
      obtain ⟨i, there, last, below⟩ := meets
      refine ⟨i, getElem?_of_grows grows there, head.trans last, ?_⟩
      rw [head]
      exact Nat.lt_of_lt_of_le below length
  | storeHeadBuf next =>
      obtain ⟨i, there, last⟩ := meets
      exact ⟨i, getElem?_of_grows grows there, head.trans last⟩
  | loadState h buf offset =>
      obtain ⟨local', remainder, atHead, there, below⟩ := meets
      exact ⟨local'.trans head.symm, remainder, atHead.trans headBuf.symm,
        getElem?_of_grows grows there, Nat.lt_of_lt_of_le below length⟩
  | readValue h buf offset =>
      obtain ⟨local', remainder, atHead, there, below, free⟩ := meets
      exact ⟨local'.trans head.symm, remainder, atHead.trans headBuf.symm,
        getElem?_of_grows grows there, Nat.lt_of_lt_of_le below length,
        fun pending => free (old h below pending)⟩
  | storeHandled h buf offset value =>
      obtain ⟨local', remainder, atHead, there, valued, free⟩ := meets
      have below := (List.getElem?_eq_some_iff.mp valued).1
      exact ⟨local'.trans head.symm, remainder, atHead.trans headBuf.symm,
        getElem?_of_grows grows there, getElem?_of_grows given valued,
        fun pending => free (old h below pending)⟩
  | storeHead h value =>
      rw [ConsumerPc.Meets, headBuf]
      exact ⟨meets.1.trans head.symm, getElem?_of_grows grows meets.2⟩
  | _ => exact meets

/-! ### The invariant -/

namespace State

def claimed (state : State ι α) (producer : ι) : Option (Nat × α) :=
  (state.producer producer).claimed

def held (state : State ι α) (producer : ι) : Option (BufferPtr × BufferPtr) :=
  (state.producer producer).held

def written (state : State ι α) (producer : ι) : Option (Nat × α) :=
  (state.producer producer).written

def front (state : State ι α) : Nat :=
  state.consumer.front state.inner.head

end State

/-- After enqueues claimed indices for these values, and dequeues returned those. -/
structure Sound (size : Nat) (values taken : List α) (chain : List BufferPtr)
    (state : State ι α) : Prop where
  chained : Chained size state.inner chain
  owned : Owned size state.inner chain state.held
  filled : Filled size values state.front state.inner chain state.claimed state.written
  tail : state.inner.tail = values.length
  reads : ∃ i, chain[i]? = some state.inner.headBuf ∧ i * size ≤ state.inner.head ∧
    state.inner.head ≤ (i + 1) * size
  producers : ∀ producer, (state.producer producer).Meets size chain
  consumer : state.consumer.Meets size values state.inner chain (Pending state.claimed)
  taken : taken ++ state.consumer.inHand = values.take state.front

section

variable [DecidableEq ι] {state : State ι α} {producer : ι} {pc pc' : ProducerPc α}
  {values more taken : List α} {access : Access α}

theorem claimed_setProducer (state : State ι α) (producer : ι) (pc : ProducerPc α) :
    (state.setProducer producer pc).claimed =
      Function.update state.claimed producer pc.claimed :=
  Function.comp_update ..

theorem held_setProducer (state : State ι α) (producer : ι) (pc : ProducerPc α) :
    (state.setProducer producer pc).held = Function.update state.held producer pc.held :=
  Function.comp_update ..

theorem written_setProducer (state : State ι α) (producer : ι) (pc : ProducerPc α) :
    (state.setProducer producer pc).written =
      Function.update state.written producer pc.written :=
  Function.comp_update ..

/-- A producer's step, from what it does to the memory. -/
theorem Sound.produce (sound : Sound size values taken chain state)
    (grows : chain <+: chain') (given : values <+: more) (chained : Chained size after chain')
    (owned : Owned size after chain' (Function.update state.held producer pc'.held))
    (filled : Filled size more state.front after chain'
      (Function.update state.claimed producer pc'.claimed)
      (Function.update state.written producer pc'.written))
    (tail : after.tail = more.length) (head : after.head = state.inner.head)
    (headBuf : after.headBuf = state.inner.headBuf) (meets : pc'.Meets size chain')
    (old : ∀ idx, idx < values.length →
      Pending (Function.update state.claimed producer pc'.claimed) idx →
        Pending state.claimed idx) :
    Sound size more taken chain' (({ state with inner := after }).setProducer producer pc') := by
  have front : (({ state with inner := after }).setProducer producer pc').front = state.front :=
    congrArg (fun h => state.consumer.front h) head
  constructor
  · exact chained
  · rw [held_setProducer]
    exact owned
  · rw [front, claimed_setProducer, written_setProducer]
    exact filled
  · exact tail
  · obtain ⟨i, there, above, below⟩ := sound.reads
    change ∃ i, chain'[i]? = some after.headBuf ∧ i * size ≤ after.head ∧
      after.head ≤ (i + 1) * size
    rw [head, headBuf]
    exact ⟨i, getElem?_of_grows grows there, above, below⟩
  · intro other
    change (Function.update state.producer producer pc' other).Meets size chain'
    by_cases same : other = producer
    · subst same
      rw [Function.update_self]
      exact meets
    · rw [Function.update_of_ne same]
      exact (sound.producers other).mono grows
  · rw [claimed_setProducer]
    exact sound.consumer.mono grows given head headBuf old
  · rw [front]
    obtain ⟨rest, rfl⟩ := given
    rw [List.take_append_of_le_length sound.filled.within]
    exact sound.taken

theorem pending_of_update {claimed : ι → Option (Nat × α)}
    (pending : Pending (Function.update claimed producer none) idx) : Pending claimed idx := by
  obtain ⟨other, value, claim⟩ := pending
  exact ⟨other, value, (update_eq_some claim).2⟩

section

variable (atPc : state.producer producer = pc)

include atPc

theorem State.update_claimed {claimed : Option (Nat × α)} (same : claimed = pc.claimed) :
    Function.update state.claimed producer claimed = state.claimed := by
  rw [same, ← atPc]
  exact Function.update_eq_self ..

theorem State.update_held {held : Option (BufferPtr × BufferPtr)} (same : held = pc.held) :
    Function.update state.held producer held = state.held := by
  rw [same, ← atPc]
  exact Function.update_eq_self ..

theorem State.update_written {written : Option (Nat × α)} (same : written = pc.written) :
    Function.update state.written producer written = state.written := by
  rw [same, ← atPc]
  exact Function.update_eq_self ..

end

/-- A step that only moves the producer on. -/
theorem Sound.goto (sound : Sound size values taken chain state)
    (atPc : state.producer producer = pc) (claimed : pc'.claimed = pc.claimed)
    (held : pc'.held = pc.held) (written : pc'.written = pc.written)
    (meets : pc'.Meets size chain) :
    Sound size values taken chain (state.setProducer producer pc') := by
  have owned : Owned size state.inner chain (Function.update state.held producer pc'.held) := by
    rw [State.update_held atPc held]
    exact sound.owned
  have claims := State.update_claimed atPc claimed
  have filled : Filled size values state.front state.inner chain
      (Function.update state.claimed producer pc'.claimed)
      (Function.update state.written producer pc'.written) := by
    rw [claims, State.update_written atPc written]
    exact sound.filled
  refine sound.produce (List.prefix_refl chain) (List.prefix_refl values) sound.chained owned
    filled sound.tail rfl rfl meets ?_
  rw [claims]
  exact fun _idx _below pending => pending

end

end WsDeque.Jiffy
