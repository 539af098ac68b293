import WsDeque.Jiffy.Runs

/-
What each access of `enqueue` keeps: the slot is found, written and published,
and the chain only grows.
-/

namespace WsDeque.Jiffy

variable {ι α : Type*} {size : Nat} {inner after : Inner α} {chain : List BufferPtr}
  {buf fresh next : BufferPtr} {idx offset i : Nat} {value : α}

/-- The base of the buffer that `locate_tail_buffer` begins with. -/
def Inner.tailBase (inner : Inner α) : Nat :=
  (inner.heap inner.tailBuf).base

def Access.claimed : Access α → List (Nat × α)
  | .claim idx value => [(idx, value)]
  | _ => []

/-- After a step the chain is as long or longer, and its tail no earlier. -/
def Advances [DecidableEq ι] (size : Nat) (values taken : List α) (chain : List BufferPtr)
    (before after : State ι α) : Prop :=
  ∃ chain', chain <+: chain' ∧ Sound size values taken chain' after ∧
    before.inner.tailBase ≤ after.inner.tailBase

/-- An access to a buffer of the chain finds it there. -/
theorem producerStep_of_uses (chained : Chained size inner chain) {pc : ProducerPc α}
    (uses : pc.uses = some buf) (there : buf ∈ chain) :
    producerStep size inner pc = bufferStep size inner buf (inner.heap buf) pc := by
  have found := chained.deref there
  cases pc with
  | linkLoad caller tail | linkCas caller tail fresh | loadNext value idx tail
  | walkNext value idx tail | writeValue value idx tail offset | storeSet value idx tail offset =>
      cases uses
      simp only [producerStep, ProducerPc.uses, Option.bind_some, found]
  | _ => cases uses

section

variable [DecidableEq ι] {state : State ι α} {producer : ι} {pc pc' : ProducerPc α}
  {values taken : List α} {caller : LinkFor α}

theorem Sound.stay (sound : Sound size values taken chain state)
    (atPc : state.producer producer = pc) (claimed : pc'.claimed = pc.claimed)
    (held : pc'.held = pc.held) (written : pc'.written = pc.written)
    (meets : pc'.Meets size chain) :
    Advances size values taken chain state (state.setProducer producer pc') :=
  ⟨chain, List.prefix_refl chain, sound.goto atPc claimed held written meets, Nat.le_refl _⟩

/-- A producer that looks for its slot goes on looking. -/
theorem Sound.locate (sound : Sound size values taken chain state)
    (atPc : state.producer producer = pc) (claimed : pc.claimed = some (idx, value))
    (held : pc.held = none) (written : pc.written = none)
    (locates : Locates size chain value idx pc') :
    Advances size values taken chain state (state.setProducer producer pc') :=
  sound.stay atPc (locates.claimed.trans claimed.symm) (locates.held.trans held.symm)
    (locates.written.trans written.symm) locates.meets

/-! ### The claim -/

theorem Sound.claim (sound : Sound size values taken chain state)
    (atPc : state.producer producer = .claim value) :
    Advances size (values ++ [value]) taken chain state
      (({ state with inner := { state.inner with tail := state.inner.tail + 1 } }).setProducer
        producer (.loadTailBuf value state.inner.tail)) := by
  have free : state.claimed producer = none := congrArg ProducerPc.claimed atPc
  have holds : state.held producer = none := congrArg ProducerPc.held atPc
  have writes : state.written producer = none := congrArg ProducerPc.written atPc
  have grows : values <+: values ++ [value] := List.prefix_append ..
  refine ⟨chain, List.prefix_refl chain, ?_, Nat.le_refl _⟩
  refine sound.produce (List.prefix_refl chain) grows ?_ ?_ ?_ ?_ rfl rfl trivial ?_
  · exact sound.chained.transport rfl (fun _ _ => rfl) (fun _ _ => rfl) (Nat.le_refl _)
      sound.chained.live sound.chained.tailBuf sound.chained.headBuf
  · rw [show (ProducerPc.loadTailBuf value state.inner.tail).held = state.held producer from
      holds.symm, Function.update_eq_self]
    exact sound.owned.transport (fun _ _ => rfl) (fun _ _ _ => rfl) rfl rfl
  · rw [show (ProducerPc.loadTailBuf value state.inner.tail).written = state.written producer from
      writes.symm, Function.update_eq_self, sound.tail]
    exact (sound.filled.claim free value).extends (.of_cells fun _ => rfl)
  · rw [List.length_append, List.length_singleton, ← sound.tail]
  · rintro other below ⟨claimer, value', claims⟩
    by_cases same : claimer = producer
    · subst same
      rw [Function.update_self] at claims
      cases claims
      rw [sound.tail] at below
      exact absurd below (Nat.lt_irrefl _)
    · rw [Function.update_of_ne same] at claims
      exact ⟨claimer, value', claims⟩

/-! ### Linking -/

theorem resume_spec (there : chain[i]? = some buf) (linked : i + 1 < chain.length)
    (meets : caller.Meets size i) :
    (caller.resume buf).Meets size chain ∧ (caller.resume buf).claimed = caller.claimed ∧
      (caller.resume buf).held = none ∧ (caller.resume buf).written = none := by
  cases caller with
  | locate value idx => exact ⟨⟨i, there, meets, linked⟩, rfl, rfl, rfl⟩
  | finish => exact ⟨trivial, rfl, rfl, rfl⟩

theorem Sound.linked (sound : Sound size values taken chain state)
    (atPc : state.producer producer = .linkLoad caller buf) (there : chain[i]? = some buf)
    (meets : caller.Meets size i) (linked : i + 1 < chain.length) :
    Advances size values taken chain state (state.setProducer producer (caller.resume buf)) := by
  obtain ⟨meets', claimed, held, written⟩ := resume_spec there linked meets
  exact sound.stay atPc claimed held written meets'

/-- `Buffer::new` of a producer that found no next buffer. -/
theorem Sound.alloc (sound : Sound size values taken chain state)
    (atPc : state.producer producer = .linkLoad caller buf) (there : chain[i]? = some buf)
    (meets : caller.Meets size i) :
    Advances size values taken chain state
      (({ state with inner := state.inner.alloc ((state.inner.heap buf).base + size) }).setProducer
        producer (.linkCas caller buf state.inner.allocated)) := by
  have holds : state.held producer = none := congrArg ProducerPc.held atPc
  have claims : Function.update state.claimed producer caller.claimed = state.claimed :=
    State.update_claimed atPc rfl
  have writes : Function.update state.written producer none = state.written :=
    State.update_written atPc rfl
  have unchanged : ∀ other ∈ chain,
      (state.inner.alloc ((state.inner.heap buf).base + size)).heap other =
        state.inner.heap other :=
    fun other member =>
      Function.update_of_ne (Nat.ne_of_lt (sound.chained.allocated other member)) ..
  have member := List.mem_of_getElem? there
  refine ⟨chain, List.prefix_refl chain, ?_, ?_⟩
  · refine sound.produce (List.prefix_refl chain) (List.prefix_refl values) ?_
      (sound.owned.alloc sound.chained member holds) ?_ sound.tail rfl rfl ⟨i, there, meets⟩ ?_
    · exact sound.chained.transport rfl
        (fun other linked => congrArg Buffer.base (unchanged other linked))
        (fun other linked => congrArg Buffer.next (unchanged other linked)) (Nat.le_succ _)
        sound.chained.live sound.chained.tailBuf sound.chained.headBuf
    · change Filled size values state.front _ chain
        (Function.update state.claimed producer caller.claimed)
        (Function.update state.written producer none)
      rw [claims, writes]
      exact sound.filled.extends (.of_cells fun idx => cellAt_congr fun other linked =>
        congrArg Buffer.slots (unchanged other linked))
    · change ∀ idx, idx < values.length →
        Pending (Function.update state.claimed producer caller.claimed) idx → _
      rw [claims]
      exact fun _ _ pending => pending
  · exact Nat.le_of_eq (congrArg Buffer.base (unchanged _ sound.chained.tailBuf)).symm

/-- The fresh buffer is linked, and belongs to its producer no more. -/
theorem Sound.link (sound : Sound size values taken chain state)
    (atPc : state.producer producer = .linkCas caller buf fresh) (there : chain[i]? = some buf)
    (meets : caller.Meets size i) (last : chain[i + 1]? = none) :
    Advances size values taken chain state
      (({ state with inner := state.inner.setNext buf fresh }).setProducer producer
        (caller.resume buf)) := by
  have holds : state.held producer = some (buf, fresh) := congrArg ProducerPc.held atPc
  obtain ⟨_linked, below, unlinked, live, isNew⟩ := sound.owned.holds producer buf fresh holds
  have inside := (List.getElem?_eq_some_iff.mp there).1
  have grows : chain <+: chain ++ [fresh] := List.prefix_append ..
  have longer : i + 1 < (chain ++ [fresh]).length := by
    rw [List.length_append, List.length_singleton]
    omega
  obtain ⟨meets', claimed, held, written⟩ :=
    resume_spec (getElem?_of_grows grows there) longer meets
  have claims := State.update_claimed atPc claimed
  have writes := State.update_written atPc written
  have different : fresh ≠ buf := by
    rintro rfl
    exact unlinked (List.mem_of_getElem? there)
  refine ⟨chain ++ [fresh], grows, ?_, ?_⟩
  · refine sound.produce grows (List.prefix_refl values)
      (sound.chained.link there last isNew unlinked below live) ?_ ?_ sound.tail rfl rfl meets' ?_
    · rw [held]
      exact sound.owned.link holds
    · rw [claims, writes]
      exact sound.filled.extends (.link buf isNew different)
    · rw [claims]
      exact fun _ _ pending => pending
  · exact Nat.le_of_eq (state.inner.setNext_base buf fresh _).symm

/-- The buffer that lost the race is freed; nobody else has its address. -/
theorem Sound.free (sound : Sound size values taken chain state)
    (atPc : state.producer producer = .linkCas caller buf fresh) (there : chain[i]? = some buf)
    (meets : caller.Meets size i) (linked : i + 1 < chain.length) :
    (state.inner.deref fresh).isSome = true ∧
      Advances size values taken chain state
        (({ state with inner := state.inner.free fresh }).setProducer producer
          (caller.resume buf)) := by
  have holds : state.held producer = some (buf, fresh) := congrArg ProducerPc.held atPc
  obtain ⟨_linked, below, unlinked, live, _isNew⟩ := sound.owned.holds producer buf fresh holds
  obtain ⟨meets', claimed, held, written⟩ := resume_spec there linked meets
  have claims := State.update_claimed atPc claimed
  have writes := State.update_written atPc written
  constructor
  · rw [Inner.deref, if_pos ⟨below, live⟩]
    rfl
  · refine ⟨chain, List.prefix_refl chain, ?_, Nat.le_refl _⟩
    refine sound.produce (List.prefix_refl chain) (List.prefix_refl values) ?_ ?_ ?_ sound.tail rfl
      rfl meets' ?_
    · refine sound.chained.transport rfl (fun _ _ => rfl) (fun _ _ => rfl) (Nat.le_refl _) ?_
        sound.chained.tailBuf sound.chained.headBuf
      intro other member freed
      rcases List.mem_append.mp freed with old | single
      · exact sound.chained.live other member old
      · exact unlinked (List.mem_singleton.mp single ▸ member)
    · rw [held]
      exact sound.owned.free holds
    · rw [claims, writes]
      exact sound.filled.extends (.of_cells fun _ => rfl)
    · rw [claims]
      exact fun _ _ pending => pending

/-! ### The tail moves on -/

/-- A winning advance moves the tail one buffer on, and a losing one had been
overtaken. -/
theorem Sound.advance (sound : Sound size values taken chain state)
    (atPc : state.producer producer = .advance value idx buf next)
    (here : state.inner.tailBuf = buf) :
    Advances size values taken chain state
      (({ state with inner := { state.inner with tailBuf := next } }).setProducer producer
        (.loadTailBuf value idx)) := by
  have meets := sound.producers producer
  rw [atPc] at meets
  obtain ⟨i, there, _beyond, linked⟩ := meets
  have claims : Function.update state.claimed producer (some (idx, value)) = state.claimed :=
    State.update_claimed atPc rfl
  have holds : Function.update state.held producer none = state.held :=
    State.update_held atPc rfl
  have writes : Function.update state.written producer none = state.written :=
    State.update_written atPc rfl
  refine ⟨chain, List.prefix_refl chain, ?_, ?_⟩
  · refine sound.produce (List.prefix_refl chain) (List.prefix_refl values) ?_ ?_ ?_ sound.tail rfl
      rfl trivial ?_
    · exact sound.chained.transport rfl (fun _ _ => rfl) (fun _ _ => rfl) (Nat.le_refl _)
        sound.chained.live (List.mem_of_getElem? linked) sound.chained.headBuf
    · change Owned size _ chain (Function.update state.held producer none)
      rw [holds]
      exact sound.owned.transport (fun _ _ => rfl) (fun _ _ _ => rfl) rfl rfl
    · change Filled size values state.front _ chain
        (Function.update state.claimed producer (some (idx, value)))
        (Function.update state.written producer none)
      rw [claims, writes]
      exact sound.filled.extends (.of_cells fun _ => rfl)
    · change ∀ other, other < values.length →
        Pending (Function.update state.claimed producer (some (idx, value))) other → _
      rw [claims]
      exact fun _ _ pending => pending
  · change (state.inner.heap state.inner.tailBuf).base ≤ (state.inner.heap next).base
    rw [here, sound.chained.base i buf there, sound.chained.base (i + 1) next linked]
    exact Nat.mul_le_mul_right size (Nat.le_succ i)

/-! ### The slot -/

theorem Sound.write (sound : Sound size values taken chain state)
    (atPc : state.producer producer = .writeValue value idx buf offset) :
    Advances size values taken chain state
      (({ state with
          inner := state.inner.setSlot buf offset
            { (state.inner.heap buf).slots offset with value := some value } }).setProducer producer
        (.storeSet value idx buf offset)) := by
  have meets := sound.producers producer
  rw [atPc] at meets
  obtain ⟨there, rfl⟩ := meets
  have claim : state.claimed producer = some (idx, value) := congrArg ProducerPc.claimed atPc
  have claims : Function.update state.claimed producer (some (idx, value)) = state.claimed :=
    State.update_claimed atPc rfl
  have holds : Function.update state.held producer none = state.held :=
    State.update_held atPc rfl
  refine ⟨chain, List.prefix_refl chain, ?_, ?_⟩
  · refine sound.produce (List.prefix_refl chain) (List.prefix_refl values)
      (sound.chained.setSlot ..) ?_ ?_ sound.tail rfl rfl ⟨there, rfl⟩ ?_
    · change Owned size _ chain (Function.update state.held producer none)
      rw [holds]
      exact sound.owned.setSlot (List.mem_of_getElem? there) ..
    · change Filled size values state.front _ chain
        (Function.update state.claimed producer (some (idx, value)))
        (Function.update state.written producer (some (idx, value)))
      rw [claims]
      exact sound.filled.write claim (cellAt_of_getElem? there) (cellAt_setSlot_self there _)
        fun other different => cellAt_setSlot_of_ne sound.chained there different _
    · change ∀ other, other < values.length →
        Pending (Function.update state.claimed producer (some (idx, value))) other → _
      rw [claims]
      exact fun _ _ pending => pending
  · exact Nat.le_of_eq (state.inner.setSlot_base ..).symm

/-- After the store the producer may still link the next buffer. -/
theorem Sound.store (sound : Sound size values taken chain state)
    (atPc : state.producer producer = .storeSet value idx buf offset) :
    Advances size values taken chain state
      (({ state with
          inner := state.inner.setSlot buf offset
            { (state.inner.heap buf).slots offset with state := .set } }).setProducer producer
        (if offset + 2 = size then .linkLoad .finish buf else .returned)) := by
  have meets := sound.producers producer
  rw [atPc] at meets
  obtain ⟨there, rfl⟩ := meets
  have given : state.written producer = some (idx, value) := congrArg ProducerPc.written atPc
  have holds : Function.update state.held producer none = state.held :=
    State.update_held atPc rfl
  let pc' : ProducerPc α := if idx % size + 2 = size then .linkLoad .finish buf else .returned
  have ends : pc'.claimed = none ∧ pc'.held = none ∧ pc'.written = none ∧
      pc'.Meets size chain := by
    by_cases link : idx % size + 2 = size
    · rw [show pc' = .linkLoad .finish buf from if_pos link]
      exact ⟨rfl, rfl, rfl, _, there, trivial⟩
    · rw [show pc' = .returned from if_neg link]
      exact ⟨rfl, rfl, rfl, trivial⟩
  obtain ⟨claimed, held, written, meets'⟩ := ends
  refine ⟨chain, List.prefix_refl chain, ?_, ?_⟩
  · refine sound.produce (List.prefix_refl chain) (List.prefix_refl values)
      (sound.chained.setSlot ..) ?_ ?_ sound.tail rfl rfl meets' ?_
    · rw [held, holds]
      exact sound.owned.setSlot (List.mem_of_getElem? there) ..
    · rw [claimed, written]
      exact sound.filled.store given (cellAt_of_getElem? there) (cellAt_setSlot_self there _)
        fun other different => cellAt_setSlot_of_ne sound.chained there different _
    · rw [claimed]
      exact fun _ _ pending => pending_of_update pending
  · exact Nat.le_of_eq (state.inner.setSlot_base ..).symm

/-! ### One access -/

theorem Sound.bufferStep (sound : Sound size values taken chain state)
    (atPc : state.producer producer = pc) (uses : pc.uses = some buf) {access : Access α}
    (stepped : Jiffy.bufferStep size state.inner buf (state.inner.heap buf) pc =
      some (access, after, pc')) :
    access.claimed = [] ∧
      Advances size values taken chain state
        (({ state with inner := after }).setProducer producer pc') := by
  have meets := sound.producers producer
  rw [atPc] at meets
  cases pc with
  | linkLoad caller tail =>
      cases uses
      obtain ⟨i, there, bound⟩ := meets
      have link := sound.chained.next i buf there
      simp only [Jiffy.bufferStep] at stepped
      split at stepped
      · rename_i linked
        rw [linked] at link
        cases stepped
        exact ⟨rfl, sound.linked atPc there bound (List.getElem?_eq_some_iff.mp link.symm).1⟩
      · cases stepped
        exact ⟨rfl, sound.alloc atPc there bound⟩
  | linkCas caller tail fresh =>
      cases uses
      obtain ⟨i, there, bound⟩ := meets
      have link := sound.chained.next i buf there
      simp only [Jiffy.bufferStep] at stepped
      split at stepped
      · rename_i last
        rw [last] at link
        cases stepped
        exact ⟨rfl, sound.link atPc there bound link.symm⟩
      · rename_i linked
        rw [linked] at link
        obtain ⟨present, advances⟩ :=
          sound.free atPc there bound (List.getElem?_eq_some_iff.mp link.symm).1
        rw [if_pos present] at stepped
        cases stepped
        exact ⟨rfl, advances⟩
  | loadNext value idx tail =>
      cases uses
      obtain ⟨i, there, beyond, inside⟩ := meets
      have link := sound.chained.next i buf there
      simp only [Jiffy.bufferStep] at stepped
      rw [List.getElem?_eq_getElem inside] at link
      simp only [link] at stepped
      cases stepped
      exact ⟨rfl, sound.stay atPc rfl rfl rfl
        ⟨i, there, beyond, List.getElem?_eq_getElem inside⟩⟩
  | walkNext value idx tail =>
      cases uses
      obtain ⟨i, there, beyond, within⟩ := meets
      have inside : i + 1 < chain.length :=
        Nat.lt_of_mul_lt_mul_right (Nat.lt_of_le_of_lt beyond within)
      have link := sound.chained.next i buf there
      simp only [Jiffy.bufferStep] at stepped
      rw [List.getElem?_eq_getElem inside] at link
      simp only [link] at stepped
      cases stepped
      exact ⟨rfl, sound.locate atPc rfl rfl rfl
        (walkFrom_spec sound.chained (List.getElem?_eq_getElem inside) beyond within value)⟩
  | writeValue value idx tail offset =>
      cases uses
      cases stepped
      exact ⟨rfl, sound.write atPc⟩
  | storeSet value idx tail offset =>
      cases uses
      cases stepped
      exact ⟨rfl, sound.store atPc⟩
  | _ => cases uses

theorem ProducerPc.Meets.uses (meets : pc.Meets size chain) (uses : pc.uses = some buf) :
    buf ∈ chain := by
  cases pc with
  | linkLoad caller tail | linkCas caller tail fresh | loadNext value idx tail
  | walkNext value idx tail =>
      cases uses
      obtain ⟨i, there, _⟩ := meets
      exact List.mem_of_getElem? there
  | writeValue value idx tail offset | storeSet value idx tail offset =>
      cases uses
      exact List.mem_of_getElem? meets.1
  | _ => cases uses

omit [DecidableEq ι] in
/-- The consumer has not come past an index whose value is not stored, so the
head buffer lies before its slot. -/
theorem Sound.headBuf_before (sound : Sound size values taken chain state)
    (claim : state.claimed producer = some (idx, value)) :
    ∃ i, chain[i]? = some state.inner.headBuf ∧ i * size ≤ idx := by
  obtain ⟨i, there, above, _below⟩ := sound.reads
  have ahead := sound.filled.ahead idx ⟨producer, value, claim⟩
  have front : state.inner.head ≤ state.front := by
    unfold State.front ConsumerPc.front
    split <;> omega
  exact ⟨i, there, Nat.le_trans above (Nat.le_trans front ahead)⟩

/-- Whatever a producer does next: either it claims the next index, or nothing. -/
theorem Sound.producerStep (sound : Sound size values taken chain state) {access : Access α}
    (stepped : Jiffy.producerStep size state.inner (state.producer producer) =
      some (access, after, pc')) :
    (access.claimed = [] ∧ Advances size values taken chain state
        (({ state with inner := after }).setProducer producer pc')) ∨
      ∃ value, access = .claim values.length value ∧
        Advances size (values ++ [value]) taken chain state
          (({ state with inner := after }).setProducer producer pc') := by
  have meets := sound.producers producer
  cases atPc : state.producer producer with
  | claim value =>
      rw [atPc] at stepped
      cases stepped
      exact .inr ⟨value, congrArg (Access.claim · value) sound.tail, sound.claim atPc⟩
  | loadTailBuf value idx =>
      rw [atPc] at stepped
      cases stepped
      obtain ⟨i, there⟩ := List.getElem?_of_mem sound.chained.tailBuf
      exact .inl ⟨rfl, sound.locate atPc rfl rfl rfl
        (locateIn_spec sound.chained there value idx)⟩
  | advance value idx buf next =>
      rw [atPc] at stepped
      simp only [Jiffy.producerStep] at stepped
      split at stepped
      · rename_i here
        cases stepped
        exact .inl ⟨rfl, sound.advance atPc here⟩
      · cases stepped
        exact .inl ⟨rfl, sound.stay atPc rfl rfl rfl trivial⟩
  | loadHeadBuf value idx =>
      rw [atPc] at stepped meets
      cases stepped
      obtain ⟨i, there, before⟩ := sound.headBuf_before (congrArg ProducerPc.claimed atPc)
      exact .inl ⟨rfl, sound.locate atPc rfl rfl rfl
        (walkFrom_spec sound.chained there before meets value)⟩
  | linkLoad caller buf | linkCas caller buf fresh | loadNext value idx buf
  | walkNext value idx buf | writeValue value idx buf offset | storeSet value idx buf offset =>
      rw [atPc] at stepped meets
      rw [producerStep_of_uses sound.chained rfl (meets.uses rfl)] at stepped
      exact .inl (sound.bufferStep atPc rfl stepped)
  | _ =>
      rw [atPc] at stepped
      cases stepped

end

end WsDeque.Jiffy
