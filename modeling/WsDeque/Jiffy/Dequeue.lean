import WsDeque.Jiffy.Fifo
import WsDeque.Jiffy.Locating

/-
A dequeue among producers: it comes to its end whatever they do, and it says that
there is nothing only where there is nothing to take.
-/

namespace WsDeque.Jiffy

variable {ι α : Type*} {size : Nat} {inner after : Inner α} {chain chain' : List BufferPtr}
  {buf : BufferPtr} {idx : Nat} {value : α} {pc pc' : ProducerPc α} {access : Access α}

/-! ### What the producers leave alone -/

/-- An access of `enqueue` leaves the consumer's part alone, and claims at most the
index at the tail. -/
structure Respects (inner : Inner α) (pc : ProducerPc α) (after : Inner α) (pc' : ProducerPc α) :
    Prop where
  head : after.head = inner.head
  headBuf : after.headBuf = inner.headBuf
  tail : inner.tail ≤ after.tail
  claimed : ∀ claim, pc'.claimed = some claim → pc.claimed = some claim ∨ claim.1 = inner.tail

theorem Respects.goto (claimed : ∀ claim, pc'.claimed = some claim → pc.claimed = some claim) :
    Respects inner pc inner pc' where
  head := rfl
  headBuf := rfl
  tail := Nat.le_refl _
  claimed := fun claim given => .inl (claimed claim given)

theorem located_claimed (size : Nat) (inner : Inner α) (value : α) (idx : Nat) (buf : BufferPtr)
    {claim : Nat × α} (claimed : (located size inner value idx buf).claimed = some claim) :
    claim = (idx, value) := by
  unfold located at claimed
  split at claimed
  · cases claimed
  · split at claimed <;> cases claimed
    rfl

theorem locateIn_claimed (size : Nat) (inner : Inner α) (value : α) (idx : Nat) (buf : BufferPtr)
    {claim : Nat × α} (claimed : (locateIn size inner value idx buf).claimed = some claim) :
    claim = (idx, value) := by
  unfold locateIn at claimed
  split at claimed
  · cases claimed
  · split at claimed
    · cases claimed
      rfl
    · split at claimed
      · exact located_claimed size inner value idx buf claimed
      · cases claimed
        rfl

theorem walkFrom_claimed (size : Nat) (inner : Inner α) (value : α) (idx : Nat) (buf : BufferPtr)
    {claim : Nat × α} (claimed : (walkFrom size inner value idx buf).claimed = some claim) :
    claim = (idx, value) := by
  unfold walkFrom at claimed
  split at claimed
  · cases claimed
  · split at claimed
    · exact located_claimed size inner value idx buf claimed
    · cases claimed
      rfl

theorem LinkFor.resume_claimed (caller : LinkFor α) (buf : BufferPtr) :
    (caller.resume buf).claimed = (ProducerPc.linkLoad caller buf).claimed := by
  cases caller <;> rfl

theorem bufferStep_respects {buffer : Buffer α}
    (stepped : bufferStep size inner buf buffer pc = some (access, after, pc')) :
    Respects inner pc after pc' := by
  cases pc with
  | linkLoad caller tail =>
      simp only [bufferStep] at stepped
      split at stepped
      · cases stepped
        exact .goto fun claim given => (caller.resume_claimed buf).symm.trans given
      · cases stepped
        exact ⟨rfl, rfl, Nat.le_refl _, fun claim given => .inl given⟩
  | linkCas caller tail fresh =>
      simp only [bufferStep] at stepped
      split at stepped
      · cases stepped
        exact ⟨rfl, rfl, Nat.le_refl _,
          fun claim given => .inl ((caller.resume_claimed buf).symm.trans given)⟩
      · cases stepped
        refine ⟨rfl, rfl, Nat.le_refl _, fun claim given => .inl ?_⟩
        split at given
        · exact (caller.resume_claimed buf).symm.trans given
        · cases given
  | loadNext value idx tail =>
      simp only [bufferStep] at stepped
      split at stepped <;> cases stepped <;> exact .goto fun claim given => given
  | walkNext value idx tail =>
      simp only [bufferStep] at stepped
      split at stepped
      · cases stepped
        exact .goto fun claim given => by cases given
      · cases stepped
        exact .goto fun claim given => (walkFrom_claimed _ _ _ _ _ given) ▸ rfl
  | writeValue value idx tail offset =>
      cases stepped
      exact ⟨rfl, rfl, Nat.le_refl _, fun claim given => .inl given⟩
  | storeSet value idx tail offset =>
      cases stepped
      refine ⟨rfl, rfl, Nat.le_refl _, fun claim given => .inl ?_⟩
      split at given <;> cases given
  | _ => cases stepped

theorem producerStep_respects
    (stepped : producerStep size inner pc = some (access, after, pc')) :
    Respects inner pc after pc' := by
  cases pc with
  | claim value =>
      cases stepped
      refine ⟨rfl, rfl, Nat.le_succ _, fun claim given => .inr ?_⟩
      cases given
      rfl
  | loadTailBuf value idx =>
      cases stepped
      exact .goto fun claim given => (locateIn_claimed _ _ _ _ _ given) ▸ rfl
  | advance value idx buf next =>
      simp only [producerStep] at stepped
      split at stepped
      · cases stepped
        exact ⟨rfl, rfl, Nat.le_refl _, fun claim given => .inl given⟩
      · cases stepped
        exact .goto fun claim given => given
  | loadHeadBuf value idx =>
      cases stepped
      exact .goto fun claim given => (walkFrom_claimed _ _ _ _ _ given) ▸ rfl
  | linkLoad caller buf | linkCas caller buf fresh | loadNext value idx buf
  | walkNext value idx buf | writeValue value idx buf offset | storeSet value idx buf offset =>
      simp only [producerStep, ProducerPc.uses, Option.bind_some] at stepped
      split at stepped
      · cases stepped
        exact .goto fun claim given => by cases given
      · exact bufferStep_respects stepped
  | _ => cases stepped

theorem consumerStep_tail {before next : ConsumerPc α}
    (stepped : consumerStep size inner before = some (access, after, next)) :
    after.tail = inner.tail := by
  cases before with
  | loadHead | loadTail head | loadHeadBuf head | storeHeadBuf next | storeHead head value
  | skipHead head =>
      cases stepped
      rfl
  | loadNext buf | loadState head buf offset | readValue head buf offset
  | storeHandled head buf offset value =>
      simp only [consumerStep, ConsumerPc.uses, Option.bind_some] at stepped
      split at stepped
      · cases stepped
        rfl
      · simp only [slotStep] at stepped
        try split at stepped
        all_goals
          cases stepped
          rfl
  | _ => cases stepped

/-! ### What a dequeue can find -/

section

variable [DecidableEq ι] {state final : State ι α} {label : Label ι α}
  {labels later : List (Label ι α)} {values taken taken' more : List α} {next : ConsumerPc α}

/-- There is nothing to take: no index is claimed beyond the head, or the enqueue
that has claimed the one at the head has not stored its value yet. -/
def State.Waits (state : State ι α) : Prop :=
  state.inner.tail ≤ state.inner.head ∨ Pending state.claimed state.inner.head

omit [DecidableEq ι] in
/-- A dequeue that finds nothing has seen so with its last access. -/
theorem Sound.none_waits (positive : 0 < size) (sound : Sound size values taken chain state)
    (stepped : Jiffy.consumerStep size state.inner state.consumer =
      some (access, after, .returned none)) : state.Waits ∧ after = state.inner := by
  have meets := sound.consumer
  cases atPc : state.consumer with
  | loadTail head =>
      rw [atPc] at stepped meets
      obtain rfl : head = state.inner.head := meets
      simp only [Jiffy.consumerStep] at stepped
      by_cases beyond : state.inner.head ≥ state.inner.tail
      · rw [if_pos beyond] at stepped
        cases stepped
        exact ⟨.inl beyond, rfl⟩
      · rw [if_neg beyond] at stepped
        cases stepped
  | loadHeadBuf head =>
      rw [atPc] at stepped
      simp only [Jiffy.consumerStep, dequeueIn] at stepped
      split at stepped
      · cases stepped
      · split at stepped
        · cases stepped
        · split at stepped <;> cases stepped
  | loadNext buf =>
      rw [atPc] at stepped meets
      obtain ⟨i, there, last, before⟩ := meets
      have front : state.front = state.inner.head := State.front_of atPc
      rw [consumerStep_of_uses sound.chained rfl (List.mem_of_getElem? there)] at stepped
      simp only [slotStep] at stepped
      split at stepped
      · rename_i unlinked
        cases stepped
        -- A value at the head would be in a slot of the next buffer.
        refine ⟨.inr (by_contra fun free => ?_), rfl⟩
        have stored := sound.filled.stored _ _ (Nat.le_of_eq front)
          (List.getElem?_eq_getElem before) free
        obtain ⟨next, linked, _slot⟩ := Option.map_eq_some_iff.mp stored
        rw [last, Nat.mul_div_cancel _ positive] at linked
        rw [sound.chained.next i buf there, linked] at unlinked
        cases unlinked
      · cases stepped
  | loadState head buf offset =>
      rw [atPc] at stepped meets
      obtain ⟨rfl, rfl, _buf, there, before⟩ := meets
      have front : state.front = state.inner.head := State.front_of atPc
      rw [consumerStep_of_uses sound.chained rfl (List.mem_of_getElem? there)] at stepped
      simp only [slotStep] at stepped
      have unchanged := congrArg (fun moved => moved.2.1) (Option.some.inj stepped)
      refine ⟨.inr (by_contra fun free => ?_), unchanged.symm⟩
      have stored := sound.filled.stored _ _ (Nat.le_of_eq front)
        (List.getElem?_eq_getElem before) free
      have slot := Option.some.inj ((cellAt_of_getElem? there).symm.trans stored)
      rw [slot] at stepped
      cases stepped
  | readValue head buf offset =>
      rw [atPc] at stepped meets
      obtain ⟨rfl, rfl, _buf, there, _rest⟩ := meets
      rw [consumerStep_of_uses sound.chained rfl (List.mem_of_getElem? there)] at stepped
      simp only [slotStep] at stepped
      split at stepped <;> cases stepped
  | storeHandled head buf offset value =>
      rw [atPc] at stepped meets
      obtain ⟨rfl, rfl, _buf, there, _rest⟩ := meets
      rw [consumerStep_of_uses sound.chained rfl (List.mem_of_getElem? there)] at stepped
      cases stepped
  | _ =>
      rw [atPc] at stepped
      cases stepped

theorem State.Waits.of_setProducer {producer : ι}
    (waits : (state.setProducer producer pc).Waits) (free : pc.claimed = none) : state.Waits := by
  rcases waits with exhausted | ⟨other, value, claim⟩
  · exact .inl exhausted
  · rw [claimed_setProducer] at claim
    by_cases own : other = producer
    · subst own
      rw [Function.update_self, free] at claim
      cases claim
    · rw [Function.update_of_ne own] at claim
      exact .inr ⟨other, value, claim⟩

/-- What is there to take stays there while the head does. -/
theorem Moves.waits (moved : Moves size state label final)
    (same : final.inner.head = state.inner.head) (waits : final.Waits) : state.Waits := by
  have untouched : (∀ producer, final.producer producer = state.producer producer) →
      state.inner.tail = final.inner.tail → state.Waits := by
    intro producers tail
    rcases waits with exhausted | ⟨producer, value, claim⟩
    · exact .inl (by omega)
    · rw [State.claimed, producers, same] at claim
      exact .inr ⟨producer, value, claim⟩
  cases moved with
  | producer other access after next stepped =>
      have respects := producerStep_respects stepped
      rcases waits with exhausted | ⟨producer, value, claim⟩
      · refine .inl ?_
        change after.tail ≤ after.head at exhausted
        have tail := respects.tail
        have head := respects.head
        omega
      · rw [same, claimed_setProducer] at claim
        by_cases own : producer = other
        · subst own
          rw [Function.update_self] at claim
          rcases respects.claimed _ claim with before | atTail
          · exact .inr ⟨producer, value, before⟩
          · exact .inl (Nat.le_of_eq atTail.symm)
        · rw [Function.update_of_ne own] at claim
          exact .inr ⟨producer, value, claim⟩
  | enqueueCall other value atPc => exact waits.of_setProducer rfl
  | enqueueReturn other atPc => exact waits.of_setProducer rfl
  | dequeueCall atPc => exact untouched (fun _producer => rfl) rfl
  | dequeueReturn result atPc => exact untouched (fun _producer => rfl) rfl
  | consumer access after next stepped =>
      refine untouched (fun _producer => rfl) ?_
      exact (consumerStep_tail stepped).symm

/-! ### One dequeue among the enqueues -/

omit [DecidableEq ι] in
theorem Sound.consumerStep_head (sound : Sound size values taken chain state)
    (stepped : Jiffy.consumerStep size state.inner state.consumer = some (access, after, next)) :
    after.head = state.inner.head ∨ ∃ value, next = .returned (some value) := by
  have meets := sound.consumer
  cases atPc : state.consumer with
  | loadHead | loadTail head | loadHeadBuf head | storeHeadBuf link =>
      rw [atPc] at stepped
      cases stepped
      exact .inl rfl
  | storeHead head value =>
      rw [atPc] at stepped
      cases stepped
      exact .inr ⟨value, rfl⟩
  | loadNext buf | loadState head buf offset | readValue head buf offset
  | storeHandled head buf offset value =>
      rw [atPc] at stepped
      simp only [Jiffy.consumerStep, ConsumerPc.uses, Option.bind_some] at stepped
      split at stepped
      · cases stepped
        exact .inl rfl
      · simp only [slotStep] at stepped
        try split at stepped
        all_goals
          cases stepped
          exact .inl rfl
  | skipHead head | panicked | uninitialised | dangling =>
      rw [atPc] at meets
      exact meets.elim
  | _ =>
      rw [atPc] at stepped
      cases stepped

/-- What the answer of a call can rest on. -/
def Asks (size : Nat) (called : State ι α) (labels : List (Label ι α)) (state : State ι α) : Prop :=
  (∃ value, state.consumer = .returned (some value)) ∨
    state.inner.head = called.inner.head ∧ (state.Waits → called.Waits) ∧
      (state.consumer = .returned none →
        called.Waits ∧ (system ι α size).PassesThrough called labels state State.Waits)

theorem Asks.step (positive : 0 < size) {called : State ι α}
    (sound : Sound size values taken chain state) (asks : Asks size called later state)
    (run : (system ι α size).Run called later state)
    (stepped : (system ι α size).step state label final)
    (running : ∀ result, label ≠ .dequeueReturn result) :
    Asks size called (later ++ [label]) final := by
  obtain ⟨choice, taken⟩ := stepped
  have stepped : (system ι α size).step state label final := ⟨choice, taken⟩
  have moved := next_moves taken
  -- A step that is not the consumer's.
  have aside : final.consumer = state.consumer → final.inner.head = state.inner.head →
      Asks size called (later ++ [label]) final := by
    intro consumer head
    rcases asks with ⟨value, given⟩ | ⟨same, waits, nothing⟩
    · exact .inl ⟨value, consumer.trans given⟩
    · refine .inr ⟨head.trans same, fun after => waits (moved.waits head after), ?_⟩
      intro atEnd
      obtain ⟨atCall, passes⟩ := nothing (consumer.symm.trans atEnd)
      exact ⟨atCall, passes.snoc stepped⟩
  cases moved with
  | producer other access after next access' =>
      exact aside rfl (producerStep_respects access').head
  | enqueueCall other value atPc => exact aside rfl rfl
  | enqueueReturn other atPc => exact aside rfl rfl
  | dequeueReturn result atPc => exact (running result rfl).elim
  | dequeueCall atPc =>
      rcases asks with ⟨value, given⟩ | ⟨same, waits, nothing⟩
      · rw [atPc] at given
        cases given
      · exact .inr ⟨same, waits, fun atEnd => by cases atEnd⟩
  | consumer access after next access' =>
      rcases asks with ⟨value, given⟩ | ⟨same, waits, nothing⟩
      · rw [given] at access'
        cases access'
      · rcases sound.consumerStep_head access' with head | given
        · refine .inr ⟨head.trans same, fun after => ?_, fun atEnd => ?_⟩
          · exact waits ((next_moves taken).waits head after)
          · obtain rfl : next = .returned none := atEnd
            obtain ⟨here, rfl⟩ := sound.none_waits positive access'
            have whole : (system ι α size).Run called _ _ := run.snoc stepped
            exact ⟨waits here, whole.passesThrough here⟩
        · exact .inl given

theorem Sound.asks (positive : 0 < size) {called : State ι α}
    (sound : Sound size values taken chain called) (loads : called.consumer = .loadHead)
    (run : (system ι α size).Run called later final)
    (running : ∀ result, .dequeueReturn result ∉ later) :
    Asks size called later final ∧ ∃ values taken chain, Sound size values taken chain final := by
  induction run with
  | refl =>
      refine ⟨.inr ⟨rfl, id, fun atEnd => ?_⟩, _, _, _, sound⟩
      rw [loads] at atEnd
      cases atEnd
  | @snoc middle final later label prior last ih =>
      obtain ⟨asks, _values, _taken, _chain, sound'⟩ :=
        ih fun result member => running result (List.mem_append_left _ member)
      obtain ⟨choice, moved⟩ := last
      obtain ⟨chain', _grows, kept, _later⟩ := (sound'.step positive (next_moves moved)).2
      refine ⟨asks.step positive sound' prior ⟨choice, moved⟩ ?_, _, _, chain', kept⟩
      rintro result rfl
      exact running result (List.mem_append_right _ (List.mem_singleton_self _))

def Label.isReturn : Label ι α → Bool
  | .dequeueReturn _ => true
  | _ => false

/-- An access of the consumer. -/
def Label.isConsumer : Label ι α → Bool
  | .consumer _ => true
  | _ => false

omit [DecidableEq ι] in
/-- The enqueues leave the head buffer where it is. -/
theorem Sound.passes_eq (sound : Sound size values taken chain state)
    (chained : Chained size final.inner chain') (grows : chain <+: chain')
    (head : final.inner.head = state.inner.head)
    (headBuf : final.inner.headBuf = state.inner.headBuf) :
    final.inner.passes size = state.inner.passes size := by
  obtain ⟨i, there, _above, _below⟩ := sound.reads
  have before := sound.chained.base i _ there
  have after := chained.base i _ (getElem?_of_grows grows there)
  unfold Inner.passes
  rw [headBuf, after, before, head]

omit [DecidableEq ι] in
theorem ConsumerPc.remaining_congr {inner after : Inner α}
    (same : after.passes size = inner.passes size) (pc : ConsumerPc α) :
    pc.remaining size after = pc.remaining size inner := by
  cases pc <;> simp only [ConsumerPc.remaining, same]

/-- One step of anybody in the middle of a dequeue. -/
theorem Sound.spendsDequeue (positive : 0 < size) (sound : Sound size values taken chain state)
    (moved : Moves size state label final) (called : state.consumer ≠ .idle)
    (running : ∀ result, label ≠ .dequeueReturn result) :
    final.consumer.remaining size final.inner + (if label.isConsumer then 1 else 0) ≤
        state.consumer.remaining size state.inner ∧
      final.consumer ≠ .idle := by
  obtain ⟨chain', grows, sound', _later⟩ := (sound.step positive moved).2
  -- A step that is not the consumer's.
  have aside : final.consumer = state.consumer → final.inner.head = state.inner.head →
      final.inner.headBuf = state.inner.headBuf →
        final.consumer.remaining size final.inner ≤ state.consumer.remaining size state.inner ∧
          final.consumer ≠ .idle := by
    intro consumer head headBuf
    have passes := sound.passes_eq sound'.chained grows head headBuf
    rw [consumer, ConsumerPc.remaining_congr passes]
    exact ⟨Nat.le_refl _, called⟩
  cases moved with
  | producer other access after next stepped =>
      have respects := producerStep_respects stepped
      exact aside rfl respects.head respects.headBuf
  | enqueueCall other value atPc => exact aside rfl rfl rfl
  | enqueueReturn other atPc => exact aside rfl rfl rfl
  | dequeueCall atPc => exact absurd atPc called
  | dequeueReturn result atPc => exact (running result rfl).elim
  | consumer access after next stepped =>
      have active : ∀ result, state.consumer ≠ .returned result := by
        intro result atEnd
        rw [atEnd] at stepped
        cases stepped
      obtain ⟨_access, _after, _next, own, fewer⟩ := sound.dequeues positive called active
      rw [stepped] at own
      cases own
      refine ⟨fewer, ?_⟩
      rintro rfl
      exact consumerStep_called stepped

theorem Sound.spendsDequeue_run (positive : 0 < size) {called : State ι α}
    (sound : Sound size values taken chain called) (busy : called.consumer ≠ .idle)
    (run : (system ι α size).Run called later final)
    (running : ∀ result, .dequeueReturn result ∉ later) :
    final.consumer.remaining size final.inner + later.countP Label.isConsumer ≤
        called.consumer.remaining size called.inner ∧
      final.consumer ≠ .idle ∧ ∃ values taken chain, Sound size values taken chain final := by
  induction run with
  | refl => exact ⟨Nat.le_refl _, busy, _, _, _, sound⟩
  | @snoc middle final later label prior last ih =>
      obtain ⟨spent, called, _values, _taken, _chain, sound'⟩ :=
        ih fun result member => running result (List.mem_append_left _ member)
      obtain ⟨choice, moved⟩ := last
      have moves := next_moves moved
      obtain ⟨chain', _grows, kept, _later⟩ := (sound'.step positive moves).2
      have silent : ∀ result, label ≠ .dequeueReturn result := by
        rintro result rfl
        exact running result (List.mem_append_right _ (List.mem_singleton_self _))
      obtain ⟨step, calls⟩ := sound'.spendsDequeue positive moves called silent
      refine ⟨?_, calls, _, _, chain', kept⟩
      rw [List.countP_append, List.countP_singleton]
      omega

/-- A dequeue makes at most seven accesses, or twelve if the head buffer is used up,
whatever the producers do meanwhile, and until it returns it can make the next one. -/
theorem dequeue_wait_free (positive : 0 < size) {before called : State ι α}
    (reached : (system ι α size).Reaches labels before)
    (call : (system ι α size).step before .dequeueCall called)
    (run : (system ι α size).Run called later final)
    (running : ∀ result, .dequeueReturn result ∉ later) :
    later.countP Label.isConsumer ≤ 5 * before.inner.passes size + 7 ∧
      ((∃ result, final.consumer = .returned result) ∨
        ∃ label after, label.isConsumer = true ∧ (system ι α size).step final label after) := by
  obtain ⟨_indices, chain, sound⟩ := tracked_of_reaches positive (reached.snoc call)
  obtain ⟨choice, moved⟩ := call
  have loads : called = { before with consumer := .loadHead } := by
    cases next_moves moved with
    | dequeueCall atPc => rfl
  subst loads
  obtain ⟨spent, busy, _values, _taken, _chain, sound'⟩ :=
    sound.spendsDequeue_run positive (fun idle => by cases idle) run running
  refine ⟨?_, ?_⟩
  · simp only [ConsumerPc.remaining] at spent
    exact Nat.le_trans (Nat.le_add_left _ _) spent
  · by_cases ended : ∃ result, final.consumer = .returned result
    · exact .inl ended
    · obtain ⟨access, after, next, stepped, _fewer⟩ :=
        sound'.dequeues positive busy (not_exists.mp ended)
      have taken : Jiffy.next size final .consumer = some (.consumer access,
          { final with
            inner := after
            consumer := next }) := by
        simp only [Jiffy.next, stepped, Option.map_some]
      exact .inr ⟨_, _, rfl, .consumer, taken⟩

end

/-- Two slots to a buffer: two values are taken from the first, and the third is in
the second. -/
def headUsedUp : List (Choice (Fin 2) Nat) :=
  let first : Fin 2 := ⟨0, Nat.two_pos⟩
  .enqueueCall first 10 :: List.replicate 6 (.producer first) ++ [.enqueueReturn first] ++
    .enqueueCall first 11 :: List.replicate 4 (.producer first) ++ [.enqueueReturn first] ++
    .enqueueCall first 12 :: List.replicate 10 (.producer first) ++ [.enqueueReturn first] ++
    (.dequeueCall :: List.replicate 7 .consumer ++ [.dequeueReturn]) ++
    (.dequeueCall :: List.replicate 7 .consumer ++ [.dequeueReturn])

/-- The third dequeue, while the other producer claims an index. -/
def overUsedUp : List (Choice (Fin 2) Nat) :=
  let second : Fin 2 := ⟨1, Nat.one_lt_two⟩
  List.replicate 6 .consumer ++ [.enqueueCall second 13, .producer second] ++
    List.replicate 6 .consumer

theorem dequeue_wait_free_headUsedUp :
    ∃ labels before called later final, (system (Fin 2) Nat 2).Reaches labels before ∧
      (system (Fin 2) Nat 2).step before .dequeueCall called ∧
      (system (Fin 2) Nat 2).Run called later final ∧ final.consumer = .returned (some 12) ∧
      later.countP Label.isConsumer = 12 ∧
      later.countP Label.isConsumer ≤ 5 * before.inner.passes 2 + 7 := by
  obtain ⟨labels, before, called, later, final, started, call, executed, silent, given, twelve⟩ :
      ∃ labels before called later final,
        TransitionSystem.execute (next 2) (channel (Fin 2) Nat) headUsedUp =
          some (labels, before) ∧
        next 2 before .dequeueCall = some (.dequeueCall, called) ∧
        TransitionSystem.execute (next 2) called overUsedUp = some (later, final) ∧
        later.any Label.isReturn = false ∧
        final.consumer = .returned (some 12) ∧ later.countP Label.isConsumer = 12 :=
    ⟨_, _, _, _, _, rfl, rfl, rfl, rfl, rfl, rfl⟩
  have reached : (system (Fin 2) Nat 2).Reaches labels before :=
    ⟨_, rfl, TransitionSystem.execute_run headUsedUp started⟩
  have run : (system (Fin 2) Nat 2).Run called later final :=
    TransitionSystem.execute_run overUsedUp executed
  have bound := dequeue_wait_free (by decide) reached ⟨.dequeueCall, call⟩ run
    fun _result member => List.any_eq_false.mp silent _ member rfl
  exact ⟨labels, before, called, later, final, reached, ⟨.dequeueCall, call⟩, run, given, twelve,
    bound.1⟩

end WsDeque.Jiffy
