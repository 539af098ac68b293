import WsDeque.Jiffy.Dropping

/-
The channel as its users see it: values come out once and in the order of the
claims, and a dequeue that runs alone finds a value unless all have been taken.
-/

namespace WsDeque.Jiffy

variable {ι α : Type*} {size : Nat} {inner after : Inner α} {chain : List BufferPtr}
  {buf : BufferPtr} {idx : Nat} {value : α} {pc pc' : ProducerPc α} {access : Access α}

/-! ### The order of one producer -/

/-- The values of this producer's calls. -/
def calledBy [DecidableEq ι] (producer : ι) (labels : List (Label ι α)) : List α :=
  labels.flatMap fun
    | .enqueueCall other value => if other = producer then [value] else []
    | _ => []

/-- The values that this producer has claimed an index for. -/
def claimedBy [DecidableEq ι] (producer : ι) (labels : List (Label ι α)) : List α :=
  labels.flatMap fun
    | .producer other access => if other = producer then access.claimed.map Prod.snd else []
    | _ => []

/-- The value of a call that has not claimed an index yet. -/
def ProducerPc.waiting : ProducerPc α → List α
  | .claim value => [value]
  | _ => []

theorem located_waiting (size : Nat) (inner : Inner α) (value : α) (idx : Nat) (buf : BufferPtr) :
    (located size inner value idx buf).waiting = [] := by
  unfold located
  split
  · rfl
  · split <;> rfl

theorem locateIn_waiting (size : Nat) (inner : Inner α) (value : α) (idx : Nat) (buf : BufferPtr) :
    (locateIn size inner value idx buf).waiting = [] := by
  unfold locateIn
  split
  · rfl
  · split
    · rfl
    · split
      · exact located_waiting ..
      · rfl

theorem walkFrom_waiting (size : Nat) (inner : Inner α) (value : α) (idx : Nat) (buf : BufferPtr) :
    (walkFrom size inner value idx buf).waiting = [] := by
  unfold walkFrom
  split
  · rfl
  · split
    · exact located_waiting ..
    · rfl

theorem resume_waiting (caller : LinkFor α) (buf : BufferPtr) :
    (caller.resume buf).waiting = [] := by
  cases caller <;> rfl

theorem bufferStep_waiting {buffer : Buffer α}
    (stepped : bufferStep size inner buf buffer pc = some (access, after, pc')) :
    pc.waiting = access.claimed.map Prod.snd ∧ pc'.waiting = [] := by
  cases pc with
  | linkLoad caller tail =>
      simp only [bufferStep] at stepped
      split at stepped
      · cases stepped
        exact ⟨rfl, resume_waiting ..⟩
      · cases stepped
        exact ⟨rfl, rfl⟩
  | linkCas caller tail fresh =>
      simp only [bufferStep] at stepped
      split at stepped
      · cases stepped
        exact ⟨rfl, resume_waiting ..⟩
      · cases stepped
        refine ⟨rfl, ?_⟩
        split
        · exact resume_waiting ..
        · rfl
  | loadNext value idx tail =>
      simp only [bufferStep] at stepped
      split at stepped <;> cases stepped <;> exact ⟨rfl, rfl⟩
  | walkNext value idx tail =>
      simp only [bufferStep] at stepped
      split at stepped
      · cases stepped
        exact ⟨rfl, rfl⟩
      · cases stepped
        exact ⟨rfl, walkFrom_waiting ..⟩
  | writeValue value idx tail offset =>
      cases stepped
      exact ⟨rfl, rfl⟩
  | storeSet value idx tail offset =>
      cases stepped
      refine ⟨rfl, ?_⟩
      split <;> rfl
  | _ => cases stepped

theorem producerStep_waiting
    (stepped : producerStep size inner pc = some (access, after, pc')) :
    pc.waiting = access.claimed.map Prod.snd ∧ pc'.waiting = [] := by
  cases pc with
  | claim value =>
      cases stepped
      exact ⟨rfl, rfl⟩
  | loadTailBuf value idx =>
      cases stepped
      exact ⟨rfl, locateIn_waiting ..⟩
  | advance value idx buf next =>
      simp only [producerStep] at stepped
      split at stepped <;> cases stepped <;> exact ⟨rfl, rfl⟩
  | loadHeadBuf value idx =>
      cases stepped
      exact ⟨rfl, walkFrom_waiting ..⟩
  | linkLoad caller buf | linkCas caller buf fresh | loadNext value idx buf
  | walkNext value idx buf | writeValue value idx buf offset | storeSet value idx buf offset =>
      simp only [producerStep, ProducerPc.uses, Option.bind_some] at stepped
      split at stepped
      · cases stepped
        exact ⟨rfl, rfl⟩
      · exact bufferStep_waiting stepped
  | _ => cases stepped

section

variable [DecidableEq ι] {state final : State ι α} {labels : List (Label ι α)}

theorem calledBy_concat (producer : ι) (labels : List (Label ι α)) (label : Label ι α) :
    calledBy producer (labels ++ [label]) =
      calledBy producer labels ++ calledBy producer [label] := by
  simp only [calledBy, List.flatMap_append]

theorem claimedBy_concat (producer : ι) (labels : List (Label ι α)) (label : Label ι α) :
    claimedBy producer (labels ++ [label]) =
      claimedBy producer labels ++ claimedBy producer [label] := by
  simp only [claimedBy, List.flatMap_append]

/-- What one step adds to the calls is claimed, or waits. -/
theorem Moves.waiting {label : Label ι α} (producer : ι) (moved : Moves size state label final) :
    (state.producer producer).waiting ++ calledBy producer [label] =
      claimedBy producer [label] ++ (final.producer producer).waiting := by
  cases moved with
  | enqueueCall other value atPc =>
      by_cases own : other = producer
      · subst own
        have after : (state.setProducer other (.claim value)).producer other = .claim value :=
          Function.update_self ..
        rw [after, atPc]
        simp [calledBy, claimedBy, ProducerPc.waiting]
      · have after : (state.setProducer other (.claim value)).producer producer =
            state.producer producer := Function.update_of_ne (Ne.symm own) ..
        rw [after]
        simp [calledBy, claimedBy, own]
  | producer other access inner' next stepped =>
      by_cases own : other = producer
      · subst own
        obtain ⟨before, after⟩ := producerStep_waiting stepped
        have at' : (({ state with inner := inner' }).setProducer other next).producer other =
            next := Function.update_self ..
        rw [at', before, after]
        simp [calledBy, claimedBy]
      · have after : (({ state with inner := inner' }).setProducer other next).producer producer =
            state.producer producer := Function.update_of_ne (Ne.symm own) ..
        rw [after]
        simp [calledBy, claimedBy, own]
  | enqueueReturn other atPc =>
      by_cases own : other = producer
      · subst own
        have after : (state.setProducer other .idle).producer other = .idle :=
          Function.update_self ..
        rw [after, atPc]
        rfl
      · have after : (state.setProducer other .idle).producer producer =
            state.producer producer := Function.update_of_ne (Ne.symm own) ..
        rw [after]
        simp [calledBy, claimedBy]
  | consumer | dequeueCall | dequeueReturn => simp [calledBy, claimedBy]

theorem calledBy_of_reaches (producer : ι) (reached : (system ι α size).Reaches labels state) :
    calledBy producer labels =
      claimedBy producer labels ++ (state.producer producer).waiting := by
  obtain ⟨start, isInitial, run⟩ := reached
  obtain rfl : start = channel ι α := isInitial
  induction run with
  | refl => rfl
  | snoc _prior last ih =>
      obtain ⟨_choice, moved⟩ := last
      rw [calledBy_concat, claimedBy_concat, ih, List.append_assoc, List.append_assoc,
        (next_moves moved).waiting producer]

end

/-! ### A dequeue without enqueues -/

/-- The head buffer is used up. -/
def Inner.passes (size : Nat) (inner : Inner α) : Nat :=
  if (inner.heap inner.headBuf).base + size ≤ inner.head then 1 else 0

/-- How many accesses of `dequeue` can still come; the loop is taken twice at
most. -/
def ConsumerPc.remaining (size : Nat) (inner : Inner α) : ConsumerPc α → Nat
  | .loadHead => 5 * inner.passes size + 7
  | .loadTail _ => 5 * inner.passes size + 6
  | .loadHeadBuf _ => 5 * inner.passes size + 5
  | .loadNext _ => 9
  | .storeHeadBuf _ => 8
  | .loadState _ _ _ => 4
  | .readValue _ _ _ => 3
  | .storeHandled _ _ _ _ => 2
  | .storeHead _ _ => 1
  | _ => 0

section

variable [DecidableEq ι] {state final : State ι α} {labels : List (Label ι α)}
  {values taken : List α}

omit [DecidableEq ι] in
/-- A dequeue that has not returned takes a step, and has fewer to take. -/
theorem Sound.dequeues (positive : 0 < size) (sound : Sound size values taken chain state)
    (called : state.consumer ≠ .idle) (running : ∀ result, state.consumer ≠ .returned result) :
    ∃ access after pc', Jiffy.consumerStep size state.inner state.consumer =
        some (access, after, pc') ∧
      pc'.remaining size after < state.consumer.remaining size state.inner := by
  have meets := sound.consumer
  cases atPc : state.consumer with
  | idle => exact absurd atPc called
  | returned result => exact absurd atPc (running result)
  | loadHead => exact ⟨_, _, _, rfl, Nat.lt_succ_self _⟩
  | loadTail head =>
      refine ⟨_, _, _, rfl, ?_⟩
      split
      · exact Nat.succ_pos _
      · exact Nat.lt_succ_self _
  | loadHeadBuf head =>
      rw [atPc] at meets
      obtain ⟨rfl, _before⟩ := meets
      obtain ⟨i, there, above, _below⟩ := sound.reads
      refine ⟨_, _, _, rfl, ?_⟩
      unfold dequeueIn ConsumerPc.remaining Inner.passes
      rw [sound.chained.deref (List.mem_of_getElem? there)]
      simp only [sound.chained.base i _ there]
      rw [if_neg (Nat.not_lt.mpr above)]
      by_cases beyond : size ≤ state.inner.head - i * size
      · rw [if_pos beyond, if_pos (by omega)]
        exact Nat.lt_succ_self 9
      · rw [if_neg beyond, if_neg (by omega)]
        exact Nat.lt_succ_self 4
  | storeHeadBuf link =>
      rw [atPc] at meets
      obtain ⟨i, there, last⟩ := meets
      refine ⟨_, _, _, rfl, ?_⟩
      have fits : ¬ (state.inner.heap link).base + size ≤ state.inner.head := by
        rw [sound.chained.base (i + 1) link there, last]
        omega
      simp only [ConsumerPc.remaining, Inner.passes, if_neg fits]
      exact Nat.lt_succ_self 7
  | storeHead head value => exact ⟨_, _, _, rfl, Nat.one_pos⟩
  | loadNext buf =>
      rw [atPc] at meets
      obtain ⟨i, there, _rest⟩ := meets
      rw [consumerStep_of_uses sound.chained rfl (List.mem_of_getElem? there)]
      simp only [slotStep]
      split
      · exact ⟨_, _, _, rfl, Nat.succ_pos _⟩
      · exact ⟨_, _, _, rfl, Nat.lt_succ_self 8⟩
  | loadState head buf offset =>
      rw [atPc] at meets
      obtain ⟨rfl, rfl, _buf, there, before⟩ := meets
      have front : state.front = state.inner.head := State.front_of atPc
      rw [consumerStep_of_uses sound.chained rfl (List.mem_of_getElem? there)]
      refine ⟨_, _, _, rfl, ?_⟩
      rcases sound.atFront front there before with empty | ⟨_free, stored⟩
      · rw [empty]
        exact Nat.succ_pos _
      · rw [stored]
        exact Nat.lt_succ_self 3
  | readValue head buf offset =>
      rw [atPc] at meets
      obtain ⟨rfl, rfl, _buf, there, before, free⟩ := meets
      rw [consumerStep_of_uses sound.chained rfl (List.mem_of_getElem? there)]
      refine ⟨_, _, _, rfl, ?_⟩
      split
      · exact Nat.succ_pos _
      · exact Nat.lt_succ_self 2
  | storeHandled head buf offset value =>
      rw [atPc] at meets
      obtain ⟨rfl, rfl, _buf, there, _rest⟩ := meets
      rw [consumerStep_of_uses sound.chained rfl (List.mem_of_getElem? there)]
      exact ⟨_, _, _, rfl, Nat.lt_succ_self 1⟩
  | skipHead head | panicked | uninitialised | dangling =>
      rw [atPc] at meets
      exact meets.elim

omit [DecidableEq ι] in
/-- A dequeue that finds nothing while no enqueue is in progress has seen that
the head is at the end. -/
theorem Sound.none_exhausted (positive : 0 < size) (sound : Sound size values taken chain state)
    (ended : ∀ producer, state.claimed producer = none)
    (stepped : Jiffy.consumerStep size state.inner state.consumer =
      some (access, after, .returned none)) :
    values.length ≤ state.inner.head ∧ after.head = state.inner.head := by
  have meets := sound.consumer
  have settled := sound.filled.settled ended
  cases atPc : state.consumer with
  | loadTail head =>
      rw [atPc] at stepped meets
      obtain rfl : head = state.inner.head := meets
      simp only [Jiffy.consumerStep] at stepped
      by_cases beyond : state.inner.head ≥ state.inner.tail
      · rw [if_pos beyond] at stepped
        cases stepped
        exact ⟨sound.tail ▸ beyond, rfl⟩
      · rw [if_neg beyond] at stepped
        cases stepped
  | loadHeadBuf head =>
      rw [atPc] at stepped
      simp only [Jiffy.consumerStep, dequeueIn] at stepped
      split at stepped
      · cases stepped
      · split at stepped
        · cases stepped
        · split at stepped <;> cases stepped
  | loadNext buf =>
      rw [atPc] at stepped meets
      obtain ⟨i, there, last, before⟩ := meets
      have covered := sound.covered positive ended
      have inside : i + 1 < chain.length := by
        have linked : (i + 1) * size < chain.length * size := by omega
        exact Nat.lt_of_mul_lt_mul_right linked
      have follows := sound.chained.next i buf there
      rw [List.getElem?_eq_getElem inside] at follows
      rw [consumerStep_of_uses sound.chained rfl (List.mem_of_getElem? there)] at stepped
      simp only [slotStep, follows] at stepped
      cases stepped
  | loadState head buf offset =>
      rw [atPc] at stepped meets
      obtain ⟨rfl, rfl, _buf, there, before⟩ := meets
      have front : state.front = state.inner.head := State.front_of atPc
      have stored := settled.stored _ _ (Nat.le_of_eq front) (List.getElem?_eq_getElem before)
      have slot := Option.some.inj ((cellAt_of_getElem? there).symm.trans stored)
      rw [consumerStep_of_uses sound.chained rfl (List.mem_of_getElem? there)] at stepped
      simp only [slotStep, slot] at stepped
      cases stepped
  | readValue head buf offset =>
      rw [atPc] at stepped meets
      obtain ⟨rfl, rfl, _buf, there, _rest⟩ := meets
      rw [consumerStep_of_uses sound.chained rfl (List.mem_of_getElem? there)] at stepped
      simp only [slotStep] at stepped
      split at stepped <;> cases stepped
  | storeHandled head buf offset value =>
      rw [atPc] at stepped meets
      obtain ⟨rfl, rfl, _buf, there, _rest⟩ := meets
      rw [consumerStep_of_uses sound.chained rfl (List.mem_of_getElem? there)] at stepped
      cases stepped
  | _ =>
      rw [atPc] at stepped
      cases stepped

omit [DecidableEq ι] in
theorem consumerStep_called {before : ConsumerPc α} :
    Jiffy.consumerStep size inner before ≠ some (access, after, .idle) := by
  intro stepped
  cases before with
  | loadTail head =>
      simp only [Jiffy.consumerStep] at stepped
      split at stepped <;> cases stepped
  | loadHeadBuf head =>
      simp only [Jiffy.consumerStep, dequeueIn] at stepped
      split at stepped
      · cases stepped
      · split at stepped
        · cases stepped
        · split at stepped <;> cases stepped
  | loadNext buf | readValue head buf offset =>
      simp only [Jiffy.consumerStep, ConsumerPc.uses, Option.bind_some] at stepped
      split at stepped
      · cases stepped
      · simp only [slotStep] at stepped
        split at stepped <;> cases stepped
  | loadState head buf offset =>
      simp only [Jiffy.consumerStep, ConsumerPc.uses, Option.bind_some] at stepped
      split at stepped
      · cases stepped
      · simp only [slotStep] at stepped
        split at stepped <;> cases stepped
  | storeHandled head buf offset value =>
      simp only [Jiffy.consumerStep, ConsumerPc.uses, Option.bind_some] at stepped
      split at stepped <;> cases stepped
  | _ => cases stepped

/-- In the middle of a dequeue that runs alone. -/
structure Alone (size : Nat) (values taken : List α) (state : State ι α) : Prop where
  sound : ∃ chain, Sound size values taken chain state
  producers : ∀ producer, state.producer producer = .idle
  called : state.consumer ≠ .idle
  exhausted : state.consumer = .returned none → values.length ≤ state.inner.head

theorem Alone.step (positive : 0 < size) (alone : Alone size values taken state)
    {next : ConsumerPc α} (stepped : consumerStep size state.inner state.consumer =
      some (access, after, next)) :
    Alone size values taken
      { state with
        inner := after
        consumer := next } := by
  obtain ⟨⟨chain, sound⟩, producers, _called, _exhausted⟩ := alone
  obtain ⟨chain', _grows, sound', _later⟩ := sound.consumerStep positive stepped
  refine ⟨⟨chain', sound'⟩, producers, ?_, ?_⟩
  · rintro rfl
    exact consumerStep_called stepped
  · rintro rfl
    obtain ⟨beyond, same⟩ := sound.none_exhausted positive
      (fun producer => congrArg ProducerPc.claimed (producers producer)) stepped
    exact same.symm ▸ beyond

/-- Alone, a dequeue comes to its end. -/
theorem Alone.returns (positive : 0 < size) (alone : Alone size values taken state) :
    ∃ accesses final result,
      (system ι α size).Run state (List.map Label.consumer accesses) final ∧
        final.consumer = .returned result := by
  generalize budget : state.consumer.remaining size state.inner = remaining
  induction remaining using Nat.strongRecOn generalizing state with
  | ind remaining ih =>
      by_cases running : ∀ result, state.consumer ≠ .returned result
      · obtain ⟨chain, sound⟩ := alone.sound
        obtain ⟨access, after, next, stepped, fewer⟩ := sound.dequeues positive alone.called running
        have moved : Jiffy.next size state .consumer = some (.consumer access,
            { state with
              inner := after
              consumer := next }) := by
          simp only [Jiffy.next, stepped, Option.map_some]
        obtain ⟨accesses, final, result, run, atEnd⟩ :=
          ih _ (budget ▸ fewer) (alone.step positive stepped) rfl
        have first : (system ι α size).step state (.consumer access) _ := ⟨.consumer, moved⟩
        exact ⟨access :: accesses, final, result, (TransitionSystem.Run.single first).append run,
          atEnd⟩
      · obtain ⟨result, atEnd⟩ := not_forall_not.mp running
        exact ⟨[], state, result, .refl state, atEnd⟩

theorem Alone.run (positive : 0 < size) {accesses : List (Access α)}
    (alone : Alone size values taken state)
    (run : (system ι α size).Run state (List.map Label.consumer accesses) final) :
    Alone size values taken final := by
  generalize whole : List.map Label.consumer accesses = labels at run
  induction run generalizing accesses with
  | refl => exact alone
  | @snoc middle final labels label prior last ih =>
      obtain ⟨front, single, rfl, rfl, same⟩ := List.map_eq_append_iff.mp whole
      obtain ⟨access, rest, rfl, rfl, empty⟩ := List.map_eq_cons_iff.mp same
      obtain ⟨_choice, moved⟩ := last
      cases next_moves moved with
      | consumer _access after next stepped => exact (ih rfl).step positive stepped

/-- A call of `dequeue` with nobody else running. -/
def dequeueAlone (accesses : List (Access α)) (result : Option α) : List (Label ι α) :=
  .dequeueCall :: List.map Label.consumer accesses ++ [.dequeueReturn result]

/-- No call is in progress. -/
structure State.Quiet (state : State ι α) : Prop where
  producers : ∀ producer, state.producer producer = .idle
  consumer : state.consumer = .idle

theorem Sound.begins (sound : Sound size values taken chain state) (quiet : state.Quiet) :
    Alone size values taken { state with consumer := .loadHead } := by
  have stays : Advances size values taken chain state { state with consumer := .loadHead } :=
    sound.consumerStay quiet.consumer rfl rfl trivial
  obtain ⟨chain', _grows, sound', _later⟩ := stays
  exact
    { sound := ⟨chain', sound'⟩
      producers := quiet.producers
      called := fun idle => by cases idle
      exhausted := fun atEnd => by cases atEnd }

/-- A dequeue that runs alone returns. -/
theorem Sound.returns (positive : 0 < size) (sound : Sound size values taken chain state)
    (quiet : state.Quiet) : ∃ accesses result final,
      (system ι α size).Run state (dequeueAlone accesses result) final := by
  have call : Jiffy.next size state .dequeueCall =
      some (.dequeueCall, { state with consumer := .loadHead }) := by
    simp only [Jiffy.next, quiet.consumer]
  obtain ⟨accesses, final, result, run, atEnd⟩ := (sound.begins quiet).returns positive
  have back : Jiffy.next size final .dequeueReturn =
      some (.dequeueReturn result, { final with consumer := .idle }) := by
    simp only [Jiffy.next, atEnd]
  have first : (system ι α size).step state .dequeueCall _ := ⟨.dequeueCall, call⟩
  exact ⟨accesses, result, _,
    ((TransitionSystem.Run.single first).append run).snoc ⟨.dequeueReturn, back⟩⟩

/-- It returns nothing just when all values have been dequeued. -/
theorem Sound.none_iff (positive : 0 < size) (sound : Sound size values taken chain state)
    (quiet : state.Quiet) {accesses : List (Access α)} {result : Option α}
    (run : (system ι α size).Run state (dequeueAlone accesses result) final) :
    result = none ↔ taken = values := by
  obtain ⟨ended, first, _back, returns⟩ := run.last rfl
  have whole : (.dequeueCall :: List.map Label.consumer accesses : List (Label ι α)) =
      [.dequeueCall] ++ List.map Label.consumer accesses := rfl
  obtain ⟨called, call, rest⟩ := first.split whole
  obtain ⟨_choice, calls⟩ := call.of_single rfl
  cases next_moves calls
  have alone := (sound.begins quiet).run positive rest
  have atEnd : ended.consumer = .returned result := by
    cases next_moves returns with
    | dequeueReturn _result atPc => exact atPc
  obtain ⟨⟨chain', sound'⟩, _producers, _called, exhausted⟩ := alone
  have kept := sound'.taken
  rw [State.front, atEnd] at kept
  cases result with
  | none =>
      have beyond := exhausted atEnd
      simp only [ConsumerPc.inHand, ConsumerPc.front, List.append_nil,
        List.take_of_length_le beyond] at kept
      exact ⟨fun _ => kept, fun _ => rfl⟩
  | some value =>
      refine ⟨fun nothing => (Option.some_ne_none value nothing).elim, ?_⟩
      rintro rfl
      have lengths := congrArg List.length kept
      simp only [ConsumerPc.inHand, List.length_append, List.length_singleton,
        List.length_take] at lengths
      omega

/-! ### The channel -/

/-- What has come out in a run: the k-th value dequeued is that of the enqueue
whose `fetch_add` returned k, and the enqueues of one producer claim in order. -/
structure Fifo (labels : List (Label ι α)) (state : State ι α) : Prop where
  indices : (enqueued labels).map Prod.fst = List.range (enqueued labels).length
  inOrder : ∀ (k : Nat) (value : α), (dequeued labels)[k]? = some value →
    (enqueued labels)[k]? = some (k, value)
  ofProducer : ∀ producer, calledBy producer labels =
    claimedBy producer labels ++ (state.producer producer).waiting

/-- What is left when no call is in progress: a dequeue finds the next value
unless there is none, and dropping the queue drops the rest and frees each buffer
once. -/
structure Leaves (size : Nat) (labels : List (Label ι α)) (state : State ι α) : Prop where
  returns : ∃ accesses result final,
    (system ι α size).Run state (dequeueAlone accesses result) final
  none_iff : ∀ accesses result final,
    (system ι α size).Run state (dequeueAlone accesses result) final →
      (result = none ↔ dequeued labels = (enqueued labels).map Prod.snd)
  drops : ∃ after, state.inner.drop size state.inner.allocated =
      some (((enqueued labels).map Prod.snd).drop (dequeued labels).length, after) ∧
    after.freed.Nodup ∧ ∀ buf, buf ∈ after.freed ↔ buf < after.allocated

omit [DecidableEq ι] in
/-- The values dequeued are the first of those claimed. -/
theorem Sound.inOrder {values : List α} (sound : Sound size values taken chain state) :
    taken <+: values := by
  have kept := sound.taken
  have front : values.take state.front <+: values := List.take_prefix ..
  rw [← kept] at front
  exact (List.prefix_append taken state.consumer.inHand).trans front

theorem Tracked.fifo (tracked : Tracked size labels state)
    (reached : (system ι α size).Reaches labels state) : Fifo labels state := by
  obtain ⟨indices, chain, sound⟩ := tracked
  refine ⟨indices, ?_, fun producer => calledBy_of_reaches producer reached⟩
  intro k value given
  have valued := getElem?_of_grows sound.inOrder given
  rw [List.getElem?_map, Option.map_eq_some_iff] at valued
  obtain ⟨⟨idx, _⟩, there, rfl⟩ := valued
  have inside := (List.getElem?_eq_some_iff.mp there).1
  have position : ((enqueued labels).map Prod.fst)[k]? = some idx := by
    rw [List.getElem?_map, there]
    rfl
  rw [indices, List.getElem?_range inside] at position
  cases position
  exact there

/-- In every run, whoever wins the races for indices and links. -/
theorem channel_is_fifo (positive : 0 < size)
    (reached : (system ι α size).Reaches labels state) :
    Fifo labels state ∧ (state.Quiet → Leaves size labels state) := by
  have tracked := tracked_of_reaches positive reached
  refine ⟨tracked.fifo reached, ?_⟩
  intro quiet
  obtain ⟨_indices, chain, sound⟩ := tracked
  exact
    { returns := sound.returns positive quiet
      none_iff := fun _accesses _result _final run => sound.none_iff positive quiet run
      drops := sound.drop positive quiet.producers quiet.consumer }

end

/-- Two slots to a buffer. The first producer allocates a second buffer that the
other one has already linked by then. -/
def raceToLink : List (Choice (Fin 2) Nat) :=
  .enqueueCall 0 10 :: List.replicate 5 (.producer 0) ++
    .enqueueCall 1 11 :: List.replicate 4 (.producer 1) ++
    [.enqueueReturn 1, .enqueueCall 1 12] ++ List.replicate 11 (.producer 1) ++
    [.enqueueReturn 1, .producer 0, .enqueueReturn 0, .dequeueCall] ++
    List.replicate 7 .consumer ++ [.dequeueReturn]

theorem channel_is_fifo_raceToLink :
    ∃ labels state, (system (Fin 2) Nat 2).Reaches labels state ∧
      enqueued labels = [(0, 10), (1, 11), (2, 12)] ∧ dequeued labels = [10] ∧
      state.inner.freed = [1] ∧ state.Quiet ∧ Fifo labels state ∧ Leaves 2 labels state := by
  have reached : (system (Fin 2) Nat 2).Reaches _ _ :=
    ⟨_, rfl, TransitionSystem.execute_run raceToLink rfl⟩
  have fifo := channel_is_fifo (by decide) reached
  exact ⟨_, _, reached, rfl, rfl, rfl, ⟨Fin.forall_fin_two.mpr ⟨rfl, rfl⟩, rfl⟩, fifo.1,
    fifo.2 ⟨Fin.forall_fin_two.mpr ⟨rfl, rfl⟩, rfl⟩⟩

end WsDeque.Jiffy
