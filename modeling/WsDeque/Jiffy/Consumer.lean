import WsDeque.Jiffy.Producers

/-
What each access of `dequeue` keeps, and what every run keeps: the values come
out in the order in which their indices were claimed.
-/

namespace WsDeque.Jiffy

variable {ι α : Type*} {size : Nat} {inner after : Inner α} {chain : List BufferPtr}
  {buf link : BufferPtr} {head offset i : Nat} {value : α}

theorem consumerStep_of_uses (chained : Chained size inner chain) {pc : ConsumerPc α}
    (uses : pc.uses = some buf) (there : buf ∈ chain) :
    consumerStep size inner pc = slotStep inner (inner.heap buf) pc := by
  have found := chained.deref there
  cases pc with
  | loadNext tail | loadState head tail offset | readValue head tail offset
  | storeHandled head tail offset value =>
      cases uses
      simp only [consumerStep, ConsumerPc.uses, Option.bind_some, found]
  | _ => cases uses

section

variable [DecidableEq ι] {state : State ι α} {pc pc' : ConsumerPc α} {values taken : List α}

omit [DecidableEq ι] in
theorem State.front_of (atPc : state.consumer = pc) :
    state.front = pc.front state.inner.head := by
  rw [State.front, atPc]

/-- A step that only moves the consumer on. -/
theorem Sound.consumerStay (sound : Sound size values taken chain state)
    (atPc : state.consumer = pc) (front : pc'.front state.inner.head = pc.front state.inner.head)
    (inHand : pc'.inHand = pc.inHand)
    (meets : pc'.Meets size values state.inner chain (Pending state.claimed)) :
    Advances size values taken chain state { state with consumer := pc' } := by
  have kept := sound.taken
  have filled := sound.filled
  rw [State.front_of atPc, ← front] at kept filled
  rw [atPc, ← inHand] at kept
  refine ⟨chain, List.prefix_refl chain, ?_, Nat.le_refl _⟩
  exact
    { chained := sound.chained
      owned := sound.owned
      filled := filled
      tail := sound.tail
      reads := sound.reads
      producers := sound.producers
      consumer := meets
      taken := kept }

/-! ### Looking for the slot -/

theorem Sound.loadTail (sound : Sound size values taken chain state)
    (atPc : state.consumer = .loadTail head) :
    Advances size values taken chain state
      { state with
        consumer := if head ≥ state.inner.tail then .returned none else .loadHeadBuf head } := by
  have meets := sound.consumer
  rw [atPc] at meets
  obtain rfl : head = state.inner.head := meets
  split
  · exact sound.consumerStay atPc rfl rfl trivial
  · rename_i before
    refine sound.consumerStay atPc rfl rfl ⟨rfl, ?_⟩
    rw [← sound.tail]
    exact Nat.lt_of_not_le before

theorem Sound.loadHeadBuf (sound : Sound size values taken chain state)
    (atPc : state.consumer = .loadHeadBuf head) :
    Advances size values taken chain state
      { state with consumer := dequeueIn size state.inner head state.inner.headBuf } := by
  have meets := sound.consumer
  rw [atPc] at meets
  obtain ⟨rfl, before⟩ : head = state.inner.head ∧ head < values.length := meets
  obtain ⟨i, there, above, below⟩ := sound.reads
  rw [Nat.succ_mul] at below
  unfold dequeueIn
  rw [sound.chained.deref (List.mem_of_getElem? there)]
  simp only [sound.chained.base i _ there]
  rw [if_neg (Nat.not_lt.mpr above)]
  split
  · rename_i beyond
    have last : state.inner.head = (i + 1) * size := by
      rw [Nat.succ_mul]
      omega
    exact sound.consumerStay atPc rfl rfl ⟨i, there, last, before⟩
  · rename_i inside
    obtain ⟨quotient, remainder⟩ :=
      position_of_range above (by omega : state.inner.head < i * size + size)
    refine sound.consumerStay atPc rfl rfl ⟨rfl, remainder, rfl, ?_, before⟩
    rw [quotient]
    exact there

theorem Sound.storeHeadBuf (sound : Sound size values taken chain state)
    (atPc : state.consumer = .storeHeadBuf link) :
    Advances size values taken chain state
      { state with
        inner := { state.inner with headBuf := link }
        consumer := .loadHead } := by
  have meets := sound.consumer
  rw [atPc] at meets
  obtain ⟨i, there, last⟩ := meets
  have kept := sound.taken
  have filled := sound.filled
  have front : state.front = state.inner.head := State.front_of atPc
  rw [front, atPc] at kept
  rw [front] at filled
  refine ⟨chain, List.prefix_refl chain, ?_, Nat.le_refl _⟩
  exact
    { chained := sound.chained.transport rfl (fun _ _ => rfl) (fun _ _ => rfl) (Nat.le_refl _)
        sound.chained.live sound.chained.tailBuf (List.mem_of_getElem? there)
      owned := sound.owned.transport (fun _ _ => rfl) (fun _ _ _ => rfl) rfl rfl
      filled := filled.extends (.of_cells fun _ => rfl)
      tail := sound.tail
      reads := ⟨i + 1, there, Nat.le_of_eq last.symm, by
        rw [Nat.succ_mul (i + 1), ← last]
        exact Nat.le_add_right ..⟩
      producers := sound.producers
      consumer := trivial
      taken := kept }

theorem Sound.loadNext (sound : Sound size values taken chain state)
    (atPc : state.consumer = .loadNext buf) {access : Access α}
    (stepped : slotStep state.inner (state.inner.heap buf) (.loadNext buf) =
      some (access, after, pc')) :
    Advances size values taken chain state
      { state with
        inner := after
        consumer := pc' } := by
  have meets := sound.consumer
  rw [atPc] at meets
  obtain ⟨i, there, last, _before⟩ := meets
  have follows := sound.chained.next i buf there
  simp only [slotStep] at stepped
  split at stepped
  · cases stepped
    exact sound.consumerStay atPc rfl rfl trivial
  · rename_i linked
    rw [linked] at follows
    cases stepped
    exact sound.consumerStay atPc rfl rfl ⟨i, follows.symm, last⟩

/-! ### Taking the value -/

omit [DecidableEq ι] in
/-- The slot at the front is not handled: either its value is still to come, or
it is there. -/
theorem Sound.atFront (sound : Sound size values taken chain state) (front : state.front = head)
    (there : chain[head / size]? = some buf) (before : head < values.length) :
    ((state.inner.heap buf).slots (head % size)).state = .empty ∨
      ¬Pending state.claimed head ∧
        (state.inner.heap buf).slots (head % size) =
          { state := .set
            value := some values[head] } := by
  have cell : cellAt size state.inner chain head =
      some ((state.inner.heap buf).slots (head % size)) := cellAt_of_getElem? there
  by_cases pending : Pending state.claimed head
  · exact .inl (sound.filled.untouched _ _ cell (.inl pending))
  · have stored := sound.filled.stored _ _ (Nat.le_of_eq front) (List.getElem?_eq_getElem before)
      pending
    exact .inr ⟨pending, Option.some.inj (cell.symm.trans stored)⟩

theorem Sound.loadState (sound : Sound size values taken chain state)
    (atPc : state.consumer = .loadState head buf offset) {access : Access α}
    (stepped : slotStep state.inner (state.inner.heap buf) (.loadState head buf offset) =
      some (access, after, pc')) :
    Advances size values taken chain state
      { state with
        inner := after
        consumer := pc' } := by
  have meets := sound.consumer
  rw [atPc] at meets
  obtain ⟨rfl, rfl, atHead, there, before⟩ := meets
  have front : state.front = state.inner.head := State.front_of atPc
  have slot := sound.atFront front there before
  simp only [slotStep] at stepped
  cases stepped
  rcases slot with empty | ⟨free, stored⟩
  · rw [empty]
    exact sound.consumerStay atPc rfl rfl trivial
  · rw [stored]
    exact sound.consumerStay atPc rfl rfl ⟨rfl, rfl, atHead, there, before, free⟩

theorem Sound.readValue (sound : Sound size values taken chain state)
    (atPc : state.consumer = .readValue head buf offset) {access : Access α}
    (stepped : slotStep state.inner (state.inner.heap buf) (.readValue head buf offset) =
      some (access, after, pc')) :
    Advances size values taken chain state
      { state with
        inner := after
        consumer := pc' } := by
  have meets := sound.consumer
  rw [atPc] at meets
  obtain ⟨rfl, rfl, atHead, there, before, free⟩ := meets
  have front : state.front = state.inner.head := State.front_of atPc
  have cell : cellAt size state.inner chain state.inner.head =
      some ((state.inner.heap buf).slots (state.inner.head % size)) := cellAt_of_getElem? there
  have stored := sound.filled.stored state.inner.head _ (Nat.le_of_eq front)
    (List.getElem?_eq_getElem before) free
  have slot := Option.some.inj (cell.symm.trans stored)
  simp only [slotStep, slot] at stepped
  cases stepped
  exact sound.consumerStay atPc rfl rfl
    ⟨rfl, rfl, atHead, there, List.getElem?_eq_getElem before, free⟩

theorem Sound.storeHandled (sound : Sound size values taken chain state)
    (atPc : state.consumer = .storeHandled head buf offset value) :
    Advances size values taken chain state
      { state with
        inner := state.inner.setSlot buf offset
          { (state.inner.heap buf).slots offset with state := .handled }
        consumer := .storeHead head value } := by
  have meets := sound.consumer
  rw [atPc] at meets
  obtain ⟨rfl, rfl, atHead, there, valued, free⟩ := meets
  have before := (List.getElem?_eq_some_iff.mp valued).1
  have front : state.front = state.inner.head := State.front_of atPc
  have kept := sound.taken
  have filled := sound.filled
  rw [front, atPc] at kept
  rw [front] at filled
  have stored := filled.stored state.inner.head value (Nat.le_refl _) valued free
  have slot := Option.some.inj ((cellAt_of_getElem? there).symm.trans stored)
  let handled : Slot α := { state := .handled, value := some value }
  have here : cellAt size (state.inner.setSlot buf (state.inner.head % size) handled) chain
      state.inner.head = some handled := cellAt_setSlot_self there _
  rw [slot]
  refine ⟨chain, List.prefix_refl chain, ?_, Nat.le_of_eq (state.inner.setSlot_base ..).symm⟩
  exact
    { chained := sound.chained.setSlot ..
      owned := sound.owned.setSlot (List.mem_of_getElem? there) ..
      filled := filled.take stored here fun other different =>
        cellAt_setSlot_of_ne sound.chained there different _
      tail := sound.tail
      reads := sound.reads
      producers := sound.producers
      consumer := ⟨rfl, atHead ▸ there⟩
      taken := by
        change taken ++ [value] = values.take (state.inner.head + 1)
        rw [List.take_add_one, ← kept, valued]
        simp only [ConsumerPc.inHand, List.append_nil, Option.toList_some] }

theorem Sound.storeHead (positive : 0 < size) (sound : Sound size values taken chain state)
    (atPc : state.consumer = .storeHead head value) :
    Advances size values taken chain state
      { state with
        inner := { state.inner with head := head + 1 }
        consumer := .returned (some value) } := by
  have meets := sound.consumer
  rw [atPc] at meets
  obtain ⟨rfl, there⟩ := meets
  have front : state.front = state.inner.head + 1 := State.front_of atPc
  have kept := sound.taken
  have filled := sound.filled
  rw [front, atPc] at kept
  rw [front] at filled
  have whole := Nat.div_add_mod state.inner.head size
  have rest := Nat.mod_lt state.inner.head positive
  have reads : state.inner.head / size * size ≤ state.inner.head + 1 ∧
      state.inner.head + 1 ≤ (state.inner.head / size + 1) * size := by
    rw [Nat.succ_mul, Nat.mul_comm]
    omega
  refine ⟨chain, List.prefix_refl chain, ?_, Nat.le_refl _⟩
  exact
    { chained := sound.chained.transport rfl (fun _ _ => rfl) (fun _ _ => rfl) (Nat.le_refl _)
        sound.chained.live sound.chained.tailBuf sound.chained.headBuf
      owned := sound.owned.transport (fun _ _ => rfl) (fun _ _ _ => rfl) rfl rfl
      filled := filled.extends (.of_cells fun _ => rfl)
      tail := sound.tail
      reads := ⟨_, there, reads⟩
      producers := sound.producers
      consumer := trivial
      taken := kept }

/-- Whatever the consumer does next. -/
theorem Sound.consumerStep (positive : 0 < size) (sound : Sound size values taken chain state)
    {access : Access α}
    (stepped : Jiffy.consumerStep size state.inner state.consumer = some (access, after, pc')) :
    Advances size values taken chain state
      { state with
        inner := after
        consumer := pc' } := by
  have meets := sound.consumer
  cases atPc : state.consumer with
  | loadHead =>
      rw [atPc] at stepped
      cases stepped
      exact sound.consumerStay atPc rfl rfl rfl
  | loadTail head =>
      rw [atPc] at stepped
      cases stepped
      exact sound.loadTail atPc
  | loadHeadBuf head =>
      rw [atPc] at stepped
      cases stepped
      exact sound.loadHeadBuf atPc
  | storeHeadBuf link =>
      rw [atPc] at stepped
      cases stepped
      exact sound.storeHeadBuf atPc
  | storeHead head value =>
      rw [atPc] at stepped
      cases stepped
      exact sound.storeHead positive atPc
  | loadNext buf =>
      rw [atPc] at stepped meets
      obtain ⟨i, there, _rest⟩ := meets
      rw [consumerStep_of_uses sound.chained rfl (List.mem_of_getElem? there)] at stepped
      exact sound.loadNext atPc stepped
  | loadState head buf offset =>
      rw [atPc] at stepped meets
      obtain ⟨_head, _offset, _buf, there, _rest⟩ := meets
      rw [consumerStep_of_uses sound.chained rfl (List.mem_of_getElem? there)] at stepped
      exact sound.loadState atPc stepped
  | readValue head buf offset =>
      rw [atPc] at stepped meets
      obtain ⟨_head, _offset, _buf, there, _rest⟩ := meets
      rw [consumerStep_of_uses sound.chained rfl (List.mem_of_getElem? there)] at stepped
      exact sound.readValue atPc stepped
  | storeHandled head buf offset value =>
      rw [atPc] at stepped meets
      obtain ⟨_head, _offset, _buf, there, _rest⟩ := meets
      rw [consumerStep_of_uses sound.chained rfl (List.mem_of_getElem? there)] at stepped
      cases stepped
      exact sound.storeHandled atPc
  | skipHead head =>
      rw [atPc] at meets
      exact meets.elim
  | _ =>
      rw [atPc] at stepped
      cases stepped

end

/-! ### Whole runs -/

def Label.claimed : Label ι α → List (Nat × α)
  | .producer _ access => access.claimed
  | _ => []

def Label.dequeued : Label ι α → List α
  | .dequeueReturn result => result.toList
  | _ => []

/-- The values of the enqueues that have claimed an index, with what each
`fetch_add` returned. -/
def enqueued (labels : List (Label ι α)) : List (Nat × α) :=
  labels.flatMap Label.claimed

/-- The values that the dequeues have returned. -/
def dequeued (labels : List (Label ι α)) : List α :=
  labels.flatMap Label.dequeued

theorem enqueued_concat (labels : List (Label ι α)) (label : Label ι α) :
    enqueued (labels ++ [label]) = enqueued labels ++ label.claimed := by
  simp only [enqueued, List.flatMap_append, List.flatMap_singleton]

theorem dequeued_concat (labels : List (Label ι α)) (label : Label ι α) :
    dequeued (labels ++ [label]) = dequeued labels ++ label.dequeued := by
  simp only [dequeued, List.flatMap_append, List.flatMap_singleton]

section

variable [DecidableEq ι] {state final : State ι α} {label : Label ι α}
  {labels : List (Label ι α)} {values taken : List α}

/-- What one step does, by its label. -/
inductive Moves (size : Nat) (before : State ι α) : Label ι α → State ι α → Prop
  | enqueueCall (producer : ι) (value : α) (atPc : before.producer producer = .idle) :
      Moves size before (.enqueueCall producer value)
        (before.setProducer producer (.claim value))
  | producer (producer : ι) (access : Access α) (after : Inner α) (next : ProducerPc α)
      (stepped : producerStep size before.inner (before.producer producer) =
        some (access, after, next)) :
      Moves size before (.producer producer access)
        ({ before with inner := after }.setProducer producer next)
  | enqueueReturn (producer : ι) (atPc : before.producer producer = .returned) :
      Moves size before (.enqueueReturn producer) (before.setProducer producer .idle)
  | dequeueCall (atPc : before.consumer = .idle) :
      Moves size before .dequeueCall { before with consumer := .loadHead }
  | consumer (access : Access α) (after : Inner α) (next : ConsumerPc α)
      (stepped : consumerStep size before.inner before.consumer = some (access, after, next)) :
      Moves size before (.consumer access)
        { before with
          inner := after
          consumer := next }
  | dequeueReturn (result : Option α) (atPc : before.consumer = .returned result) :
      Moves size before (.dequeueReturn result) { before with consumer := .idle }

theorem next_moves {choice : Choice ι α} (taken : next size state choice = some (label, final)) :
    Moves size state label final := by
  cases choice with
  | producer producer =>
      obtain ⟨moved, stepped, same⟩ := Option.map_eq_some_iff.mp taken
      cases same
      exact .producer producer _ _ _ stepped
  | consumer =>
      obtain ⟨moved, stepped, same⟩ := Option.map_eq_some_iff.mp taken
      cases same
      exact .consumer _ _ _ stepped
  | enqueueCall producer value =>
      simp only [next] at taken
      split at taken <;> cases taken
      rename_i atPc
      exact .enqueueCall producer value atPc
  | enqueueReturn producer =>
      simp only [next] at taken
      split at taken <;> cases taken
      rename_i atPc
      exact .enqueueReturn producer atPc
  | dequeueCall =>
      simp only [next] at taken
      split at taken <;> cases taken
      rename_i atPc
      exact .dequeueCall atPc
  | dequeueReturn =>
      simp only [next] at taken
      split at taken <;> cases taken
      rename_i result atPc
      exact .dequeueReturn result atPc

/-- One step of any party: it claims at most the next index. -/
theorem Sound.step (positive : 0 < size) (sound : Sound size values taken chain state)
    (moved : Moves size state label final) :
    (label.claimed = [] ∨ ∃ value, label.claimed = [(values.length, value)]) ∧
      Advances size (values ++ label.claimed.map Prod.snd) (taken ++ label.dequeued) chain state
        final := by
  cases moved with
  | producer producer access after next stepped =>
      simp only [Label.claimed, Label.dequeued, List.append_nil]
      rcases sound.producerStep stepped with ⟨unclaimed, advances⟩ | ⟨value, rfl, advances⟩
      · rw [unclaimed, List.map_nil, List.append_nil]
        exact ⟨.inl rfl, advances⟩
      · exact ⟨.inr ⟨value, rfl⟩, advances⟩
  | enqueueCall producer value atPc =>
      refine ⟨.inl rfl, ?_⟩
      simp only [Label.claimed, Label.dequeued, List.map_nil, List.append_nil]
      exact sound.stay atPc rfl rfl rfl trivial
  | enqueueReturn producer atPc =>
      refine ⟨.inl rfl, ?_⟩
      simp only [Label.claimed, Label.dequeued, List.map_nil, List.append_nil]
      exact sound.stay atPc rfl rfl rfl trivial
  | dequeueCall atPc =>
      refine ⟨.inl rfl, ?_⟩
      simp only [Label.claimed, Label.dequeued, List.map_nil, List.append_nil]
      exact sound.consumerStay atPc rfl rfl trivial
  | consumer access after next stepped =>
      refine ⟨.inl rfl, ?_⟩
      simp only [Label.claimed, Label.dequeued, List.map_nil, List.append_nil]
      exact sound.consumerStep positive stepped
  | dequeueReturn result atPc =>
      refine ⟨.inl rfl, chain, List.prefix_refl chain, ?_, Nat.le_refl _⟩
      simp only [Label.claimed, Label.dequeued, List.map_nil, List.append_nil]
      have front : state.front = state.inner.head := State.front_of atPc
      have kept := sound.taken
      have filled := sound.filled
      rw [front, atPc] at kept
      rw [front] at filled
      have given : result.toList = (ConsumerPc.returned result).inHand := by
        cases result <;> rfl
      exact
        { chained := sound.chained
          owned := sound.owned
          filled := filled
          tail := sound.tail
          reads := sound.reads
          producers := sound.producers
          consumer := trivial
          taken := by
            rw [given]
            exact (List.append_nil _).trans kept }

omit [DecidableEq ι] in
theorem Sound.initial : Sound size [] [] [0] (channel ι α) where
  chained :=
    { first := rfl
      base := by
        intro i buf there
        obtain ⟨inside, rfl⟩ := List.getElem?_eq_some_iff.mp there
        obtain rfl : i = 0 := by
          rw [List.length_singleton] at inside
          omega
        exact (Nat.zero_mul size).symm
      next := fun i _buf _there => (List.getElem?_eq_none_iff.mpr (Nat.le_add_left 1 i)).symm
      distinct := List.nodup_singleton 0
      allocated := fun buf member => List.mem_singleton.mp member ▸ Nat.one_pos
      live := fun _buf _member => List.not_mem_nil
      tailBuf := List.mem_singleton.mpr rfl
      headBuf := List.mem_singleton.mpr rfl }
  owned :=
    { holds := fun _ _ _ holding => by cases holding
      apart := fun _ _ _ _ _ holding => by cases holding
      accounted := fun buf below => .inl (List.mem_singleton.mpr (Nat.lt_one_iff.mp below))
      bound := fun _ freed => absurd freed List.not_mem_nil
      once := List.nodup_nil }
  filled :=
    { handled := fun idx below => absurd below (Nat.not_lt_zero idx)
      stored := fun _ _ _ given => by cases given
      untouched := by
        intro idx slot here _clean
        obtain ⟨_buf, _there, rfl⟩ := Option.map_eq_some_iff.mp here
        rfl
      ahead := by
        rintro idx ⟨_, _, claim⟩
        cases claim
      within := Nat.le_refl 0
      claims := fun _ _ _ claim => by cases claim
      apart := fun _ _ _ _ _ claim => by cases claim
      written := fun _ _ _ given => by cases given }
  tail := rfl
  reads := ⟨0, rfl, Nat.le_of_eq (Nat.zero_mul size), Nat.zero_le _⟩
  producers := fun _producer => trivial
  consumer := trivial
  taken := rfl

/-- The indices are claimed one after the other, and the dequeues return the
values of the first of them. -/
def Tracked (size : Nat) (labels : List (Label ι α)) (state : State ι α) : Prop :=
  (enqueued labels).map Prod.fst = List.range (enqueued labels).length ∧
    ∃ chain, Sound size ((enqueued labels).map Prod.snd) (dequeued labels) chain state

theorem tracked_of_reaches (positive : 0 < size)
    (reached : (system ι α size).Reaches labels state) : Tracked size labels state := by
  refine TransitionSystem.Reaches.induction ?_ ?_ reached
  · intro start isInitial
    obtain rfl : start = channel ι α := isInitial
    exact ⟨rfl, [0], Sound.initial⟩
  · rintro labels before label after _reached ⟨indices, chain, sound⟩ ⟨choice, moved⟩
    obtain ⟨claims, chain', _grows, sound', _later⟩ := sound.step positive (next_moves moved)
    unfold Tracked
    rw [enqueued_concat, dequeued_concat, List.map_append, List.map_append]
    refine ⟨?_, chain', sound'⟩
    rcases claims with none | ⟨value, one⟩
    · rw [none, List.map_nil, List.append_nil, List.append_nil]
      exact indices
    · rw [one, List.length_append, List.map_singleton, indices, List.length_singleton,
        List.range_succ, List.length_map]

end

end WsDeque.Jiffy
