import WsDeque.Persistent.Model

/-
The public calls in any order. A value that `dequeue` returned stays gone as
long as every `dequeue` removes the same value from the view and from the log.
-/

namespace WsDeque.Persistent

inductive Call
  | enqueue (value : UInt64)
  | dequeue
  | enqueueUnsynced (value : UInt64)
  | crashNow
  | recover

/-- What a caller is given. -/
inductive Event
  | dequeued (result : Option UInt64)
  | recovered (contents : List UInt64)

def perform (queue : PersistentQueue) : Call → List Event × PersistentQueue
  | .enqueue value => ([], queue.enqueue value)
  | .dequeue => ([.dequeued queue.dequeue.1], queue.dequeue.2)
  | .enqueueUnsynced value => ([], queue.enqueueUnsynced value)
  | .crashNow => ([], queue.crashNow)
  | .recover => ([.recovered queue.recover.1], queue.recover.2)

def events (queue : PersistentQueue) : List Call → List Event
  | [] => []
  | call :: rest => (perform queue call).1 ++ events (perform queue call).2 rest

def after (queue : PersistentQueue) : List Call → PersistentQueue
  | [] => queue
  | call :: rest => after (perform queue call).2 rest

def Call.enqueues : Call → Option UInt64
  | .enqueue value | .enqueueUnsynced value => some value
  | _ => none

def enqueued (calls : List Call) : List UInt64 :=
  calls.filterMap Call.enqueues

def Event.shows (value : UInt64) : Event → Bool
  | .dequeued result => decide (result = some value)
  | .recovered contents => decide (value ∈ contents)

/-- What the first event dequeued, the second does not show. -/
def NotAgain : Event → Event → Prop
  | .dequeued (some value), later => later.shows value = false
  | _, _ => True

instance : DecidableRel NotAgain
  | .dequeued (some value), later => inferInstanceAs (Decidable (later.shows value = false))
  | .dequeued none, _ | .recovered _, _ => .isTrue trivial

/-- The value in front of the view is the first one left in the log. -/
def TakesFront (queue : PersistentQueue) : Call → Prop
  | .dequeue => ∀ value ∈ queue.live.head?, (replay queue.log).head? = some value
  | _ => True

/-- Every call of a sequence meets the condition. -/
def KeepsFront (queue : PersistentQueue) : List Call → Prop
  | [] => True
  | call :: rest => TakesFront queue call ∧ KeepsFront (perform queue call).2 rest

theorem takesFront_iff (queue : PersistentQueue) :
    (queue.live.head?.all fun value => decide ((replay queue.log).head? = some value)) = true ↔
      TakesFront queue .dequeue := by
  unfold TakesFront
  cases queue.live.head? <;> simp

instance (queue : PersistentQueue) : (call : Call) → Decidable (TakesFront queue call)
  | .dequeue => decidable_of_iff _ (takesFront_iff queue)
  | .enqueue _ | .enqueueUnsynced _ | .crashNow | .recover => .isTrue trivial

instance keepsFrontDecidable (queue : PersistentQueue) :
    (calls : List Call) → Decidable (KeepsFront queue calls)
  | [] => .isTrue trivial
  | call :: rest =>
      have := keepsFrontDecidable (perform queue call).2 rest
      inferInstanceAs (Decidable (_ ∧ _))

theorem events_append (queue : PersistentQueue) (earlier later : List Call) :
    events queue (earlier ++ later) =
      events queue earlier ++ events (after queue earlier) later := by
  induction earlier generalizing queue with
  | nil => rfl
  | cons call rest ih => simp only [List.cons_append, events, after, ih, List.append_assoc]

/-! ### View and log -/

/-- Every value of the view is in the log, in the same order; what was dequeued
is in neither. -/
structure Tidy (queue : PersistentQueue) (seen taken : List UInt64) : Prop where
  staged : ∃ staged : List UInt64, queue.mem.volatile = staged.map .enqueue
  within : queue.live.Sublist (replay queue.log)
  nodup : (replay queue.log).Nodup
  known : ∀ value ∈ replay queue.log, value ∈ seen
  takenKnown : ∀ value ∈ taken, value ∈ seen
  gone : ∀ value ∈ taken, value ∉ replay queue.log

variable {queue : PersistentQueue} {seen taken : List UInt64} {value : UInt64}

theorem Tidy.new : Tidy PersistentQueue.new [] [] :=
  { staged := ⟨[], rfl⟩
    within := .refl []
    nodup := .nil
    known := fun _value member => nomatch member
    takenKnown := fun _value member => nomatch member
    gone := fun _value member => nomatch member }

/-- Without a crash the durable part is the older part. -/
theorem Tidy.durable (tidy : Tidy queue seen taken) :
    (replay queue.mem.durable).Sublist (replay queue.log) := by
  obtain ⟨staged, volatile⟩ := tidy.staged
  rw [PersistentQueue.log, volatile, replay_enqueues]
  exact List.sublist_append_left _ staged

/-- A queue with less in its log. -/
theorem Tidy.shrink (tidy : Tidy queue seen taken) {after : PersistentQueue}
    (staged : ∃ staged : List UInt64, after.mem.volatile = staged.map .enqueue)
    (within : after.live.Sublist (replay after.log))
    (less : (replay after.log).Sublist (replay queue.log)) : Tidy after seen taken :=
  { staged := staged
    within := within
    nodup := tidy.nodup.sublist less
    known := fun value member => tidy.known value (less.subset member)
    takenKnown := tidy.takenKnown
    gone := fun value member present => tidy.gone value member (less.subset present) }

/-- A new value at the end of both. -/
theorem Tidy.grow (tidy : Tidy queue seen taken) (fresh : value ∉ seen)
    {after : PersistentQueue}
    (staged : ∃ staged : List UInt64, after.mem.volatile = staged.map .enqueue)
    (live : after.live = queue.live ++ [value])
    (log : after.log = queue.log ++ [.enqueue value]) : Tidy after (seen ++ [value]) taken := by
  have grown : replay after.log = replay queue.log ++ [value] := by
    rw [log, replay_enqueue]
  constructor
  · exact staged
  · rw [live, grown]
    exact tidy.within.append (.refl [value])
  · rw [grown, List.nodup_append]
    refine ⟨tidy.nodup, List.pairwise_singleton _ value, ?_⟩
    rintro old oldMember new newMember rfl
    rw [List.mem_singleton] at newMember
    subst newMember
    exact fresh (tidy.known _ oldMember)
  · intro old member
    rw [grown] at member
    rcases List.mem_append.mp member with before | new
    · exact List.mem_append_left _ (tidy.known old before)
    · exact List.mem_append_right _ new
  · exact fun old member => List.mem_append_left _ (tidy.takenKnown old member)
  · intro old member present
    rw [grown] at present
    rcases List.mem_append.mp present with before | new
    · exact tidy.gone old member before
    · rw [List.mem_singleton.mp new] at member
      exact fresh (tidy.takenKnown value member)

/-- A value taken from the front of both. -/
theorem Tidy.take (tidy : Tidy queue seen taken) {rest : List UInt64}
    (front : queue.live = value :: rest) (same : (replay queue.log).head? = some value) :
    Tidy queue.dequeue.2 seen (value :: taken) := by
  obtain ⟨left, split⟩ := List.head?_eq_some_iff.mp same
  have live : queue.dequeue.2.live = rest := by
    simp only [PersistentQueue.dequeue, PersistentQueue.popFront, front]
    rfl
  have log : replay queue.dequeue.2.log = left := by
    have marked : queue.dequeue.2.log = queue.log ++ [.dequeue] := by
      simp only [PersistentQueue.dequeue, PersistentQueue.popFront, front]
      simp [PersistentQueue.log, PersistentQueue.psync, PersistentQueue.pwb,
        PersistentMemory.psync, PersistentMemory.pwb]
    rw [marked, replay_dequeue, split]
    rfl
  have within := tidy.within
  have nodup := tidy.nodup
  have known := tidy.known
  have gone := tidy.gone
  rw [front, split] at within
  rw [split] at nodup known gone
  rw [List.nodup_cons] at nodup
  constructor
  · refine ⟨[], ?_⟩
    simp only [PersistentQueue.dequeue, PersistentQueue.popFront, front]
    rfl
  · rw [live, log]
    exact List.cons_sublist_cons.mp within
  · rw [log]
    exact nodup.2
  · rw [log]
    exact fun old member => known old (List.mem_cons_of_mem value member)
  · intro old member
    rcases List.mem_cons.mp member with rfl | before
    · exact known _ List.mem_cons_self
    · exact tidy.takenKnown old before
  · rw [log]
    intro old member present
    rcases List.mem_cons.mp member with rfl | before
    · exact nodup.1 present
    · exact gone old before (List.mem_cons_of_mem value present)

/-! ### One call -/

theorem enqueued_cons (call : Call) (rest : List Call) :
    enqueued (call :: rest) = call.enqueues.toList ++ enqueued rest := by
  cases call <;> rfl

/-- What one call shows and what it takes. -/
structure Performs (taken taken' : List UInt64) (shown : List Event) : Prop where
  grows : ∀ value ∈ taken, value ∈ taken'
  quiet : ∀ event ∈ shown, ∀ value ∈ taken, event.shows value = false
  takes : ∀ event ∈ shown, ∀ value, event = .dequeued (some value) → value ∈ taken'
  alone : shown.Pairwise NotAgain

theorem Performs.silent : Performs taken taken [] :=
  { grows := fun _value member => member
    quiet := fun _event member => nomatch member
    takes := fun _event member => nomatch member
    alone := .nil }

theorem Tidy.perform (tidy : Tidy queue seen taken) {call : Call}
    (front : TakesFront queue call) (fresh : ∀ value ∈ call.enqueues, value ∉ seen) :
    ∃ taken', Tidy (perform queue call).2 (seen ++ call.enqueues.toList) taken' ∧
      Performs taken taken' (perform queue call).1 := by
  obtain ⟨staged, volatile⟩ := tidy.staged
  cases call with
  | enqueue value =>
      use taken
      constructor
      · apply tidy.grow (fresh value rfl)
        · exact ⟨[], rfl⟩
        · rfl
        · simp [Persistent.perform, PersistentQueue.enqueue, PersistentQueue.log,
            PersistentQueue.pushBack, PersistentQueue.psync, PersistentQueue.pwb,
            PersistentMemory.psync, PersistentMemory.pwb]
      · exact .silent
  | enqueueUnsynced value =>
      use taken
      constructor
      · apply tidy.grow (fresh value rfl)
        · use staged ++ [value]
          rw [List.map_append, ← volatile]
          rfl
        · rfl
        · simp [Persistent.perform, PersistentQueue.enqueueUnsynced, PersistentQueue.log,
            PersistentQueue.pushBack, PersistentQueue.pwb, PersistentMemory.pwb]
      · exact .silent
  | dequeue =>
      simp only [Call.enqueues, Option.toList_none, List.append_nil]
      cases view : queue.live with
      | nil =>
          have nothing : queue.dequeue = (none, queue) := by
            simp only [PersistentQueue.dequeue, PersistentQueue.popFront, view]
          use taken
          simp only [Persistent.perform, nothing]
          refine ⟨tidy, fun _value member => member, ?_, ?_, List.pairwise_singleton _ _⟩
          · intro event member value _taken
            rw [List.mem_singleton.mp member]
            rfl
          · intro event member value same
            rw [List.mem_singleton.mp member] at same
            cases same
      | cons value rest =>
          have result : queue.dequeue.1 = some value := by
            simp only [PersistentQueue.dequeue, PersistentQueue.popFront, view]
          have inLog : value ∈ replay queue.log := by
            apply tidy.within.subset
            rw [view]
            exact List.mem_cons_self
          use value :: taken
          constructor
          · exact tidy.take view (front value (by rw [view]; rfl))
          · simp only [Persistent.perform, result]
            refine ⟨fun _value member => List.mem_cons_of_mem value member, ?_, ?_,
              List.pairwise_singleton _ _⟩
            · intro event member old oldMember
              rw [List.mem_singleton.mp member]
              apply decide_eq_false
              intro same
              cases same
              exact tidy.gone value oldMember inLog
            · intro event member new same
              rw [List.mem_singleton.mp member] at same
              cases same
              exact List.mem_cons_self
  | crashNow =>
      simp only [Call.enqueues, Option.toList_none, List.append_nil]
      use taken
      constructor
      · apply tidy.shrink
        · exact ⟨[], rfl⟩
        · exact List.nil_sublist _
        · simp only [Persistent.perform, PersistentQueue.crashNow, PersistentQueue.log,
            PersistentMemory.crash, List.append_nil]
          exact tidy.durable
      · exact .silent
  | recover =>
      simp only [Call.enqueues, Option.toList_none, List.append_nil]
      use taken
      constructor
      · apply tidy.shrink
        · exact ⟨staged, volatile⟩
        · exact tidy.durable
        · exact .refl _
      · refine ⟨fun _value member => member, ?_, ?_, List.pairwise_singleton _ _⟩
        · intro event member value takenMember
          rw [List.mem_singleton.mp member]
          apply decide_eq_false
          exact fun present => tidy.gone value takenMember (tidy.durable.subset present)
        · intro event member value same
          rw [List.mem_singleton.mp member] at same
          cases same

/-! ### Sequences of calls -/

theorem fresh_of_distinct {call : Call} {rest : List Call}
    (distinct : (seen ++ enqueued (call :: rest)).Nodup) :
    (∀ value ∈ call.enqueues, value ∉ seen) ∧
      ((seen ++ call.enqueues.toList) ++ enqueued rest).Nodup := by
  rw [enqueued_cons, ← List.append_assoc] at distinct
  constructor
  · intro value member present
    have apart := (List.nodup_append.mp (List.nodup_append.mp distinct).1).2.2
    exact apart value present value (Option.mem_toList.mpr member) rfl
  · exact distinct

theorem Tidy.quiet (tidy : Tidy queue seen taken) {calls : List Call}
    (distinct : (seen ++ enqueued calls).Nodup) (keeps : KeepsFront queue calls) :
    (∀ event ∈ events queue calls, ∀ value ∈ taken, event.shows value = false) ∧
      (events queue calls).Pairwise NotAgain := by
  induction calls generalizing queue seen taken with
  | nil =>
      constructor
      · exact fun _event member => nomatch member
      · exact .nil
  | cons call rest ih =>
      obtain ⟨fresh, distinctRest⟩ := fresh_of_distinct distinct
      obtain ⟨taken', tidyRest, performs⟩ := tidy.perform keeps.1 fresh
      obtain ⟨quiet, pairwise⟩ := ih tidyRest distinctRest keeps.2
      constructor
      · intro event member value takenMember
        rcases List.mem_append.mp member with here | later
        · exact performs.quiet event here value takenMember
        · exact quiet event later value (performs.grows value takenMember)
      · rw [events, List.pairwise_append]
        refine ⟨performs.alone, pairwise, ?_⟩
        intro first firstMember later laterMember
        cases first with
        | dequeued result =>
            cases result with
            | none => trivial
            | some value =>
                exact quiet later laterMember value (performs.takes _ firstMember value rfl)
        | recovered contents => trivial

theorem Tidy.kept (tidy : Tidy queue seen taken) {calls : List Call}
    (distinct : (seen ++ enqueued calls).Nodup) (keeps : KeepsFront queue calls) :
    ∃ seen' taken', Tidy (after queue calls) seen' taken' := by
  induction calls generalizing queue seen taken with
  | nil => exact ⟨seen, taken, tidy⟩
  | cons call rest ih =>
      obtain ⟨fresh, distinctRest⟩ := fresh_of_distinct distinct
      obtain ⟨taken', tidyRest, _performs⟩ := tidy.perform keeps.1 fresh
      exact ih tidyRest distinctRest keeps.2

/-- A `dequeue` that takes another value from the log than from the view leaves
its own in the log, durable. -/
theorem Tidy.resurrects (tidy : Tidy queue seen taken) (broken : ¬TakesFront queue .dequeue) :
    ¬(events queue [.dequeue, .recover]).Pairwise NotAgain := by
  cases view : queue.live with
  | nil =>
      apply absurd _ broken
      intro value member
      rw [view] at member
      cases member
  | cons value rest =>
      have inLog : value ∈ replay queue.log := by
        apply tidy.within.subset
        rw [view]
        exact List.mem_cons_self
      have different : (replay queue.log).head? ≠ some value := by
        intro same
        apply broken
        intro front member
        rw [view] at member
        cases member
        exact same
      have survives : value ∈ (replay queue.log).tail := by
        cases split : replay queue.log with
        | nil =>
            rw [split] at inLog
            cases inLog
        | cons first later =>
            rw [split] at inLog different
            rcases List.mem_cons.mp inLog with rfl | there
            · exact absurd rfl different
            · exact there
      have shown : events queue [.dequeue, .recover] =
          [.dequeued (some value), .recovered (replay queue.log).tail] := by
        rw [← replay_dequeue]
        simp [events, Persistent.perform, PersistentQueue.dequeue, PersistentQueue.popFront, view,
          PersistentQueue.recover, PersistentQueue.log, PersistentQueue.psync,
          PersistentQueue.pwb, PersistentMemory.psync, PersistentMemory.pwb]
      rw [shown]
      intro pairwise
      have notShown := (List.pairwise_cons.mp pairwise).1 _ List.mem_cons_self
      exact of_decide_eq_false notShown survives

/-- Nothing dequeued comes back as long as every `dequeue` takes the same value
from the view and from the log; the first one that does not can be followed by a
`recover` that returns its value. -/
theorem dequeued_stays_gone {calls : List Call} (distinct : (enqueued calls).Nodup)
    (keeps : KeepsFront PersistentQueue.new calls) :
    (events PersistentQueue.new calls).Pairwise NotAgain ∧
      (¬TakesFront (after PersistentQueue.new calls) .dequeue →
        ¬(events PersistentQueue.new (calls ++ [.dequeue, .recover])).Pairwise NotAgain) := by
  constructor
  · exact (Tidy.new.quiet distinct keeps).2
  · intro broken pairwise
    obtain ⟨seen, taken, tidy⟩ := Tidy.new.kept distinct keeps
    rw [events_append] at pairwise
    exact tidy.resurrects broken (List.pairwise_append.mp pairwise).2.1

/-- An item is left unsynced, a crash loses it, and `recover` is called again
while another one is staged. -/
def crashWhileStaged : List Call :=
  [.enqueue 1, .enqueueUnsynced 2, .crashNow, .recover, .enqueue 3, .dequeue,
    .enqueueUnsynced 4, .recover, .dequeue, .recover]

theorem dequeued_stays_gone_crashWhileStaged :
    (events PersistentQueue.new crashWhileStaged).Pairwise NotAgain ∧
      (¬TakesFront (after PersistentQueue.new crashWhileStaged) .dequeue →
        ¬(events PersistentQueue.new (crashWhileStaged ++ [.dequeue, .recover])).Pairwise
          NotAgain) :=
  dequeued_stays_gone (by decide) (by decide)

/-- After a crash the queue is used without `recover`. -/
def resumeAfterCrash : List Call :=
  [.enqueue 1, .crashNow, .enqueue 2, .dequeue, .recover]

theorem not_dequeued_stays_gone :
    ¬∀ calls, (enqueued calls).Nodup →
      (events PersistentQueue.new calls).Pairwise NotAgain := by
  intro claim
  have gone := claim resumeAfterCrash (by decide)
  exact absurd gone (by decide)

end WsDeque.Persistent
