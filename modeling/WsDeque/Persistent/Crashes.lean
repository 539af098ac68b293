import WsDeque.Persistent.Model
import WsDeque.TransitionSystem

/-
Crashes between any two inner steps of the calls, each followed at once by
`recover`: what comes back is the contents after a prefix of the operations.
-/

namespace WsDeque.Persistent

/-! ### Calls step by step -/

inductive Operation
  | enqueue (value : UInt64)
  | dequeue
  | enqueueUnsynced (value : UInt64)

/-- Where a call is; each constructor names the inner step that comes next. -/
inductive Pc
  | idle
  | enqueuePwb (value : UInt64)
  | enqueuePsync (value : UInt64)
  | enqueuePushBack (value : UInt64)
  | dequeuePopFront
  | dequeuePwb (value : UInt64)
  | dequeuePsync (value : UInt64)
  | unsyncedPwb (value : UInt64)
  | unsyncedPushBack (value : UInt64)
  | enqueued
  | dequeued (result : Option UInt64)
  | staged
  deriving DecidableEq

structure State where
  queue : PersistentQueue
  pc : Pc

inductive Label
  | call (operation : Operation)
  | inner
  | enqueued
  | dequeued (result : Option UInt64)
  | staged
  /-- `crash_now` and the `recover` that follows it. -/
  | crash (recovered : List UInt64)

def Operation.start : Operation → Pc
  | .enqueue value => .enqueuePwb value
  | .dequeue => .dequeuePopFront
  | .enqueueUnsynced value => .unsyncedPwb value

/-- One inner step of a running call. -/
def innerStep (queue : PersistentQueue) : Pc → Option State
  | .enqueuePwb value => some ⟨queue.pwb (.enqueue value), .enqueuePsync value⟩
  | .enqueuePsync value => some ⟨queue.psync, .enqueuePushBack value⟩
  | .enqueuePushBack value => some ⟨queue.pushBack value, .enqueued⟩
  | .dequeuePopFront =>
      match queue.popFront with
      | none => some ⟨queue, .dequeued none⟩
      | some (value, popped) => some ⟨popped, .dequeuePwb value⟩
  | .dequeuePwb value => some ⟨queue.pwb .dequeue, .dequeuePsync value⟩
  | .dequeuePsync value => some ⟨queue.psync, .dequeued (some value)⟩
  | .unsyncedPwb value => some ⟨queue.pwb (.enqueue value), .unsyncedPushBack value⟩
  | .unsyncedPushBack value => some ⟨queue.pushBack value, .staged⟩
  | .idle | .enqueued | .dequeued _ | .staged => none

inductive Choice
  | call (operation : Operation)
  | inner
  | returns
  | crash

def next (state : State) : Choice → Option (Label × State)
  | .call operation =>
      match state.pc with
      | .idle => some (.call operation, { state with pc := operation.start })
      | _ => none
  | .inner => (innerStep state.queue state.pc).map fun after => (.inner, after)
  | .returns =>
      match state.pc with
      | .enqueued => some (.enqueued, { state with pc := .idle })
      | .dequeued result => some (.dequeued result, { state with pc := .idle })
      | .staged => some (.staged, { state with pc := .idle })
      | _ => none
  | .crash =>
      let recovered := state.queue.crashNow.recover
      some (.crash recovered.1, { queue := recovered.2, pc := .idle })

def system : TransitionSystem State Label :=
  .ofNext (fun state => state = { queue := PersistentQueue.new, pc := .idle }) next

/-! ### What a history promises -/

def apply (contents : List UInt64) : Operation → List UInt64
  | .enqueue value | .enqueueUnsynced value => contents ++ [value]
  | .dequeue => contents.tail

/-- The FIFO contents after the operations. -/
def contents (operations : List Operation) : List UInt64 :=
  operations.foldl apply []

/-- The operations that took effect, told by the labels: those that every later
crash has to keep, and those after them that a crash may still lose. -/
inductive Explained : List Label → List Operation → List Operation → Prop
  | start : Explained [] [] []
  | call {labels : List Label} {settled pending : List Operation} (operation : Operation)
      (before : Explained labels settled pending) :
      Explained (labels ++ [.call operation]) settled (pending ++ [operation])
  | inner {labels : List Label} {settled pending : List Operation}
      (before : Explained labels settled pending) :
      Explained (labels ++ [.inner]) settled pending
  | enqueued {labels : List Label} {settled pending : List Operation} {value : UInt64}
      (before : Explained labels settled (pending ++ [.enqueue value])) :
      Explained (labels ++ [.enqueued]) (settled ++ (pending ++ [.enqueue value])) []
  | dequeued {labels : List Label} {settled pending : List Operation}
      (before : Explained labels settled (pending ++ [.dequeue])) :
      Explained (labels ++ [.dequeued (contents (settled ++ pending)).head?])
        (settled ++ (pending ++ [.dequeue])) []
  | staged {labels : List Label} {settled pending : List Operation} {value : UInt64}
      (before : Explained labels settled (pending ++ [.enqueueUnsynced value])) :
      Explained (labels ++ [.staged]) settled (pending ++ [.enqueueUnsynced value])
  | crash {labels : List Label} {settled kept lost : List Operation}
      (before : Explained labels settled (kept ++ lost)) :
      Explained (labels ++ [.crash (contents (settled ++ kept))]) (settled ++ kept) []

theorem contents_snoc (operations : List Operation) (operation : Operation) :
    contents (operations ++ [operation]) = apply (contents operations) operation := by
  unfold contents
  rw [List.foldl_append]
  rfl

theorem contents_staged (operations : List Operation) (values : List UInt64) :
    contents (operations ++ values.map .enqueueUnsynced) = contents operations ++ values := by
  induction values generalizing operations with
  | nil => simp
  | cons value rest ih =>
      have split : operations ++ (value :: rest).map Operation.enqueueUnsynced =
          (operations ++ [.enqueueUnsynced value]) ++ rest.map .enqueueUnsynced := by simp
      rw [split, ih, contents_snoc, apply, List.append_assoc, List.singleton_append]

/-! ### Log and contents at each point of a call -/

/-- Nothing after the settled operations is durable yet. -/
structure Staging (queue : PersistentQueue) (settled : List Operation) (staged : List UInt64)
    (current : List Record) : Prop where
  durable : replay queue.mem.durable = contents settled
  volatile : queue.mem.volatile = staged.map .enqueue ++ current

/-- Everything is durable. -/
structure Synced (queue : PersistentQueue) (operations : List Operation) : Prop where
  durable : replay queue.mem.durable = contents operations
  volatile : queue.mem.volatile = []

/-- Where log, view and history stand; `staged` are the values of the unsynced
enqueues since the last fence. -/
def Pc.Meets (queue : PersistentQueue) (settled pending : List Operation)
    (staged : List UInt64) : Pc → Prop
  | .idle =>
      pending = staged.map .enqueueUnsynced ∧ Staging queue settled staged [] ∧
        queue.live = contents settled ++ staged
  | .enqueuePwb value =>
      pending = staged.map .enqueueUnsynced ++ [.enqueue value] ∧
        Staging queue settled staged [] ∧ queue.live = contents settled ++ staged
  | .enqueuePsync value =>
      pending = staged.map .enqueueUnsynced ++ [.enqueue value] ∧
        Staging queue settled staged [.enqueue value] ∧ queue.live = contents settled ++ staged
  | .enqueuePushBack value =>
      pending = staged.map .enqueueUnsynced ++ [.enqueue value] ∧
        Synced queue (settled ++ pending) ∧ queue.live = contents settled ++ staged
  | .enqueued =>
      ∃ value, pending = staged.map .enqueueUnsynced ++ [.enqueue value] ∧
        Synced queue (settled ++ pending) ∧ queue.live = contents (settled ++ pending)
  | .dequeuePopFront =>
      pending = staged.map .enqueueUnsynced ++ [.dequeue] ∧
        Staging queue settled staged [] ∧ queue.live = contents settled ++ staged
  | .dequeuePwb value =>
      pending = staged.map .enqueueUnsynced ++ [.dequeue] ∧
        Staging queue settled staged [] ∧ value :: queue.live = contents settled ++ staged
  | .dequeuePsync value =>
      pending = staged.map .enqueueUnsynced ++ [.dequeue] ∧
        Staging queue settled staged [.dequeue] ∧ value :: queue.live = contents settled ++ staged
  | .dequeued result =>
      pending = staged.map .enqueueUnsynced ++ [.dequeue] ∧
        Synced queue (settled ++ pending) ∧ result = (contents settled ++ staged).head? ∧
        queue.live = contents (settled ++ pending)
  | .unsyncedPwb value =>
      pending = staged.map .enqueueUnsynced ++ [.enqueueUnsynced value] ∧
        Staging queue settled staged [] ∧ queue.live = contents settled ++ staged
  | .unsyncedPushBack value =>
      pending = staged.map .enqueueUnsynced ++ [.enqueueUnsynced value] ∧
        Staging queue settled staged [.enqueue value] ∧ queue.live = contents settled ++ staged
  | .staged =>
      ∃ value, pending = staged.map .enqueueUnsynced ++ [.enqueueUnsynced value] ∧
        Staging queue settled staged [.enqueue value] ∧
        queue.live = contents settled ++ (staged ++ [value])

structure Follows (labels : List Label) (settled pending : List Operation)
    (staged : List UInt64) (state : State) : Prop where
  explained : Explained labels settled pending
  meets : state.pc.Meets state.queue settled pending staged

variable {labels : List Label} {settled pending : List Operation} {staged : List UInt64}
  {queue : PersistentQueue} {pc : Pc}

/-- After a fence the log ends with the operation that asked for it. -/
theorem Staging.psync {current : List Record} (staging : Staging queue settled staged current)
    (operation : Operation)
    (same : ∀ log, replay (log ++ current) = apply (replay log) operation) :
    Synced queue.psync (settled ++ (staged.map .enqueueUnsynced ++ [operation])) := by
  constructor
  · change replay (queue.mem.durable ++ queue.mem.volatile) = _
    rw [staging.volatile, ← List.append_assoc, same, replay_enqueues, staging.durable,
      ← List.append_assoc, contents_snoc, contents_staged]
  · rfl

/-- What a crash finds: the settled operations, or the pending ones as well. -/
theorem Pc.Meets.durable (meets : pc.Meets queue settled pending staged) :
    replay queue.mem.durable = contents settled ∨
      replay queue.mem.durable = contents (settled ++ pending) := by
  cases pc with
  | enqueuePushBack value => exact .inr meets.2.1.durable
  | enqueued =>
      obtain ⟨value, _pending, synced, _live⟩ := meets
      exact .inr synced.durable
  | dequeued result => exact .inr meets.2.1.durable
  | staged =>
      obtain ⟨value, _pending, staging, _live⟩ := meets
      exact .inl staging.durable
  | _ => exact .inl meets.2.1.durable

theorem Follows.crash (follows : Follows labels settled pending staged ⟨queue, pc⟩) :
    ∃ settled', Follows (labels ++ [.crash queue.crashNow.recover.1]) settled' [] []
      ⟨queue.crashNow.recover.2, .idle⟩ := by
  have recovers : ∀ kept lost, pending = kept ++ lost →
      replay queue.mem.durable = contents (settled ++ kept) →
      Follows (labels ++ [.crash queue.crashNow.recover.1]) (settled ++ kept) [] []
        ⟨queue.crashNow.recover.2, .idle⟩ := by
    intro kept lost split durable
    have before := follows.explained
    rw [split] at before
    constructor
    · have recovered : queue.crashNow.recover.1 = contents (settled ++ kept) := durable
      rw [recovered]
      exact before.crash
    · refine ⟨rfl, ⟨durable, rfl⟩, ?_⟩
      rw [List.append_nil]
      exact durable
  rcases follows.meets.durable with settledOnly | everything
  · use settled ++ []
    apply recovers [] pending rfl
    rw [List.append_nil]
    exact settledOnly
  · use settled ++ pending
    exact recovers pending [] (List.append_nil pending).symm everything

theorem Follows.call (follows : Follows labels settled pending staged ⟨queue, .idle⟩)
    (operation : Operation) :
    Follows (labels ++ [.call operation]) settled (pending ++ [operation]) staged
      ⟨queue, operation.start⟩ := by
  obtain ⟨rfl, staging, live⟩ := follows.meets
  constructor
  · exact follows.explained.call operation
  · cases operation <;> exact ⟨rfl, staging, live⟩

theorem Follows.inner (follows : Follows labels settled pending staged ⟨queue, pc⟩)
    {after : State} (stepped : innerStep queue pc = some after) :
    Follows (labels ++ [.inner]) settled pending staged after := by
  have explained := follows.explained.inner
  have meets := follows.meets
  cases pc with
  | enqueuePwb value =>
      cases stepped
      obtain ⟨pending, staging, live⟩ := meets
      refine ⟨explained, pending, ⟨staging.durable, ?_⟩, live⟩
      exact congrArg (· ++ [Record.enqueue value]) (staging.volatile.trans (List.append_nil _))
  | enqueuePsync value =>
      cases stepped
      obtain ⟨rfl, staging, live⟩ := meets
      exact ⟨explained, rfl, staging.psync (.enqueue value) fun log => replay_enqueue log value,
        live⟩
  | enqueuePushBack value =>
      cases stepped
      obtain ⟨rfl, synced, live⟩ := meets
      refine ⟨explained, value, rfl, ⟨synced.durable, synced.volatile⟩, ?_⟩
      rw [← List.append_assoc, contents_snoc, contents_staged, ← live]
      rfl
  | dequeuePopFront =>
      obtain ⟨rfl, staging, live⟩ := meets
      simp only [innerStep, PersistentQueue.popFront] at stepped
      cases front : queue.live with
      | nil =>
          rw [front] at stepped live
          cases stepped
          -- Nothing in view means nothing staged either.
          have none : contents settled = [] ∧ staged = [] := List.append_eq_nil_iff.mp live.symm
          obtain ⟨settledNone, rfl⟩ := none
          have everything : contents (settled ++ ([] ++ [Operation.dequeue])) = [] := by
            rw [List.nil_append, contents_snoc, settledNone]
            rfl
          refine ⟨explained, rfl, ⟨?_, staging.volatile⟩, ?_, ?_⟩
          · rw [staging.durable, settledNone]
            exact everything.symm
          · rw [settledNone]
            rfl
          · exact front.trans everything.symm
      | cons value rest =>
          rw [front] at stepped live
          cases stepped
          exact ⟨explained, rfl, ⟨staging.durable, staging.volatile⟩, live⟩
  | dequeuePwb value =>
      cases stepped
      obtain ⟨pending, staging, live⟩ := meets
      refine ⟨explained, pending, ⟨staging.durable, ?_⟩, live⟩
      exact congrArg (· ++ [Record.dequeue]) (staging.volatile.trans (List.append_nil _))
  | dequeuePsync value =>
      cases stepped
      obtain ⟨rfl, staging, live⟩ := meets
      have synced := staging.psync .dequeue replay_dequeue
      refine ⟨explained, rfl, synced, ?_, ?_⟩
      · rw [← live]
        rfl
      · rw [← List.append_assoc, contents_snoc, contents_staged, ← live]
        rfl
  | unsyncedPwb value =>
      cases stepped
      obtain ⟨pending, staging, live⟩ := meets
      refine ⟨explained, pending, ⟨staging.durable, ?_⟩, live⟩
      exact congrArg (· ++ [Record.enqueue value]) (staging.volatile.trans (List.append_nil _))
  | unsyncedPushBack value =>
      cases stepped
      obtain ⟨pending, staging, live⟩ := meets
      refine ⟨explained, value, pending, ⟨staging.durable, staging.volatile⟩, ?_⟩
      rw [← List.append_assoc, ← live]
      rfl
  | _ => cases stepped

/-- A fenced call has returned: everything before it must survive. -/
theorem Synced.idle {operations : List Operation} (synced : Synced queue operations)
    (live : queue.live = contents operations) : Pc.idle.Meets queue operations [] [] := by
  refine ⟨rfl, ⟨synced.durable, synced.volatile⟩, ?_⟩
  rw [List.append_nil]
  exact live

theorem Follows.returnsEnqueued
    (follows : Follows labels settled pending staged ⟨queue, .enqueued⟩) :
    Follows (labels ++ [.enqueued]) (settled ++ pending) [] [] ⟨queue, .idle⟩ := by
  obtain ⟨value, rfl, synced, live⟩ := follows.meets
  exact ⟨follows.explained.enqueued, synced.idle live⟩

theorem Follows.returnsDequeued {result : Option UInt64}
    (follows : Follows labels settled pending staged ⟨queue, .dequeued result⟩) :
    Follows (labels ++ [.dequeued result]) (settled ++ pending) [] [] ⟨queue, .idle⟩ := by
  obtain ⟨rfl, synced, rfl, live⟩ := follows.meets
  constructor
  · rw [← contents_staged]
    exact follows.explained.dequeued
  · exact synced.idle live

theorem Follows.returnsStaged (follows : Follows labels settled pending staged ⟨queue, .staged⟩) :
    ∃ staged', Follows (labels ++ [.staged]) settled pending staged' ⟨queue, .idle⟩ := by
  obtain ⟨value, rfl, staging, live⟩ := follows.meets
  use staged ++ [value]
  constructor
  · exact follows.explained.staged
  · refine ⟨by rw [List.map_append]; rfl, ⟨staging.durable, ?_⟩, live⟩
    rw [staging.volatile, List.map_append, List.append_nil]
    rfl

theorem Follows.next {state after : State} (follows : Follows labels settled pending staged state)
    {choice : Choice} {label : Label} (taken : Persistent.next state choice = some (label, after)) :
    ∃ settled' pending' staged', Follows (labels ++ [label]) settled' pending' staged' after := by
  obtain ⟨queue, pc⟩ := state
  cases choice with
  | call operation =>
      cases pc with
      | idle =>
          cases taken
          exact ⟨_, _, _, follows.call operation⟩
      | _ => cases taken
  | inner =>
      simp only [Persistent.next, Option.map_eq_some_iff, Prod.mk.injEq] at taken
      obtain ⟨_state, stepped, rfl, rfl⟩ := taken
      exact ⟨_, _, _, follows.inner stepped⟩
  | returns =>
      cases pc with
      | enqueued =>
          cases taken
          exact ⟨_, _, _, follows.returnsEnqueued⟩
      | dequeued result =>
          cases taken
          exact ⟨_, _, _, follows.returnsDequeued⟩
      | staged =>
          cases taken
          exact ⟨_, _, follows.returnsStaged⟩
      | _ => cases taken
  | crash =>
      cases taken
      obtain ⟨settled', after⟩ := follows.crash
      exact ⟨_, _, _, after⟩

theorem follows_of_reaches {state : State} (reached : system.Reaches labels state) :
    ∃ settled pending staged, Follows labels settled pending staged state := by
  obtain ⟨start, isInitial, run⟩ := reached
  induction run with
  | refl =>
      obtain rfl : start = _ := isInitial
      exact ⟨[], [], [], .start, rfl, ⟨rfl, rfl⟩, rfl⟩
  | snoc _prior last ih =>
      obtain ⟨settled, pending, staged, follows⟩ := ih
      obtain ⟨choice, taken⟩ := last
      exact follows.next taken

theorem next_crash {state after : State} {choice : Choice} {recovered : List UInt64}
    (taken : next state choice = some (.crash recovered, after)) :
    after.queue.live = recovered := by
  obtain ⟨queue, pc⟩ := state
  cases choice with
  | call operation => cases pc <;> cases taken
  | inner =>
      simp only [next, Option.map_eq_some_iff, Prod.mk.injEq] at taken
      obtain ⟨_state, _stepped, impossible, _same⟩ := taken
      cases impossible
  | returns => cases pc <;> cases taken
  | crash =>
      cases taken
      rfl

theorem live_of_crash {state : State} (reached : system.Reaches labels state)
    {recovered : List UInt64} (crashed : labels.getLast? = some (.crash recovered)) :
    state.queue.live = recovered := by
  obtain ⟨start, _isInitial, run⟩ := reached
  cases run with
  | refl => cases crashed
  | snoc _prior last =>
      rw [List.getLast?_append_cons, List.getLast?_singleton] at crashed
      cases crashed
      obtain ⟨choice, taken⟩ := last
      exact next_crash taken

theorem Follows.live_of_idle {state : State} (follows : Follows labels settled pending staged state)
    (idle : state.pc = .idle) : state.queue.live = contents (settled ++ pending) := by
  have meets := follows.meets
  rw [idle] at meets
  obtain ⟨rfl, _staging, live⟩ := meets
  rw [live, contents_staged]

/-- Whatever is recovered is the contents after a prefix of the operations, with
no acknowledged one missing, and the queue goes on from there. -/
theorem recovers_prefix {state : State} (reached : system.Reaches labels state) :
    ∃ settled pending, Explained labels settled pending ∧
      (state.pc = .idle → state.queue.live = contents (settled ++ pending)) ∧
      ∀ recovered, labels.getLast? = some (.crash recovered) → state.queue.live = recovered := by
  obtain ⟨settled, pending, staged, follows⟩ := follows_of_reaches reached
  use settled, pending
  constructor
  · exact follows.explained
  · constructor
    · exact follows.live_of_idle
    · exact fun recovered crashed => live_of_crash reached crashed

/-- A crash between the fence of a `dequeue` and its return, after an unsynced
`enqueue`, and another crash while the next call is staging. -/
def crashTwice : List Choice :=
  [.call (.enqueueUnsynced 1), .inner, .inner, .returns,
    .call (.enqueue 2), .inner, .inner, .inner, .returns,
    .call .dequeue, .inner, .inner, .inner, .crash,
    .call (.enqueue 3), .inner, .crash]

theorem recovers_prefix_crashTwice :
    ∃ labels state, system.Reaches labels state ∧
      labels.getLast? = some (.crash [2]) ∧ state.queue.live = [2] ∧
      ∃ settled pending, Explained labels settled pending ∧
        (state.pc = .idle → state.queue.live = contents (settled ++ pending)) ∧
        ∀ recovered, labels.getLast? = some (.crash recovered) →
          state.queue.live = recovered := by
  have reached : system.Reaches _ _ := ⟨_, rfl, TransitionSystem.execute_run crashTwice rfl⟩
  exact ⟨_, _, reached, rfl, rfl, recovers_prefix reached⟩

/-! ### The calls as wholes -/

/-- A call that is not interrupted does what its function says. -/
theorem run_enqueue (queue : PersistentQueue) (value : UInt64) :
    system.Run ⟨queue, .idle⟩ [.call (.enqueue value), .inner, .inner, .inner, .enqueued]
      ⟨queue.enqueue value, .idle⟩ :=
  TransitionSystem.execute_run [.call (.enqueue value), .inner, .inner, .inner, .returns] rfl

theorem run_enqueueUnsynced (queue : PersistentQueue) (value : UInt64) :
    system.Run ⟨queue, .idle⟩ [.call (.enqueueUnsynced value), .inner, .inner, .staged]
      ⟨queue.enqueueUnsynced value, .idle⟩ :=
  TransitionSystem.execute_run [.call (.enqueueUnsynced value), .inner, .inner, .returns] rfl

theorem run_dequeue (queue : PersistentQueue) :
    ∃ inner, system.Run ⟨queue, .idle⟩
      (.call .dequeue :: (List.replicate inner .inner ++ [.dequeued queue.dequeue.1]))
      ⟨queue.dequeue.2, .idle⟩ := by
  obtain ⟨mem, live⟩ := queue
  cases live with
  | nil =>
      use 1
      exact TransitionSystem.execute_run [.call .dequeue, .inner, .returns] rfl
  | cons value rest =>
      use 3
      exact TransitionSystem.execute_run [.call .dequeue, .inner, .inner, .inner, .returns] rfl

end WsDeque.Persistent
