import WsDeque.Idempotent.Calls
import WsDeque.Multiplicity.Fifo

/-
The growable array as a plain queue while no two calls overlap.
-/

namespace WsDeque.Idempotent

open Multiplicity (Call Fifo Reply)
open SerialCalls (Refines)

variable {ι α : Type*}

/-! ### What a call finds -/

def Take.task : Take α → Option α
  | .empty => none
  | .got task => some task

section

variable {tasks : List α}

/-- The shared index after a call that reads the cell there. -/
def pastHead (tasks : List α) (head : Nat) : Nat :=
  if head < tasks.length then head + 1 else head

theorem found_of_getElem? {head : Nat} {task : α} (there : tasks[head]? = some task) :
    found tasks head = .got task := by
  unfold found
  rw [there]

theorem found_of_le {head : Nat} (beyond : tasks.length ≤ head) :
    found tasks head = .empty := by
  unfold found
  rw [List.getElem?_eq_none_iff.mpr beyond]

theorem pastHead_of_lt {head : Nat} (below : head < tasks.length) :
    pastHead tasks head = head + 1 :=
  if_pos below

theorem pastHead_of_le {head : Nat} (beyond : tasks.length ≤ head) :
    pastHead tasks head = head :=
  if_neg (Nat.not_lt.mpr beyond)

theorem pastHead_le {head : Nat} (within : head ≤ tasks.length) :
    pastHead tasks head ≤ tasks.length := by
  unfold pastHead
  split <;> omega

/-- The shared index moves over the task that was returned. -/
theorem removed {head : Nat} (within : head ≤ tasks.length) :
    (found tasks head).task = (tasks.drop head).head? ∧
      tasks.drop (pastHead tasks head) = (tasks.drop head).tail := by
  rw [List.head?_drop, List.tail_drop]
  rcases Nat.lt_or_eq_of_le within with below | last
  · rw [pastHead_of_lt below, List.getElem?_eq_getElem below,
      found_of_getElem? (List.getElem?_eq_getElem below)]
    exact ⟨rfl, rfl⟩
  · have beyond : tasks.length ≤ head := Nat.le_of_eq last.symm
    rw [pastHead_of_le beyond, found_of_le beyond, List.getElem?_eq_none_iff.mpr beyond,
      List.drop_eq_nil_of_le beyond, List.drop_eq_nil_of_le (Nat.le_succ_of_le beyond)]
    exact ⟨rfl, rfl⟩

end

variable [DecidableEq ι]

def State.wasPut (state : State ι α) : Option (State ι α) :=
  match state.owner with
  | .returned (.put true) => some { state with owner := .idle }
  | _ => none

section

variable (shape : Shape) (method : ι → Method)

def callPut (task : α) (fuel : Nat) (state : State ι α) : Option (State ι α) :=
  (next shape method state (.putCall task)).bind fun called =>
    runAlone State.wasPut (ownerMoves shape method) fuel called.2

end

/-- One call on the growable queue; its handles have nothing of their own. -/
def perform (fuel : Nat) (call : Call ι α) (state : State ι α) : Option (Reply α × State ι α) :=
  match call with
  | .put task => (callPut .growable (fun _ => .steal) task fuel state).map fun after => (.done, after)
  | .take =>
      (callTake .growable (fun _ => .steal) fuel state).map fun taken =>
        (.took taken.1.task, taken.2)
  | .newStealer _ => some (.done, state)
  | .steal thief =>
      (callSteal .growable (fun _ => .steal) thief fuel state).map fun taken =>
        (.took taken.1.task, taken.2)

theorem perform_fuelOnly :
    SerialCalls.FuelOnly
      (perform : Nat → Call ι α → State ι α → Option (Reply α × State ι α)) := by
  intro fuel more call state result enough returned
  cases call with
  | put task =>
      obtain ⟨after, put, same⟩ := Option.map_eq_some_iff.mp returned
      obtain ⟨called, started, ran⟩ := Option.bind_eq_some_iff.mp put
      have again : callPut .growable (fun _ => .steal) task more state = some after :=
        Option.bind_eq_some_iff.mpr ⟨called, started, runAlone_mono enough ran⟩
      exact Option.map_eq_some_iff.mpr ⟨after, again, same⟩
  | take =>
      obtain ⟨taken, took, same⟩ := Option.map_eq_some_iff.mp returned
      exact Option.map_eq_some_iff.mpr ⟨taken, callTake_mono enough took, same⟩
  | newStealer thief => exact returned
  | steal thief =>
      obtain ⟨taken, took, same⟩ := Option.map_eq_some_iff.mp returned
      exact Option.map_eq_some_iff.mpr ⟨taken, callSteal_mono enough took, same⟩

/-! ### A put that nobody interrupts -/

/-- Inside `put(task)`; the retired list is as it was read. -/
def OwnerPc.Puts (task : α) (inner : Inner α) : OwnerPc α → Prop
  | .putLoadTasks given | .putStoreTask given _ => given = task
  | .growLoad growth _ | .growStore growth _ _ | .growPublish growth | .retireLoad growth =>
      growth.task = task
  | .retireCas growth head => growth.task = task ∧ inner.retired = head
  | .putStoreNull _ | .returned (.put true) => True
  | _ => False

/-- What the call has put so far. -/
def OwnerPc.given (task : α) : OwnerPc α → List α
  | .putStoreNull _ | .returned _ => [task]
  | _ => []

/-- How many steps are left of it at most. -/
def OwnerPc.left (shelf : Shelf α) : OwnerPc α → Nat
  | .putLoadTasks _ => 2 * shelf.len shelf.tasks + 7
  | .growLoad growth i => 2 * (shelf.len growth.old - i) + 6
  | .growStore growth i _ => 2 * (shelf.len growth.old - i) + 5
  | .growPublish _ => 5
  | .retireLoad _ => 4
  | .retireCas _ _ => 3
  | .putStoreTask _ _ => 2
  | .putStoreNull _ => 1
  | _ => 0

variable {task : α} {tasks : List α} {inner after : Inner α} {tail tail' : Nat}
  {pc pc' : OwnerPc α} {access : Access α}

/-- A step of the put. -/
structure PutStep (task : α) (inner : Inner α) (pc : OwnerPc α) (access : Access α)
    (after : Inner α) (pc' : OwnerPc α) : Prop where
  puts : pc'.Puts task after
  head : after.head = inner.head
  given : pc'.given task = pc.given task ++ access.task.toList
  fewer : pc'.left after.shelf < pc.left inner.shelf

omit [DecidableEq ι] in
theorem growFrom_puts (growth : Growth α) (i : Nat) (given : growth.task = task)
    (inner : Inner α) :
    (growFrom inner growth i).Puts task inner ∧ (growFrom inner growth i).given task = [] ∧
      (growFrom inner growth i).left inner.shelf ≤
        2 * (inner.shelf.len growth.old - i) + 6 ∧
      (¬ i < inner.shelf.len growth.old → (growFrom inner growth i).left inner.shelf = 5) := by
  unfold growFrom
  split
  · rename_i more
    exact ⟨given, rfl, Nat.le_refl _, fun done => absurd more done⟩
  · exact ⟨given, rfl, by simp only [OwnerPc.left]; omega, fun _done => rfl⟩

omit [DecidableEq ι] in
theorem put_progress (stocked : Stocked .growable tasks inner tail pc)
    (puts : pc.Puts task inner) (running : pc ≠ .returned (.put true)) :
    ∃ access after tail' pc', ownerStep inner tail false pc = some (access, after, tail', pc') ∧
      PutStep task inner pc access after pc' := by
  have meets := stocked.owner
  cases pc with
  | putLoadTasks given =>
      obtain rfl := puts
      simp only [ownerStep]
      split
      · refine ⟨_, _, _, _, rfl, ?_⟩
        have different : inner.tasks ≠ inner.allocated := Nat.ne_of_lt stocked.holds.active
        have shelf := shelf_grow inner given inner.tasks
        obtain ⟨puts, nothing, few, _last⟩ := growFrom_puts
          { task := given
            old := inner.tasks
            bigger := inner.allocated } 0 rfl (grow inner given inner.tasks).1
        constructor
        · exact puts
        · rfl
        · exact nothing
        · have len : (grow inner given inner.tasks).1.shelf.len inner.tasks =
              inner.shelf.len inner.tasks := by
            rw [shelf]
            exact Function.update_of_ne different ..
          rw [len] at few
          exact Nat.lt_succ_of_le few
      · exact ⟨_, _, _, _, rfl, rfl, rfl, rfl, by simp only [OwnerPc.left]; omega⟩
  | growLoad growth i =>
      exact ⟨_, _, _, _, rfl, puts, rfl, rfl, by simp only [OwnerPc.left]; omega⟩
  | growStore growth i p =>
      obtain ⟨_atTail, _unbounded, _growing, within, _copied⟩ := meets
      refine ⟨_, _, _, _, rfl, ?_⟩
      obtain ⟨puts, nothing, few, last⟩ := growFrom_puts growth (i + 1) puts
        (inner.setCell growth.bigger i p)
      have shelf := inner.shelf_setCell growth.bigger i p
      have len : (inner.setCell growth.bigger i p).shelf.len = inner.shelf.len := by rw [shelf]; rfl
      rw [len] at few last
      have same : growFrom inner growth (i + 1) =
          growFrom (inner.setCell growth.bigger i p) growth (i + 1) := by
        unfold growFrom
        change (if i + 1 < inner.shelf.len growth.old then _ else _) =
          if i + 1 < (inner.setCell growth.bigger i p).shelf.len growth.old then _ else _
        rw [len]
      constructor
      · rw [same]
        exact puts
      · rfl
      · rw [same]
        exact nothing
      · rw [same]
        simp only [OwnerPc.left] at few last ⊢
        by_cases more : i + 1 < inner.shelf.len growth.old
        · refine Nat.lt_of_le_of_lt few ?_
          omega
        · rw [last more]
          omega
  | growPublish growth =>
      exact ⟨_, _, _, _, rfl, puts, rfl, rfl, by simp only [OwnerPc.left]; omega⟩
  | retireLoad growth =>
      exact ⟨_, _, _, _, rfl, ⟨puts, rfl⟩, rfl, rfl, by simp only [OwnerPc.left]; omega⟩
  | retireCas growth head =>
      obtain ⟨given, unchanged⟩ := puts
      simp only [ownerStep, unchanged, and_self, if_true]
      exact ⟨_, _, _, _, rfl, given, rfl, rfl, by simp only [OwnerPc.left]; omega⟩
  | putStoreTask given arr =>
      obtain rfl := puts
      obtain ⟨atTail, active, room⟩ := meets
      have inRange : tail < (inner.arrays arr).len := by
        rw [active]
        exact Nat.lt_of_succ_lt room
      simp only [ownerStep, if_pos inRange]
      exact ⟨_, _, _, _, rfl, trivial, rfl, rfl, by simp only [OwnerPc.left]; omega⟩
  | putStoreNull arr =>
      obtain ⟨atTail, active, room⟩ := meets
      have inRange : tail + 1 < (inner.arrays arr).len := by
        rw [active]
        exact room
      simp only [ownerStep, if_pos inRange]
      exact ⟨_, _, _, _, rfl, trivial, rfl, rfl, by simp only [OwnerPc.left]; omega⟩
  | returned result =>
      cases result with
      | put accepted =>
          cases accepted with
          | true => exact absurd rfl running
          | false => cases puts
      | took head result => cases puts
  | _ => cases puts

/-! ### The queue between two calls -/

structure Between (tasks : List α) (state : State ι α) : Prop where
  stored : Stored .growable (fun _ => .steal) tasks state
  owner : state.owner = .idle
  thief : ∀ thief, state.thief thief = .idle
  head : state.inner.head ≤ tasks.length

/-- The tasks from the shared index on are the queue. -/
def Represents (state : State ι α) (queue : Fifo ι α) : Prop :=
  ∃ tasks, Between tasks state ∧ queue.tasks = tasks.drop state.inner.head

variable {state : State ι α} {queue : Fifo ι α}

def State.left (state : State ι α) : Nat :=
  state.owner.left state.inner.shelf

/-- Inside a put that started from this state. -/
structure Putting (task : α) (tasks : List α) (start state : State ι α) : Prop where
  stored : Stored .growable (fun _ => .steal) (tasks ++ state.owner.given task) state
  puts : state.owner.Puts task state.inner
  thief : state.thief = start.thief
  head : state.inner.head = start.inner.head

theorem Putting.progress {start : State ι α} (putting : Putting task tasks start state)
    (running : state.owner ≠ .returned (.put true)) :
    ∃ after, ownerMoves .growable (fun _ => .steal) state = some after ∧
      Putting task tasks start after ∧ after.left < state.left := by
  obtain ⟨access, inner, tail, pc, taken, step⟩ :=
    put_progress putting.stored.stocked putting.puts running
  have moved : next .growable (fun _ => .steal) state (.owner false) =
      some (.owner access,
        { state with
          inner := inner
          tail := tail
          owner := pc }) := by
    simp only [next, taken, Option.map_some]
  refine
    ⟨{ state with
        inner := inner
        tail := tail
        owner := pc }, by rw [ownerMoves, moved, Option.map_some], ?_, step.fewer⟩
  constructor
  · have stored := putting.stored.step moved
    rw [List.append_assoc] at stored
    change Stored .growable (fun _ => .steal) (tasks ++ pc.given task) _
    rw [step.given]
    exact stored
  · exact step.puts
  · exact putting.thief
  · exact step.head.trans putting.head

theorem Putting.ends {start : State ι α} (putting : Putting task tasks start state)
    (between : Between tasks start) (done : state.owner = .returned (.put true)) :
    Between (tasks ++ [task]) { state with owner := .idle } := by
  have stored := putting.stored
  rw [done] at stored
  have returned : next .growable (fun _ => .steal) state .ownerReturn =
      some (.ownerReturn (.put true), { state with owner := .idle }) := by
    simp only [next, done]
  constructor
  · have last := stored.step returned
    simp only [published, Option.toList_none, List.append_nil] at last
    exact last
  · rfl
  · intro thief
    change state.thief thief = .idle
    rw [putting.thief]
    exact between.thief thief
  · change state.inner.head ≤ _
    rw [putting.head, List.length_append]
    exact Nat.le_add_right_of_le between.head

theorem Between.put (between : Between tasks state) (task : α) :
    ∃ fuel after, callPut .growable (fun _ => .steal) task fuel state = some after ∧
      Between (tasks ++ [task]) after ∧ after.inner.head = state.inner.head := by
  have started : next .growable (fun _ => .steal) state (.putCall task) =
      some (.putCall task, { state with owner := .putLoadTasks task }) := by
    simp only [next, between.owner, Shape.isFull, Bool.false_eq_true, if_false]
  have putting : Putting task tasks state { state with owner := .putLoadTasks task } := by
    constructor
    · change Stored .growable (fun _ => .steal) (tasks ++ []) _
      exact between.stored.step started
    · rfl
    · rfl
    · rfl
  have progress : ∀ now, Putting task tasks state now →
      (∃ after, now.wasPut = some after ∧
        Between (tasks ++ [task]) after ∧ after.inner.head = state.inner.head) ∨
      now.wasPut = none ∧
        ∃ after, ownerMoves .growable (fun _ => .steal) now = some after ∧
          Putting task tasks state after ∧ after.left < now.left := by
    intro now putting
    by_cases done : now.owner = .returned (.put true)
    · left
      have put : now.wasPut = some { now with owner := .idle } := by
        simp only [State.wasPut, done]
      exact ⟨_, put, putting.ends between done, putting.head⟩
    · right
      have running : now.wasPut = none := by
        unfold State.wasPut
        split
        · exact absurd ‹_› done
        · rfl
      exact ⟨running, putting.progress done⟩
  obtain ⟨fuel, after, ran, ends⟩ := runAlone_returns State.left progress putting
  refine ⟨fuel, after, ?_, ends⟩
  simp only [callPut, started, Option.bind_some, ran]

theorem past_head (inner : Inner α) (tasks : List α) :
    (inner.past tasks).head = pastHead tasks inner.head := by
  unfold Inner.past pastHead
  split
  · exact Nat.max_eq_right (Nat.le_succ _)
  · rfl

theorem past_shelf (inner : Inner α) (tasks : List α) : (inner.past tasks).shelf = inner.shelf := by
  unfold Inner.past
  split <;> rfl

omit [DecidableEq ι] in
theorem Between.past (between : Between tasks state) :
    Between tasks { state with inner := state.inner.past tasks } := by
  constructor
  · exact
      { stocked := between.stored.stocked.reshelve _ (past_shelf _ _)
        thief := between.stored.thief }
  · exact between.owner
  · exact between.thief
  · change (state.inner.past tasks).head ≤ _
    rw [past_head]
    exact pastHead_le between.head

theorem perform_refines :
    Refines Call.answer (perform : Nat → Call ι α → State ι α → Option (Reply α × State ι α))
      Call.Admits Represents := by
  rintro call state queue ⟨tasks, between, rest⟩ _admitted
  obtain ⟨task, dropped⟩ := removed between.head
  rw [← past_head] at dropped
  cases call with
  | put task =>
      obtain ⟨fuel, after, ran, ends, head⟩ := between.put task
      refine ⟨fuel, after, by simp only [perform, ran, Option.map_some, Call.answer],
        tasks ++ [task], ends, ?_⟩
      change queue.tasks ++ [task] = _
      rw [rest, head, List.drop_append_of_le_length between.head]
  | take =>
      have called := callTake_alone (fun _ => .steal) 0 between.stored.stocked between.owner
      refine ⟨5, { state with inner := state.inner.past tasks }, ?_, tasks, between.past, ?_⟩
      · have idle : { state with inner := state.inner.past tasks, owner := .idle } =
            { state with inner := state.inner.past tasks } := by
          rw [← between.owner]
        simp only [perform, called, Option.map_some, Call.answer, Fifo.remove, task, rest, idle]
      · change queue.tasks.tail = _
        rw [dropped, rest]
  | newStealer thief => exact ⟨0, state, rfl, tasks, between, rest⟩
  | steal thief =>
      obtain ⟨after, called, past⟩ := callSteal_alone 0 between.stored between.owner
        (between.thief thief) nofun
      have known : state.known (fun _ => .steal) thief = state.inner.head := rfl
      have same : after = { state with inner := state.inner.past tasks } := by
        rw [past rfl]
        unfold State.setThief
        simp only [← between.thief thief, Function.update_eq_self]
      rw [known, same] at called
      refine ⟨6, _, ?_, tasks, between.past, ?_⟩
      · simp only [perform, called, Option.map_some, Call.answer, Fifo.remove, task, rest]
      · change queue.tasks.tail = _
        rw [dropped, rest]

omit [DecidableEq ι] in
theorem represents_make : Represents (make ι α .growable) (Fifo.new ι α) := by
  refine ⟨[], ⟨stored_make .growable _, rfl, fun _thief => rfl, Nat.le_refl _⟩, rfl⟩

end WsDeque.Idempotent
