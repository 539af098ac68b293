import WsDeque.ChaseLev.Handles
import WsDeque.ChaseLev.Sequential

/-
Threads that each own a deque and steal from the deques of the others, one
element or half a deque at a time. The two batch calls are their loops over
`steal` and `push`; every access of every deque is a step of its own.
-/

namespace WsDeque.ChaseLev

open MachineWord
open Deque (wanted)

variable {ι α : Type*}

/-! ### `steal_batch` and `steal_batch_and_pop` -/

/-- Which of the two calls, with what its loop carries. -/
inductive Batch (α : Type*)
  | move (moved : Nat)
  /-- `steal_batch_and_pop` before it has the element it returns. -/
  | first
  | andPop (popped : α)

/-- What a batch call returns: `steal_batch` no element, `steal_batch_and_pop` its first. -/
abbrev BatchResult (α : Type*) := Steal (Option α)

inductive CallPc (ι α : Type*)
  | idle
  | push
  | pop
  | steal (victim : ι)
  | loadTop (victim : ι) (andPop : Bool)
  | loadBottom (victim : ι) (andPop : Bool) (t : Int)
  /-- The head of the loop, with this many rounds to go. -/
  | stealNext (victim : ι) (rounds : Nat) (batch : Batch α)
  | stealing (victim : ι) (rounds : Nat) (batch : Batch α)
  | pushNext (victim : ι) (rounds : Nat) (batch : Batch α) (value : α)
  | pushing (victim : ι) (rounds : Nat) (batch : Batch α)
  | returned (result : BatchResult α)
  /-- The overflow check of `available + 1` failed. -/
  | panicked

/-- What is returned when the loop ends. -/
def Batch.finish : Batch α → BatchResult α
  | .move moved => if moved = 0 then .empty else .success none
  | .first => .empty
  | .andPop popped => .success (some popped)

def Batch.loop (victim : ι) (batch : Batch α) : Nat → CallPc ι α
  | 0 => .returned batch.finish
  | rounds + 1 => .stealNext victim (rounds + 1) batch

/-- The match on the result of `self.steal()`. -/
def Batch.afterSteal (victim : ι) (rounds : Nat) : Batch α → Steal α → CallPc ι α
  | .move moved, .success value => .pushNext victim rounds (.move moved) value
  | .move moved, .empty => .returned (Batch.move moved).finish
  | .move moved, .retry => .returned (if moved = 0 then .retry else (Batch.move moved).finish)
  | .first, .success value => Batch.loop victim (.andPop value) (rounds - 1)
  | .first, .empty => .returned .empty
  | .first, .retry => .returned .retry
  | .andPop popped, .success value => .pushNext victim rounds (.andPop popped) value
  | .andPop popped, .empty | .andPop popped, .retry => .returned (.success (some popped))

/-- `moved += 1`, and the next round. -/
def Batch.afterPush (victim : ι) (rounds : Nat) : Batch α → CallPc ι α
  | .move moved => Batch.loop victim (.move (moved + 1)) (rounds - 1)
  | batch => Batch.loop victim batch (rounds - 1)

def Batch.new (andPop : Bool) : Batch α :=
  if andPop then .first else .move 0

def Batch.afterLoads (victim : ι) (andPop : Bool) (available : Int) : CallPc ι α :=
  if available ≤ 0 then .returned .empty
  else
    match wanted available with
    | none => .panicked
    | some want => (Batch.new andPop).loop victim want

/-! ### The pool -/

structure BatchPool (ι α : Type*) where
  deques : ι → State ι α
  call : ι → CallPc ι α

/-- A step of the deque at a place, made by a thread, or a step of a batch call
between two of them. -/
inductive BatchLabel (ι α : Type*)
  | deque (thread place : ι) (inBatch : Bool) (label : Label ι α)
  | batchCall (thread victim : ι) (andPop : Bool)
  | batchAccess (thread : ι) (access : Access)
  | batchReturn (thread : ι) (result : BatchResult α)

inductive BatchChoice (ι α : Type*)
  | pushCall (thread : ι) (value : α)
  | popCall (thread : ι)
  | newStealer (thread victim : ι)
  | stealCall (thread victim : ι)
  | batchCall (thread victim : ι) (andPop : Bool)
  | step (thread : ι) (spurious : Bool)
  | finish (thread : ι)

variable [Fintype ι] [DecidableEq ι]

def BatchPool.setCall (pool : BatchPool ι α) (thread : ι) (pc : CallPc ι α) : BatchPool ι α :=
  { pool with call := Function.update pool.call thread pc }

/-- A step of one deque, after which the thread is where the label leads it. -/
def BatchPool.on (pool : BatchPool ι α) (thread place : ι) (inBatch : Bool)
    (choice : Choice ι α) (land : Label ι α → CallPc ι α) :
    Option (BatchLabel ι α × BatchPool ι α) :=
  (next (pool.deques place) choice).map fun taken =>
    (.deque thread place inBatch taken.1,
      { deques := Function.update pool.deques place taken.2
        call := Function.update pool.call thread (land taken.1) })

/-- Where the result of the inner `steal` leads. -/
def CallPc.landSteal (victim : ι) (rounds : Nat) (batch : Batch α) : Label ι α → CallPc ι α
  | .stealReturn _ result => batch.afterSteal victim rounds result
  | _ => .idle

def BatchPool.step (pool : BatchPool ι α) (thread : ι) (spurious : Bool) :
    Option (BatchLabel ι α × BatchPool ι α) :=
  match pool.call thread with
  | .push => pool.on thread thread false (.owner spurious) fun _ => .push
  | .pop => pool.on thread thread false (.owner spurious) fun _ => .pop
  | .steal victim => pool.on thread victim false (.thief thread) fun _ => .steal victim
  | .loadTop victim andPop =>
      some (.batchAccess thread .loadTop,
        pool.setCall thread (.loadBottom victim andPop (pool.deques victim).inner.top))
  | .loadBottom victim andPop t =>
      some (.batchAccess thread .loadBottom,
        pool.setCall thread
          (Batch.afterLoads victim andPop (wrappingSub (pool.deques victim).inner.bottom t)))
  | .stealNext victim rounds batch =>
      pool.on thread victim true (.stealCall thread) fun _ => .stealing victim rounds batch
  | .stealing victim rounds batch =>
      pool.on thread victim true (.thief thread) fun _ => .stealing victim rounds batch
  | .pushNext victim rounds batch value =>
      pool.on thread thread true (.pushCall value) fun _ => .pushing victim rounds batch
  | .pushing victim rounds batch =>
      pool.on thread thread true (.owner spurious) fun _ => .pushing victim rounds batch
  | .idle | .returned _ | .panicked => none

def BatchPool.finish (pool : BatchPool ι α) (thread : ι) :
    Option (BatchLabel ι α × BatchPool ι α) :=
  match pool.call thread with
  | .push | .pop => pool.on thread thread false .ownerReturn fun _ => .idle
  | .steal victim => pool.on thread victim false (.stealReturn thread) fun _ => .idle
  | .stealing victim rounds batch =>
      pool.on thread victim true (.stealReturn thread) (CallPc.landSteal victim rounds batch)
  | .pushing victim rounds batch =>
      pool.on thread thread true .ownerReturn fun _ => batch.afterPush victim rounds
  | .returned result => some (.batchReturn thread result, pool.setCall thread .idle)
  | _ => none

def BatchPool.next (pool : BatchPool ι α) :
    BatchChoice ι α → Option (BatchLabel ι α × BatchPool ι α)
  | .pushCall thread value =>
      match pool.call thread with
      | .idle => pool.on thread thread false (.pushCall value) fun _ => .push
      | _ => none
  | .popCall thread =>
      match pool.call thread with
      | .idle => pool.on thread thread false .popCall fun _ => .pop
      | _ => none
  | .newStealer thread victim =>
      match pool.call thread with
      | .idle => pool.on thread victim false (.newStealer thread) fun _ => .idle
      | _ => none
  | .stealCall thread victim =>
      match pool.call thread with
      | .idle => pool.on thread victim false (.stealCall thread) fun _ => .steal victim
      | _ => none
  | .batchCall thread victim andPop =>
      match pool.call thread, (pool.deques victim).thief thread with
      | .idle, .idle =>
          some (.batchCall thread victim andPop,
            pool.setCall thread (.loadTop victim andPop))
      | _, _ => none
  | .step thread spurious => pool.step thread spurious
  | .finish thread => pool.finish thread

def BatchPool.initial (ι α : Type*) (fifo : ι → Bool) (logInitialCap : ι → Nat) :
    BatchPool ι α :=
  { deques := fun place => withLogCapacity ι α (fifo place) (logInitialCap place)
    call := fun _ => .idle }

def batchSystem (ι α : Type*) [Fintype ι] [DecidableEq ι] (fifo : ι → Bool)
    (logInitialCap : ι → Nat) : TransitionSystem (BatchPool ι α) (BatchLabel ι α) :=
  .ofNext (fun pool => pool = BatchPool.initial ι α fifo logInitialCap) BatchPool.next

/-! ### What one step can be -/

/-- The steps of a deque that a thread makes, with where its call stands before and after. -/
inductive Lands (thread : ι) : CallPc ι α → ι → Bool → Label ι α → CallPc ι α → Prop
  | pushCall (value : α) : Lands thread .idle thread false (.pushCall value) .push
  | popCall : Lands thread .idle thread false .popCall .pop
  | newStealer (victim : ι) : Lands thread .idle victim false (.newStealer thread) .idle
  | stealCall (victim : ι) : Lands thread .idle victim false (.stealCall thread) (.steal victim)
  | pushAccess (access : Access) : Lands thread .push thread false (.owner access) .push
  | popAccess (access : Access) : Lands thread .pop thread false (.owner access) .pop
  | stealAccess (victim : ι) (access : Access) :
      Lands thread (.steal victim) victim false (.thief thread access) (.steal victim)
  | pushReturn (result : OwnerResult α) :
      Lands thread .push thread false (.ownerReturn result) .idle
  | popReturn (result : OwnerResult α) : Lands thread .pop thread false (.ownerReturn result) .idle
  | stealReturn (victim : ι) (result : Steal α) :
      Lands thread (.steal victim) victim false (.stealReturn thread result) .idle
  | innerCall (victim : ι) (rounds : Nat) (batch : Batch α) :
      Lands thread (.stealNext victim rounds batch) victim true (.stealCall thread)
        (.stealing victim rounds batch)
  | innerAccess (victim : ι) (rounds : Nat) (batch : Batch α) (access : Access) :
      Lands thread (.stealing victim rounds batch) victim true (.thief thread access)
        (.stealing victim rounds batch)
  | innerReturn (victim : ι) (rounds : Nat) (batch : Batch α) (result : Steal α) :
      Lands thread (.stealing victim rounds batch) victim true (.stealReturn thread result)
        (batch.afterSteal victim rounds result)
  | innerPushCall (victim : ι) (rounds : Nat) (batch : Batch α) (value : α) :
      Lands thread (.pushNext victim rounds batch value) thread true (.pushCall value)
        (.pushing victim rounds batch)
  | innerPushAccess (victim : ι) (rounds : Nat) (batch : Batch α) (access : Access) :
      Lands thread (.pushing victim rounds batch) thread true (.owner access)
        (.pushing victim rounds batch)
  | innerPushReturn (victim : ι) (rounds : Nat) (batch : Batch α) (result : OwnerResult α) :
      Lands thread (.pushing victim rounds batch) thread true (.ownerReturn result)
        (batch.afterPush victim rounds)

variable {before after : BatchPool ι α} {label : BatchLabel ι α}

inductive BatchMoves (before : BatchPool ι α) : BatchLabel ι α → BatchPool ι α → Prop
  | deque (thread place : ι) (inBatch : Bool) (choice : Choice ι α) (label : Label ι α)
      (deque : State ι α) (pc : CallPc ι α)
      (stepped : next (before.deques place) choice = some (label, deque))
      (lands : Lands thread (before.call thread) place inBatch label pc) :
      BatchMoves before (.deque thread place inBatch label)
        { deques := Function.update before.deques place deque
          call := Function.update before.call thread pc }
  | batchCall (thread victim : ι) (andPop : Bool) (atPc : before.call thread = .idle) :
      BatchMoves before (.batchCall thread victim andPop)
        (before.setCall thread (.loadTop victim andPop))
  | loadTop (thread victim : ι) (andPop : Bool)
      (atPc : before.call thread = .loadTop victim andPop) :
      BatchMoves before (.batchAccess thread .loadTop)
        (before.setCall thread (.loadBottom victim andPop (before.deques victim).inner.top))
  | loadBottom (thread victim : ι) (andPop : Bool) (t : Int)
      (atPc : before.call thread = .loadBottom victim andPop t) :
      BatchMoves before (.batchAccess thread .loadBottom)
        (before.setCall thread
          (Batch.afterLoads victim andPop (wrappingSub (before.deques victim).inner.bottom t)))
  | batchReturn (thread : ι) (result : BatchResult α)
      (atPc : before.call thread = .returned result) :
      BatchMoves before (.batchReturn thread result) (before.setCall thread .idle)

theorem BatchPool.on_moves {thread place : ι} {inBatch : Bool} {choice : Choice ι α}
    {land : Label ι α → CallPc ι α}
    (taken : before.on thread place inBatch choice land = some (label, after))
    (lands : ∀ step, Yields choice step →
      Lands thread (before.call thread) place inBatch step (land step)) :
    BatchMoves before label after := by
  obtain ⟨⟨step, deque⟩, stepped, same⟩ := Option.map_eq_some_iff.mp taken
  cases same
  exact .deque thread place inBatch choice step deque _ stepped (lands step (next_yields stepped))

theorem BatchPool.step_moves {thread : ι} {spurious : Bool}
    (taken : before.step thread spurious = some (label, after)) :
    BatchMoves before label after := by
  unfold BatchPool.step at taken
  split at taken <;> rename_i atPc
  · refine BatchPool.on_moves taken fun step yields => ?_
    rw [atPc]
    cases yields
    exact .pushAccess _
  · refine BatchPool.on_moves taken fun step yields => ?_
    rw [atPc]
    cases yields
    exact .popAccess _
  · refine BatchPool.on_moves taken fun step yields => ?_
    rw [atPc]
    cases yields
    exact .stealAccess _ _
  · cases taken
    exact .loadTop thread _ _ atPc
  · cases taken
    exact .loadBottom thread _ _ _ atPc
  · refine BatchPool.on_moves taken fun step yields => ?_
    rw [atPc]
    cases yields
    exact .innerCall _ _ _
  · refine BatchPool.on_moves taken fun step yields => ?_
    rw [atPc]
    cases yields
    exact .innerAccess _ _ _ _
  · refine BatchPool.on_moves taken fun step yields => ?_
    rw [atPc]
    cases yields
    exact .innerPushCall _ _ _ _
  · refine BatchPool.on_moves taken fun step yields => ?_
    rw [atPc]
    cases yields
    exact .innerPushAccess _ _ _ _
  · cases taken
  · cases taken
  · cases taken

theorem BatchPool.finish_moves {thread : ι}
    (taken : before.finish thread = some (label, after)) : BatchMoves before label after := by
  unfold BatchPool.finish at taken
  split at taken <;> rename_i atPc
  · refine BatchPool.on_moves taken fun step yields => ?_
    rw [atPc]
    cases yields
    exact .pushReturn _
  · refine BatchPool.on_moves taken fun step yields => ?_
    rw [atPc]
    cases yields
    exact .popReturn _
  · refine BatchPool.on_moves taken fun step yields => ?_
    rw [atPc]
    cases yields
    exact .stealReturn _ _
  · refine BatchPool.on_moves taken fun step yields => ?_
    rw [atPc]
    cases yields
    exact .innerReturn _ _ _ _
  · refine BatchPool.on_moves taken fun step yields => ?_
    rw [atPc]
    cases yields
    exact .innerPushReturn _ _ _ _
  · cases taken
    exact .batchReturn thread _ atPc
  · cases taken

theorem BatchPool.next_moves {choice : BatchChoice ι α}
    (taken : before.next choice = some (label, after)) : BatchMoves before label after := by
  cases choice with
  | pushCall thread value =>
      simp only [BatchPool.next] at taken
      split at taken
      · rename_i atPc
        refine BatchPool.on_moves taken fun step yields => ?_
        rw [atPc]
        cases yields
        exact .pushCall value
      · cases taken
  | popCall thread =>
      simp only [BatchPool.next] at taken
      split at taken
      · rename_i atPc
        refine BatchPool.on_moves taken fun step yields => ?_
        rw [atPc]
        cases yields
        exact .popCall
      · cases taken
  | newStealer thread victim =>
      simp only [BatchPool.next] at taken
      split at taken
      · rename_i atPc
        refine BatchPool.on_moves taken fun step yields => ?_
        rw [atPc]
        cases yields
        exact .newStealer victim
      · cases taken
  | stealCall thread victim =>
      simp only [BatchPool.next] at taken
      split at taken
      · rename_i atPc
        refine BatchPool.on_moves taken fun step yields => ?_
        rw [atPc]
        cases yields
        exact .stealCall victim
      · cases taken
  | batchCall thread victim andPop =>
      simp only [BatchPool.next] at taken
      split at taken <;> cases taken
      rename_i atPc _handle
      exact .batchCall thread victim andPop atPc
  | step thread spurious => exact BatchPool.step_moves taken
  | finish thread => exact BatchPool.finish_moves taken

/-! ### The runs of the deques -/

/-- The step of a deque that a label is. -/
def BatchLabel.placed : BatchLabel ι α → Option (ι × Label ι α)
  | .deque _ place _ label => some (place, label)
  | _ => none

/-- What the deque at a place sees of a run. -/
def stepsAt (place : ι) (labels : List (BatchLabel ι α)) : List (Label ι α) :=
  TransitionSystem.labelsAt place (labels.filterMap BatchLabel.placed)

omit [Fintype ι] in
theorem stepsAt_append (place : ι) (first second : List (BatchLabel ι α)) :
    stepsAt place (first ++ second) = stepsAt place first ++ stepsAt place second := by
  simp only [stepsAt, List.filterMap_append, TransitionSystem.labelsAt_append]

variable {fifo : ι → Bool} {logInitialCap : ι → Nat} {labels : List (BatchLabel ι α)}

theorem BatchMoves.deques_run (moves : BatchMoves before label after) :
    (TransitionSystem.sideBySide fun place =>
      system ι α (fifo place) (logInitialCap place)).Run before.deques
        ([label].filterMap BatchLabel.placed) after.deques := by
  cases moves with
  | deque thread place inBatch choice label deque pc stepped lands =>
      exact .single ⟨deque, ⟨choice, stepped⟩, rfl⟩
  | _ => exact .refl _

theorem deque_reaches (reached : (batchSystem ι α fifo logInitialCap).Reaches labels after)
    (place : ι) :
    (system ι α (fifo place) (logInitialCap place)).Reaches (stepsAt place labels)
      (after.deques place) := by
  obtain ⟨start, isInitial, run⟩ := reached
  refine ⟨start.deques place, ?_, ?_⟩
  · change start = _ at isInitial
    rw [isInitial]
    rfl
  · have sideBySide : (TransitionSystem.sideBySide fun place =>
        system ι α (fifo place) (logInitialCap place)).Run start.deques
          (labels.filterMap BatchLabel.placed) after.deques := ?_
    · exact sideBySide.at_place place
    induction run with
    | refl => exact .refl _
    | snoc _prior last ih =>
        obtain ⟨choice, taken⟩ := last
        rw [List.filterMap_append]
        exact ih.append (BatchPool.next_moves taken).deques_run

end WsDeque.ChaseLev
