import Mathlib.Algebra.Order.Group.Multiset
import Mathlib.Tactic.Abel

/-
A pool of tasks with a counter of the unfinished ones: tasks are announced by
running tasks, wait, are started and finish. The pool leaves open where a task
waits and who starts it.
-/

namespace WsDeque.TaskPool

variable {Task : Type*}

structure Pool (Task : Type*) where
  waiting : Multiset Task
  running : Multiset Task
  outstanding : Nat

def Pool.start (seeds : List Task) : Pool Task :=
  { waiting := seeds
    running := 0
    outstanding := seeds.length }

inductive Event (Task : Type*)
  | announce (task : Task)
  | start (task : Task)
  | finish (task : Task)
  | silent

def Event.announced : Event Task → Option Task
  | .announce task => some task
  | _ => none

def Event.started : Event Task → Option Task
  | .start task => some task
  | _ => none

def Event.finished : Event Task → Option Task
  | .finish task => some task
  | _ => none

/-- Only a running task announces another one. -/
inductive Step (before : Pool Task) : Event Task → Pool Task → Prop
  | announce {after : Pool Task} (task : Task) (working : before.running ≠ 0)
      (waiting : after.waiting = before.waiting + {task}) (running : after.running = before.running)
      (outstanding : after.outstanding = before.outstanding + 1) :
      Step before (.announce task) after
  | start {after : Pool Task} (task : Task) (waiting : after.waiting + {task} = before.waiting)
      (running : after.running = before.running + {task})
      (outstanding : after.outstanding = before.outstanding) :
      Step before (.start task) after
  | finish {after : Pool Task} (task : Task) (waiting : after.waiting = before.waiting)
      (running : after.running + {task} = before.running)
      (outstanding : after.outstanding = before.outstanding - 1) :
      Step before (.finish task) after
  | silent {after : Pool Task} (waiting : after.waiting = before.waiting)
      (running : after.running = before.running)
      (outstanding : after.outstanding = before.outstanding) :
      Step before .silent after

/-- The tasks that the events of one kind name. -/
def tasks (kind : Event Task → Option Task) (events : List (Event Task)) : Multiset Task :=
  (events.filterMap kind : List Task)

theorem tasks_snoc (kind : Event Task → Option Task) (events : List (Event Task))
    (event : Event Task) :
    tasks kind (events ++ [event]) = tasks kind events + (kind event).elim 0 ({·}) := by
  unfold tasks
  rw [List.filterMap_append, ← Multiset.coe_add]
  cases named : kind event with
  | none => simp [named]
  | some task => simp [named]

/-- Each task seeded or announced is waiting or was started, each started one is
running or has finished, and the counter counts the unfinished ones. -/
structure Balance (seeds : List Task) (events : List (Event Task)) (pool : Pool Task) : Prop where
  announced : seeds + tasks Event.announced events = pool.waiting + tasks Event.started events
  started : tasks Event.started events = pool.running + tasks Event.finished events
  outstanding : pool.outstanding = (pool.waiting + pool.running).card

theorem Balance.initial (seeds : List Task) : Balance seeds [] (Pool.start seeds) := by
  constructor
  · rfl
  · rfl
  · simp [Pool.start]

variable {seeds : List Task} {events : List (Event Task)} {before after : Pool Task}
  {event : Event Task}

theorem Balance.step (balance : Balance seeds events before) (taken : Step before event after) :
    Balance seeds (events ++ [event]) after := by
  obtain ⟨announced, started, count⟩ := balance
  rw [Multiset.card_add] at count
  cases taken with
  | announce task working waiting running outstanding =>
      constructor
      · simp only [tasks_snoc, Event.announced, Event.started, Option.elim, waiting]
        rw [← add_assoc, announced]
        abel
      · simp only [tasks_snoc, Event.started, Event.finished, Option.elim, add_zero, running,
          started]
      · rw [outstanding, count, waiting, running]
        simp only [Multiset.card_add, Multiset.card_singleton]
        omega
  | start task waiting running outstanding =>
      constructor
      · simp only [tasks_snoc, Event.announced, Event.started, Option.elim, add_zero]
        rw [announced, ← waiting]
        abel
      · simp only [tasks_snoc, Event.started, Event.finished, Option.elim, running, started]
        abel
      · rw [outstanding, count, ← waiting, running]
        simp only [Multiset.card_add, Multiset.card_singleton]
        omega
  | finish task waiting running outstanding =>
      constructor
      · simp only [tasks_snoc, Event.announced, Event.started, Option.elim, add_zero]
        rw [announced, waiting]
      · simp only [tasks_snoc, Event.started, Event.finished, Option.elim, add_zero]
        rw [started, ← running]
        abel
      · rw [outstanding, count, waiting, ← running]
        simp only [Multiset.card_add, Multiset.card_singleton]
        omega
  | silent waiting running outstanding =>
      constructor
      · simp only [tasks_snoc, Event.announced, Event.started, Option.elim, add_zero]
        rw [announced, waiting]
      · simp only [tasks_snoc, Event.started, Event.finished, Option.elim, add_zero]
        rw [started, running]
      · rw [outstanding, count, waiting, running, Multiset.card_add]

/-- The counter counts every unfinished task, and perhaps lost ones too. -/
def Pool.Covered (pool : Pool Task) : Prop :=
  (pool.waiting + pool.running).card ≤ pool.outstanding

theorem Pool.covered_start (seeds : List Task) : (Pool.start seeds).Covered := by
  simp [Pool.Covered, Pool.start]

theorem Pool.Covered.step (covered : before.Covered) (taken : Step before event after) :
    after.Covered := by
  unfold Pool.Covered at *
  rw [Multiset.card_add] at *
  cases taken with
  | announce task working waiting running outstanding =>
      rw [waiting, running, outstanding, Multiset.card_add, Multiset.card_singleton]
      omega
  | start task waiting running outstanding =>
      rw [← waiting, Multiset.card_add, Multiset.card_singleton] at covered
      rw [running, outstanding, Multiset.card_add, Multiset.card_singleton]
      omega
  | finish task waiting running outstanding =>
      rw [← running, Multiset.card_add, Multiset.card_singleton] at covered
      rw [waiting, outstanding]
      omega
  | silent waiting running outstanding =>
      rw [waiting, running, outstanding]
      exact covered

theorem Pool.Covered.empty_of_zero (covered : before.Covered) (none : before.outstanding = 0) :
    before.waiting = 0 ∧ before.running = 0 := by
  unfold Pool.Covered at covered
  rw [Multiset.card_add, none] at covered
  exact ⟨Multiset.card_eq_zero.mp (by omega), Multiset.card_eq_zero.mp (by omega)⟩

theorem Pool.Covered.stays_zero (covered : before.Covered) (none : before.outstanding = 0)
    (taken : Step before event after) : after.outstanding = 0 := by
  cases taken with
  | announce task working waiting running outstanding =>
      exact absurd (covered.empty_of_zero none).2 working
  | start task waiting running outstanding => rw [outstanding, none]
  | finish task waiting running outstanding => rw [outstanding, none]
  | silent waiting running outstanding => rw [outstanding, none]

theorem Balance.covered (balance : Balance seeds events before) : before.Covered :=
  Nat.le_of_eq balance.outstanding.symm

theorem Balance.empty_of_zero (balance : Balance seeds events before)
    (none : before.outstanding = 0) : before.waiting = 0 ∧ before.running = 0 :=
  balance.covered.empty_of_zero none

/-- Nothing follows the last task. -/
theorem Balance.stays_zero (balance : Balance seeds events before) (none : before.outstanding = 0)
    (taken : Step before event after) : after.outstanding = 0 :=
  balance.covered.stays_zero none taken

/-- When nothing is unfinished, the tasks seeded and announced are the finished ones. -/
theorem Balance.all_finished (balance : Balance seeds events before)
    (none : before.outstanding = 0) :
    seeds + tasks Event.announced events = tasks Event.finished events := by
  obtain ⟨waiting, running⟩ := balance.empty_of_zero none
  have announced := balance.announced
  have started := balance.started
  rw [waiting, zero_add] at announced
  rw [running, zero_add] at started
  rw [announced, started]

end WsDeque.TaskPool
