import Mathlib.Data.List.Basic

/-
The persistent FIFO queue: a log of records of which a crash keeps the durable
part, and a volatile view of the contents that `recover` rebuilds from the log.
-/

namespace WsDeque.Persistent

inductive Record
  | enqueue (value : UInt64)
  | dequeue
  deriving DecidableEq

structure PersistentMemory where
  durable : List Record
  volatile : List Record
  psyncs : Nat

namespace PersistentMemory

def new : PersistentMemory :=
  { durable := []
    volatile := []
    psyncs := 0 }

def pwb (memory : PersistentMemory) (record : Record) : PersistentMemory :=
  { memory with volatile := memory.volatile ++ [record] }

def psync (memory : PersistentMemory) : PersistentMemory :=
  { durable := memory.durable ++ memory.volatile
    volatile := []
    psyncs := memory.psyncs + 1 }

def crash (memory : PersistentMemory) : PersistentMemory :=
  { memory with volatile := [] }

end PersistentMemory

/-- One round of the loop in `recover`. -/
def replayRecord (rebuilt : List UInt64) : Record → List UInt64
  | .enqueue value => rebuilt ++ [value]
  | .dequeue => rebuilt.tail

def replay (log : List Record) : List UInt64 :=
  log.foldl replayRecord []

structure PersistentQueue where
  mem : PersistentMemory
  live : List UInt64

namespace PersistentQueue

def new : PersistentQueue :=
  { mem := PersistentMemory.new
    live := [] }

/-! ### The inner steps of the calls -/

def pwb (queue : PersistentQueue) (record : Record) : PersistentQueue :=
  { queue with mem := queue.mem.pwb record }

def psync (queue : PersistentQueue) : PersistentQueue :=
  { queue with mem := queue.mem.psync }

def pushBack (queue : PersistentQueue) (value : UInt64) : PersistentQueue :=
  { queue with live := queue.live ++ [value] }

def popFront (queue : PersistentQueue) : Option (UInt64 × PersistentQueue) :=
  match queue.live with
  | [] => none
  | value :: rest => some (value, { queue with live := rest })

/-! ### The calls -/

def enqueue (queue : PersistentQueue) (value : UInt64) : PersistentQueue :=
  ((queue.pwb (.enqueue value)).psync).pushBack value

def dequeue (queue : PersistentQueue) : Option UInt64 × PersistentQueue :=
  match queue.popFront with
  | none => (none, queue)
  | some (value, popped) => (some value, (popped.pwb .dequeue).psync)

def enqueueUnsynced (queue : PersistentQueue) (value : UInt64) : PersistentQueue :=
  (queue.pwb (.enqueue value)).pushBack value

def crashNow (queue : PersistentQueue) : PersistentQueue :=
  { mem := queue.mem.crash
    live := [] }

def recover (queue : PersistentQueue) : List UInt64 × PersistentQueue :=
  let rebuilt := replay queue.mem.durable
  (rebuilt, { queue with live := rebuilt })

/-- Everything in the log, durable or only staged. -/
def log (queue : PersistentQueue) : List Record :=
  queue.mem.durable ++ queue.mem.volatile

end PersistentQueue

/-! ### Replaying a log -/

theorem replay_append (earlier later : List Record) :
    replay (earlier ++ later) = later.foldl replayRecord (replay earlier) :=
  List.foldl_append

theorem replay_enqueue (log : List Record) (value : UInt64) :
    replay (log ++ [.enqueue value]) = replay log ++ [value] := by
  rw [replay_append]
  rfl

theorem replay_dequeue (log : List Record) : replay (log ++ [.dequeue]) = (replay log).tail := by
  rw [replay_append]
  rfl

theorem replay_enqueues (log : List Record) (values : List UInt64) :
    replay (log ++ values.map .enqueue) = replay log ++ values := by
  induction values generalizing log with
  | nil => simp
  | cons value rest ih =>
      have split : log ++ (value :: rest).map Record.enqueue =
          (log ++ [.enqueue value]) ++ rest.map .enqueue := by simp
      rw [split, ih, replay_enqueue, List.append_assoc, List.singleton_append]

end WsDeque.Persistent
