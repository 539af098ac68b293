import WsDeque.SerialCalls

/-
The plain queue that WS-MULT is when no two calls overlap.
-/

namespace WsDeque.Multiplicity

variable {ι α : Type*}

inductive Call (ι α : Type*)
  | put (task : α)
  | take
  /-- `stealer`, or `clone` on another handle. -/
  | newStealer (thief : ι)
  | steal (thief : ι)

inductive Reply (α : Type*)
  | done
  /-- Nothing stands for `Empty`. -/
  | took (task : Option α)
  deriving DecidableEq

/-- The tasks still there, the oldest first, and the handles made so far. -/
structure Fifo (ι α : Type*) where
  tasks : List α
  handles : List ι

def Fifo.remove (queue : Fifo ι α) : Reply α × Fifo ι α :=
  (.took queue.tasks.head?, { queue with tasks := queue.tasks.tail })

def Call.answer : Call ι α → Fifo ι α → Reply α × Fifo ι α
  | .put task, queue => (.done, { queue with tasks := queue.tasks ++ [task] })
  | .take, queue => queue.remove
  | .newStealer thief, queue => (.done, { queue with handles := thief :: queue.handles })
  | .steal _, queue => queue.remove

/-- A handle is made once, and before it steals. -/
def Call.Admits : Call ι α → Fifo ι α → Prop
  | .put _, _ | .take, _ => True
  | .newStealer thief, queue => thief ∉ queue.handles
  | .steal thief, queue => thief ∈ queue.handles

instance [DecidableEq ι] : (call : Call ι α) → (queue : Fifo ι α) → Decidable (call.Admits queue)
  | .put _, _ | .take, _ => inferInstanceAs (Decidable True)
  | .newStealer thief, queue => inferInstanceAs (Decidable (thief ∉ queue.handles))
  | .steal thief, queue => inferInstanceAs (Decidable (thief ∈ queue.handles))

def Fifo.new (ι α : Type*) : Fifo ι α :=
  { tasks := []
    handles := [] }

end WsDeque.Multiplicity
