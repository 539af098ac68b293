import Mathlib.Data.Fintype.Prod
import WsDeque.Distributed.Steps
import WsDeque.FiniteUpdate
import WsDeque.TaskPool

/-
Where the tasks of the distributed runtime are: the pools of the nodes, the
batches on their way and what a node carries between them form the waiting
tasks of a task pool. Every step of a node is a step of the pool, unless a
failed send drops a batch.
-/

namespace WsDeque.Distributed

open TaskPool

section

variable {Id Task : Type*}

def Message.tasks : Message Id Task → Multiset Task
  | .stealRequest _ => 0
  | .work batch => batch

def inFlight (messages : List (Message Id Task)) : Multiset Task :=
  (messages.map Message.tasks).sum

/-- The waiting tasks on their way between a pool, a channel and a closure. -/
def NodePc.carried : NodePc Id Task → Multiset Task
  | .replying _ batch => batch
  | .spawnPush _ child => {child}
  | _ => 0

/-- The task whose closure has not returned; a panicked one never will. -/
def NodePc.runs : NodePc Id Task → Multiset Task
  | .running task => {task}
  | .spawnPush task _ => {task}
  | .unwinding task => {task}
  | .unwound task => {task}
  | _ => 0

def Event.pool : Event Id Task → TaskPool.Event Task
  | .announced child => .announce child
  | .started task => .start task
  | .finished task => .finish task
  | _ => .silent

theorem inFlight_cons (message : Message Id Task) (rest : List (Message Id Task)) :
    inFlight (message :: rest) = message.tasks + inFlight rest := by
  unfold inFlight
  rw [List.map_cons, List.sum_cons]

theorem inFlight_snoc (messages : List (Message Id Task)) (message : Message Id Task) :
    inFlight (messages ++ [message]) = inFlight messages + message.tasks := by
  unfold inFlight
  rw [List.map_append, List.sum_append, List.map_singleton, List.sum_singleton]

variable [Fintype Id]

def State.waiting (state : State Id Task) : Multiset Task :=
  (∑ node, (state.pool node : Multiset Task)) + (∑ link, inFlight (state.channel link)) +
    ∑ node, (state.node node).carried

def State.active (state : State Id Task) : Multiset Task :=
  ∑ node, (state.node node).runs

def State.tasks (state : State Id Task) : Pool Task :=
  { waiting := state.waiting
    running := state.active
    outstanding := state.outstanding }

variable [DecidableEq Id]

theorem State.waiting_goto (state : State Id Task) (me : Id) (pc : NodePc Id Task) :
    Shifts state.waiting (state.node me).carried pc.carried (state.goto me pc).waiting :=
  (sum_update_shifts NodePc.carried state.node me pc).add_left _

theorem State.active_goto (state : State Id Task) (me : Id) (pc : NodePc Id Task) :
    Shifts state.active (state.node me).runs pc.runs (state.goto me pc).active :=
  sum_update_shifts NodePc.runs state.node me pc

theorem State.waiting_setPool (state : State Id Task) (me : Id) (tasks : List Task) :
    Shifts state.waiting (state.pool me) tasks (state.setPool me tasks).waiting :=
  ((sum_update_shifts (fun tasks : List Task => (tasks : Multiset Task)) state.pool me
    tasks).add_right _).add_right _

theorem State.waiting_setChannel (state : State Id Task) (link : Id × Id)
    (messages : List (Message Id Task)) :
    Shifts state.waiting (inFlight (state.channel link)) (inFlight messages)
      (state.setChannel link messages).waiting :=
  ((sum_update_shifts inFlight state.channel link messages).add_left _).add_right _

/-- The head of a channel leaves it. -/
theorem State.waiting_taken {state : State Id Task} {link : Id × Id}
    {message : Message Id Task} {rest : List (Message Id Task)}
    (channel : state.channel link = message :: rest) :
    (state.setChannel link rest).waiting + message.tasks = state.waiting := by
  apply (state.waiting_setChannel link rest).loses
  rw [channel, inFlight_cons, add_comm]

theorem State.waiting_post (state : State Id Task) (link : Id × Id)
    (message : Message Id Task) :
    (state.post link message).waiting = state.waiting + message.tasks := by
  apply (state.waiting_setChannel link _).gains
  rw [inFlight_snoc]

omit [DecidableEq Id] in
theorem State.active_ne_zero {state : State Id Task} {me : Id} {task : Task}
    (runs : (state.node me).runs = {task}) : state.active ≠ 0 := by
  intro empty
  have member : task ∈ state.active := by
    refine Multiset.mem_sum.mpr ⟨me, Finset.mem_univ me, ?_⟩
    rw [runs]
    exact Multiset.mem_singleton_self task
  rw [empty] at member
  exact Multiset.notMem_zero task member

/-! ### What a move does to the pool -/

variable {me : Id} {before shifted : State Id Task} {pc : NodePc Id Task}

/-- Tasks leave and join the pools and channels, and the node carries on. -/
theorem silent_pool (running : shifted.active = before.active)
    (outstanding : shifted.outstanding = before.outstanding)
    (waiting : shifted.waiting + pc.carried = before.waiting + (before.node me).carried)
    (node : shifted.node = before.node) (runs : (before.node me).runs = pc.runs) :
    TaskPool.Step before.tasks .silent (shifted.goto me pc).tasks := by
  rw [← node] at waiting runs
  refine .silent ?_ ?_ outstanding
  · exact add_right_cancel (Eq.trans (shifted.waiting_goto me pc) waiting)
  · exact ((shifted.active_goto me pc).same runs).trans running

end

variable {Task : Type*} {nodes : Nat} {me : Id nodes} {before after : State (Id nodes) Task}
  {event : Event (Id nodes) Task}

/-- A batch that a failed send drops is lost. -/
theorem waiting_drops {batch : List Task} {thief : Id nodes}
    (atPc : before.node me = .replying thief batch) :
    (before.goto me .drainMailbox).waiting + batch = before.waiting := by
  apply (before.waiting_goto me .drainMailbox).loses
  rw [atPc]
  exact (zero_add _).symm

/-- Every move is one of the pool, but for a batch that is dropped. -/
theorem Moves.tasks (moved : Moves nodes me before event after)
    (kept : ∀ batch, event = .drops batch → batch = []) :
    TaskPool.Step before.tasks event.pool after.tasks := by
  cases moved with
  | takesRequest sender thief rest stay batch atPc channel split half =>
      refine silent_pool rfl rfl ?_ rfl (by rw [atPc]; rfl)
      have leaves : ((before.setChannel (sender, me) rest).setPool me stay).waiting + batch =
          (before.setChannel (sender, me) rest).waiting := by
        apply (State.waiting_setPool _ me stay).loses
        change ((before.pool me : List Task) : Multiset Task) = stay + batch
        rw [split, Multiset.coe_add]
      have taken := State.waiting_taken channel
      change _ + 0 = before.waiting at taken
      rw [add_zero] at taken
      rw [atPc]
      change _ + (batch : Multiset Task) = _ + 0
      rw [leaves, taken, add_zero]
  | absorbs sender batch rest atPc channel =>
      refine silent_pool rfl rfl ?_ rfl (by rw [atPc])
      have joins : ((before.setChannel (sender, me) rest).setPool me
          (before.pool me ++ batch)).waiting =
          (before.setChannel (sender, me) rest).waiting + batch := by
        apply (State.waiting_setPool _ me _).gains
        exact (Multiset.coe_add _ _).symm
      rw [atPc]
      exact congrArg (· + 0) (joins.trans (State.waiting_taken channel))
  | starts task rest atPc pool =>
      have leaves : (before.setPool me rest).waiting + {task} = before.waiting := by
        apply (before.waiting_setPool me rest).loses
        rw [pool, coe_snoc]
      refine .start task ?_ ?_ rfl
      · have same : ((before.setPool me rest).goto me (.running task)).waiting =
            (before.setPool me rest).waiting := by
          apply (State.waiting_goto _ me _).same
          change (before.node me).carried = _
          rw [atPc]
          rfl
        exact (congrArg (· + {task}) same).trans leaves
      · refine (State.active_goto (before.setPool me rest) me _).gains ?_
        change _ = (before.node me).runs + _
        rw [atPc]
        exact (zero_add _).symm
  | answers thief batch atPc reachable =>
      refine silent_pool rfl rfl ?_ rfl (by rw [atPc]; rfl)
      rw [atPc, before.waiting_post (me, thief) (.work batch)]
      exact add_zero _
  | drops thief batch atPc dropped =>
      obtain rfl := kept batch rfl
      exact silent_pool rfl rfl (by rw [atPc]; rfl) rfl (by rw [atPc]; rfl)
  | spawns task child atPc =>
      refine .announce child ?_ ?_ ?_ rfl
      · have runs : (before.node me).runs = {task} := by rw [atPc]; rfl
        exact State.active_ne_zero runs
      · refine (before.waiting_goto me (.spawnPush task child)).gains ?_
        rw [atPc]
        exact (zero_add _).symm
      · refine (before.active_goto me (.spawnPush task child)).same ?_
        rw [atPc]
        rfl
  | pushes task child atPc =>
      refine silent_pool rfl rfl ?_ rfl (by rw [atPc]; rfl)
      have joins : (before.setPool me (before.pool me ++ [child])).waiting =
          before.waiting + {child} := by
        apply (before.waiting_setPool me _).gains
        rw [coe_snoc]
      rw [atPc, joins]
      exact add_zero _
  | finishes task atPc =>
      refine .finish task ?_ ?_ rfl
      · refine (before.waiting_goto me .drainMailbox).same ?_
        rw [atPc]
        rfl
      · refine (before.active_goto me .drainMailbox).loses ?_
        rw [atPc]
        exact (zero_add _).symm
  | requests victim atPc reachable =>
      refine silent_pool rfl rfl ?_ rfl (by rw [atPc]; rfl)
      have posted := before.waiting_post (me, victim) (.stealRequest me)
      change _ = before.waiting + 0 at posted
      rw [add_zero] at posted
      rw [atPc]
      exact congrArg (· + 0) posted
  | _ => exact silent_pool rfl rfl (by simp only [*]; rfl) rfl (by simp only [*]; rfl)

/-! ### Along a run -/

theorem start_tasks (nodes : Nat) (initial : List Task) :
    (start nodes initial).tasks = Pool.start initial := by
  have seeds : ∑ me : Id nodes, ((seedsOf (max nodes 1) initial me : List Task) : Multiset Task) =
      (initial : Multiset Task) := by
    unfold seedsOf
    rw [sum_dealt (someNode nodes), List.zipIdx_map_fst]
  unfold State.tasks Pool.start State.waiting State.active
  simp only [start, NodePc.carried, NodePc.runs, inFlight, List.map_nil, List.sum_nil,
    Finset.sum_const_zero, add_zero, seeds]

/-- The history of a run as the pool sees it. -/
def poolEvents (labels : List (Label (Id nodes) Task)) : List (TaskPool.Event Task) :=
  labels.map fun label => label.event.pool

/-- A node has found nothing unfinished. -/
def NodePc.returned {Id : Type*} : NodePc Id Task → Bool
  | .returning => true
  | .exited => true
  | _ => false

def NodePc.isPanicked {Id : Type*} : NodePc Id Task → Bool
  | .unwinding _ => true
  | .unwound _ => true
  | _ => false

end WsDeque.Distributed

