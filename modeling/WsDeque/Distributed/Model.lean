import Mathlib.Logic.Function.Basic
import WsDeque.TransitionSystem
import WsDeque.Xorshift

/-
The distributed runtime: `node_main` of every node, which share nothing but
counters and send each other messages.

A step of a node is one operation on a channel or a counter; what a node does
to its own tasks, its generator and its flag belongs to the step before. What
two nodes send a third one arrives in any order, and what is on its way may not
have arrived yet.
-/

namespace WsDeque.Distributed

/-- The nodes of `run`, which takes `nodes.max(1)` of them. -/
abbrev Id (nodes : Nat) : Type :=
  Fin (max nodes 1)

theorem someNode (nodes : Nat) : 0 < max nodes 1 :=
  Nat.lt_of_lt_of_le Nat.one_pos (Nat.le_max_right nodes 1)

inductive Message (Id Task : Type*)
  | stealRequest (thief : Id)
  /-- An empty batch declines. -/
  | work (batch : List Task)

inductive NodePc (Id Task : Type*)
  | drainMailbox
  /-- In `drain_mailbox`, with the batch split off. -/
  | replying (thief : Id) (batch : List Task)
  | migrating (count : Nat)
  /-- Inside the task's closure. -/
  | running (task : Task)
  /-- `outstanding` already counts the child. -/
  | spawnPush (task child : Task)
  | loadOutstanding
  /-- Starving, with a victim chosen. -/
  | countRequest (victim : Id)
  | requesting (victim : Id)
  /-- `node_main` returns, and its receiver is still there. -/
  | returning
  | exited
  /-- The closure of the task has panicked, and the receiver is still there. -/
  | unwinding (task : Task)
  | unwound (task : Task)

structure State (Id Task : Type*) where
  /-- `local`, whose last task is popped next. -/
  pool : Id → List Task
  rng : Id → UInt64
  pendingRequest : Id → Bool
  /-- From a sender to a receiver, the oldest message first; what the drop of a
  receiver discards stays here. -/
  channel : Id × Id → List (Message Id Task)
  outstanding : Nat
  stealMsgs : Nat
  migrated : Nat
  node : Id → NodePc Id Task

/-- What a step can leave open: whose message has arrived, if any, and the
closure's next act. -/
inductive Act (Id Task : Type*)
  | go
  | receive (sender : Id)
  | spawn (child : Task)
  | finish
  | panic

inductive Event (Id Task : Type*)
  | internal
  | announced (child : Task)
  | started (task : Task)
  | finished (task : Task)
  | requests (victim : Id)
  | takesRequest (thief : Id)
  | answers (thief : Id)
  /-- A failed send drops its batch. -/
  | drops (batch : List Task)
  | absorbs (batch : List Task)
  | returns
  | panics

structure Label (Id Task : Type*) where
  node : Id
  event : Event Id Task

/-- Whether a send to a node at this point succeeds. -/
def NodePc.receives {Id Task : Type*} : NodePc Id Task → Bool
  | .exited => false
  | .unwound _ => false
  | _ => true

variable {Task : Type*}

section

variable {Id : Type*} [DecidableEq Id]

def State.goto (state : State Id Task) (me : Id) (pc : NodePc Id Task) : State Id Task :=
  { state with node := Function.update state.node me pc }

def State.setPool (state : State Id Task) (me : Id) (tasks : List Task) : State Id Task :=
  { state with pool := Function.update state.pool me tasks }

def State.setRng (state : State Id Task) (me : Id) (rng : UInt64) : State Id Task :=
  { state with rng := Function.update state.rng me rng }

def State.setPending (state : State Id Task) (me : Id) (pending : Bool) : State Id Task :=
  { state with pendingRequest := Function.update state.pendingRequest me pending }

def State.setChannel (state : State Id Task) (link : Id × Id)
    (messages : List (Message Id Task)) : State Id Task :=
  { state with channel := Function.update state.channel link messages }

def State.post (state : State Id Task) (link : Id × Id) (message : Message Id Task) :
    State Id Task :=
  state.setChannel link (state.channel link ++ [message])

end

/-- The half victim policy: how many tasks a node with this many gives away. -/
def give (surplus : Nat) : Nat :=
  (surplus - 1) / 2

section

variable (nodes : Nat) (me : Id nodes)

/-- `drain_mailbox` takes a message. -/
def receiveStep (state : State (Id nodes) Task) (link : Id nodes × Id nodes) :
    Option (Event (Id nodes) Task × State (Id nodes) Task) :=
  match state.channel link with
  | [] => none
  | .stealRequest thief :: rest =>
      let kept := (state.pool me).length - give (state.pool me).length
      some (.takesRequest thief,
        ((state.setChannel link rest).setPool me ((state.pool me).take kept)).goto me
          (.replying thief ((state.pool me).drop kept)))
  | .work batch :: rest =>
      some (.absorbs batch,
        (((state.setChannel link rest).setPool me (state.pool me ++ batch)).setPending me
          false).goto me .drainMailbox)

def step (state : State (Id nodes) Task) (act : Act (Id nodes) Task) :
    Option (Event (Id nodes) Task × State (Id nodes) Task) :=
  match state.node me, act with
  | .drainMailbox, .receive sender => receiveStep nodes me state (sender, me)
  -- Nothing has arrived, and the node pops a task of its own.
  | .drainMailbox, .go =>
      match (state.pool me).getLast? with
      | some task =>
          some (.started task, (state.setPool me (state.pool me).dropLast).goto me (.running task))
      | none => some (.internal, state.goto me .loadOutstanding)
  | .replying thief batch, .go =>
      if (state.node thief).receives then
        some (.answers thief,
          (state.post (me, thief) (.work batch)).goto me (.migrating batch.length))
      else some (.drops batch, state.goto me .drainMailbox)
  | .migrating count, .go =>
      some (.internal, { state with migrated := state.migrated + count }.goto me .drainMailbox)
  | .running task, .spawn child =>
      some (.announced child,
        { state with outstanding := state.outstanding + 1 }.goto me (.spawnPush task child))
  | .spawnPush task child, .go =>
      some (.internal, (state.setPool me (state.pool me ++ [child])).goto me (.running task))
  | .running task, .finish =>
      some (.finished task,
        { state with outstanding := state.outstanding - 1 }.goto me .drainMailbox)
  | .running task, .panic => some (.panics, state.goto me (.unwinding task))
  | .unwinding task, .go => some (.internal, state.goto me (.unwound task))
  | .loadOutstanding, .go =>
      if state.outstanding = 0 then some (.returns, state.goto me .returning)
      else if state.pendingRequest me = false ∧ 1 < max nodes 1 then
        let rng := xorshift (state.rng me)
        let victim : Id nodes := ⟨rng.toNat % max nodes 1, Nat.mod_lt _ (someNode nodes)⟩
        if victim = me then some (.internal, (state.setRng me rng).goto me .drainMailbox)
        else some (.internal, (state.setRng me rng).goto me (.countRequest victim))
      else some (.internal, state.goto me .drainMailbox)
  | .countRequest victim, .go =>
      some (.internal,
        { state with stealMsgs := state.stealMsgs + 1 }.goto me (.requesting victim))
  | .requesting victim, .go =>
      if (state.node victim).receives then
        some (.requests victim,
          ((state.post (me, victim) (.stealRequest me)).setPending me true).goto me .drainMailbox)
      else some (.internal, state.goto me .drainMailbox)
  | .returning, .go => some (.internal, state.goto me .exited)
  | _, _ => none

end

def next (nodes : Nat) (state : State (Id nodes) Task)
    (choice : Id nodes × Act (Id nodes) Task) :
    Option (Label (Id nodes) Task × State (Id nodes) Task) :=
  (step nodes choice.1 state choice.2).map fun taken =>
    ({ node := choice.1
       event := taken.1 }, taken.2)

/-- The seeds that `run` deals to one node. -/
def seedsOf (nodes : Nat) (initial : List Task) (me : Nat) : List Task :=
  (initial.zipIdx.filter fun seed => seed.2 % nodes = me).map Prod.fst

def start (nodes : Nat) (initial : List Task) : State (Id nodes) Task :=
  { pool := fun me => seedsOf (max nodes 1) initial me
    rng := fun me => seedRng me
    pendingRequest := fun _ => false
    channel := fun _ => []
    outstanding := initial.length
    stealMsgs := 0
    migrated := 0
    node := fun _ => .drainMailbox }

/-- The threads of `run`, which starts none without a seed. -/
def system (nodes : Nat) (initial : List Task) :
    TransitionSystem (State (Id nodes) Task) (Label (Id nodes) Task) :=
  .ofNext (fun state => initial ≠ [] ∧ state = start nodes initial) (next nodes)

end WsDeque.Distributed
