import WsDeque.Idempotent.Serial
import WsDeque.Linked.Storage

/-
The list as a plain queue while no two calls overlap.
-/

namespace WsDeque.Linked

open Idempotent (Take found found_of_getElem? found_of_le pastHead pastHead_le pastHead_of_le
  pastHead_of_lt removed)
open Multiplicity (Call Fifo Reply)
open SerialCalls (Refines)

variable {ι α : Type*}

def OwnerResult.reply : OwnerResult α → Reply α
  | .put => .done
  | .took _ result => .took result.task

def State.returned (state : State ι α) : Option (Reply α × State ι α) :=
  match state.owner with
  | .returned result => some (result.reply, { state with owner := .idle })
  | _ => none

variable [DecidableEq ι]

def State.stole (thief : ι) (state : State ι α) : Option (Reply α × State ι α) :=
  match state.thief thief with
  | .returned _ result =>
      some (.took result.task, state.setThief thief (state.cursor thief) .idle)
  | _ => none

def ownerMoves (state : State ι α) : Option (State ι α) :=
  (next state .owner).map Prod.snd

def thiefMoves (thief : ι) (state : State ι α) : Option (State ι α) :=
  (next state (.thief thief)).map Prod.snd

def perform (fuel : Nat) (call : Call ι α) (state : State ι α) : Option (Reply α × State ι α) :=
  match call with
  | .put task =>
      (next state (.putCall task)).bind fun called => runAlone State.returned ownerMoves fuel called.2
  | .take => (next state .takeCall).bind fun called => runAlone State.returned ownerMoves fuel called.2
  | .newStealer thief => (next state (.newStealer thief)).map fun made => (.done, made.2)
  | .steal thief =>
      (next state (.stealCall thief)).bind fun called =>
        runAlone (State.stole thief) (thiefMoves thief) fuel called.2

theorem perform_fuelOnly :
    SerialCalls.FuelOnly (perform : Nat → Call ι α → State ι α → Option (Reply α × State ι α)) := by
  intro fuel more call state result enough returned
  cases call with
  | newStealer thief => exact returned
  | _ =>
      obtain ⟨called, started, ran⟩ := Option.bind_eq_some_iff.mp returned
      exact Option.bind_eq_some_iff.mpr ⟨called, started, runAlone_mono enough ran⟩

/-! ### The owner by itself -/

/-- Inside a put of the task or inside a take, and what is known there. -/
def OwnerPc.Serves (tasks : List α) (start : Nat) (inner : Inner α) :
    Option α → OwnerPc α → Prop
  | some task, .putStoreTask given => given = task ∧ inner.head = start
  | some _, .putStoreTail _ | some _, .putStoreNext _ | some _, .returned .put =>
      inner.head = start
  | none, .takeLoadHead => inner.head = start
  | none, .takeLoadTail head | none, .slotLoadNext head _ | none, .slotLoadCell head _ =>
      head = start ∧ inner.head = start
  | none, .takeMaxHead head task => head = start ∧ inner.head = start ∧ tasks[start]? = some task
  | none, .returned (.took _ result) =>
      result = found tasks start ∧ inner.head = pastHead tasks start
  | _, _ => False

/-- What the call has put so far. -/
def OwnerPc.given : Option α → OwnerPc α → List α
  | some task, .putStoreTail _ | some task, .putStoreNext _ | some task, .returned _ => [task]
  | _, _ => []

/-- How many steps are left of it at most. -/
def OwnerPc.left (tailNode : Nat) : OwnerPc α → Nat
  | .putStoreTask _ => 3
  | .putStoreTail _ => 2
  | .putStoreNext _ => 1
  | .takeLoadHead => tailNode + 5
  | .takeLoadTail _ => tailNode + 4
  | .slotLoadNext _ node => tailNode - node + 3
  | .slotLoadCell _ _ => 2
  | .takeMaxHead _ _ => 1
  | _ => 0

variable {tasks : List α} {start : Nat} {given : Option α} {inner after : Inner α}
  {tailNode tailNode' : NodePtr} {tail tail' : Nat} {pc pc' : OwnerPc α} {access : Access α}

structure OwnerProgress (tasks : List α) (start : Nat) (given : Option α) (tailNode : NodePtr)
    (pc : OwnerPc α) (access : Access α) (after : Inner α) (tailNode' : NodePtr)
    (pc' : OwnerPc α) : Prop where
  serves : pc'.Serves tasks start after given
  stores : pc'.given given = pc.given given ++ access.task.toList
  fewer : pc'.left tailNode' < pc.left tailNode

/-- From a node on, the loop of `load_slot` reads the cell or moves on. -/
theorem slotFrom_serves (nodes : Nodes inner tailNode tasks) {node : Nat} (upTo : node ≤ tailNode)
    (above : node * nodeSize ≤ start) (same : inner.head = start) :
    (slotFrom inner start node).Serves tasks start inner none ∧
      (slotFrom inner start node).given (none : Option α) = [] ∧
      (slotFrom inner start node).left tailNode ≤ tailNode - node + 3 := by
  unfold slotFrom
  rw [nodes.base node upTo]
  split
  · exact ⟨⟨rfl, same⟩, rfl, Nat.le_refl _⟩
  · rw [if_neg (Nat.not_lt.mpr above)]
    exact ⟨⟨rfl, same⟩, rfl, by simp only [OwnerPc.left]; omega⟩

theorem take_progress (stocked : Stocked tasks inner tailNode tail pc)
    (serves : pc.Serves tasks start inner none) (running : ∀ result, pc ≠ .returned result) :
    ∃ access after tail' pc',
      ownerStep inner tailNode tail pc = some (access, after, tailNode, tail', pc') ∧
        OwnerProgress tasks start none tailNode pc access after tailNode pc' := by
  have meets := stocked.owner
  have nodes := stocked.nodes
  cases pc with
  | takeLoadHead => exact ⟨_, _, _, _, rfl, ⟨serves, serves⟩, rfl, Nat.lt_succ_self _⟩
  | takeLoadTail head =>
      obtain ⟨rfl, same⟩ := serves
      simp only [ownerStep]
      split
      · rename_i reached
        rw [meets.stored, ← meets.atTail] at reached
        refine ⟨_, _, _, _, rfl, ⟨(found_of_le reached).symm, ?_⟩, rfl, Nat.succ_pos _⟩
        rw [pastHead_of_le reached, same]
      · rw [nodes.first]
        obtain ⟨serves, nothing, few⟩ := slotFrom_serves nodes (Nat.zero_le _)
          (by rw [Nat.zero_mul]; exact Nat.zero_le _) same
        exact ⟨_, _, _, _, rfl, serves, nothing, Nat.lt_succ_of_le few⟩
  | slotLoadNext head node =>
      obtain ⟨rfl, same⟩ := serves
      obtain ⟨ready, below, upTo, further⟩ := meets
      obtain ⟨nextUpTo, linked⟩ := nodes.next_of_lt further below
      obtain ⟨serves, nothing, few⟩ := slotFrom_serves nodes nextUpTo further same
      simp only [ownerStep, linked]
      refine ⟨_, _, _, _, rfl, serves, nothing, Nat.lt_of_le_of_lt few ?_⟩
      simp only [OwnerPc.left]
      omega
  | slotLoadCell head node =>
      obtain ⟨rfl, same⟩ := serves
      obtain ⟨ready, below, upTo, above, within⟩ := meets
      have cell := nodes.cell upTo above within
      rw [ready.stored, ← ready.atTail] at below
      have there := List.getElem?_eq_getElem below
      rw [← nodes.base node upTo, there] at cell
      simp only [ownerStep, cell]
      exact ⟨_, _, _, _, rfl, ⟨rfl, same, there⟩, rfl, Nat.lt_succ_self _⟩
  | takeMaxHead head task =>
      obtain ⟨rfl, same, there⟩ := serves
      refine ⟨_, _, _, _, rfl, ⟨(found_of_getElem? there).symm, ?_⟩, rfl, Nat.zero_lt_one⟩
      rw [pastHead_of_lt (List.getElem?_eq_some_iff.mp there).1]
      change max inner.head (head + 1) = _
      omega
  | returned result => exact absurd rfl (running result)
  | _ => cases serves

theorem put_progress {task : α} (stocked : Stocked (tasks ++ pc.given (some task)) inner tailNode
      tail pc)
    (serves : pc.Serves tasks start inner (some task)) (running : ∀ result, pc ≠ .returned result) :
    ∃ access after tailNode' tail' pc',
      ownerStep inner tailNode tail pc = some (access, after, tailNode', tail', pc') ∧
        OwnerProgress tasks start (some task) tailNode pc access after tailNode' pc' := by
  have meets := stocked.owner
  have nodes := stocked.nodes
  cases pc with
  | putStoreTask given =>
      obtain ⟨rfl, same⟩ := serves
      have base := nodes.base tailNode (Nat.le_refl _)
      have above := meets.above
      have below := meets.below
      have inside : ¬(tail < (inner.nodes tailNode).base ∨
          nodeSize ≤ tail - (inner.nodes tailNode).base) := by
        rw [base]
        unfold nodeSize at *
        omega
      simp only [ownerStep, if_neg inside]
      exact ⟨_, _, _, _, _, rfl, same, rfl, Nat.lt_succ_self _⟩
  | putStoreTail offset =>
      simp only [ownerStep]
      split
      · exact ⟨_, _, _, _, _, rfl, serves, rfl, Nat.lt_succ_self _⟩
      · exact ⟨_, _, _, _, _, rfl, serves, rfl, Nat.succ_pos _⟩
  | putStoreNext fresh => exact ⟨_, _, _, _, _, rfl, serves, rfl, Nat.zero_lt_one⟩
  | returned result => exact absurd rfl (running result)
  | _ => cases serves

theorem owner_progress (stocked : Stocked (tasks ++ pc.given given) inner tailNode tail pc)
    (serves : pc.Serves tasks start inner given) (running : ∀ result, pc ≠ .returned result) :
    ∃ access after tailNode' tail' pc',
      ownerStep inner tailNode tail pc = some (access, after, tailNode', tail', pc') ∧
        OwnerProgress tasks start given tailNode pc access after tailNode' pc' := by
  cases given with
  | some task => exact put_progress stocked serves running
  | none =>
      have nothing : pc.given (none : Option α) = [] := by cases pc <;> rfl
      rw [nothing, List.append_nil] at stocked
      obtain ⟨access, after, tail', pc', taken, progress⟩ := take_progress stocked serves running
      exact ⟨access, after, tailNode, tail', pc', taken, progress⟩

/-! ### A thief by itself -/

/-- Inside a steal, and what is known there. -/
def ThiefPc.Serves (tasks : List α) (start : Nat) (inner : Inner α) : ThiefPc α → Prop
  | .loadHead => inner.head = start
  | .loadTail head | .loadNext head | .loadCell head => head = start ∧ inner.head = start
  | .maxHead head task => head = start ∧ inner.head = start ∧ tasks[start]? = some task
  | .returned _ result => result = found tasks start ∧ inner.head = pastHead tasks start
  | _ => False

def ThiefPc.left (tailNode : NodePtr) (cursor : Cursor) : ThiefPc α → Nat
  | .loadHead => tailNode + 5
  | .loadTail _ => tailNode + 4
  | .loadNext _ => tailNode - cursor.node + 3
  | .loadCell _ => 2
  | .maxHead _ _ => 1
  | _ => 0

variable {cursor cursor' : Cursor} {thiefPc thiefPc' : ThiefPc α}

theorem walkFrom_serves {base : Nat} (cursor : Cursor) (above : base ≤ start)
    (same : inner.head = start) :
    (walkFrom start base : ThiefPc α).Serves tasks start inner ∧
      (walkFrom start base : ThiefPc α).left tailNode cursor ≤ tailNode - cursor.node + 3 := by
  unfold walkFrom
  split
  · exact ⟨⟨rfl, same⟩, Nat.le_refl _⟩
  · rw [if_neg (Nat.not_lt.mpr above)]
    exact ⟨⟨rfl, same⟩, by simp only [ThiefPc.left]; omega⟩

theorem steal_progress (nodes : Nodes inner tailNode tasks) (published : inner.tail = tasks.length)
    (here : cursor.Meets inner tailNode) (meets : thiefPc.Meets inner cursor)
    (serves : thiefPc.Serves tasks start inner)
    (running : ∀ head result, thiefPc ≠ .returned head result) :
    ∃ access after cursor' thiefPc',
      thiefStep inner cursor thiefPc = some (access, after, cursor', thiefPc') ∧
        thiefPc'.Serves tasks start after ∧
          thiefPc'.left tailNode cursor' < thiefPc.left tailNode cursor := by
  cases thiefPc with
  | loadHead => exact ⟨_, _, _, _, rfl, ⟨serves, serves⟩, Nat.lt_succ_self _⟩
  | loadTail head =>
      obtain ⟨rfl, same⟩ := serves
      simp only [thiefStep]
      split
      · rename_i reached
        rw [published] at reached
        refine ⟨_, _, _, _, rfl, ⟨(found_of_le reached).symm, ?_⟩, Nat.succ_pos _⟩
        rw [pastHead_of_le reached, same]
      · obtain ⟨serves, few⟩ := walkFrom_serves cursor meets.1 same
        refine ⟨_, _, _, _, rfl, serves, Nat.lt_of_le_of_lt few ?_⟩
        simp only [ThiefPc.left]
        omega
  | loadNext head =>
      obtain ⟨rfl, same⟩ := serves
      obtain ⟨further, _reached, below⟩ := meets
      have behind : (cursor.node + 1) * nodeSize ≤ head := by
        rw [Nat.succ_mul, ← here.base]
        exact further
      obtain ⟨upTo, linked⟩ := nodes.next_of_lt behind below
      obtain ⟨serves, few⟩ := walkFrom_serves
        { node := cursor.node + 1
          base := cursor.base + nodeSize } further same
      simp only [thiefStep, linked]
      refine ⟨_, _, _, _, rfl, serves, Nat.lt_of_le_of_lt few ?_⟩
      simp only [ThiefPc.left]
      omega
  | loadCell head =>
      obtain ⟨rfl, same⟩ := serves
      obtain ⟨above, within, below⟩ := meets
      have base := here.base
      rw [base] at above within
      have cell := nodes.cell here.upTo above (by rw [Nat.succ_mul]; exact within)
      rw [published] at below
      have there := List.getElem?_eq_getElem below
      rw [← base, there] at cell
      simp only [thiefStep, cell]
      exact ⟨_, _, _, _, rfl, ⟨rfl, same, there⟩, Nat.lt_succ_self _⟩
  | maxHead head task =>
      obtain ⟨rfl, same, there⟩ := serves
      refine ⟨_, _, _, _, rfl, ⟨(found_of_getElem? there).symm, ?_⟩, Nat.zero_lt_one⟩
      rw [pastHead_of_lt (List.getElem?_eq_some_iff.mp there).1]
      change max inner.head (head + 1) = _
      omega
  | returned head result => exact absurd rfl (running head result)
  | _ => cases serves

/-! ### The queue between two calls -/

structure Between (tasks : List α) (handles : List ι) (state : State ι α) : Prop where
  stored : Stored tasks state
  owner : state.owner = .idle
  thief : ∀ thief, state.thief thief = if thief ∈ handles then .idle else .absent
  head : state.inner.head ≤ tasks.length

/-- The tasks from the shared index on are the queue. -/
def Represents (state : State ι α) (queue : Fifo ι α) : Prop :=
  ∃ tasks, Between tasks queue.handles state ∧ queue.tasks = tasks.drop state.inner.head

variable {state begun : State ι α} {queue : Fifo ι α} {handles : List ι} {thief : ι}

/-- Inside a call of the owner that started from this state. -/
structure Serving (tasks : List α) (given : Option α) (begun state : State ι α) : Prop where
  stored : Stored (tasks ++ state.owner.given given) state
  serves : state.owner.Serves tasks begun.inner.head state.inner given
  thief : state.thief = begun.thief

theorem Serving.progress (serving : Serving tasks given begun state)
    (running : ∀ result, state.owner ≠ .returned result) :
    ∃ after, ownerMoves state = some after ∧ Serving tasks given begun after ∧
      after.owner.left after.tailNode < state.owner.left state.tailNode := by
  obtain ⟨access, inner, tailNode, tail, pc, taken, progress⟩ :=
    owner_progress serving.stored.stocked serving.serves running
  have moved : next state .owner = some (.owner access,
      { state with
        inner := inner
        tailNode := tailNode
        tail := tail
        owner := pc }) := by
    simp only [next, taken, Option.map_some]
  refine
    ⟨{ state with
        inner := inner
        tailNode := tailNode
        tail := tail
        owner := pc }, by rw [ownerMoves, moved, Option.map_some], ?_, progress.fewer⟩
  constructor
  · have stored := serving.stored.step moved
    rw [List.append_assoc] at stored
    change Stored (tasks ++ pc.given given) _
    rw [progress.stores]
    exact stored
  · exact progress.serves
  · exact serving.thief

/-- The call returns what a queue would, and leaves what a queue would. -/
structure Served (tasks : List α) (handles : List ι) (given : Option α) (head : Nat)
    (reply : Reply α) (after : State ι α) : Prop where
  reply : reply = given.elim (.took (found tasks head).task) fun _task => .done
  between : Between (tasks ++ given.toList) handles after
  head : after.inner.head = given.elim (pastHead tasks head) fun _task => head

theorem Serving.ends (serving : Serving tasks given begun state)
    (between : Between tasks handles begun) {result : OwnerResult α}
    (done : state.owner = .returned result) :
    Served tasks handles given begun.inner.head result.reply { state with owner := .idle } := by
  have returned : next state .ownerReturn =
      some (.ownerReturn result, { state with owner := .idle }) := by
    simp only [next, done]
  have stored := serving.stored.step returned
  simp only [published, Option.toList_none, List.append_nil] at stored
  have serves := serving.serves
  have thief : ∀ thief, state.thief thief = if thief ∈ handles then .idle else .absent := by
    intro thief
    rw [serving.thief]
    exact between.thief thief
  rw [done] at serves stored
  cases given with
  | some task =>
      cases result with
      | put =>
          have head : state.inner.head = begun.inner.head := serves
          refine ⟨rfl, ⟨stored, rfl, thief, ?_⟩, head⟩
          change state.inner.head ≤ _
          rw [head, List.length_append]
          exact Nat.le_add_right_of_le between.head
      | took place result => cases serves
  | none =>
      cases result with
      | put => cases serves
      | took place result =>
          obtain ⟨rfl, head⟩ := serves
          refine ⟨rfl, ⟨stored, rfl, thief, ?_⟩, head⟩
          change state.inner.head ≤ _
          rw [head, Option.toList_none, List.append_nil]
          exact pastHead_le between.head

theorem Serving.returns (serving : Serving tasks given begun state)
    (between : Between tasks handles begun) :
    ∃ fuel reply after, runAlone State.returned ownerMoves fuel state = some (reply, after) ∧
      Served tasks handles given begun.inner.head reply after := by
  have progress : ∀ now, Serving tasks given begun now →
      (∃ done, now.returned = some done ∧
        Served tasks handles given begun.inner.head done.1 done.2) ∨
      now.returned = none ∧
        ∃ after, ownerMoves now = some after ∧ Serving tasks given begun after ∧
          after.owner.left after.tailNode < now.owner.left now.tailNode := by
    intro now serving
    by_cases done : ∃ result, now.owner = .returned result
    · left
      obtain ⟨result, done⟩ := done
      have ended : now.returned = some (result.reply, { now with owner := .idle }) := by
        simp only [State.returned, done]
      exact ⟨_, ended, serving.ends between done⟩
    · right
      have running : now.returned = none := by
        unfold State.returned
        split
        · exact absurd ⟨_, ‹_›⟩ done
        · rfl
      exact ⟨running, serving.progress (fun result same => done ⟨result, same⟩)⟩
  obtain ⟨fuel, ⟨reply, after⟩, ran, served⟩ := runAlone_returns
    (fun now => now.owner.left now.tailNode) progress serving
  exact ⟨fuel, reply, after, ran, served⟩

/-- Inside a steal that started from this state. -/
structure Stealing (tasks : List α) (thief : ι) (begun state : State ι α) : Prop where
  stored : Stored tasks state
  serves : (state.thief thief).Serves tasks begun.inner.head state.inner
  owner : state.owner = .idle
  others : ∀ other ≠ thief, state.thief other = begun.thief other

theorem Stealing.progress (stealing : Stealing tasks thief begun state)
    (running : ∀ head result, state.thief thief ≠ .returned head result) :
    ∃ after, thiefMoves thief state = some after ∧ Stealing tasks thief begun after ∧
      (after.thief thief).left after.tailNode (after.cursor thief) <
        (state.thief thief).left state.tailNode (state.cursor thief) := by
  have stored := stealing.stored
  have ready := stored.stocked.owner
  rw [stealing.owner] at ready
  obtain ⟨access, inner, cursor, pc, taken, serves, fewer⟩ :=
    steal_progress stored.stocked.nodes (ready.stored.trans ready.atTail.symm)
      (stored.cursor thief) (stored.thief thief) stealing.serves running
  have moved : next state (.thief thief) = some (.thief thief access,
      { state with inner := inner }.setThief thief cursor pc) := by
    simp only [next, taken, Option.map_some]
  have turned : ({ state with inner := inner }.setThief thief cursor pc).thief thief = pc :=
    Function.update_self ..
  refine
    ⟨{ state with inner := inner }.setThief thief cursor pc,
      by rw [thiefMoves, moved, Option.map_some], ?_, ?_⟩
  · constructor
    · have kept := stored.step moved
      simp only [published, Option.toList_none, List.append_nil] at kept
      exact kept
    · rw [turned]
      exact serves
    · exact stealing.owner
    · intro other different
      rw [← stealing.others other different]
      exact Function.update_of_ne different ..
  · have placed : ({ state with inner := inner }.setThief thief cursor pc).cursor thief = cursor :=
      Function.update_self ..
    rw [turned, placed]
    exact fewer

theorem Stealing.ends (stealing : Stealing tasks thief begun state)
    (between : Between tasks handles begun) (known : thief ∈ handles) {head : Nat}
    {result : Take α} (done : state.thief thief = .returned head result) :
    Served tasks handles none begun.inner.head (.took result.task)
      (state.setThief thief (state.cursor thief) .idle) := by
  have returned : next state (.stealReturn thief) = some (.stealReturn thief head result,
      state.setThief thief (state.cursor thief) .idle) := by
    simp only [next, done]
  have stored := stealing.stored.step returned
  simp only [published, Option.toList_none, List.append_nil] at stored
  have serves := stealing.serves
  rw [done] at serves
  obtain ⟨rfl, head⟩ := serves
  refine ⟨rfl, ⟨?_, stealing.owner, ?_, ?_⟩, head⟩
  · rw [Option.toList_none, List.append_nil]
    exact stored
  · intro other
    by_cases same : other = thief
    · subst same
      rw [if_pos known]
      exact Function.update_self ..
    · rw [← between.thief other, ← stealing.others other same]
      exact Function.update_of_ne same ..
  · change state.inner.head ≤ _
    rw [head, Option.toList_none, List.append_nil]
    exact pastHead_le between.head

theorem Stealing.returns (stealing : Stealing tasks thief begun state)
    (between : Between tasks handles begun) (known : thief ∈ handles) :
    ∃ fuel reply after, runAlone (State.stole thief) (thiefMoves thief) fuel state =
        some (reply, after) ∧
      Served tasks handles none begun.inner.head reply after := by
  have progress : ∀ now, Stealing tasks thief begun now →
      (∃ done, now.stole thief = some done ∧
        Served tasks handles none begun.inner.head done.1 done.2) ∨
      now.stole thief = none ∧
        ∃ after, thiefMoves thief now = some after ∧ Stealing tasks thief begun after ∧
          (after.thief thief).left after.tailNode (after.cursor thief) <
            (now.thief thief).left now.tailNode (now.cursor thief) := by
    intro now stealing
    by_cases done : ∃ head result, now.thief thief = .returned head result
    · left
      obtain ⟨head, result, done⟩ := done
      have ended : now.stole thief = some (.took result.task,
          now.setThief thief (now.cursor thief) .idle) := by
        simp only [State.stole, done]
      exact ⟨_, ended, stealing.ends between known done⟩
    · right
      have running : now.stole thief = none := by
        unfold State.stole
        split
        · exact absurd ⟨_, _, ‹_›⟩ done
        · rfl
      exact ⟨running, stealing.progress (fun head result same => done ⟨head, result, same⟩)⟩
  obtain ⟨fuel, ⟨reply, after⟩, ran, served⟩ := runAlone_returns
    (fun now => (now.thief thief).left now.tailNode (now.cursor thief)) progress stealing
  exact ⟨fuel, reply, after, ran, served⟩

theorem perform_refines :
    Refines Call.answer (perform : Nat → Call ι α → State ι α → Option (Reply α × State ι α))
      Call.Admits Represents := by
  rintro call state queue ⟨tasks, between, rest⟩ admitted
  obtain ⟨task, dropped⟩ := removed between.head
  cases call with
  | put task =>
      have started : next state (.putCall task) = some (.putCall task,
          { state with owner := .putStoreTask task }) := by
        simp only [next, between.owner]
      have serving : Serving tasks (some task) state { state with owner := .putStoreTask task } :=
        { stored := between.stored.step started
          serves := ⟨rfl, rfl⟩
          thief := rfl }
      obtain ⟨fuel, reply, after, ran, served⟩ := serving.returns between
      refine ⟨fuel, after, ?_, tasks ++ [task], served.between, ?_⟩
      · simp only [perform, started, Option.bind_some, ran, served.reply, Option.elim_some,
          Call.answer]
      · change queue.tasks ++ [task] = _
        rw [rest, served.head, Option.elim_some, List.drop_append_of_le_length between.head]
  | take =>
      have started : next state .takeCall = some (.takeCall,
          { state with owner := .takeLoadHead }) := by
        simp only [next, between.owner]
      have serving : Serving tasks none state { state with owner := .takeLoadHead } :=
        { stored := between.stored.step started
          serves := rfl
          thief := rfl }
      obtain ⟨fuel, reply, after, ran, served⟩ := serving.returns between
      have kept := served.between
      rw [Option.toList_none, List.append_nil] at kept
      refine ⟨fuel, after, ?_, tasks, kept, ?_⟩
      · simp only [perform, started, Option.bind_some, ran, served.reply, Option.elim_none,
          Call.answer, Fifo.remove, task, rest]
      · change queue.tasks.tail = _
        rw [served.head, Option.elim_none, dropped, rest]
  | newStealer thief =>
      have absent : state.thief thief = .absent := by
        rw [between.thief thief, if_neg admitted]
      have made : next state (.newStealer thief) = some (.newStealer thief,
          state.setThief thief { node := state.inner.first, base := 0 } .idle) := by
        simp only [next, absent]
      have stored := between.stored.step made
      simp only [published, Option.toList_none, List.append_nil] at stored
      refine ⟨0, _, by simp only [perform, made, Option.map_some, Call.answer], tasks,
        ⟨stored, between.owner, ?_, between.head⟩, rest⟩
      intro other
      change Function.update state.thief thief .idle other = if other ∈ thief :: queue.handles
        then ThiefPc.idle else .absent
      by_cases same : other = thief
      · subst same
        rw [if_pos (List.mem_cons_self ..), Function.update_self]
      · have listed : other ∈ thief :: queue.handles ↔ other ∈ queue.handles := by
          rw [List.mem_cons, or_iff_right same]
        rw [Function.update_of_ne same, between.thief other]
        simp only [listed]
  | steal thief =>
      have known : thief ∈ queue.handles := admitted
      have idle : state.thief thief = .idle := by
        rw [between.thief thief, if_pos known]
      have started : next state (.stealCall thief) = some (.stealCall thief,
          state.setThief thief (state.cursor thief) .loadHead) := by
        simp only [next, idle]
      have stored := between.stored.step started
      simp only [published, Option.toList_none, List.append_nil] at stored
      have called : (state.setThief thief (state.cursor thief) .loadHead).thief thief =
          .loadHead := Function.update_self ..
      have stealing : Stealing tasks thief state
          (state.setThief thief (state.cursor thief) .loadHead) :=
        { stored := stored
          serves := by rw [called]; rfl
          owner := between.owner
          others := fun other different => Function.update_of_ne different .. }
      obtain ⟨fuel, reply, after, ran, served⟩ := stealing.returns between known
      have kept := served.between
      rw [Option.toList_none, List.append_nil] at kept
      refine ⟨fuel, after, ?_, tasks, kept, ?_⟩
      · simp only [perform, started, Option.bind_some, ran, served.reply, Option.elim_none,
          Call.answer, Fifo.remove, task, rest]
      · change queue.tasks.tail = _
        rw [served.head, Option.elim_none, dropped, rest]

theorem represents_new : Represents (new ι α) (Fifo.new ι α) := by
  refine ⟨[], ⟨stored_new ι α, rfl, fun _thief => rfl, Nat.le_refl _⟩, rfl⟩

end WsDeque.Linked
