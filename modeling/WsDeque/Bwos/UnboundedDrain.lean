import WsDeque.Bwos.PopAlone
import WsDeque.Bwos.UnboundedRuns
import WsDeque.RunAlone

/-
Emptying the unbounded queue by `pop` alone: along the `prev` links it returns
what is outstanding, newest first.
-/

namespace WsDeque.Bwos.Unbounded

open InlineValue

variable {ι α : Type*} [InlineValue α]

/-! ### Calling `pop` until it returns `None` -/

omit [InlineValue α] in
/-- The end of a `pop`. -/
def State.popped (state : State ι α) : Option (Option α × State ι α) :=
  match state.owner with
  | .returned (.popped value) => some (value, { state with owner := .idle })
  | _ => none

variable [DecidableEq ι]

def ownerMoves (shape : Shape) (state : State ι α) : Option (State ι α) :=
  (next shape state .owner).map Prod.snd

def callPop (shape : Shape) (fuel : Nat) (state : State ι α) : Option (Option α × State ι α) :=
  (next shape state .popCall).bind fun taken =>
    runAlone State.popped (ownerMoves shape) fuel taken.2

def popUntilNone (shape : Shape) : Nat → State ι α → Option (List α) :=
  untilNone (callPop shape)

theorem callPop_fuelOnly (shape : Shape) : FuelOnly (callPop (ι := ι) (α := α) shape) := by
  intro fuel more state result enough returned
  simp only [callPop, Option.bind_eq_some_iff] at returned ⊢
  obtain ⟨taken, called, ran⟩ := returned
  exact ⟨taken, called, runAlone_mono enough ran⟩

/-! ### One `pop` with nobody else moving -/

/-- Where a `pop` is after a step in its block. -/
def State.afterPop (state : State ι α) (block : Block) (outcome : PopOutcome) : State ι α :=
  let next : Nat × OwnerPc α := Unbounded.afterPop state.inner state.ownerBlock outcome
  { state.ownerIn block next.2 with ownerBlock := next.1 }

variable {shape : Shape} {state : State ι α} {block block' : Block} {pc : PopPc}
  {outcome : PopOutcome} {fuel more : Nat} {result : Option α × State ι α}

theorem ownerMoves_popping :
    ownerMoves shape (state.ownerIn block (.popping pc)) =
      some (state.afterPop (popBlock (α := α) block pc).2.1 (popBlock (α := α) block pc).2.2) := by
  have here : (state.ownerIn block (OwnerPc.popping pc)).inner.blocks state.ownerBlock = block :=
    Function.update_self ..
  simp only [ownerMoves, next, State.ownerIn, ownerStep, Option.map_some]
  simp only [State.ownerIn] at here
  rw [here]
  simp only [State.afterPop, State.ownerIn, Inner.setBlock, Function.update_idem]
  rfl

theorem runAlone_popRun (ran : popRun α fuel block pc = some (block', outcome))
    (rest : runAlone State.popped (ownerMoves shape) more (state.afterPop block' outcome) =
      some result) :
    runAlone State.popped (ownerMoves shape) (fuel + more) (state.ownerIn block (.popping pc)) =
      some result := by
  induction fuel generalizing block pc with
  | zero => cases ran
  | succ fuel ih =>
      rw [Nat.add_right_comm, runAlone_step rfl ownerMoves_popping]
      unfold popRun at ran
      generalize (popBlock (α := α) block pc).2 = taken at ran ⊢
      obtain ⟨next, nextOutcome⟩ := taken
      cases nextOutcome with
      | running pc' => exact ih ran
      | drained =>
          cases ran
          exact runAlone_mono (Nat.le_add_left more fuel) rest
      | taken bits =>
          cases ran
          exact runAlone_mono (Nat.le_add_left more fuel) rest

/-! ### The values in the owner's blocks -/

omit [DecidableEq ι] in
/-- The values in the owner's blocks while no call is running. -/
def State.rows (state : State ι α) : List α :=
  (state.ownerBlocks.reverse.flatMap fun blk =>
    (state.inner.blocks blk).live .resting).map fromBits

omit [InlineValue α] [DecidableEq ι] in
/-- The owner rests, with its blocks behind it. -/
def State.Ready (state : State ι α) : Prop :=
  state.owner = .idle ∧ ∃ older, Linked state.inner (older ++ [state.ownerBlock])

variable {older : List Nat}

omit [DecidableEq ι] in
theorem State.rows_linked (linked : Linked state.inner (older ++ [state.ownerBlock])) :
    state.rows = (older.flatMap fun blk => (state.inner.blocks blk).live .resting).map fromBits ++
      (state.block.live .resting).map fromBits := by
  have order : state.ownerBlocks.reverse = older ++ [state.ownerBlock] :=
    linked.prevChain (Nat.lt_succ_self _)
  rw [State.rows, order, List.flatMap_append, List.map_append]
  simp only [List.flatMap_cons, List.flatMap_nil, List.append_nil]
  rfl

omit [DecidableEq ι] in
theorem State.rows_ownerIn (linked : Linked state.inner (older ++ [state.ownerBlock]))
    (owner : OwnerPc α) :
    (state.ownerIn block owner).rows =
      (older.flatMap fun blk => (state.inner.blocks blk).live .resting).map fromBits ++
        (block.live .resting).map fromBits := by
  have kept : Linked (state.ownerIn block owner).inner (older ++ [state.ownerBlock]) :=
    linked.setBlock state.ownerBlock block
  rw [State.rows_linked kept, State.block_ownerIn]
  congr 2
  apply List.flatMap_congr
  intro blk member
  simp only [State.ownerIn, Inner.setBlock]
  rw [Function.update_of_ne (Nat.ne_of_lt (linked.lt_last member))]

/-! ### One `pop` -/

omit [InlineValue α] [DecidableEq ι] in
theorem State.ownerIn_self (state : State ι α) : state.ownerIn state.block state.owner = state := by
  unfold State.ownerIn Inner.setBlock State.block
  rw [Function.update_eq_self]

/-- What a running `pop` leaves behind and returns. -/
structure PopsAlone (shape : Shape) (state : State ι α) (value : Option α)
    (after : State ι α) : Prop where
  finishes : ∃ fuel, runAlone State.popped (ownerMoves shape) fuel state = some (value, after)
  ready : after.Ready
  removes : state.rows = after.rows ++ value.toList
  exhausts : value = none → state.rows = []

theorem popsAlone_stocked (linked : Linked state.inner (older ++ [state.ownerBlock]))
    (atPc : state.owner = .popping .loadCommitted)
    (stocked : state.block.stolen < state.block.committed) :
    ∃ value after, PopsAlone shape state (some value) after := by
  obtain ⟨shorter, bits, ran, live⟩ := popRun_stocked (α := α) stocked
  have start : state = state.ownerIn state.block (.popping .loadCommitted) := by
    rw [← atPc]
    exact state.ownerIn_self.symm
  use fromBits bits, state.ownerIn shorter .idle
  constructor
  · have finished : runAlone State.popped (ownerMoves shape) (7 + 1)
        (state.ownerIn state.block (.popping .loadCommitted)) =
        some (some (fromBits bits), state.ownerIn shorter .idle) :=
      runAlone_popRun ran (runAlone_finished rfl)
    rw [← start] at finished
    exact ⟨8, finished⟩
  · exact ⟨rfl, older, linked.setBlock _ _⟩
  · rw [State.rows_ownerIn linked, State.rows_linked linked, live, List.map_append,
      List.append_assoc]
    rfl
  · exact fun none => nomatch none

/-- An empty block is left for the one behind it. -/
theorem runAlone_empty (atPc : state.owner = .popping .loadCommitted)
    (empty : state.block.committed ≤ state.block.stolen)
    (rest : runAlone State.popped (ownerMoves shape) more (state.afterPop state.block .drained) =
      some result) :
    runAlone State.popped (ownerMoves shape) (2 + more) state = some result := by
  have start : state = state.ownerIn state.block (.popping .loadCommitted) := by
    rw [← atPc]
    exact state.ownerIn_self.symm
  have ran := runAlone_popRun (popRun_empty (α := α) empty) rest
  rwa [← start] at ran

omit [DecidableEq ι] in
theorem State.afterPop_drained (atPc : state.owner = .popping .loadCommitted) {prev : Nat}
    (behind : state.inner.prev state.ownerBlock = some prev) :
    state.afterPop state.block .drained = { state with ownerBlock := prev } := by
  have stay := state.ownerIn_self
  rw [atPc] at stay
  simp only [State.afterPop, Unbounded.afterPop, behind, stay]

theorem popsAlone (linked : Linked state.inner (older ++ [state.ownerBlock]))
    (atPc : state.owner = .popping .loadCommitted) :
    ∃ value after, PopsAlone shape state value after := by
  induction older using List.reverseRecOn generalizing state with
  | nil =>
      by_cases stocked : state.block.stolen < state.block.committed
      · obtain ⟨value, after, pops⟩ := popsAlone_stocked linked atPc stocked
        exact ⟨some value, after, pops⟩
      · have empty : state.block.committed ≤ state.block.stolen := Nat.le_of_not_lt stocked
        have rows := State.rows_linked linked
        rw [Block.live_nil_of_drained empty] at rows
        use none, state.ownerIn state.block .idle
        constructor
        · use 2 + 1
          apply runAlone_empty atPc empty
          apply runAlone_finished
          simp only [State.afterPop, afterPop, Linked.prev_first linked]
          rfl
        · exact ⟨rfl, [], linked.setBlock _ _⟩
        · rw [State.rows_ownerIn linked, rows, Block.live_nil_of_drained empty]
          rfl
        · exact fun _none => rows
  | append_singleton earlier prev ih =>
      by_cases stocked : state.block.stolen < state.block.committed
      · obtain ⟨value, after, pops⟩ := popsAlone_stocked linked atPc stocked
        exact ⟨some value, after, pops⟩
      · have empty : state.block.committed ≤ state.block.stolen := Nat.le_of_not_lt stocked
        obtain ⟨_rest, _split, shorter⟩ := linked.stepBack linked.prev_last
        have behind :
            ∃ value after, PopsAlone shape { state with ownerBlock := prev } value after :=
          ih shorter atPc
        obtain ⟨value, after, pops⟩ := behind
        obtain ⟨fuel, finished⟩ := pops.finishes
        have rows : state.rows = State.rows { state with ownerBlock := prev } := by
          have before : State.rows { state with ownerBlock := prev } = _ :=
            State.rows_linked shorter
          rw [State.rows_linked linked, Block.live_nil_of_drained empty, before,
            List.flatMap_append, List.map_append]
          simp only [List.flatMap_cons, List.flatMap_nil, List.append_nil, List.map_nil]
          rfl
        use value, after
        constructor
        · use 2 + fuel
          apply runAlone_empty atPc empty
          rw [State.afterPop_drained atPc linked.prev_last]
          exact finished
        · exact pops.ready
        · exact rows.trans pops.removes
        · exact fun none => rows.trans (pops.exhausts none)

theorem callPop_takesLast (shape : Shape) (ready : state.Ready) :
    ∃ value after, TakesLast (callPop shape) State.Ready State.rows state value after := by
  obtain ⟨idle, older, linked⟩ := ready
  have called : ∃ value after,
      PopsAlone shape { state with owner := .popping .loadCommitted } value after :=
    popsAlone linked rfl
  obtain ⟨value, after, pops⟩ := called
  obtain ⟨fuel, finished⟩ := pops.finishes
  use value, after
  constructor
  · use fuel
    simp only [callPop, next, idle, Option.bind_some]
    exact finished
  · exact pops.ready
  · exact pops.removes
  · exact pops.exhausts

/-! ### Draining after a run -/

/-- Calling `pop` until it returns `None` yields the given values. -/
def Drains (shape : Shape) (state : State ι α) (values : List α) : Prop :=
  ∃ enough, ∀ fuel, enough ≤ fuel → popUntilNone shape fuel state = some values

/-- No value comes back twice, and with no call in progress `pop` yields all
that have not come back, newest first. -/
theorem unbounded_exactly_once [Fintype ι] {labels : List (Label ι α)}
    (reached : (system ι α shape).Reaches labels state) :
    ∃ source, Matching accepted handedOut labels source ∧
      (state.Quiescent → Drains shape state
        ((outstanding accepted handedOut labels source).map Prod.snd).reverse) := by
  obtain ⟨older, follows⟩ := follows_of_reaches reached
  by_cases quiet : state.Quiescent
  · obtain ⟨source, matched, items⟩ := follows.account.tracked.outstanding quiet.free
    have ready : state.Ready := ⟨quiet.1, older, follows.linked⟩
    have takes : ∀ other : State ι α, other.Ready →
        ∃ value after, TakesLast (callPop shape) State.Ready State.rows other value after :=
      fun _other otherReady => callPop_takesLast shape otherReady
    obtain ⟨enough, drained⟩ := untilNone_rows (callPop_fuelOnly shape) takes ready
    have rows : state.rows = (state.chain older).bits.map fromBits := by
      rw [State.bits_of_idle quiet.1, State.rows_linked follows.linked, List.flatMap_append,
        List.map_append]
      simp only [List.flatMap_cons, List.flatMap_nil, List.append_nil]
      rfl
    use source, matched
    intro _quiet
    use enough
    intro fuel more
    rw [← items, ← rows]
    exact drained fuel more
  · obtain ⟨source, matched⟩ := follows.account.tracked.matching
    exact ⟨source, matched, fun quiet' => absurd quiet' quiet⟩

/-- The last element of each of two blocks is claimed, and the first block is
filled and linked again. -/
def claimAndLink : List (Choice (Fin 1) (BitVec 64)) :=
  [.putCall 1, .owner, .owner, .owner, .ownerReturn,
    .putCall 2, .owner, .owner, .owner, .owner, .ownerReturn,
    .popCall, .owner, .owner, .owner, .owner, .owner, .owner, .owner, .ownerReturn,
    .popCall, .owner, .owner, .owner, .owner, .owner, .owner, .owner, .owner, .owner, .ownerReturn,
    .putCall 3, .owner, .owner, .owner, .owner, .ownerReturn]

theorem unbounded_exactly_once_claimAndLink :
    ∃ labels state, (system (Fin 1) (BitVec 64) oneSlot).Reaches labels state ∧
      (occurrences handedOut labels).map Prod.snd = [2, 1] ∧ state.ownerBlock = 2 ∧
      popUntilNone oneSlot 40 state = some [3] ∧
      ∃ source, Matching accepted handedOut labels source ∧
        (state.Quiescent → Drains oneSlot state
          ((outstanding accepted handedOut labels source).map Prod.snd).reverse) := by
  obtain ⟨labels, state, run, gives, block, drains⟩ :=
    TransitionSystem.execute_finds (next oneSlot) (withBlockSize (Fin 1) (BitVec 64)) claimAndLink
      (fun labels state => (occurrences handedOut labels).map Prod.snd = [2, 1] ∧
        state.ownerBlock = 2 ∧ popUntilNone oneSlot 40 state = some [3])
      (by decide +kernel)
  exact ⟨labels, state, ⟨_, rfl, run⟩, gives, block, drains, unbounded_exactly_once ⟨_, rfl, run⟩⟩

end WsDeque.Bwos.Unbounded
