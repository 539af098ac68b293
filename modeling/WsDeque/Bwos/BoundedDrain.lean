import WsDeque.Bwos.BoundedRuns
import WsDeque.Bwos.PopAlone
import WsDeque.RunAlone

/-
Emptying the bounded queue by `pop` alone. In a lossless run it returns what is
outstanding, newest first; a `put` into a block that was used before loses its
value.
-/

namespace WsDeque.Bwos.Bounded

open InlineValue

variable {ι α : Type*} [InlineValue α] [DecidableEq ι]

/-! ### Calling `pop` until it returns `None` -/

/-- The rest of a running `pop`, with nobody else moving. -/
def finishPop (shape : Shape) : Nat → State ι α → Option (Option α × State ι α)
  | 0, _ => none
  | fuel + 1, state =>
      match state.owner with
      | .returned (.popped value) => some (value, { state with owner := .idle })
      | _ => (next shape state .owner).bind fun taken => finishPop shape fuel taken.2

def callPop (shape : Shape) (fuel : Nat) (state : State ι α) : Option (Option α × State ι α) :=
  (next shape state .popCall).bind fun taken => finishPop shape fuel taken.2

def popUntilNone (shape : Shape) : Nat → State ι α → Option (List α)
  | 0, _ => none
  | fuel + 1, state =>
      (callPop shape fuel state).bind fun popped =>
        match popped.1 with
        | some value => (popUntilNone shape fuel popped.2).map fun rest => value :: rest
        | none => some []

/-- The end of a `pop`. -/
def State.popped (state : State ι α) : Option (Option α × State ι α) :=
  match state.owner with
  | .returned (.popped value) => some (value, { state with owner := .idle })
  | _ => none

def ownerMoves (shape : Shape) (state : State ι α) : Option (State ι α) :=
  (next shape state .owner).map Prod.snd

theorem finishPop_eq (shape : Shape) (fuel : Nat) (state : State ι α) :
    finishPop shape fuel state = runAlone State.popped (ownerMoves shape) fuel state := by
  induction fuel generalizing state with
  | zero => rfl
  | succ fuel ih =>
      unfold finishPop runAlone State.popped ownerMoves
      split
      · rfl
      · simp only [Option.bind_map]
        exact Option.bind_congr fun taken _stepped => ih taken.2

theorem callPop_fuelOnly (shape : Shape) : FuelOnly (callPop (ι := ι) (α := α) shape) := by
  intro fuel more state result enough returned
  simp only [callPop, finishPop_eq, Option.bind_eq_some_iff] at returned ⊢
  obtain ⟨taken, called, ran⟩ := returned
  exact ⟨taken, called, runAlone_mono enough ran⟩

theorem popUntilNone_eq (shape : Shape) (fuel : Nat) (state : State ι α) :
    popUntilNone shape fuel state = untilNone (callPop shape) fuel state := by
  induction fuel generalizing state with
  | zero => rfl
  | succ fuel ih =>
      unfold popUntilNone untilNone
      apply Option.bind_congr
      rintro ⟨_ | value, after⟩ _called
      · rfl
      · exact congrArg (Option.map fun rest => value :: rest) (ih after)

theorem popUntilNone_mono {shape : Shape} {fuel more : Nat} (enough : fuel ≤ more)
    {state : State ι α} {values : List α}
    (drained : popUntilNone shape fuel state = some values) :
    popUntilNone shape more state = some values := by
  rw [popUntilNone_eq] at drained ⊢
  exact untilNone_mono (callPop_fuelOnly shape) enough drained

/-! ### One `pop` with nobody else moving -/

/-- The values in the blocks up to the owner's, while no call is running. -/
def State.rows (state : State ι α) : List α :=
  ((List.range (state.ownerBlock + 1)).flatMap fun blk =>
    (state.inner.blocks blk).live .resting).map fromBits

/-- Where a `pop` is after a step in its block. -/
def State.afterPop (state : State ι α) (block : Block) (outcome : PopOutcome) : State ι α :=
  let next : Nat × OwnerPc α := Bounded.afterPop state.ownerBlock outcome
  { state.ownerIn block next.2 with ownerBlock := next.1 }

section

variable {shape : Shape} {state : State ι α} {block block' : Block} {pc : PopPc}
  {outcome : PopOutcome} {fuel more : Nat} {result : Option α × State ι α}

theorem ownerMoves_popping :
    ownerMoves shape (state.ownerIn block (.popping pc)) =
      some (state.afterPop (popBlock (α := α) block pc).2.1 (popBlock (α := α) block pc).2.2) := by
  have here : (state.ownerIn block (OwnerPc.popping pc)).inner.blocks state.ownerBlock = block :=
    Function.update_self ..
  simp only [ownerMoves, next, State.ownerIn, ownerStep, Option.map_some]
  simp only [State.ownerIn] at here
  rw [here]
  simp only [State.afterPop, State.ownerIn, Inner.setBlock, Function.update_idem]

theorem runAlone_popRun (ran : popRun α fuel block pc = some (block', outcome))
    (rest : runAlone State.popped (ownerMoves shape) more (state.afterPop block' outcome) =
      some result) :
    runAlone State.popped (ownerMoves shape) (fuel + more) (state.ownerIn block (.popping pc)) =
      some result := by
  induction fuel generalizing block pc with
  | zero => cases ran
  | succ fuel ih =>
      rw [Nat.add_right_comm, runAlone_step rfl ownerMoves_popping]
      unfold popRun at ran
      generalize (popBlock (α := α) block pc).2 = taken at ran ⊢
      obtain ⟨next, nextOutcome⟩ := taken
      cases nextOutcome with
      | running pc' => exact ih ran
      | drained =>
          cases ran
          exact runAlone_mono (Nat.le_add_left more fuel) rest
      | taken bits =>
          cases ran
          exact runAlone_mono (Nat.le_add_left more fuel) rest

omit [InlineValue α] [DecidableEq ι] in
theorem State.ownerIn_self (state : State ι α) : state.ownerIn state.block state.owner = state := by
  unfold State.ownerIn Inner.setBlock State.block
  rw [Function.update_eq_self]

omit [DecidableEq ι] in
theorem State.rows_ownerIn (state : State ι α) (block : Block) (owner : OwnerPc α) :
    (state.ownerIn block owner).rows =
      ((List.range state.ownerBlock).flatMap fun blk =>
        (state.inner.blocks blk).live .resting).map fromBits ++
          (block.live .resting).map fromBits := by
  unfold State.rows State.ownerIn Inner.setBlock
  rw [List.range_succ, List.flatMap_append, List.map_append]
  simp only [List.flatMap_cons, List.flatMap_nil, List.append_nil, Function.update_self]
  congr 2
  apply List.flatMap_congr
  intro blk member
  rw [Function.update_of_ne (Nat.ne_of_lt (List.mem_range.mp member))]

omit [DecidableEq ι] in
theorem State.rows_block (state : State ι α) :
    state.rows = ((List.range state.ownerBlock).flatMap fun blk =>
      (state.inner.blocks blk).live .resting).map fromBits ++
        (state.block.live .resting).map fromBits := by
  rw [← state.rows_ownerIn state.block state.owner, State.ownerIn_self]

/-- What a running `pop` leaves behind and returns. -/
structure PopsAlone (shape : Shape) (state : State ι α) (value : Option α)
    (after : State ι α) : Prop where
  finishes : ∃ fuel, runAlone State.popped (ownerMoves shape) fuel state = some (value, after)
  idle : after.owner = .idle
  removes : state.rows = after.rows ++ value.toList
  exhausts : value = none → state.rows = []

/-- With something in the block, `pop` takes its newest value. -/
theorem popsAlone_stocked (atPc : state.owner = .popping .loadCommitted)
    (stocked : state.block.stolen < state.block.committed) :
    ∃ value after, PopsAlone shape state (some value) after := by
  obtain ⟨shorter, bits, ran, live⟩ := popRun_stocked (α := α) stocked
  have start : state = state.ownerIn state.block (.popping .loadCommitted) := by
    rw [← atPc]
    exact state.ownerIn_self.symm
  use fromBits bits, state.ownerIn shorter .idle
  constructor
  · have finished : runAlone State.popped (ownerMoves shape) (7 + 1)
        (state.ownerIn state.block (.popping .loadCommitted)) =
        some (some (fromBits bits), state.ownerIn shorter .idle) :=
      runAlone_popRun ran (runAlone_finished rfl)
    rw [← start] at finished
    exact ⟨8, finished⟩
  · rfl
  · rw [State.rows_ownerIn, State.rows_block, live, List.map_append, List.append_assoc]
    rfl
  · exact fun none => nomatch none

/-- An empty block is left for the one below it. -/
theorem runAlone_empty (atPc : state.owner = .popping .loadCommitted)
    (empty : state.block.committed ≤ state.block.stolen)
    (rest : runAlone State.popped (ownerMoves shape) more (state.afterPop state.block .drained) =
      some result) :
    runAlone State.popped (ownerMoves shape) (2 + more) state = some result := by
  have start : state = state.ownerIn state.block (.popping .loadCommitted) := by
    rw [← atPc]
    exact state.ownerIn_self.symm
  have ran := runAlone_popRun (popRun_empty (α := α) empty) rest
  rwa [← start] at ran

omit [DecidableEq ι] in
theorem State.afterPop_drained (atPc : state.owner = .popping .loadCommitted) {blocks : Nat}
    (depth : state.ownerBlock = blocks + 1) :
    state.afterPop state.block .drained = { state with ownerBlock := blocks } := by
  have stay := state.ownerIn_self
  rw [atPc] at stay
  have above : state.ownerBlock ≠ 0 := by omega
  have below : state.ownerBlock - 1 = blocks := by omega
  simp only [State.afterPop, Bounded.afterPop, if_neg above, below, stay]

/-- One `pop` that runs alone finishes, and takes the newest value. -/
theorem popsAlone (shape : Shape) (atPc : state.owner = .popping .loadCommitted) :
    ∃ value after, PopsAlone shape state value after := by
  generalize depth : state.ownerBlock = blocks
  induction blocks generalizing state with
  | zero =>
      by_cases stocked : state.block.stolen < state.block.committed
      · obtain ⟨value, after, pops⟩ := popsAlone_stocked atPc stocked
        exact ⟨some value, after, pops⟩
      · have empty : state.block.committed ≤ state.block.stolen := Nat.le_of_not_lt stocked
        have rows := state.rows_block
        rw [depth, Block.live_nil_of_drained empty] at rows
        use none, state.ownerIn state.block .idle
        constructor
        · use 2 + 1
          apply runAlone_empty atPc empty
          apply runAlone_finished
          simp only [State.afterPop, Bounded.afterPop, if_pos depth]
          rfl
        · rfl
        · rw [State.rows_ownerIn, ← State.rows_block]
          exact (List.append_nil _).symm
        · exact fun _none => rows
  | succ blocks ih =>
      by_cases stocked : state.block.stolen < state.block.committed
      · obtain ⟨value, after, pops⟩ := popsAlone_stocked atPc stocked
        exact ⟨some value, after, pops⟩
      · have empty : state.block.committed ≤ state.block.stolen := Nat.le_of_not_lt stocked
        have behind :
            ∃ value after, PopsAlone shape { state with ownerBlock := blocks } value after :=
          ih atPc rfl
        obtain ⟨value, after, pops⟩ := behind
        obtain ⟨fuel, finished⟩ := pops.finishes
        have rows : state.rows = State.rows { state with ownerBlock := blocks } := by
          rw [State.rows_block, depth, Block.live_nil_of_drained empty, List.map_nil,
            List.append_nil]
          rfl
        use value, after
        constructor
        · use 2 + fuel
          apply runAlone_empty atPc empty
          rw [State.afterPop_drained atPc depth]
          exact finished
        · exact pops.idle
        · exact rows.trans pops.removes
        · exact fun none => rows.trans (pops.exhausts none)

theorem callPop_takesLast (shape : Shape) (idle : state.owner = .idle) :
    ∃ value after, TakesLast (callPop shape) (fun state => state.owner = .idle) State.rows state
      value after := by
  have called : ∃ value after,
      PopsAlone shape { state with owner := .popping .loadCommitted } value after :=
    popsAlone shape rfl
  obtain ⟨value, after, pops⟩ := called
  obtain ⟨fuel, finished⟩ := pops.finishes
  use value, after
  constructor
  · use fuel
    simp only [callPop, finishPop_eq, next, idle, Option.bind_some]
    exact finished
  · exact pops.idle
  · exact pops.removes
  · exact pops.exhausts

/-- Popping alone until `None` returns everything, newest first. -/
theorem popUntilNone_rows (shape : Shape) (idle : state.owner = .idle) :
    ∃ enough, ∀ fuel, enough ≤ fuel → popUntilNone shape fuel state = some state.rows.reverse := by
  simp only [popUntilNone_eq]
  have takes : ∀ other : State ι α, other.owner = .idle → ∃ value after,
      TakesLast (callPop shape) (fun state => state.owner = .idle) State.rows other value after :=
    fun _other otherIdle => callPop_takesLast shape otherIdle
  exact untilNone_rows (callPop_fuelOnly shape) takes idle

end

/-! ### Draining after a run -/

/-- Calling `pop` until it returns `None` yields the outstanding values, each
once and newest first. -/
def DrainsNewestFirst (shape : Shape) (labels : List (Label ι α)) (state : State ι α) : Prop :=
  ∃ source, Matching accepted handedOut labels source ∧
    ∃ enough, ∀ fuel, enough ≤ fuel → popUntilNone shape fuel state =
      some ((outstanding accepted handedOut labels source).map Prod.snd).reverse

omit [DecidableEq ι] in
theorem State.Quiescent.free {state : State ι α} (quiet : state.Quiescent) :
    ∀ party, state.held party = none := by
  obtain ⟨idle, thieves⟩ := quiet
  intro party
  cases party with
  | none =>
      change state.owner.held state.block = none
      rw [idle]
      rfl
  | some thief =>
      change (state.thief thief).held = none
      rcases thieves thief with rests | gone
      · rw [rests]
        rfl
      · rw [gone]
        rfl

/-- A quiescent run in which the owner only ever enters blocks that nobody has
taken from has everything that is outstanding in its blocks. -/
theorem drains_of_fresh [Fintype ι] {shape : Shape} {labels : List (Label ι α)} {state : State ι α}
    (reached : ((system ι α shape).restrict (Fresh shape)).Reaches labels state)
    (quiet : state.Quiescent) : DrainsNewestFirst shape labels state := by
  have follows := follows_of_fresh reached
  have idle := quiet.1
  obtain ⟨source, matched, items⟩ := follows.account.tracked.outstanding quiet.free
  have rows : state.rows = state.chain.bits.map fromBits := by
    unfold State.rows Chain.bits
    rw [State.order_eq]
    congr 1
    apply List.flatMap_congr
    intro blk _member
    congr 1
    unfold Chain.phaseAt State.chain
    rw [idle]
    exact (ite_self _).symm
  obtain ⟨enough, drained⟩ := popUntilNone_rows shape idle
  refine ⟨source, matched, enough, fun fuel more => ?_⟩
  rw [drained fuel more, rows, items]

/-- Both blocks are filled, and the newest value is popped. -/
def crossThenPop : List (Choice (Fin 1) (BitVec 64)) :=
  [.putCall 1, .owner, .owner, .owner, .ownerReturn,
    .putCall 2, .owner, .owner, .owner, .owner, .ownerReturn,
    .popCall, .owner, .owner, .owner, .owner, .owner, .owner, .owner, .ownerReturn]

theorem drains_of_fresh_crossThenPop :
    ∃ labels state,
      ((system (Fin 1) (BitVec 64) twoSlots).restrict (Fresh twoSlots)).Reaches labels state ∧
      popUntilNone twoSlots 20 state = some [1] ∧ DrainsNewestFirst twoSlots labels state := by
  have reached :
      ((system (Fin 1) (BitVec 64) twoSlots).restrict (Fresh twoSlots)).Reaches _ _ :=
    ⟨_, rfl, TransitionSystem.execute_restrict_run crossThenPop rfl⟩
  exact ⟨_, _, reached, rfl, drains_of_fresh reached ⟨rfl, fun _thief => Or.inr rfl⟩⟩

/-- The third `put` of `enterAgain` is accepted, and the next `pop` finds nothing. -/
theorem not_drains_after_enterAgain :
    ¬ ∀ (labels : List (Label (Fin 1) (BitVec 64))) (state : State (Fin 1) (BitVec 64)),
      (system (Fin 1) (BitVec 64) twoSlots).Reaches labels state → state.Quiescent →
        DrainsNewestFirst twoSlots labels state := by
  intro claim
  obtain ⟨labels, state, reached, puts, gives, quiet, nothing⟩ : ∃ labels state,
      (system (Fin 1) (BitVec 64) twoSlots).Reaches labels state ∧
      (occurrences accepted labels).length = 3 ∧ (occurrences handedOut labels).length = 2 ∧
      state.Quiescent ∧ popUntilNone twoSlots 20 state = some [] :=
    ⟨_, _, ⟨_, rfl, TransitionSystem.execute_run enterAgain rfl⟩, rfl, rfl,
      ⟨rfl, fun _thief => Or.inr rfl⟩, rfl⟩
  obtain ⟨source, _matched, enough, drains⟩ := claim labels state reached quiet
  have drained := popUntilNone_mono (le_max_right enough 20) nothing
  rw [drains _ (le_max_left enough 20), Option.some.injEq, List.reverse_eq_nil_iff,
    List.map_eq_nil_iff] at drained
  have remains := length_le_outstanding accepted handedOut labels source
  rw [drained, puts, gives] at remains
  exact absurd remains (by decide)

end WsDeque.Bwos.Bounded
