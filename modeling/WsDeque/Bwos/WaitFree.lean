import WsDeque.Bwos.BoundedRuns
import WsDeque.Bwos.UnboundedRuns

/-
How long one call of `pop` can take while thieves interfere. A block can send
the owner round its loop at most twice: whatever makes the first round fail
leaves `committed` at or below `stolen`, and `stolen` only grows.
-/

namespace WsDeque.Bwos

open InlineValue

variable {ι α : Type*}

/-! ### Rounds in one block -/

/-- What `pop` knows of `stolen` from its earlier loads. -/
def PopPc.Seen (block : Block) : PopPc → Prop
  | .loadSlot _ s | .casStolen s _ => s ≤ block.stolen
  | .settle s _ won => won = false → s + 1 ≤ block.stolen
  | .restore b => b ≤ block.stolen
  | _ => True

/-- How often `pop` can still start its loop, with `behind` blocks to step back to. -/
def PopPc.rounds (block : Block) (behind : Nat) : PopPc → Nat
  | .loadCommitted => if block.committed ≤ block.stolen then 2 * behind + 1 else 2 * behind + 2
  | .loadStolen b => if b ≤ block.stolen then 2 * behind else 2 * behind + 1
  | _ => 2 * behind + 1

/-- Accesses left in the round. -/
def PopPc.left : PopPc → Nat
  | .loadCommitted => 0
  | .loadStolen _ => 6
  | .storeCommitted _ => 5
  | .reloadStolen _ => 4
  | .loadSlot _ _ => 3
  | .casStolen _ _ => 2
  | .settle _ _ _ => 1
  | .restore _ => 1

theorem PopPc.Seen.raise {block after : Block} {pc : PopPc} (seen : pc.Seen block)
    (stolen : block.stolen ≤ after.stolen) : pc.Seen after := by
  cases pc with
  | loadSlot newB s => exact Nat.le_trans seen stolen
  | casStolen s bits => exact Nat.le_trans seen stolen
  | settle s bits won => exact fun lost => Nat.le_trans (seen lost) stolen
  | restore b => exact Nat.le_trans seen stolen
  | _ => trivial

theorem PopPc.rounds_raise {block after : Block} (behind : Nat) (pc : PopPc)
    (committed : after.committed = block.committed) (stolen : block.stolen ≤ after.stolen) :
    pc.rounds after behind ≤ pc.rounds block behind := by
  cases pc with
  | loadCommitted =>
      simp only [PopPc.rounds, committed]
      split <;> split <;> omega
  | loadStolen b =>
      simp only [PopPc.rounds]
      split <;> split <;> omega
  | _ => exact Nat.le_refl _

theorem PopPc.rounds_le (block : Block) (behind : Nat) (pc : PopPc) :
    pc.rounds block behind ≤ 2 * (behind + 1) := by
  cases pc with
  | loadCommitted | loadStolen b =>
      simp only [PopPc.rounds]
      split <;> omega
  | _ =>
      simp only [PopPc.rounds]
      omega

def PopOutcome.Seen (block : Block) : PopOutcome → Prop
  | .running pc => pc.Seen block
  | _ => True

def PopOutcome.rounds (block : Block) (behind : Nat) : PopOutcome → Nat
  | .running pc => pc.rounds block behind
  | .drained => 2 * behind
  | .taken _ => 0

def PopOutcome.left : PopOutcome → Nat
  | .running pc => pc.left
  | _ => 0

/-- Each round of the loop starts with this access. -/
def Access.startsRound : Access α → Nat
  | .loadCommitted => 1
  | _ => 0

theorem popBlock_seen {block : Block} {pc : PopPc} (seen : pc.Seen block) :
    (popBlock (α := α) block pc).2.2.Seen (popBlock (α := α) block pc).2.1 := by
  cases pc with
  | loadStolen b =>
      simp only [popBlock]
      split <;> trivial
  | reloadStolen b =>
      simp only [popBlock]
      split
      · exact Nat.le_refl _
      · change b ≤ block.stolen
        omega
  | loadSlot newB s =>
      simp only [popBlock]
      split
      · trivial
      · exact seen
  | casStolen s bits =>
      change s ≤ block.stolen at seen
      by_cases current : block.stolen = s
      · simp only [popBlock, if_pos current]
        intro lost
        cases lost
      · simp only [popBlock, if_neg current]
        intro _lost
        omega
  | settle s bits won => cases won <;> trivial
  | _ => trivial

/-- An access that starts a round uses one up. -/
theorem popBlock_rounds {block : Block} {pc : PopPc} (behind : Nat) (seen : pc.Seen block) :
    (popBlock (α := α) block pc).1.startsRound +
        (popBlock (α := α) block pc).2.2.rounds (popBlock (α := α) block pc).2.1 behind ≤
      pc.rounds block behind := by
  cases pc with
  | loadCommitted =>
      change 1 + (if block.committed ≤ block.stolen then 2 * behind else 2 * behind + 1) ≤
        if block.committed ≤ block.stolen then 2 * behind + 1 else 2 * behind + 2
      split <;> omega
  | loadStolen b =>
      simp only [popBlock, Access.startsRound, PopPc.rounds]
      by_cases drained : b ≤ block.stolen
      · simp only [if_pos drained, PopOutcome.rounds]
        omega
      · simp only [if_neg drained, PopOutcome.rounds, PopPc.rounds]
        omega
  | storeCommitted b =>
      simp only [popBlock, Access.startsRound, PopOutcome.rounds, PopPc.rounds]
      omega
  | reloadStolen b =>
      simp only [popBlock, Access.startsRound, PopPc.rounds]
      split <;> simp only [PopOutcome.rounds, PopPc.rounds] <;> omega
  | loadSlot newB s =>
      simp only [popBlock, Access.startsRound, PopPc.rounds]
      split <;> simp only [PopOutcome.rounds, PopPc.rounds] <;> omega
  | casStolen s bits =>
      simp only [popBlock]
      split <;> simp only [Access.startsRound, PopOutcome.rounds, PopPc.rounds] <;> omega
  | settle s bits won =>
      cases won with
      | true =>
          simp only [popBlock, if_true, Access.startsRound, PopOutcome.rounds, PopPc.rounds]
          omega
      | false =>
          -- `committed` is set to an index that `stolen` has passed.
          have passed : s + 1 ≤ block.stolen := seen rfl
          simp only [popBlock, Bool.false_eq_true, if_false, Access.startsRound,
            PopOutcome.rounds, PopPc.rounds, if_pos passed]
          omega
  | restore b =>
      have passed : b ≤ block.stolen := seen
      change 0 + (if b ≤ block.stolen then 2 * behind + 1 else 2 * behind + 2) ≤ 2 * behind + 1
      rw [if_pos passed]
      omega

/-- A round has seven accesses at most. -/
theorem popBlock_left (block : Block) (pc : PopPc) :
    (popBlock (α := α) block pc).2.2.left + 1 ≤
      pc.left + 7 * (popBlock (α := α) block pc).1.startsRound := by
  cases pc with
  | loadStolen b | reloadStolen b | loadSlot newB s | casStolen s bits | settle s bits won =>
      simp only [popBlock]
      split <;> simp only [Access.startsRound, PopOutcome.left, PopPc.left] <;> omega
  | _ =>
      simp only [popBlock, Access.startsRound, PopOutcome.left, PopPc.left]
      omega

/-- A thief only raises `stolen`. -/
theorem stealBlock_raises (block : Block) (pc : StealPc) :
    (stealBlock (α := α) block pc).2.1.committed = block.committed ∧
      block.stolen ≤ (stealBlock (α := α) block pc).2.1.stolen := by
  cases pc with
  | casStolen t bits =>
      simp only [stealBlock]
      split
      · exact ⟨rfl, by simp only; omega⟩
      · exact ⟨rfl, Nat.le_refl _⟩
  | _ => exact ⟨rfl, Nat.le_refl _⟩

/-! ### Rounds of one call -/

def startsRound : Label ι α → Bool
  | .owner .loadCommitted => true
  | _ => false

def ownerAccess : Label ι α → Bool
  | .owner _ => true
  | _ => false

/-- How often a call of `pop` has started its loop. -/
def iterations (labels : List (Label ι α)) : Nat :=
  labels.countP startsRound

def ownerAccesses (labels : List (Label ι α)) : Nat :=
  labels.countP ownerAccess

variable {labels : List (Label ι α)} {budget behind : Nat} {block : Block}

theorem iterations_owner (labels : List (Label ι α)) (access : Access α) :
    iterations (labels ++ [.owner access]) = iterations labels + access.startsRound := by
  unfold iterations
  rw [List.countP_append]
  cases access <;> rfl

theorem ownerAccesses_owner (labels : List (Label ι α)) (access : Access α) :
    ownerAccesses (labels ++ [.owner access]) = ownerAccesses labels + 1 := by
  unfold ownerAccesses
  rw [List.countP_append]
  rfl

theorem iterations_other {label : Label ι α} (other : ownerAccess label = false) :
    iterations (labels ++ [label]) = iterations labels := by
  unfold iterations
  rw [List.countP_append]
  cases label with
  | owner access => cases other
  | _ => rfl

theorem ownerAccesses_other {label : Label ι α} (other : ownerAccess label = false) :
    ownerAccesses (labels ++ [label]) = ownerAccesses labels := by
  unfold ownerAccesses
  rw [List.countP_append, List.countP_singleton, if_neg (by rw [other]; exact Bool.noConfusion)]
  rfl

/-- What the rounds so far leave of the budget. -/
structure Rounds (budget : Nat) (labels : List (Label ι α)) (block : Block) (behind : Nat)
    (outcome : PopOutcome) : Prop where
  seen : outcome.Seen block
  rounds : iterations labels + outcome.rounds block behind ≤ budget
  left : ownerAccesses labels + outcome.left ≤ 7 * iterations labels

def Within (budget : Nat) (labels : List (Label ι α)) : Prop :=
  iterations labels ≤ budget ∧ ownerAccesses labels ≤ 7 * iterations labels

theorem Rounds.within {outcome : PopOutcome} (rounds : Rounds budget labels block behind outcome) :
    Within budget labels :=
  ⟨Nat.le_trans (Nat.le_add_right _ _) rounds.rounds,
    Nat.le_trans (Nat.le_add_right _ _) rounds.left⟩

theorem Rounds.pop {pc : PopPc} (rounds : Rounds budget labels block behind (.running pc)) :
    Rounds budget (labels ++ [.owner (popBlock block pc).1]) (popBlock (α := α) block pc).2.1
      behind (popBlock (α := α) block pc).2.2 := by
  have paid := popBlock_rounds (α := α) behind rounds.seen
  have spent := popBlock_left (α := α) block pc
  constructor
  · exact popBlock_seen rounds.seen
  · have budgeted := rounds.rounds
    simp only [PopOutcome.rounds] at budgeted
    rw [iterations_owner]
    omega
  · have left := rounds.left
    simp only [PopOutcome.left] at left
    rw [iterations_owner, ownerAccesses_owner]
    omega

/-- The previous block is entered with its own two rounds. -/
theorem Rounds.stepBack (rounds : Rounds budget labels block (behind + 1) .drained)
    (previous : Block) : Rounds budget labels previous behind (.running .loadCommitted) := by
  constructor
  · trivial
  · have budgeted := rounds.rounds
    have fresh := PopPc.rounds_le previous behind .loadCommitted
    simp only [PopOutcome.rounds] at budgeted ⊢
    omega
  · exact rounds.left

theorem Rounds.other {pc : PopPc} {after : Block} {label : Label ι α}
    (rounds : Rounds budget labels block behind (.running pc))
    (other : ownerAccess label = false) (committed : after.committed = block.committed)
    (stolen : block.stolen ≤ after.stolen) :
    Rounds budget (labels ++ [label]) after behind (.running pc) := by
  constructor
  · exact PopPc.Seen.raise rounds.seen stolen
  · rw [iterations_other other]
    exact Nat.le_trans (Nat.add_le_add_left (pc.rounds_raise behind committed stolen) _)
      rounds.rounds
  · rw [iterations_other other, ownerAccesses_other other]
    exact rounds.left

theorem Within.other {label : Label ι α} (within : Within budget labels)
    (other : ownerAccess label = false) : Within budget (labels ++ [label]) := by
  unfold Within
  rw [iterations_other other, ownerAccesses_other other]
  exact within

theorem Rounds.start (block : Block) (behind : Nat) :
    Rounds (2 * (behind + 1)) [(.popCall : Label ι α)] block behind (.running .loadCommitted) := by
  constructor
  · trivial
  · exact Nat.le_trans (Nat.le_of_eq (Nat.zero_add _)) (PopPc.rounds_le block behind .loadCommitted)
  · exact Nat.le_refl 0

/-- A thief in some block raises no `committed` and lowers no `stolen`. -/
theorem update_steal (blocks : Nat → Block) (blk other : Nat) (pc : StealPc) :
    let after := Function.update blocks blk (stealBlock (α := α) (blocks blk) pc).2.1 other
    after.committed = (blocks other).committed ∧ (blocks other).stolen ≤ after.stolen := by
  by_cases here : other = blk
  · subst here
    rw [Function.update_self]
    exact stealBlock_raises _ _
  · rw [Function.update_of_ne here]
    exact ⟨rfl, Nat.le_refl _⟩

/-! ### The bounded queue -/

namespace Bounded

/-- A call of `pop` in progress, or about to return. -/
inductive InPop (budget : Nat) (labels : List (Label ι α)) (state : State ι α) : Prop
  | popping (pc : PopPc) (atPc : state.owner = .popping pc)
      (rounds : Rounds budget labels state.block state.ownerBlock (.running pc))
  | returned (result : OwnerResult α) (atPc : state.owner = .returned result)
      (within : Within budget labels)

theorem InPop.within {state : State ι α} (inPop : InPop budget labels state) :
    Within budget labels := by
  cases inPop with
  | popping pc atPc rounds => exact rounds.within
  | returned result atPc within => exact within

/-- Steps of others leave the call where it is. -/
theorem InPop.other {state after : State ι α} {label : Label ι α}
    (inPop : InPop budget labels state) (other : ownerAccess label = false)
    (owner : after.owner = state.owner) (ownerBlock : after.ownerBlock = state.ownerBlock)
    (committed : after.block.committed = state.block.committed)
    (stolen : state.block.stolen ≤ after.block.stolen) :
    InPop budget (labels ++ [label]) after := by
  cases inPop with
  | popping pc atPc rounds =>
      refine .popping pc (owner.trans atPc) ?_
      rw [ownerBlock]
      exact rounds.other other committed stolen
  | returned result atPc within => exact .returned result (owner.trans atPc) (within.other other)

variable [InlineValue α] {shape : Shape} {state after : State ι α} {label : Label ι α}

theorem InPop.ownerStep (inPop : InPop budget labels state) {access : Access α} {inner : Inner}
    {ownerBlock : Nat} {owner : OwnerPc α}
    (taken : ownerStep shape state.inner state.ownerBlock state.owner =
      some (access, inner, ownerBlock, owner)) :
    InPop budget (labels ++ [.owner access])
      { state with
        inner := inner
        ownerBlock := ownerBlock
        owner := owner } := by
  cases inPop with
  | returned result atPc within =>
      rw [atPc] at taken
      cases taken
  | popping pc atPc rounds =>
      rw [atPc] at taken
      cases taken
      have moved := rounds.pop (α := α)
      unfold State.block at moved
      cases outcome : (popBlock (α := α) (state.inner.blocks state.ownerBlock) pc).2.2 with
      | running pc' =>
          rw [outcome] at moved
          refine .popping pc' rfl ?_
          simp only [State.block, Inner.setBlock, afterPop, Function.update_self]
          exact moved
      | taken bits => exact .returned _ rfl moved.within
      | drained =>
          rw [outcome] at moved
          cases atBlock : state.ownerBlock with
          | zero =>
            rw [atBlock] at moved
            exact .returned _ rfl moved.within
          | succ behind =>
              rw [atBlock] at moved
              exact .popping .loadCommitted rfl (moved.stepBack _)

variable [DecidableEq ι]

theorem InPop.next {choice : Choice ι α} (inPop : InPop budget labels state)
    (taken : next shape state choice = some (label, after))
    (noReturn : ∀ result, label ≠ .ownerReturn result) :
    InPop budget (labels ++ [label]) after := by
  cases next_moves taken with
  | owner access inner ownerBlock pc stepped => exact inPop.ownerStep stepped
  | thief thief access inner pc stepped =>
      cases atPc : state.thief thief with
      | loadProduced =>
          rw [atPc] at stepped
          cases stepped
          exact inPop.other rfl rfl rfl rfl (Nat.le_refl _)
      | scanning produced blk pc =>
          rw [atPc] at stepped
          cases stepped
          have raised := update_steal (α := α) state.inner.blocks blk state.ownerBlock pc
          exact inPop.other rfl rfl rfl raised.1 raised.2
      | _ =>
          rw [atPc] at stepped
          cases stepped
  | putCall value idle | popCall idle =>
      cases inPop with
      | popping pc atPc rounds => cases idle.symm.trans atPc
      | returned result atPc within => cases idle.symm.trans atPc
  | ownerReturn result atPc => exact absurd rfl (noReturn result)
  | newStealer thief atPc | stealCall thief atPc | stealReturn thief result atPc =>
      exact inPop.other rfl rfl rfl rfl (Nat.le_refl _)

theorem next_popCall {choice : Choice ι α}
    (taken : next shape state choice = some (.popCall, after)) :
    after = { state with owner := .popping .loadCommitted } := by
  cases next_moves taken with
  | popCall atPc => rfl

theorem inPop_of_run {called : State ι α}
    (call : (system ι α shape).step state .popCall called)
    (run : (system ι α shape).Run called labels after)
    (running : ∀ result, .ownerReturn result ∉ labels) :
    InPop (2 * (state.ownerBlock + 1)) (.popCall :: labels) after := by
  induction run with
  | refl =>
      obtain ⟨choice, taken⟩ := call
      rw [next_popCall taken]
      exact .popping .loadCommitted rfl (.start _ _)
  | snoc _prior last ih =>
      obtain ⟨choice, taken⟩ := last
      have earlier := ih fun result member => running result (List.mem_append_left _ member)
      refine earlier.next taken fun result same => running result ?_
      rw [same]
      exact List.mem_append_right _ (List.mem_singleton_self _)

end Bounded

/-! ### The unbounded queue -/

namespace Unbounded

/-- A call of `pop` in progress on the blocks it can step back to. -/
inductive InPop (budget : Nat) (labels : List (Label ι α)) (state : State ι α) : Prop
  | popping (pc : PopPc) (older : List Nat) (atPc : state.owner = .popping pc)
      (linked : Linked state.inner (older ++ [state.ownerBlock]))
      (rounds : Rounds budget labels state.block older.length (.running pc))
  | returned (result : OwnerResult α) (atPc : state.owner = .returned result)
      (within : Within budget labels)

theorem InPop.within {state : State ι α} (inPop : InPop budget labels state) :
    Within budget labels := by
  cases inPop with
  | popping pc older atPc linked rounds => exact rounds.within
  | returned result atPc within => exact within

/-- Steps of others change no link and leave the call where it is. -/
theorem InPop.other {state after : State ι α} {label : Label ι α}
    (inPop : InPop budget labels state) (other : ownerAccess label = false)
    (owner : after.owner = state.owner) (ownerBlock : after.ownerBlock = state.ownerBlock)
    (links : ∀ order, Linked state.inner order → Linked after.inner order)
    (committed : after.block.committed = state.block.committed)
    (stolen : state.block.stolen ≤ after.block.stolen) :
    InPop budget (labels ++ [label]) after := by
  cases inPop with
  | popping pc older atPc linked rounds =>
      refine .popping pc older (owner.trans atPc) ?_ (rounds.other other committed stolen)
      rw [ownerBlock]
      exact links _ linked
  | returned result atPc within => exact .returned result (owner.trans atPc) (within.other other)

variable [InlineValue α] {shape : Shape} {state after : State ι α} {label : Label ι α}

theorem InPop.ownerStep (inPop : InPop budget labels state) {access : Access α} {inner : Inner}
    {ownerBlock : Nat} {owner : OwnerPc α}
    (taken : ownerStep shape state.inner state.ownerBlock state.owner =
      some (access, inner, ownerBlock, owner)) :
    InPop budget (labels ++ [.owner access])
      { state with
        inner := inner
        ownerBlock := ownerBlock
        owner := owner } := by
  cases inPop with
  | returned result atPc within =>
      rw [atPc] at taken
      cases taken
  | popping pc older atPc linked rounds =>
      rw [atPc] at taken
      cases taken
      have moved := rounds.pop (α := α)
      unfold State.block at moved
      cases outcome : (popBlock (α := α) (state.inner.blocks state.ownerBlock) pc).2.2 with
      | running pc' =>
          rw [outcome] at moved
          refine .popping pc' older rfl (linked.setBlock _ _) ?_
          simp only [State.block, Inner.setBlock, afterPop, Function.update_self]
          exact moved
      | taken bits => exact .returned _ rfl moved.within
      | drained =>
          rw [outcome] at moved
          cases behind : state.inner.prev state.ownerBlock with
          | none =>
              refine .returned (.popped none) ?_ moved.within
              simp only [afterPop, behind]
          | some prev =>
              obtain ⟨rest, rfl, shorter⟩ := linked.stepBack behind
              rw [List.length_append] at moved
              refine .popping .loadCommitted rest ?_ ?_ (moved.stepBack _)
              · simp only [afterPop, behind]
              · simp only [afterPop, behind]
                exact shorter.setBlock _ _

variable [DecidableEq ι]

theorem InPop.next {choice : Choice ι α} (inPop : InPop budget labels state)
    (taken : next shape state choice = some (label, after))
    (noReturn : ∀ result, label ≠ .ownerReturn result) :
    InPop budget (labels ++ [label]) after := by
  cases next_moves taken with
  | owner access inner ownerBlock pc stepped => exact inPop.ownerStep stepped
  | thief thief access inner cursor pc stepped =>
      cases atPc : state.thief thief with
      | loadNext blk =>
          rw [atPc] at stepped
          simp only [thiefStep, Option.some.injEq, Prod.mk.injEq] at stepped
          obtain ⟨rfl, rfl, _moved⟩ := stepped
          exact inPop.other rfl rfl rfl (fun _order linked => linked) rfl (Nat.le_refl _)
      | scanning blk pc =>
          rw [atPc] at stepped
          simp only [thiefStep, Option.some.injEq, Prod.mk.injEq] at stepped
          obtain ⟨rfl, rfl, _moved⟩ := stepped
          have raised := update_steal (α := α) state.inner.blocks blk state.ownerBlock pc
          exact inPop.other rfl rfl rfl (fun _order linked => linked.setBlock _ _) raised.1 raised.2
      | _ =>
          rw [atPc] at stepped
          cases stepped
  | putCall value idle | popCall idle =>
      cases inPop with
      | popping pc older atPc linked rounds => cases idle.symm.trans atPc
      | returned result atPc within => cases idle.symm.trans atPc
  | ownerReturn result atPc => exact absurd rfl (noReturn result)
  | newStealer thief atPc | stealCall thief atPc | stealReturn thief result atPc =>
      exact inPop.other rfl rfl rfl (fun _order linked => linked) rfl (Nat.le_refl _)

theorem next_popCall {choice : Choice ι α}
    (taken : next shape state choice = some (.popCall, after)) :
    after = { state with owner := .popping .loadCommitted } := by
  cases next_moves taken with
  | popCall atPc => rfl

theorem inPop_of_run [Fintype ι] {called : State ι α}
    (reachable : (system ι α shape).Reachable state)
    (call : (system ι α shape).step state .popCall called)
    (run : (system ι α shape).Run called labels after)
    (running : ∀ result, .ownerReturn result ∉ labels) :
    InPop (2 * state.ownerBlocks.length) (.popCall :: labels) after := by
  induction run with
  | refl =>
      obtain ⟨choice, taken⟩ := call
      obtain ⟨labels, reached⟩ := reachable
      obtain ⟨older, follows⟩ := follows_of_reaches reached
      have blocks := congrArg List.length (follows.linked.prevChain (Nat.lt_succ_self _))
      rw [List.length_reverse, List.length_append] at blocks
      unfold State.ownerBlocks
      rw [next_popCall taken, blocks]
      exact .popping .loadCommitted older rfl follows.linked (.start _ _)
  | snoc _prior last ih =>
      obtain ⟨choice, taken⟩ := last
      have earlier := ih fun result member => running result (List.mem_append_left _ member)
      refine earlier.next taken fun result same => running result ?_
      rw [same]
      exact List.mem_append_right _ (List.mem_singleton_self _)

end Unbounded

/-! ### Wait-freedom -/

/-- Whatever the others do, the owner inside a call of `pop` can always move, it
starts its loop no more often than the bound, and a round is seven accesses. -/
def PopsWithin {State : Type*} (system : TransitionSystem State (Label ι α))
    (bound : State → Nat) : Prop :=
  ∀ state called final labels, system.Reachable state → system.step state .popCall called →
    system.Run called labels final → (∀ result, .ownerReturn result ∉ labels) →
      iterations labels ≤ bound state ∧ ownerAccesses labels ≤ 7 * iterations labels ∧
        ((∃ access after, system.step final (.owner access) after) ∨
          ∃ result after, system.step final (.ownerReturn result) after)

section

variable [InlineValue α] [DecidableEq ι]

theorem Bounded.InPop.moves {shape : Bounded.Shape} {state : Bounded.State ι α}
    (inPop : Bounded.InPop budget labels state) :
    (∃ access after, (Bounded.system ι α shape).step state (.owner access) after) ∨
      ∃ result after, (Bounded.system ι α shape).step state (.ownerReturn result) after := by
  cases inPop with
  | popping pc atPc rounds =>
      obtain ⟨after, stepped⟩ : ∃ after, Bounded.next shape state .owner =
          some (.owner (popBlock state.block pc).1, after) :=
        ⟨_, by simp only [Bounded.next, atPc]; rfl⟩
      exact Or.inl ⟨_, after, .owner, stepped⟩
  | returned result atPc within =>
      obtain ⟨after, stepped⟩ : ∃ after, Bounded.next shape state .ownerReturn =
          some (.ownerReturn result, after) :=
        ⟨_, by simp only [Bounded.next, atPc]; rfl⟩
      exact Or.inr ⟨result, after, .ownerReturn, stepped⟩

theorem Unbounded.InPop.moves {shape : Unbounded.Shape} {state : Unbounded.State ι α}
    (inPop : Unbounded.InPop budget labels state) :
    (∃ access after, (Unbounded.system ι α shape).step state (.owner access) after) ∨
      ∃ result after, (Unbounded.system ι α shape).step state (.ownerReturn result) after := by
  cases inPop with
  | popping pc older atPc linked rounds =>
      obtain ⟨after, stepped⟩ : ∃ after, Unbounded.next shape state .owner =
          some (.owner (popBlock state.block pc).1, after) :=
        ⟨_, by simp only [Unbounded.next, atPc]; rfl⟩
      exact Or.inl ⟨_, after, .owner, stepped⟩
  | returned result atPc within =>
      obtain ⟨after, stepped⟩ : ∃ after, Unbounded.next shape state .ownerReturn =
          some (.ownerReturn result, after) :=
        ⟨_, by simp only [Unbounded.next, atPc]; rfl⟩
      exact Or.inr ⟨result, after, .ownerReturn, stepped⟩

/-- Two rounds for each block the owner can step back to, and two for its own. -/
theorem pop_wait_free [Fintype ι] :
    (∀ shape, PopsWithin (Bounded.system ι α shape) fun state => 2 * (state.ownerBlock + 1)) ∧
      ∀ shape, PopsWithin (Unbounded.system ι α shape) fun state =>
        2 * state.ownerBlocks.length := by
  constructor
  · intro shape state called final labels _reachable call run running
    have inPop := Bounded.inPop_of_run call run running
    exact ⟨inPop.within.1, inPop.within.2, inPop.moves⟩
  · intro shape state called final labels reachable call run running
    have inPop := Unbounded.inPop_of_run reachable call run running
    exact ⟨inPop.within.1, inPop.within.2, inPop.moves⟩

end

/-- One value is there, and a thief has read it. -/
def oneRead : List (Bounded.Choice (Fin 1) (BitVec 64)) :=
  let only : Fin 1 := ⟨0, Nat.one_pos⟩
  [.newStealer only, .putCall 1, .owner, .owner, .owner, .ownerReturn,
    .stealCall only, .thief only, .thief only, .thief only, .thief only]

/-- The thief takes it before the owner's compare-exchange. -/
def loseLast : List (Bounded.Choice (Fin 1) (BitVec 64)) :=
  [.owner, .owner, .owner, .owner, .owner, .thief ⟨0, Nat.one_pos⟩, .owner, .owner, .owner, .owner]

theorem pop_wait_free_loseLast :
    ∃ (state called final : Bounded.State (Fin 1) (BitVec 64)) (labels : List _),
      (Bounded.system (Fin 1) (BitVec 64) Bounded.twoSlots).step state .popCall called ∧
      (Bounded.system (Fin 1) (BitVec 64) Bounded.twoSlots).Run called labels final ∧
      iterations labels = 2 ∧ iterations labels ≤ 2 * (state.ownerBlock + 1) := by
  obtain ⟨before, state, reached, labels, called, final, call, executed, twice, silent⟩ :
      ∃ before state,
        (Bounded.system (Fin 1) (BitVec 64) Bounded.twoSlots).Reaches before state ∧
        ∃ labels called final,
          Bounded.next Bounded.twoSlots state .popCall = some (.popCall, called) ∧
          TransitionSystem.execute (Bounded.next Bounded.twoSlots) called loseLast =
            some (labels, final) ∧
          iterations labels = 2 ∧
          (labels.all fun label => match label with
            | .ownerReturn _ => false
            | _ => true) = true :=
    ⟨_, _, ⟨_, rfl, TransitionSystem.execute_run oneRead rfl⟩, _, _, _, rfl, rfl, rfl, rfl⟩
  have run : (Bounded.system (Fin 1) (BitVec 64) Bounded.twoSlots).Run called labels final :=
    TransitionSystem.execute_run loseLast executed
  have bound := pop_wait_free.1 Bounded.twoSlots state called final labels reached.reachable
    ⟨.popCall, call⟩ run fun result member => by
      have spoken := List.all_eq_true.mp silent _ member
      cases spoken
  exact ⟨state, called, final, labels, ⟨.popCall, call⟩, run, twice, bound.1⟩

end WsDeque.Bwos
