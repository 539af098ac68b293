import WsDeque.Bwos.Block

/-
A block as an instance of the index protocol: `stolen` is its top, `committed`
its bottom, and every step inside a block is one step of the protocol, except
the publication after a re-entry, which is a reset followed by a raise.
-/

namespace WsDeque.Bwos

open InlineValue

variable {ι α : Type*}

def Block.cell (block : Block) (index : Int) : BitVec 64 :=
  block.slots index.toNat

def Block.protocol (block : Block) (owner : IndexProtocol.Owner)
    (taker : ι → IndexProtocol.Taker (BitVec 64)) : IndexProtocol.State ι (BitVec 64) :=
  { top := block.stolen
    bottom := block.committed
    cell := block.cell
    owner := owner
    taker := taker }

/-- One past the last index that nobody has taken. -/
def Block.back (block : Block) (owner : IndexProtocol.Owner) : Int :=
  owner.back block.committed

/-- The bits that can still be taken from a block, oldest first. -/
def Block.live (block : Block) (owner : IndexProtocol.Owner) : List (BitVec 64) :=
  window block.cell block.stolen (block.back owner)

theorem Block.protocol_live (block : Block) (owner : IndexProtocol.Owner)
    (taker : ι → IndexProtocol.Taker (BitVec 64)) :
    (block.protocol owner taker).live = block.live owner := rfl

theorem Block.live_nil_of_drained {block : Block} (drained : block.committed ≤ block.stolen) :
    block.live .resting = [] := by
  apply window_empty
  simp only [Block.back, IndexProtocol.Owner.back]
  omega

theorem Block.live_cons {block : Block} (stocked : block.stolen < block.committed) :
    ∃ rest, block.live .resting = block.slots block.stolen :: rest := by
  have inside : (block.stolen : Int) < block.back .resting := Int.ofNat_lt.mpr stocked
  exact ⟨window block.cell (block.stolen + 1) (block.back .resting), window_cons _ inside⟩

theorem Block.protocol_committed {block : Block} {committed : Nat} {bottom : Int}
    {owner : IndexProtocol.Owner} {taker : ι → IndexProtocol.Taker (BitVec 64)}
    (same : (committed : Int) = bottom) :
    { block with committed := committed }.protocol owner taker =
      { top := block.stolen
        bottom := bottom
        cell := block.cell
        owner := owner
        taker := taker } := by
  subst same
  rfl

/-! ### Thieves -/

def StealPc.taker : StealPc → IndexProtocol.Taker (BitVec 64)
  | .loadStolen => .away
  | .loadCommitted t => .sawTop t
  | .loadSlot t => .entered t
  | .casStolen t bits => .holding t bits

def StealOutcome.taker : StealOutcome → IndexProtocol.Taker (BitVec 64)
  | .running pc => pc.taker
  | _ => .away

def StealOutcome.effect : StealOutcome → IndexProtocol.Effect (BitVec 64)
  | .taken bits => .taken bits
  | _ => .silent

/-- What a step of `steal` does to its block. -/
structure StealMove [DecidableEq ι] (block : Block) (owner : IndexProtocol.Owner)
    (taker : ι → IndexProtocol.Taker (BitVec 64)) (thief : ι) (after : Block)
    (outcome : StealOutcome) : Prop where
  step : IndexProtocol.Step (block.protocol owner taker) outcome.effect
    (after.protocol owner (Function.update taker thief outcome.taker))
  slots : after.slots = block.slots
  committed : after.committed = block.committed
  stolen : after.stolen = block.stolen ∨
    (after.stolen = block.stolen + 1 ∧ (block.stolen : Int) < block.back owner)

theorem stealBlock_move [DecidableEq ι] {block : Block} {owner : IndexProtocol.Owner}
    {taker : ι → IndexProtocol.Taker (BitVec 64)} {thief : ι} {pc : StealPc}
    (invariant : IndexProtocol.Invariant (block.protocol owner taker))
    (held : taker thief = pc.taker) :
    StealMove block owner taker thief (stealBlock (α := α) block pc).2.1
      (stealBlock (α := α) block pc).2.2 := by
  cases pc with
  | loadStolen =>
      exact ⟨.seeTop thief, rfl, rfl, Or.inl rfl⟩
  | loadCommitted t =>
      simp only [stealBlock]
      split
      · exact ⟨.leave thief, rfl, rfl, Or.inl rfl⟩
      · rename_i below
        refine ⟨.enter thief t held ?_, rfl, rfl, Or.inl rfl⟩
        simp only [Block.protocol]
        omega
  | loadSlot t =>
      exact ⟨.read thief t held, rfl, rfl, Or.inl rfl⟩
  | casStolen t bits =>
      by_cases current : block.stolen = t
      · simp only [stealBlock, if_pos current]
        have same : (block.protocol owner taker).top = t := by
          simp only [Block.protocol]
          omega
        refine ⟨.take thief t bits held same, rfl, rfl,
          Or.inr ⟨by rw [current], ?_⟩⟩
        rw [current]
        exact (invariant.top_lt_back_of_holding held same).1
      · simp only [stealBlock, if_neg current]
        exact ⟨.leave thief, rfl, rfl, Or.inl rfl⟩

/-! ### `pop` -/

def PopPc.phase : PopPc → IndexProtocol.Owner
  | .loadCommitted | .loadStolen _ | .storeCommitted _ => .resting
  | .reloadStolen b => .lowered ((b : Int) - 1)
  | .loadSlot newB s => if s < newB then .resting else .contending newB
  | .casStolen s _ => .contending s
  | .settle s _ _ => .settling s
  | .restore b => .settling ((b : Int) - 1)

def PopPc.Meets (block : Block) : PopPc → Prop
  | .loadCommitted => True
  | .loadStolen b => b = block.committed
  | .storeCommitted b => b = block.committed ∧ block.stolen ≤ b ∧ 0 < b
  | .reloadStolen b | .restore b => 0 < b
  | .loadSlot newB s => s ≤ newB
  | .casStolen s bits => bits = block.slots s
  | .settle _ _ _ => True

/-- The bits a `pop` has removed from the block and not yet returned. -/
def PopPc.holds (block : Block) : PopPc → Option (BitVec 64)
  | .loadSlot newB s => if s < newB then some (block.slots newB) else none
  | .settle _ bits won => if won then some bits else none
  | _ => none

def PopOutcome.phase : PopOutcome → IndexProtocol.Owner
  | .running pc => pc.phase
  | _ => .resting

def PopOutcome.Meets (block : Block) : PopOutcome → Prop
  | .running pc => pc.Meets block
  | .drained => block.committed ≤ block.stolen
  | .taken _ => True

def PopOutcome.holds (block : Block) : PopOutcome → Option (BitVec 64)
  | .running pc => pc.holds block
  | .drained => none
  | .taken bits => some bits

/-- The owner holds what left the block, as long as it was holding nothing. A
claim by compare-exchange is a claim on the last index. -/
def Gains (phase : IndexProtocol.Owner) (before after : Option (BitVec 64)) :
    IndexProtocol.Effect (BitVec 64) → Prop
  | .silent => after = before
  | .popped bits => before = none ∧ after = some bits
  | .taken bits => before = none ∧ after = some bits ∧ ∃ index, phase = .settling index
  | .appended _ => False

structure PopMove [DecidableEq ι] (block : Block) (pc : PopPc)
    (taker : ι → IndexProtocol.Taker (BitVec 64)) (after : Block) (outcome : PopOutcome) :
    Prop where
  slots : after.slots = block.slots
  meets : outcome.Meets after
  step : ∃ effect, IndexProtocol.Step (block.protocol pc.phase taker) effect
    (after.protocol outcome.phase taker) ∧
      Gains outcome.phase (pc.holds block) (outcome.holds after) effect

theorem popBlock_move [DecidableEq ι] {block : Block} {pc : PopPc}
    {taker : ι → IndexProtocol.Taker (BitVec 64)}
    (invariant : IndexProtocol.Invariant (block.protocol pc.phase taker))
    (meets : pc.Meets block) :
    PopMove block pc taker (popBlock (α := α) block pc).2.1 (popBlock (α := α) block pc).2.2 := by
  have ownerMeets := invariant.owner
  cases pc with
  | loadCommitted => exact ⟨rfl, rfl, .silent, .stutter _, rfl⟩
  | loadStolen b =>
      change b = block.committed at meets
      simp only [popBlock]
      split
      · rename_i crossed
        rw [meets] at crossed
        exact ⟨rfl, crossed, .silent, .stutter _, rfl⟩
      · rename_i below
        exact ⟨rfl, ⟨meets, by omega, by omega⟩, .silent, .stutter _, rfl⟩
  | storeCommitted b =>
      obtain ⟨rfl, level, positive⟩ := meets
      refine ⟨rfl, positive, .silent, ?_, rfl⟩
      have lowered : IndexProtocol.Step (block.protocol .resting taker) .silent
          { top := block.stolen
            bottom := (block.committed : Int) - 1
            cell := block.cell
            owner := .lowered ((block.committed : Int) - 1)
            taker := taker } :=
        .lower rfl (by simp only [Block.protocol]; omega)
      have bottomEq : ((block.committed - 1 : Nat) : Int) = (block.committed : Int) - 1 := by omega
      rw [← Block.protocol_committed bottomEq] at lowered
      exact lowered
  | reloadStolen b =>
      change 0 < b at meets
      have indexEq : ((b - 1 : Nat) : Int) = (b : Int) - 1 := by omega
      simp only [PopPc.phase, Block.protocol, IndexProtocol.Owner.Meets] at ownerMeets
      simp only [popBlock]
      split
      · rename_i present
        refine ⟨rfl, present, ?_⟩
        by_cases last : block.stolen = b - 1
        · refine ⟨.silent, ?_, ?_⟩
          · have met : IndexProtocol.Step (block.protocol (.lowered ((b : Int) - 1)) taker) _ _ :=
              .meet _ rfl (by simp only [Block.protocol]; omega)
            simpa only [PopOutcome.phase, PopPc.phase, last, lt_irrefl, if_false, indexEq,
              Block.protocol] using met
          · simp [Gains, PopOutcome.holds, PopPc.holds, last]
        · have above : block.stolen < b - 1 := by omega
          refine ⟨.popped (block.slots (b - 1)), ?_, ?_⟩
          · have kept : IndexProtocol.Step (block.protocol (.lowered ((b : Int) - 1)) taker) _ _ :=
              .keep _ rfl (by simp only [Block.protocol]; omega)
            simpa only [PopOutcome.phase, PopPc.phase, above, if_true, ← indexEq, Block.protocol,
              Block.cell, Int.toNat_natCast] using kept
          · simp [Gains, PopOutcome.holds, PopPc.holds, above]
      · rename_i gone
        refine ⟨rfl, meets, .silent, ?_, rfl⟩
        exact .miss _ rfl (by simp only [Block.protocol]; omega)
  | loadSlot newB s =>
      simp only [popBlock]
      by_cases more : s < newB
      · rw [if_pos more]
        refine ⟨rfl, trivial, .silent, ?_, ?_⟩
        · simp only [PopOutcome.phase, PopPc.phase, if_pos more]
          exact .stutter _
        · simp [Gains, PopOutcome.holds, PopPc.holds, more, Block.slotsRead]
      · rw [if_neg more]
        change s ≤ newB at meets
        have same : newB = s := by omega
        subst same
        refine ⟨rfl, rfl, .silent, ?_, ?_⟩
        · simp only [PopOutcome.phase, PopPc.phase, lt_irrefl, if_false]
          exact .stutter _
        · simp [Gains, PopOutcome.holds, PopPc.holds]
  | casStolen s bits =>
      change bits = block.slots s at meets
      by_cases current : block.stolen = s
      · simp only [popBlock, if_pos current]
        refine ⟨rfl, trivial, .taken (block.slots s), ?_, ?_⟩
        · have won : IndexProtocol.Step (block.protocol (.contending (s : Int)) taker) _ _ :=
            .win _ rfl (by simp only [Block.protocol]; omega)
          exact won
        · exact ⟨rfl, by rw [meets]; rfl, s, rfl⟩
      · simp only [popBlock, if_neg current]
        refine ⟨rfl, trivial, .silent, ?_, rfl⟩
        exact .lose _ rfl (by simp only [Block.protocol]; omega)
  | settle s bits won =>
      have settled : IndexProtocol.Step (block.protocol (.settling (s : Int)) taker) _ _ :=
        .settle _ rfl
      cases won with
      | true => exact ⟨rfl, trivial, .silent, settled, rfl⟩
      | false => exact ⟨rfl, trivial, .silent, settled, rfl⟩
  | restore b =>
      change 0 < b at meets
      have settled : IndexProtocol.Step (block.protocol (.settling ((b : Int) - 1)) taker) .silent
          { top := block.stolen
            bottom := (b : Int) - 1 + 1
            cell := block.cell
            owner := .resting
            taker := taker } :=
        .settle _ rfl
      have bottomEq : (b : Int) = (b : Int) - 1 + 1 := by omega
      rw [← Block.protocol_committed bottomEq] at settled
      exact ⟨rfl, trivial, .silent, settled, rfl⟩

/-- Inside a call of `pop` the block never sinks below `stolen`. -/
theorem popBlock_level {block : Block} {pc : PopPc}
    {taker : ι → IndexProtocol.Taker (BitVec 64)}
    (invariant : IndexProtocol.Invariant (block.protocol pc.phase taker))
    (meets : pc.Meets block) (level : (block.stolen : Int) ≤ block.back pc.phase) :
    ((popBlock (α := α) block pc).2.1.stolen : Int) ≤
      (popBlock (α := α) block pc).2.1.back (popBlock (α := α) block pc).2.2.phase := by
  have ownerMeets := invariant.owner
  cases pc with
  | loadCommitted => exact level
  | loadStolen b =>
      simp only [popBlock]
      split <;> exact level
  | storeCommitted b =>
      obtain ⟨_current, below, positive⟩ := meets
      simp only [popBlock, PopOutcome.phase, PopPc.phase, Block.back, IndexProtocol.Owner.back]
      omega
  | reloadStolen b =>
      simp only [PopPc.phase, Block.protocol, IndexProtocol.Owner.Meets] at ownerMeets
      simp only [popBlock]
      split
      · rename_i present
        simp only [PopOutcome.phase, PopPc.phase, Block.back]
        split <;> simp only [IndexProtocol.Owner.back] <;> omega
      · simp only [PopOutcome.phase, PopPc.phase, Block.back, IndexProtocol.Owner.back]
        omega
  | loadSlot newB s =>
      change s ≤ newB at meets
      simp only [popBlock]
      by_cases more : s < newB
      · simp only [PopPc.phase, if_pos more] at level
        rw [if_pos more]
        exact level
      · simp only [PopPc.phase, if_neg more, Block.back, IndexProtocol.Owner.back] at level
        rw [if_neg more]
        simp only [PopOutcome.phase, PopPc.phase, Block.back, IndexProtocol.Owner.back]
        omega
  | casStolen s bits =>
      simp only [PopPc.phase, Block.back, IndexProtocol.Owner.back] at level
      simp only [popBlock]
      split <;> simp only [PopOutcome.phase, PopPc.phase, Block.back, IndexProtocol.Owner.back] <;>
        omega
  | settle s bits won =>
      simp only [PopPc.phase, Block.protocol, IndexProtocol.Owner.Meets] at ownerMeets
      cases won <;>
        simp only [popBlock, PopOutcome.phase, PopPc.phase, Block.back, IndexProtocol.Owner.back,
          if_true, Bool.false_eq_true, if_false] <;>
        omega
  | restore b =>
      simp only [PopPc.phase, Block.protocol, IndexProtocol.Owner.Meets] at ownerMeets
      simp only [popBlock, PopOutcome.phase, PopPc.phase, Block.back, IndexProtocol.Owner.back]
      omega

/-- `pop` puts nothing into a block. -/
theorem popBlock_stocked {block : Block} {pc : PopPc}
    {taker : ι → IndexProtocol.Taker (BitVec 64)}
    (invariant : IndexProtocol.Invariant (block.protocol pc.phase taker)) (meets : pc.Meets block)
    (stocked : (popBlock (α := α) block pc).2.1.stolen <
      (popBlock (α := α) block pc).2.1.committed) : block.stolen < block.committed := by
  have ownerMeets := invariant.owner
  cases pc with
  | storeCommitted b =>
      obtain ⟨current, _level, _positive⟩ := meets
      simp only [popBlock] at stocked
      omega
  | casStolen s bits =>
      simp only [popBlock] at stocked
      split at stocked
      · dsimp only at stocked
        omega
      · exact stocked
  | settle s bits won =>
      simp only [PopPc.phase, Block.protocol, IndexProtocol.Owner.Meets] at ownerMeets
      simp only [popBlock] at stocked
      omega
  | restore b =>
      simp only [PopPc.phase, Block.protocol, IndexProtocol.Owner.Meets] at ownerMeets
      simp only [popBlock] at stocked
      omega
  | _ => exact stocked

/-- A claim by a thief keeps what the owner knows. -/
theorem PopPc.Meets.steal {block after : Block} {pc : PopPc} (meets : pc.Meets block)
    (slots : after.slots = block.slots) (committed : after.committed = block.committed)
    (stolen : after.stolen = block.stolen ∨
      (after.stolen = block.stolen + 1 ∧ (block.stolen : Int) < block.back pc.phase)) :
    pc.Meets after := by
  cases pc with
  | loadStolen b => exact meets.trans committed.symm
  | storeCommitted b =>
      obtain ⟨current, level, positive⟩ := meets
      simp only [PopPc.phase, Block.back, IndexProtocol.Owner.back] at stolen
      exact ⟨current.trans committed.symm, by omega, positive⟩
  | casStolen s bits =>
      change bits = after.slots s
      rw [slots]
      exact meets
  | _ => exact meets

theorem PopPc.holds_congr {block after : Block} (slots : after.slots = block.slots) (pc : PopPc) :
    pc.holds after = pc.holds block := by
  cases pc <;> simp only [PopPc.holds, slots]

/-! ### `put` -/

/-- `put` continues at `committed`, or from 0 in a block it came back to. -/
def PutPc.bottom : PutPc α → Nat
  | .storeSlot _ bottom | .publish _ bottom => bottom

variable [InlineValue α]

def PutPc.Meets (block : Block) (pc : PutPc α) : Prop :=
  (pc.bottom = block.committed ∨ pc.bottom = 0 ∧ block.committed ≤ block.stolen) ∧
    match pc with
    | .storeSlot _ _ => True
    | .publish value bottom => block.slots bottom = toBits value

theorem PutPc.Meets.steal {block after : Block} {pc : PutPc α} (meets : pc.Meets block)
    (slots : after.slots = block.slots) (committed : after.committed = block.committed)
    (stolen : block.stolen ≤ after.stolen) : pc.Meets after := by
  refine ⟨?_, ?_⟩
  · rw [committed]
    rcases meets.1 with current | ⟨zero, drained⟩
    · exact Or.inl current
    · exact Or.inr ⟨zero, Nat.le_trans drained stolen⟩
  · cases pc with
    | storeSlot value bottom => trivial
    | publish value bottom =>
        change after.slots bottom = toBits value
        rw [slots]
        exact meets.2

theorem putBlock_storeSlot [DecidableEq ι] {block : Block} {value : α} {bottom : Nat}
    (taker : ι → IndexProtocol.Taker (BitVec 64))
    (meets : (PutPc.storeSlot value bottom).Meets block) :
    IndexProtocol.Step (block.protocol .resting taker) .silent
        ((block.slotsWrite bottom (toBits value)).protocol .resting taker) ∧
      (PutPc.publish value bottom).Meets (block.slotsWrite bottom (toBits value)) := by
  refine ⟨.rewrite _ fun index above below => ?_, meets.1, Function.update_self ..⟩
  simp only [Block.protocol, IndexProtocol.State.back, IndexProtocol.Owner.back] at above below
  have outside : index.toNat ≠ bottom := by
    rcases meets.1 with current | ⟨_, drained⟩
    · simp only [PutPc.bottom] at current
      omega
    · omega
  exact Function.update_of_ne outside ..

/-- A publication at or above `stolen` appends; below it the value is never
seen again. -/
theorem putBlock_publish [DecidableEq ι] {block : Block} {value : α} {bottom : Nat}
    {taker : ι → IndexProtocol.Taker (BitVec 64)}
    (invariant : IndexProtocol.Invariant (block.protocol .resting taker))
    (meets : (PutPc.publish value bottom).Meets block) :
    IndexProtocol.Invariant
        ({ block with committed := bottom + 1 }.protocol .resting taker) ∧
      Block.live { block with committed := bottom + 1 } .resting =
        block.live .resting ++ (if block.stolen ≤ bottom then [toBits value] else []) := by
  obtain ⟨start, written⟩ := meets
  simp only [PutPc.bottom] at start
  -- First the possible reset, then the raise.
  have started : IndexProtocol.Invariant
      ({ block with committed := bottom }.protocol .resting taker) ∧
      Block.live { block with committed := bottom } .resting = block.live .resting := by
    rcases start with rfl | ⟨rfl, drained⟩
    · exact ⟨invariant, rfl⟩
    · have reset : IndexProtocol.Step (block.protocol .resting taker) .silent
          ({ block with committed := 0 }.protocol .resting taker) :=
        .reset 0 rfl (by simp only [Block.protocol]; omega) (by simp only [Block.protocol]; omega)
      exact ⟨reset.invariant invariant, reset.applies invariant⟩
  obtain ⟨invariantStarted, liveStarted⟩ := started
  rw [← liveStarted]
  by_cases level : block.stolen ≤ bottom
  · have raised : IndexProtocol.Step ({ block with committed := bottom }.protocol .resting taker)
        (.appended (block.slots bottom))
        ({ block with committed := bottom + 1 }.protocol .resting taker) :=
      .raise rfl (by simp only [Block.protocol]; omega)
    rw [if_pos level, ← written]
    exact ⟨raised.invariant invariantStarted, raised.applies invariantStarted⟩
  · have sunk : IndexProtocol.Step ({ block with committed := bottom }.protocol .resting taker)
        .silent ({ block with committed := bottom + 1 }.protocol .resting taker) :=
      .raiseSunk rfl (by simp only [Block.protocol]; omega)
    rw [if_neg level, List.append_nil]
    exact ⟨sunk.invariant invariantStarted, sunk.applies invariantStarted⟩

end WsDeque.Bwos
