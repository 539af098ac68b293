import WsDeque.Bwos.BlockProtocol

/-
The part of `pop` inside one block with nobody else moving: it takes the newest
value, or leaves a block that has none.
-/

namespace WsDeque.Bwos

open InlineValue

variable {α : Type*}

/-- Steps of `pop` until it is done with the block. -/
def popRun (α : Type*) : Nat → Block → PopPc → Option (Block × PopOutcome)
  | 0, _, _ => none
  | fuel + 1, block, pc =>
      match (popBlock (α := α) block pc).2 with
      | (block', .running pc') => popRun α fuel block' pc'
      | (block', outcome) => some (block', outcome)

theorem popRun_running {fuel : Nat} {block block' : Block} {pc pc' : PopPc}
    (stepped : (popBlock (α := α) block pc).2 = (block', .running pc')) :
    popRun α (fuel + 1) block pc = popRun α fuel block' pc' := by
  simp only [popRun, stepped]

theorem popRun_taken {fuel : Nat} {block block' : Block} {pc : PopPc} {bits : BitVec 64}
    (stepped : (popBlock (α := α) block pc).2 = (block', .taken bits)) :
    popRun α (fuel + 1) block pc = some (block', .taken bits) := by
  simp only [popRun, stepped]

theorem popRun_drained {fuel : Nat} {block block' : Block} {pc : PopPc}
    (stepped : (popBlock (α := α) block pc).2 = (block', .drained)) :
    popRun α (fuel + 1) block pc = some (block', .drained) := by
  simp only [popRun, stepped]

/-- A block without its newest value: lowered, or the last value claimed. -/
theorem Block.live_snoc {block : Block} (shorter : Block) {last : Nat}
    (slots : shorter.slots = block.slots) (below : block.stolen ≤ last) (bottom : block.committed = last + 1)
    (kept : shorter.stolen = block.stolen ∧ shorter.committed = last ∨
      last = block.stolen ∧ shorter.committed ≤ shorter.stolen) :
    block.live .resting = shorter.live .resting ++ [block.slots last] := by
  have whole : block.live .resting =
      window block.cell block.stolen last ++ [block.slots last] := by
    unfold Block.live Block.back IndexProtocol.Owner.back
    rw [bottom, Nat.cast_succ, window_snoc _ (by omega)]
    rfl
  rw [whole]
  congr 1
  rcases kept with ⟨stolen, committed⟩ | ⟨single, drained⟩
  · unfold Block.live Block.back IndexProtocol.Owner.back Block.cell
    rw [stolen, committed, slots]
  · rw [Block.live_nil_of_drained drained, window_empty _ (by omega)]

variable {block : Block}

theorem popRun_empty (empty : block.committed ≤ block.stolen) :
    popRun α 2 block .loadCommitted = some (block, .drained) := by
  have loaded : popRun α 2 block .loadCommitted = popRun α 1 block (.loadStolen block.committed) :=
    popRun_running rfl
  rw [loaded]
  apply popRun_drained
  simp only [popBlock, if_pos empty]

/-- The claim of the newest index, by a plain store above others, by
compare-exchange when it is the last one. -/
theorem popRun_stocked (stocked : block.stolen < block.committed) :
    ∃ shorter bits, popRun α 7 block .loadCommitted = some (shorter, .taken bits) ∧
      block.live .resting = shorter.live .resting ++ [bits] := by
  obtain ⟨last, committed⟩ : ∃ last, block.committed = last + 1 :=
    ⟨block.committed - 1, by omega⟩
  have loaded : popRun α 7 block .loadCommitted =
      popRun α 3 { block with committed := last } (.loadSlot last block.stolen) := by
    have stolenBelow : block.stolen ≤ last := by omega
    calc popRun α 7 block .loadCommitted
        = popRun α 6 block (.loadStolen block.committed) := popRun_running rfl
      _ = popRun α 5 block (.storeCommitted block.committed) :=
          popRun_running (by simp only [popBlock, if_neg (Nat.not_le_of_lt stocked)])
      _ = popRun α 4 { block with committed := last } (.reloadStolen (last + 1)) :=
          popRun_running (by simp only [popBlock, committed, Nat.add_sub_cancel])
      _ = _ := popRun_running (by simp only [popBlock, Nat.add_sub_cancel, if_pos stolenBelow])
  rw [loaded]
  by_cases single : block.stolen = last
  · use { block with committed := last + 1, stolen := last + 1 }, block.slots last
    constructor
    · calc popRun α 3 { block with committed := last } (.loadSlot last block.stolen)
          = popRun α 2 { block with committed := last } (.casStolen last (block.slots last)) :=
            popRun_running (by simp [popBlock, Block.slotsRead, single])
        _ = popRun α 1 { block with committed := last, stolen := last + 1 }
              (.settle last (block.slots last) true) :=
            popRun_running (by simp [popBlock, single])
        _ = _ := popRun_taken (by simp [popBlock])
    · exact Block.live_snoc { block with committed := last + 1, stolen := last + 1 }
        rfl (by omega) committed (.inr ⟨single.symm, Nat.le_refl _⟩)
  · use { block with committed := last }, block.slots last
    constructor
    · apply popRun_taken
      simp only [popBlock, Block.slotsRead]
      rw [if_pos (by omega)]
    · exact Block.live_snoc { block with committed := last } rfl (by omega) committed
        (.inl ⟨rfl, rfl⟩)

end WsDeque.Bwos
