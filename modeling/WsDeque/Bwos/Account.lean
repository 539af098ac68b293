import Mathlib.Data.Fintype.Option
import WsDeque.Bwos.Chain

/-
Where the values of a BWoS queue are along a run: in its blocks or with one of
its parties. One lemma for each kind of step, for every way of moving between
blocks.
-/

namespace WsDeque.Bwos

open InlineValue

variable {ι α : Type*}

/-- No block has sunk below its `stolen`. -/
def Level (chain : Chain ι) : Prop :=
  ∀ blk, ((chain.blocks blk).stolen : Int) ≤ (chain.blocks blk).back (chain.phaseAt blk)

theorem Level.ownerMove {chain : Chain ι} (level : Level chain) {block : Block}
    {phase : IndexProtocol.Owner} (kept : (block.stolen : Int) ≤ block.back phase) :
    Level (chain.ownerMove block phase) := by
  intro blk
  by_cases here : blk = chain.current
  · subst here
    simpa only [Chain.ownerMove, Function.update_self, Chain.phaseAt, if_true] using kept
  · have before := level blk
    simpa only [Chain.ownerMove, Function.update_of_ne here, Chain.phaseAt, here, if_false]
      using before

theorem Level.moveTo {chain : Chain ι} (level : Level chain) (phase : chain.phase = .resting)
    (older : List Nat) (current : Nat) : Level (chain.moveTo older current) := by
  intro blk
  rw [Chain.moveTo_phaseAt phase]
  exact level blk

theorem Level.current {chain : Chain ι} (level : Level chain) :
    ((chain.blocks chain.current).stolen : Int) ≤
      (chain.blocks chain.current).back chain.phase := by
  have here := level chain.current
  rw [Chain.phaseAt_current] at here
  exact here

/-- What a thief does to a block leaves the owner's view of its own block intact. -/
theorem Chain.thiefMove_current [DecidableEq ι] {chain : Chain ι} {thief : ι} {blk : Nat}
    {block : Block} {outcome : StealOutcome} (place : Option (Nat × StealPc))
    (moved : StealMove (chain.blocks blk) (chain.phaseAt blk)
      (fun other => takerAt (chain.thief other) blk) thief block outcome) :
    let after := (chain.thiefMove thief blk block place).blocks chain.current
    let before := chain.blocks chain.current
    after.slots = before.slots ∧ after.committed = before.committed ∧
      (after.stolen = before.stolen ∨
        after.stolen = before.stolen + 1 ∧ (before.stolen : Int) < before.back chain.phase) := by
  simp only [Chain.thiefMove]
  by_cases here : chain.current = blk
  · subst here
    rw [Function.update_self]
    have stolen := moved.stolen
    rw [Chain.phaseAt_current] at stolen
    exact ⟨moved.slots, moved.committed, stolen⟩
  · rw [Function.update_of_ne here]
    exact ⟨rfl, rfl, Or.inl rfl⟩

/-- A thief that is at no index in any block can move freely. -/
theorem Chain.Invariant.relocate [DecidableEq ι] {chain : Chain ι} (invariant : chain.Invariant)
    {thief : ι} {place : Option (Nat × StealPc)}
    (before : ∀ blk, takerAt (chain.thief thief) blk = .away)
    (after : ∀ blk, takerAt place blk = .away) :
    { chain with thief := Function.update chain.thief thief place }.Invariant := by
  refine ⟨invariant.nodup, fun blk => ?_, invariant.drained⟩
  have same : (fun other => takerAt (Function.update chain.thief thief place other) blk) =
      fun other => takerAt (chain.thief other) blk := by
    rw [Chain.takerAt_update, after, ← before blk]
    exact Function.update_eq_self thief _
  unfold Chain.protocol
  rw [same]
  exact invariant.protocol blk

/-- The value a thief has won. -/
def StealOutcome.holds : StealOutcome → Option (BitVec 64)
  | .taken bits => some bits
  | _ => none

variable [InlineValue α] [Fintype ι]

structure Account (lossless : Bool) (labels : List (Label ι α)) (chain : Chain ι)
    (held : Option ι → Option α) : Prop where
  sound : chain.Invariant
  level : lossless = true → Level chain
  tracked : Tracked accepted handedOut labels lossless (chain.bits.map fromBits) held

namespace Account

variable {lossless : Bool} {labels : List (Label ι α)} {chain : Chain ι}
  {held : Option ι → Option α}

theorem silent (account : Account lossless labels chain held) {label : Label ι α}
    (noPut : accepted label = none) (noGive : handedOut label = none) :
    Account lossless (labels ++ [label]) chain held :=
  { sound := account.sound
    level := account.level
    tracked := account.tracked.silent noPut noGive }

variable [DecidableEq ι]

theorem handOut (account : Account lossless labels chain held) {label : Label ι α}
    {party : Option ι} {value : α} (noPut : accepted label = none)
    (gives : handedOut label = some value) (holding : held party = some value) :
    Account lossless (labels ++ [label]) chain (Function.update held party none) :=
  { sound := account.sound
    level := account.level
    tracked := account.tracked.handOut noPut gives holding }

/-! ### The owner inside its block -/

theorem storeSlot (account : Account lossless labels chain held) {value : α} {bottom : Nat}
    (phase : chain.phase = .resting)
    (meets : (PutPc.storeSlot value bottom).Meets (chain.blocks chain.current)) :
    Account lossless (labels ++ [.owner .storeSlot])
      (chain.ownerMove ((chain.blocks chain.current).slotsWrite bottom (toBits value)) .resting)
      held := by
  obtain ⟨kept, bits⟩ := account.sound.storeSlot phase meets
  refine
    { sound := kept
      level := fun kind => (account.level kind).ownerMove ?_
      tracked := ?_ }
  · have level := (account.level kind).current
    rw [phase] at level
    exact level
  · rw [bits]
    exact account.tracked.silent rfl rfl

/-- A publication above `stolen` appends; one below it is lost. -/
theorem publish (account : Account lossless labels chain held) {value : α} {bottom : Nat}
    (phase : chain.phase = .resting)
    (meets : (PutPc.publish value bottom).Meets (chain.blocks chain.current))
    (current : lossless = true → bottom = (chain.blocks chain.current).committed) :
    Account lossless (labels ++ [.owner (.publish value)])
      (chain.ownerMove { chain.blocks chain.current with committed := bottom + 1 } .resting)
      held := by
  obtain ⟨kept, bits⟩ := account.sound.publish phase meets
  have levelBefore : lossless = true → (chain.blocks chain.current).stolen ≤ bottom := by
    intro kind
    have level := (account.level kind).current
    have atCommitted := current kind
    simp only [phase, Block.back, IndexProtocol.Owner.back] at level
    omega
  refine
    { sound := kept
      level := fun kind => (account.level kind).ownerMove ?_
      tracked := ?_ }
  · have below := levelBefore kind
    change ((chain.blocks chain.current).stolen : Int) ≤ ((bottom + 1 : Nat) : Int)
    omega
  · rw [bits, List.map_append]
    by_cases level : (chain.blocks chain.current).stolen ≤ bottom
    · rw [if_pos level, List.map_singleton, fromBits_toBits]
      exact account.tracked.handIn rfl rfl
    · rw [if_neg level, List.map_nil, List.append_nil]
      have lossy : lossless = false := by
        cases lossless with
        | false => rfl
        | true => exact absurd (levelBefore rfl) level
      subst lossy
      exact account.tracked.handInLost rfl rfl

/-- A step of `pop`, before it may leave the block. -/
theorem pop (account : Account lossless labels chain held) {pc : PopPc}
    (phase : chain.phase = pc.phase) (meets : pc.Meets (chain.blocks chain.current))
    (holding : held none = (pc.holds (chain.blocks chain.current)).map fromBits) :
    let taken := popBlock (α := α) (chain.blocks chain.current) pc
    taken.2.2.Meets taken.2.1 ∧
      Account lossless (labels ++ [.owner taken.1]) (chain.ownerMove taken.2.1 taken.2.2.phase)
        (Function.update held none ((taken.2.2.holds taken.2.1).map fromBits)) := by
  intro taken
  have silent : accepted (.owner taken.1 : Label ι α) = none := popBlock_silent _ pc
  have protocol := account.sound.protocol chain.current
  rw [Chain.protocol, Chain.phaseAt_current, phase] at protocol
  have moved : PopMove _ pc _ taken.2.1 taken.2.2 := popBlock_move protocol meets
  obtain ⟨kept, bits⟩ := account.sound.pop phase moved
  refine ⟨moved.meets,
    { sound := kept
      level := fun kind => (account.level kind).ownerMove ?_
      tracked := ?_ }⟩
  · have level := (account.level kind).current
    rw [phase] at level
    exact popBlock_level protocol meets level
  · rcases bits with ⟨bits, same⟩ | ⟨bits, last, free, gained⟩
    · rw [bits, same, ← holding, Function.update_eq_self]
      exact account.tracked.silent silent rfl
    · have tracked := account.tracked
      rw [last, List.map_append] at tracked
      have nothing : held none = none := by
        rw [holding, free]
        rfl
      have took := tracked.take silent rfl nothing
      rw [List.map_nil, List.append_nil] at took
      rw [gained]
      exact took

/-! ### The owner between blocks -/

omit [DecidableEq ι] in
theorem stepBack (account : Account lossless labels chain held) {older : List Nat} {prev : Nat}
    (behind : chain.older = older ++ [prev]) (phase : chain.phase = .resting)
    (drained : (chain.blocks chain.current).committed ≤ (chain.blocks chain.current).stolen) :
    Account lossless labels (chain.moveTo older prev) held := by
  obtain ⟨kept, bits⟩ := account.sound.stepBack behind phase drained
  refine
    { sound := kept
      level := fun kind => (account.level kind).moveTo phase older prev
      tracked := ?_ }
  rw [bits]
  exact account.tracked

omit [DecidableEq ι] in
theorem advance (account : Account lossless labels chain held) {next : Nat}
    (outside : next ∉ chain.order) (phase : chain.phase = .resting) :
    Account lossless labels (chain.moveTo chain.order next) held := by
  obtain ⟨kept, bits⟩ := account.sound.advance outside phase
  refine
    { sound := kept
      level := fun kind => (account.level kind).moveTo phase _ next
      tracked := ?_ }
  rw [bits]
  exact account.tracked

/-! ### Thieves -/

theorem relocate (account : Account lossless labels chain held) {thief : ι}
    {place : Option (Nat × StealPc)} (before : ∀ blk, takerAt (chain.thief thief) blk = .away)
    (after : ∀ blk, takerAt place blk = .away) :
    Account lossless labels { chain with thief := Function.update chain.thief thief place } held :=
  { sound := account.sound.relocate before after
    level := account.level
    tracked := account.tracked }

/-- A step of `steal` inside a block. -/
theorem steal (account : Account lossless labels chain held) {thief : ι} {blk : Nat}
    {pc : StealPc} (place : Option (Nat × StealPc)) (here : chain.thief thief = some (blk, pc))
    (free : held (some thief) = none) :
    let taken := stealBlock (α := α) (chain.blocks blk) pc
    takerAt place blk = taken.2.2.taker →
    (∀ other, other ≠ blk → takerAt place other = .away) →
      StealMove (chain.blocks blk) (chain.phaseAt blk)
          (fun other => takerAt (chain.thief other) blk) thief taken.2.1 taken.2.2 ∧
        Account lossless (labels ++ [.thief thief taken.1])
          (chain.thiefMove thief blk taken.2.1 place)
          (Function.update held (some thief) (taken.2.2.holds.map fromBits)) := by
  intro taken placeHere placeElsewhere
  have taker : takerAt (chain.thief thief) blk = pc.taker := by
    rw [here]
    exact if_pos rfl
  have moved : StealMove (chain.blocks blk) (chain.phaseAt blk)
      (fun other => takerAt (chain.thief other) blk) thief taken.2.1 taken.2.2 :=
    stealBlock_move (account.sound.protocol blk) taker
  refine ⟨moved,
    { sound := account.sound.steal_protocol here moved placeHere placeElsewhere
      level := fun kind other => ?_
      tracked := ?_ }⟩
  · have before := account.level kind other
    change ((Function.update chain.blocks blk taken.2.1 other).stolen : Int) ≤
      (Function.update chain.blocks blk taken.2.1 other).back (chain.phaseAt other)
    by_cases same : other = blk
    · subst same
      rw [Function.update_self, Block.back, moved.committed]
      rcases moved.stolen with still | ⟨raised, inside⟩
      · rw [still]
        exact before
      · rw [raised]
        exact_mod_cast inside
    · rw [Function.update_of_ne same]
      exact before
  · have tracked := account.tracked
    rcases account.sound.steal_bits place moved with ⟨same, silent⟩ |
      ⟨bits, before, after, won, split, rest⟩
    · have nothing : taken.2.2.holds = none := by
        cases outcome : taken.2.2 with
        | taken bits =>
            rw [outcome] at silent
            cases silent
        | _ => rfl
      rw [nothing, Option.map_none, ← free, Function.update_eq_self, same]
      exact tracked.silent rfl rfl
    · rw [split, List.map_append, List.map_cons] at tracked
      rw [rest, List.map_append, won]
      exact tracked.take rfl rfl free

end Account

end WsDeque.Bwos
