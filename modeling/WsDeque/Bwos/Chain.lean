import WsDeque.Bwos.BlockProtocol

/-
The blocks of a queue as one sequence: the owner's block comes last, thieves may
be at any block, and a block outside the sequence has nothing to take.
-/

namespace WsDeque.Bwos

open InlineValue

variable {ι α : Type*}

structure Chain (ι : Type*) where
  blocks : Nat → Block
  /-- The blocks behind the owner's, oldest first. -/
  older : List Nat
  current : Nat
  phase : IndexProtocol.Owner
  thief : ι → Option (Nat × StealPc)

/-- The protocol state of a thief in a given block. -/
def takerAt (place : Option (Nat × StealPc)) (blk : Nat) : IndexProtocol.Taker (BitVec 64) :=
  match place with
  | some (at', pc) => if at' = blk then pc.taker else .away
  | none => .away

namespace Chain

variable {chain : Chain ι}

def order (chain : Chain ι) : List Nat :=
  chain.older ++ [chain.current]

def phaseAt (chain : Chain ι) (blk : Nat) : IndexProtocol.Owner :=
  if blk = chain.current then chain.phase else .resting

def protocol (chain : Chain ι) (blk : Nat) : IndexProtocol.State ι (BitVec 64) :=
  (chain.blocks blk).protocol (chain.phaseAt blk) fun thief => takerAt (chain.thief thief) blk

/-- Everything that can still be taken, oldest first. -/
def bits (chain : Chain ι) : List (BitVec 64) :=
  chain.order.flatMap fun blk => (chain.blocks blk).live (chain.phaseAt blk)

structure Invariant (chain : Chain ι) : Prop where
  nodup : chain.order.Nodup
  protocol : ∀ blk, IndexProtocol.Invariant (chain.protocol blk)
  drained : ∀ blk, blk ∉ chain.order →
    (chain.blocks blk).committed ≤ (chain.blocks blk).stolen

theorem phaseAt_current : chain.phaseAt chain.current = chain.phase :=
  if_pos rfl

theorem phaseAt_of_ne {blk : Nat} (other : blk ≠ chain.current) :
    chain.phaseAt blk = .resting :=
  if_neg other

theorem bits_split (chain : Chain ι) :
    chain.bits = (chain.older.flatMap fun blk => (chain.blocks blk).live (chain.phaseAt blk)) ++
      (chain.blocks chain.current).live chain.phase := by
  simp only [bits, order, List.flatMap_append, List.flatMap_cons, List.flatMap_nil,
    List.append_nil, phaseAt_current]

theorem older_live_congr (chain other : Chain ι) (older : other.older = chain.older)
    (current : chain.current ∉ chain.older) (otherCurrent : other.current ∉ chain.older)
    (blocks : ∀ blk ∈ chain.older, other.blocks blk = chain.blocks blk) :
    (other.older.flatMap fun blk => (other.blocks blk).live (other.phaseAt blk)) =
      chain.older.flatMap fun blk => (chain.blocks blk).live (chain.phaseAt blk) := by
  rw [older]
  apply List.flatMap_congr
  intro blk member
  rw [blocks blk member, phaseAt_of_ne (fun same => otherCurrent (same ▸ member)),
    phaseAt_of_ne (fun same => current (same ▸ member))]

theorem Invariant.current_not_older (invariant : chain.Invariant) :
    chain.current ∉ chain.older := by
  have nodup := invariant.nodup
  rw [order, List.nodup_append] at nodup
  intro member
  exact nodup.2.2 _ member _ (List.mem_singleton_self _) rfl

/-! ### One block changes -/

def setBlock (chain : Chain ι) (blk : Nat) (block : Block) : Chain ι :=
  { chain with blocks := Function.update chain.blocks blk block }

/-- A step of the owner inside its block. -/
def ownerMove (chain : Chain ι) (block : Block) (phase : IndexProtocol.Owner) : Chain ι :=
  { chain with
    blocks := Function.update chain.blocks chain.current block
    phase := phase }

theorem ownerMove_protocol (block : Block) (phase : IndexProtocol.Owner) (blk : Nat) :
    (chain.ownerMove block phase).protocol blk =
      if blk = chain.current then
        block.protocol phase fun thief => takerAt (chain.thief thief) chain.current
      else chain.protocol blk := by
  by_cases here : blk = chain.current
  · subst here
    simp only [ownerMove, protocol, phaseAt, Function.update_self, if_true]
  · simp only [ownerMove, protocol, phaseAt, Function.update_of_ne here, here, if_false]

theorem Invariant.ownerMove (invariant : chain.Invariant) {block : Block}
    {phase : IndexProtocol.Owner}
    (kept : IndexProtocol.Invariant
      (block.protocol phase fun thief => takerAt (chain.thief thief) chain.current)) :
    (chain.ownerMove block phase).Invariant := by
  refine ⟨invariant.nodup, fun blk => ?_, fun blk outside => ?_⟩
  · rw [ownerMove_protocol]
    split
    · exact kept
    · exact invariant.protocol blk
  · have other : blk ≠ chain.current := by
      rintro rfl
      exact outside (by simp [order, Chain.ownerMove])
    simp only [Chain.ownerMove, Function.update_of_ne other]
    exact invariant.drained blk outside

theorem Invariant.ownerMove_bits (invariant : chain.Invariant) (block : Block)
    (phase : IndexProtocol.Owner) :
    (chain.ownerMove block phase).bits =
      (chain.older.flatMap fun blk => (chain.blocks blk).live (chain.phaseAt blk)) ++
        block.live phase := by
  have older := older_live_congr chain (chain.ownerMove block phase) rfl
    invariant.current_not_older invariant.current_not_older fun blk member =>
      Function.update_of_ne (ne_of_mem_of_not_mem member invariant.current_not_older) ..
  rw [bits_split, older]
  simp only [Chain.ownerMove, Function.update_self]

/-- What leaves the owner's block leaves the end of the sequence. -/
theorem Invariant.pop [DecidableEq ι] (invariant : chain.Invariant) {pc : PopPc} {block : Block}
    {outcome : PopOutcome} (phase : chain.phase = pc.phase)
    (moved : PopMove (chain.blocks chain.current) pc
      (fun thief => takerAt (chain.thief thief) chain.current) block outcome) :
    (chain.ownerMove block outcome.phase).Invariant ∧
      ((chain.ownerMove block outcome.phase).bits = chain.bits ∧
          outcome.holds block = pc.holds (chain.blocks chain.current) ∨
        ∃ bits, chain.bits = (chain.ownerMove block outcome.phase).bits ++ [bits] ∧
          pc.holds (chain.blocks chain.current) = none ∧ outcome.holds block = some bits) := by
  have before := invariant.protocol chain.current
  rw [Chain.protocol, phaseAt_current, phase] at before
  obtain ⟨effect, step, gains⟩ := moved.step
  have applied := step.applies before
  simp only [Block.protocol_live] at applied
  refine ⟨invariant.ownerMove (step.invariant before), ?_⟩
  rw [invariant.ownerMove_bits, bits_split, phase]
  cases effect with
  | silent => exact Or.inl ⟨by rw [show block.live outcome.phase = _ from applied], gains⟩
  | popped bits =>
      refine Or.inr ⟨bits, ?_, gains⟩
      rw [List.append_assoc, ← show _ = block.live outcome.phase ++ [bits] from applied]
  | taken bits =>
      obtain ⟨free, holds, index, settling⟩ := gains
      refine Or.inr ⟨bits, ?_, free, holds⟩
      have none : block.live outcome.phase = [] :=
        (step.invariant before).live_nil_of_settling settling
      rw [none] at applied ⊢
      rw [List.append_nil, show _ = [bits] from applied]
  | appended bits => exact gains.elim

variable [InlineValue α]

theorem Invariant.storeSlot [DecidableEq ι] (invariant : chain.Invariant) {value : α}
    {bottom : Nat} (phase : chain.phase = .resting)
    (meets : (PutPc.storeSlot value bottom).Meets (chain.blocks chain.current)) :
    (chain.ownerMove ((chain.blocks chain.current).slotsWrite bottom (toBits value))
        .resting).Invariant ∧
      (chain.ownerMove ((chain.blocks chain.current).slotsWrite bottom (toBits value))
        .resting).bits = chain.bits := by
  have before := invariant.protocol chain.current
  rw [Chain.protocol, phaseAt_current, phase] at before
  have step := (putBlock_storeSlot (fun thief =>
    takerAt (chain.thief thief) chain.current) meets).1
  refine ⟨invariant.ownerMove (step.invariant before), ?_⟩
  rw [invariant.ownerMove_bits, bits_split, phase]
  congr 1
  exact step.applies before

theorem Invariant.publish [DecidableEq ι] (invariant : chain.Invariant) {value : α}
    {bottom : Nat} (phase : chain.phase = .resting)
    (meets : (PutPc.publish value bottom).Meets (chain.blocks chain.current)) :
    (chain.ownerMove { chain.blocks chain.current with committed := bottom + 1 }
        .resting).Invariant ∧
      (chain.ownerMove { chain.blocks chain.current with committed := bottom + 1 } .resting).bits =
        chain.bits ++
          (if (chain.blocks chain.current).stolen ≤ bottom then [toBits value] else []) := by
  have before := invariant.protocol chain.current
  rw [Chain.protocol, phaseAt_current, phase] at before
  obtain ⟨kept, live⟩ := putBlock_publish before meets
  refine ⟨invariant.ownerMove kept, ?_⟩
  rw [invariant.ownerMove_bits, bits_split, phase, live, List.append_assoc]

/-! ### The owner changes blocks -/

def moveTo (chain : Chain ι) (older : List Nat) (current : Nat) : Chain ι :=
  { chain with
    older := older
    current := current }

theorem moveTo_phaseAt (phase : chain.phase = .resting) (older : List Nat) (current blk : Nat) :
    (chain.moveTo older current).phaseAt blk = chain.phaseAt blk := by
  simp only [moveTo, phaseAt, phase, ite_self]

theorem moveTo_protocol (phase : chain.phase = .resting) (older : List Nat) (current blk : Nat) :
    (chain.moveTo older current).protocol blk = chain.protocol blk := by
  simp only [Chain.protocol, moveTo_phaseAt phase]
  rfl

/-- The owner's block is given up when nothing is left in it. -/
theorem Invariant.stepBack (invariant : chain.Invariant) {older : List Nat} {prev : Nat}
    (behind : chain.older = older ++ [prev]) (phase : chain.phase = .resting)
    (drained : (chain.blocks chain.current).committed ≤ (chain.blocks chain.current).stolen) :
    (chain.moveTo older prev).Invariant ∧ (chain.moveTo older prev).bits = chain.bits := by
  have nodup := invariant.nodup
  rw [order, behind, List.nodup_append] at nodup
  refine ⟨⟨nodup.1, fun blk => ?_, fun blk outside => ?_⟩, ?_⟩
  · rw [moveTo_protocol phase]
    exact invariant.protocol blk
  · by_cases left : blk = chain.current
    · subst left
      exact drained
    · refine invariant.drained blk fun member => ?_
      rw [order, behind, List.mem_append, List.mem_singleton] at member
      exact member.elim outside left
  · rw [chain.bits_split, phase, Block.live_nil_of_drained drained, List.append_nil,
      behind]
    simp only [bits, moveTo_phaseAt phase]
    rfl

/-- The owner enters a block outside the sequence. -/
theorem Invariant.advance (invariant : chain.Invariant) {next : Nat}
    (outside : next ∉ chain.order) (phase : chain.phase = .resting) :
    (chain.moveTo chain.order next).Invariant ∧
      (chain.moveTo chain.order next).bits = chain.bits := by
  refine ⟨⟨?_, fun blk => ?_, fun blk absent => ?_⟩, ?_⟩
  · rw [order, List.nodup_append]
    refine ⟨invariant.nodup, List.nodup_singleton _, ?_⟩
    intro blk member other last
    rw [List.mem_singleton.mp last]
    exact ne_of_mem_of_not_mem member outside
  · rw [moveTo_protocol phase]
    exact invariant.protocol blk
  · refine invariant.drained blk fun member => ?_
    exact absent (List.mem_append_left _ member)
  · have none : (chain.blocks next).live chain.phase = [] := by
      rw [phase]
      exact Block.live_nil_of_drained (invariant.drained next outside)
    rw [bits_split]
    simp only [moveTo_phaseAt phase]
    rw [show ((chain.moveTo chain.order next).blocks (chain.moveTo chain.order next).current).live
      (chain.moveTo chain.order next).phase = [] from none, List.append_nil]
    rfl

/-! ### Thieves -/

/-- A thief leaves its state in one block behind. -/
def thiefMove [DecidableEq ι] (chain : Chain ι) (thief : ι) (blk : Nat) (block : Block)
    (place : Option (Nat × StealPc)) : Chain ι :=
  { chain with
    blocks := Function.update chain.blocks blk block
    thief := Function.update chain.thief thief place }

theorem takerAt_update [DecidableEq ι] (thieves : ι → Option (Nat × StealPc)) (thief : ι)
    (place : Option (Nat × StealPc)) (blk : Nat) :
    (fun other => takerAt (Function.update thieves thief place other) blk) =
      Function.update (fun other => takerAt (thieves other) blk) thief (takerAt place blk) := by
  funext other
  by_cases same : other = thief
  · subst same
    simp only [Function.update_self]
  · simp only [Function.update_of_ne same]

theorem takerAt_other {place : Option (Nat × StealPc)} {blk other : Nat} {pc : StealPc}
    (here : place = some (blk, pc)) (different : other ≠ blk) : takerAt place other = .away := by
  rw [here]
  exact if_neg (Ne.symm different)

theorem thiefMove_protocol [DecidableEq ι] {thief : ι} {blk : Nat} {pc : StealPc}
    {block : Block} {outcome : StealOutcome} {place : Option (Nat × StealPc)}
    (here : chain.thief thief = some (blk, pc)) (placeHere : takerAt place blk = outcome.taker)
    (placeElsewhere : ∀ other, other ≠ blk → takerAt place other = .away) (other : Nat) :
    (chain.thiefMove thief blk block place).protocol other =
      if other = blk then
        block.protocol (chain.phaseAt blk)
          (Function.update (fun party => takerAt (chain.thief party) blk) thief outcome.taker)
      else chain.protocol other := by
  by_cases same : other = blk
  · subst same
    rw [if_pos rfl, ← placeHere, ← takerAt_update]
    simp only [Chain.protocol, thiefMove, Function.update_self]
    rfl
  · rw [if_neg same]
    simp only [Chain.protocol, thiefMove, Function.update_of_ne same]
    rw [takerAt_update, placeElsewhere other same]
    congr 1
    rw [← takerAt_other here same]
    exact Function.update_eq_self thief _

theorem Invariant.steal_protocol [DecidableEq ι] (invariant : chain.Invariant) {thief : ι}
    {blk : Nat} {pc : StealPc} {block : Block} {outcome : StealOutcome}
    {place : Option (Nat × StealPc)} (here : chain.thief thief = some (blk, pc))
    (moved : StealMove (chain.blocks blk) (chain.phaseAt blk)
      (fun other => takerAt (chain.thief other) blk) thief block outcome)
    (placeHere : takerAt place blk = outcome.taker)
    (placeElsewhere : ∀ other, other ≠ blk → takerAt place other = .away) :
    (chain.thiefMove thief blk block place).Invariant := by
  refine ⟨invariant.nodup, fun other => ?_, fun other outside => ?_⟩
  · rw [thiefMove_protocol here placeHere placeElsewhere]
    split
    · exact moved.step.invariant (invariant.protocol blk)
    · exact invariant.protocol other
  · have drained := invariant.drained other outside
    by_cases same : other = blk
    · subst same
      have committed := moved.committed
      simp only [thiefMove, Function.update_self]
      rcases moved.stolen with kept | ⟨raised, _inside⟩ <;> omega
    · simpa only [thiefMove, Function.update_of_ne same] using drained

/-- Taking the front of one block takes from somewhere in the sequence. -/
theorem Invariant.steal_bits [DecidableEq ι] (invariant : chain.Invariant) {thief : ι}
    {blk : Nat} {block : Block} {outcome : StealOutcome} (place : Option (Nat × StealPc))
    (moved : StealMove (chain.blocks blk) (chain.phaseAt blk)
      (fun other => takerAt (chain.thief other) blk) thief block outcome) :
    (chain.thiefMove thief blk block place).bits = chain.bits ∧ outcome.effect = .silent ∨
      ∃ bits before after, outcome = .taken bits ∧ chain.bits = before ++ bits :: after ∧
        (chain.thiefMove thief blk block place).bits = before ++ after := by
  have applied := moved.step.applies (invariant.protocol blk)
  simp only [Block.protocol_live] at applied
  have phases : ∀ other, (chain.thiefMove thief blk block place).phaseAt other =
      chain.phaseAt other := fun _other => rfl
  by_cases member : blk ∈ chain.order
  · obtain ⟨left, right, split⟩ := List.append_of_mem member
    have nodup := invariant.nodup
    rw [split] at nodup
    have absent : blk ∉ left ∧ blk ∉ right := by
      rw [List.nodup_append, List.nodup_cons] at nodup
      exact ⟨fun inside => nodup.2.2 blk inside blk List.mem_cons_self rfl, nodup.2.1.1⟩
    have unchanged : ∀ part : List Nat, blk ∉ part →
        (part.flatMap fun other => ((chain.thiefMove thief blk block place).blocks other).live
          (chain.phaseAt other)) =
        part.flatMap fun other => (chain.blocks other).live (chain.phaseAt other) := by
      intro part outside
      apply List.flatMap_congr
      intro other inside
      simp only [thiefMove, Function.update_of_ne (ne_of_mem_of_not_mem inside outside)]
    have before : chain.bits = _ := congrArg (fun order => order.flatMap fun other =>
      (chain.blocks other).live (chain.phaseAt other)) split
    have after : (chain.thiefMove thief blk block place).bits = _ := congrArg
      (fun order => order.flatMap fun other =>
        ((chain.thiefMove thief blk block place).blocks other).live (chain.phaseAt other)) split
    have changed : (chain.thiefMove thief blk block place).blocks blk = block :=
      Function.update_self ..
    simp only [List.flatMap_append, List.flatMap_cons, unchanged left absent.1,
      unchanged right absent.2, changed] at before after
    rw [before, after]
    cases outcome with
    | taken bits =>
        refine Or.inr ⟨bits, _, _, rfl, ?_, rfl⟩
        rw [show _ = bits :: block.live (chain.phaseAt blk) from applied, List.cons_append]
    | _ => exact Or.inl ⟨by rw [show block.live (chain.phaseAt blk) = _ from applied], rfl⟩
  · have drained := invariant.drained blk member
    have resting : chain.phaseAt blk = .resting := by
      apply phaseAt_of_ne
      rintro rfl
      exact member (List.mem_append_right _ (List.mem_singleton_self _))
    left
    constructor
    · apply List.flatMap_congr
      intro other inside
      rw [phases]
      simp only [thiefMove, Function.update_of_ne (ne_of_mem_of_not_mem inside member)]
    · cases outcome with
      | taken bits =>
          rw [resting, Block.live_nil_of_drained drained] at applied
          cases applied
      | _ => rfl

end Chain

end WsDeque.Bwos
