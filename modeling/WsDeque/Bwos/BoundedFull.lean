import WsDeque.Bwos.BoundedDrain

/-
When the bounded queue rejects a `put`. The code looks at the last block alone:
a slot that a steal or the pop of a last element has used up stays used.
-/

namespace WsDeque.Bwos.Bounded

open InlineValue

variable {ι α : Type*}

/-! ### Blocks behind the owner's are filled to the end -/

/-- The local variables of `pop` stay within the block. -/
def PopWithin (size : Nat) : PopPc → Prop
  | .loadCommitted => True
  | .loadStolen b | .storeCommitted b | .reloadStolen b | .restore b => b ≤ size
  | .loadSlot newB s => s ≤ newB ∧ newB < size
  | .casStolen s _ | .settle s _ _ => s < size

def OwnerPc.Within (size : Nat) : OwnerPc α → Prop
  | .putting (.storeSlot _ bottom) | .putting (.publish _ bottom) => bottom < size
  | .popping pc => PopWithin size pc
  | _ => True

structure Filled (shape : Shape) (state : State ι α) : Prop where
  inRange : state.ownerBlock < shape.numBlocks
  behind : ∀ blk < state.ownerBlock, (state.inner.blocks blk).committed = shape.blockSize
  bounded : ∀ blk, (state.inner.blocks blk).committed ≤ shape.blockSize
  owner : state.owner.Within shape.blockSize

theorem popBlock_within {size : Nat} (nonempty : 1 ≤ size) {block : Block} {pc : PopPc}
    (within : PopWithin size pc) (bounded : block.committed ≤ size) :
    (popBlock (α := α) block pc).2.1.committed ≤ size ∧
      ∀ next, (popBlock (α := α) block pc).2.2 = .running next → PopWithin size next := by
  cases pc with
  | loadCommitted =>
      refine ⟨bounded, fun next same => ?_⟩
      cases same
      exact bounded
  | loadStolen b =>
      refine ⟨bounded, fun next same => ?_⟩
      simp only [popBlock] at same
      split at same <;> cases same
      exact within
  | storeCommitted b =>
      refine ⟨Nat.le_trans (Nat.sub_le b 1) within, fun next same => ?_⟩
      cases same
      exact within
  | reloadStolen b =>
      refine ⟨bounded, fun next same => ?_⟩
      change b ≤ size at within
      simp only [popBlock] at same
      split at same <;> cases same
      · rename_i inside
        exact ⟨inside, by omega⟩
      · exact within
  | loadSlot newB s =>
      refine ⟨bounded, fun next same => ?_⟩
      obtain ⟨ordered, below⟩ := within
      simp only [popBlock] at same
      split at same <;> cases same
      exact Nat.lt_of_le_of_lt ordered below
  | casStolen s bits =>
      simp only [popBlock]
      split
      · refine ⟨bounded, fun next same => ?_⟩
        cases same
        exact within
      · refine ⟨bounded, fun next same => ?_⟩
        cases same
        exact within
  | settle s bits won =>
      refine ⟨within, fun next same => ?_⟩
      simp only [popBlock] at same
      split at same <;> cases same
      trivial
  | restore b =>
      refine ⟨within, fun next same => ?_⟩
      cases same
      trivial

theorem stealBlock_committed (block : Block) (pc : StealPc) :
    (stealBlock (α := α) block pc).2.1.committed = block.committed := by
  cases pc with
  | casStolen t bits =>
      simp only [stealBlock]
      split <;> rfl
  | _ => rfl

section

variable {shape : Shape} {state : State ι α}

/-- Only the block of the owner changes, and stays within its size. -/
theorem Filled.ownBlock (filled : Filled shape state) {block : Block} {owner : OwnerPc α}
    (bounded : block.committed ≤ shape.blockSize) (within : owner.Within shape.blockSize) :
    Filled shape
      { state with
        inner := state.inner.setBlock state.ownerBlock block
        owner := owner } := by
  refine ⟨filled.inRange, fun blk below => ?_, fun blk => ?_, within⟩
  · change (Function.update state.inner.blocks state.ownerBlock block blk).committed = _
    rw [Function.update_of_ne (Nat.ne_of_lt below)]
    exact filled.behind blk below
  · change (Function.update state.inner.blocks state.ownerBlock block blk).committed ≤ _
    by_cases here : blk = state.ownerBlock
    · rw [here, Function.update_self]
      exact bounded
    · rw [Function.update_of_ne here]
      exact filled.bounded blk

theorem Filled.stepBack (filled : Filled shape state) {owner : OwnerPc α}
    (within : owner.Within shape.blockSize) :
    Filled shape { state with ownerBlock := state.ownerBlock - 1, owner := owner } := by
  have inRange := filled.inRange
  refine ⟨?_, fun blk below => ?_, filled.bounded, within⟩
  · change state.ownerBlock - 1 < shape.numBlocks
    omega
  · change blk < state.ownerBlock - 1 at below
    exact filled.behind blk (by omega)

variable [InlineValue α]

theorem Filled.popping (filled : Filled shape state) {pc : PopPc}
    (atPc : state.owner = .popping pc) :
    let taken := popBlock (α := α) (state.inner.blocks state.ownerBlock) pc
    let next : Nat × OwnerPc α := afterPop state.ownerBlock taken.2.2
    Filled shape
      { state with
        inner := state.inner.setBlock state.ownerBlock taken.2.1
        ownerBlock := next.1
        owner := next.2 } := by
  intro taken next
  have within : PopWithin shape.blockSize pc := by
    have owner := filled.owner
    rw [atPc] at owner
    exact owner
  obtain ⟨bounded, running⟩ := popBlock_within (α := α) shape.nonempty within
    (filled.bounded state.ownerBlock)
  have moved : ∀ owner : OwnerPc α, owner.Within shape.blockSize →
      Filled shape
        { state with
          inner := state.inner.setBlock state.ownerBlock taken.2.1
          owner := owner } := fun owner ok => filled.ownBlock bounded ok
  unfold next
  cases outcome : taken.2.2 with
  | running pc' => exact moved (.popping pc') (running pc' outcome)
  | taken bits => exact moved (.returned (.popped (some (fromBits bits)))) trivial
  | drained =>
      by_cases first : state.ownerBlock = 0
      · simp only [afterPop, if_pos first]
        exact moved (.returned (.popped none)) trivial
      · simp only [afterPop, if_neg first]
        exact (moved .idle trivial).stepBack trivial

theorem Filled.ownerStep (filled : Filled shape state) {access : Access α} {inner : Inner}
    {ownerBlock : Nat} {owner : OwnerPc α}
    (taken : Bounded.ownerStep shape state.inner state.ownerBlock state.owner =
      some (access, inner, ownerBlock, owner)) :
    Filled shape { state with inner := inner, ownerBlock := ownerBlock, owner := owner } := by
  have bounded := filled.bounded state.ownerBlock
  have inRange := filled.inRange
  cases atPc : state.owner with
  | putLoadCommitted value =>
      rw [atPc] at taken
      simp only [Bounded.ownerStep] at taken
      split at taken
      · rename_i full
        split at taken <;> cases taken
        · exact ⟨inRange, filled.behind, filled.bounded, trivial⟩
        · rename_i more
          refine ⟨?_, fun blk below => ?_, filled.bounded, trivial⟩
          · change state.ownerBlock + 1 < shape.numBlocks
            omega
          · change blk < state.ownerBlock + 1 at below
            by_cases here : blk = state.ownerBlock
            · rw [here]
              exact full
            · exact filled.behind blk (by omega)
      · cases taken
        rename_i partly
        refine ⟨inRange, filled.behind, filled.bounded, ?_⟩
        exact Nat.lt_of_le_of_ne bounded partly
  | putStoreProduced value =>
      rw [atPc] at taken
      cases taken
      exact ⟨inRange, filled.behind, filled.bounded, shape.nonempty⟩
  | putting pc =>
      have within := filled.owner
      rw [atPc] at taken within
      cases pc with
      | storeSlot value bottom =>
          cases taken
          exact filled.ownBlock bounded within
      | publish value bottom =>
          cases taken
          exact filled.ownBlock within trivial
  | popping pc =>
      rw [atPc] at taken
      simp only [Bounded.ownerStep, Option.some.injEq, Prod.mk.injEq] at taken
      obtain ⟨_access, rfl, rfl, rfl⟩ := taken
      exact filled.popping atPc
  | idle => rw [atPc] at taken; cases taken
  | returned result => rw [atPc] at taken; cases taken

theorem Filled.next [DecidableEq ι] (filled : Filled shape state) {choice : Choice ι α}
    {label : Label ι α} {after : State ι α}
    (taken : Bounded.next shape state choice = some (label, after)) : Filled shape after := by
  obtain ⟨inRange, behind, bounded, owner⟩ := filled
  cases next_moves taken with
  | putCall value atPc | popCall atPc | ownerReturn result atPc =>
      exact ⟨inRange, behind, bounded, trivial⟩
  | owner access inner ownerBlock pc stepped =>
      exact Filled.ownerStep ⟨inRange, behind, bounded, owner⟩ stepped
  | newStealer thief atPc | stealCall thief atPc | stealReturn thief result atPc =>
      exact ⟨inRange, behind, bounded, owner⟩
  | thief thief access inner pc stepped =>
      have committed : ∀ blk, (inner.blocks blk).committed =
          (state.inner.blocks blk).committed := by
        intro blk
        cases atPc : state.thief thief with
        | scanning produced here stealPc =>
            rw [atPc] at stepped
            simp only [Bounded.thiefStep, Option.some.injEq, Prod.mk.injEq] at stepped
            obtain ⟨_access, rfl, _pc⟩ := stepped
            simp only [Inner.setBlock]
            by_cases same : blk = here
            · rw [same, Function.update_self]
              exact stealBlock_committed _ stealPc
            · rw [Function.update_of_ne same]
        | loadProduced => rw [atPc] at stepped; cases stepped; rfl
        | absent => rw [atPc] at stepped; cases stepped
        | idle => rw [atPc] at stepped; cases stepped
        | returned result => rw [atPc] at stepped; cases stepped
      refine ⟨inRange, fun blk below => ?_, fun blk => ?_, owner⟩
      · exact (committed blk).trans (behind blk below)
      · exact (committed blk).trans_le (bounded blk)

theorem filled_of_reaches [DecidableEq ι] {labels : List (Label ι α)}
    (reached : (system ι α shape).Reaches labels state) : Filled shape state := by
  obtain ⟨start, isInitial, run⟩ := reached
  induction run with
  | refl =>
      cases isInitial
      exact ⟨Nat.lt_of_lt_of_le Nat.two_pos shape.twoBlocks,
        fun blk below => absurd below (Nat.not_lt_zero blk), fun blk => Nat.zero_le _, trivial⟩
  | snoc _prior taken ih =>
      obtain ⟨choice, moved⟩ := taken
      exact ih.next moved

/-! ### How much is in the blocks -/

/-- The owner stands at the end of the last block. -/
def State.AtEnd (shape : Shape) (state : State ι α) : Prop :=
  state.ownerBlock + 1 = shape.numBlocks ∧ state.block.committed = shape.blockSize

/-- No slot has been used up by a steal or by the pop of a last element. -/
def State.Unused (shape : Shape) (state : State ι α) : Prop :=
  ∀ blk < shape.numBlocks, (state.inner.blocks blk).stolen = 0

theorem sum_le_full {count : Nat → Nat} {blocks size : Nat}
    (bounded : ∀ blk < blocks, count blk ≤ size) :
    ((List.range blocks).map count).sum ≤ blocks * size ∧
      (((List.range blocks).map count).sum = blocks * size ↔ ∀ blk < blocks, count blk = size) := by
  induction blocks with
  | zero => exact ⟨by simp, by simp⟩
  | succ blocks ih =>
      obtain ⟨below, full⟩ := ih fun blk inside => bounded blk (by omega)
      have last := bounded blocks (by omega)
      rw [List.range_succ, List.map_append, List.sum_append, Nat.succ_mul]
      simp only [List.map_cons, List.map_nil, List.sum_cons, List.sum_nil, Nat.add_zero]
      refine ⟨by omega, ?_⟩
      constructor
      · intro same blk inside
        have both : ((List.range blocks).map count).sum = blocks * size ∧ count blocks = size := by
          omega
        by_cases here : blk = blocks
        · rw [here]
          exact both.2
        · exact full.mp both.1 blk (by omega)
      · intro all
        have rest := full.mpr fun blk inside => all blk (by omega)
        have here := all blocks (by omega)
        omega

omit [InlineValue α] in
theorem State.bits_length (idle : state.owner = .idle) :
    state.chain.bits.length = ((List.range (state.ownerBlock + 1)).map fun blk =>
      (state.inner.blocks blk).committed - (state.inner.blocks blk).stolen).sum := by
  unfold Chain.bits
  rw [State.order_eq, List.length_flatMap]
  congr 1
  apply List.map_congr_left
  intro blk _member
  have phase : state.chain.phaseAt blk = .resting := by
    unfold Chain.phaseAt State.chain
    rw [idle]
    exact ite_self _
  rw [phase, Block.live, window_length]
  change (((state.inner.blocks blk).committed : Int) - (state.inner.blocks blk).stolen).toNat = _
  omega

omit [InlineValue α] in
/-- The blocks hold as much as the queue can only when nothing was ever used up. -/
theorem Filled.full_iff (filled : Filled shape state) (idle : state.owner = .idle) :
    state.chain.bits.length = shape.capacity ↔ state.AtEnd shape ∧ state.Unused shape := by
  have inRange := filled.inRange
  have nonempty := shape.nonempty
  rw [State.bits_length idle]
  have fits : ∀ blk < state.ownerBlock + 1,
      (state.inner.blocks blk).committed - (state.inner.blocks blk).stolen ≤ shape.blockSize :=
    fun blk _inside => Nat.le_trans (Nat.sub_le _ _) (filled.bounded blk)
  obtain ⟨below, full⟩ := sum_le_full fits
  constructor
  · intro whole
    rw [whole] at below full
    have last : state.ownerBlock + 1 = shape.numBlocks := by
      by_contra fewer
      have short : (state.ownerBlock + 1) * shape.blockSize < shape.numBlocks * shape.blockSize :=
        Nat.mul_lt_mul_of_pos_right (by omega) nonempty
      exact Nat.not_lt_of_le below short
    have each := full.mp (by rw [Shape.capacity, last])
    have stored := each state.ownerBlock (by omega)
    have bounded := filled.bounded state.ownerBlock
    refine ⟨⟨last, ?_⟩, ?_⟩
    · change (state.inner.blocks state.ownerBlock).committed = shape.blockSize
      omega
    · intro blk inside
      have here := each blk (by omega)
      have small := filled.bounded blk
      omega
  · rintro ⟨⟨last, atEnd⟩, unused⟩
    rw [Shape.capacity, ← last]
    refine full.mpr fun blk inside => ?_
    have none := unused blk (by omega)
    by_cases here : blk = state.ownerBlock
    · subst here
      change (state.inner.blocks state.ownerBlock).committed = shape.blockSize at atEnd
      omega
    · have behind := filled.behind blk (by omega)
      omega

/-! ### One `put` with nobody else moving -/

variable [DecidableEq ι]

def State.putReturns (state : State ι α) : Option Bool :=
  match state.owner with
  | .returned (.put accepted) => some accepted
  | _ => none

def callPut (shape : Shape) (value : α) (fuel : Nat) (state : State ι α) : Option Bool :=
  (Bounded.next shape state (.putCall value)).bind fun taken =>
    runAlone State.putReturns (ownerMoves shape) fuel taken.2

/-- A `put` finishes in four accesses and rejects at the end of the last block. -/
theorem callPut_eq (value : α) (idle : state.owner = .idle) :
    ∃ accepts, callPut shape value 5 state = some accepts ∧
      (accepts = false ↔ state.AtEnd shape) := by
  unfold callPut
  simp only [Bounded.next, idle, Option.bind_some]
  by_cases full : state.block.committed = shape.blockSize
  · by_cases last : state.ownerBlock + 1 = shape.numBlocks
    · refine ⟨false, ?_, fun _same => ⟨last, full⟩, fun _atEnd => rfl⟩
      change (state.inner.blocks state.ownerBlock).committed = shape.blockSize at full
      simp only [runAlone, State.putReturns, ownerMoves, Bounded.next, Bounded.ownerStep,
        if_pos full, if_pos last, Option.map_some, Option.bind_some]
    · refine ⟨true, ?_, ⟨Bool.noConfusion, fun atEnd => absurd atEnd.1 last⟩⟩
      change (state.inner.blocks state.ownerBlock).committed = shape.blockSize at full
      simp only [runAlone, State.putReturns, ownerMoves, Bounded.next, Bounded.ownerStep, putBlock,
        if_pos full, if_neg last, Option.map_some, Option.bind_some]
  · refine ⟨true, ?_, ⟨Bool.noConfusion, fun atEnd => absurd atEnd.2 full⟩⟩
    change ¬ (state.inner.blocks state.ownerBlock).committed = shape.blockSize at full
    simp only [runAlone, State.putReturns, ownerMoves, Bounded.next, Bounded.ownerStep, putBlock,
      if_neg full, Option.map_some, Option.bind_some]

theorem callPut_rejects_iff (value : α) (idle : state.owner = .idle) :
    (∃ fuel, callPut shape value fuel state = some false) ↔ state.AtEnd shape := by
  obtain ⟨accepts, returned, rejects⟩ :
      ∃ accepts, callPut shape value 5 state = some accepts ∧
        (accepts = false ↔ state.AtEnd shape) := callPut_eq value idle
  rw [← rejects]
  constructor
  · rintro ⟨fuel, ran⟩
    simp only [callPut, Option.bind_eq_some_iff] at ran returned
    obtain ⟨taken, called, finished⟩ := ran
    obtain ⟨_taken, calledHere, finishedHere⟩ := returned
    rw [called] at calledHere
    cases calledHere
    have one := runAlone_mono (Nat.le_max_left fuel 5) finished
    have other := runAlone_mono (Nat.le_max_right fuel 5) finishedHere
    rw [one] at other
    exact (Option.some.inj other).symm
  · rintro rfl
    exact ⟨5, returned⟩

omit [DecidableEq ι] in
/-- What the queue holds is what was accepted and not returned. -/
theorem Follows.count [Fintype ι] {labels : List (Label ι α)} (follows : Follows true labels state)
    (quiet : state.Quiescent) :
    (occurrences accepted labels).length =
      state.chain.bits.length + (occurrences handedOut labels).length := by
  have counted := follows.account.tracked.count quiet.free
  rwa [List.length_map] at counted

/-- In a run that loses nothing, the next `put` rejects exactly when the queue
is full if and only if it does not stand at the end of a queue some slots of
which were used up. -/
theorem put_rejects_full_iff [Fintype ι] {labels : List (Label ι α)} (value : α)
    (reached : ((system ι α shape).restrict (Fresh shape)).Reaches labels state)
    (quiet : state.Quiescent) :
    ((∃ fuel, callPut shape value fuel state = some false) ↔
        (occurrences accepted labels).length =
          (occurrences handedOut labels).length + shape.capacity) ↔
      (state.AtEnd shape → state.Unused shape) := by
  have plain : (system ι α shape).Reaches labels state := by
    obtain ⟨start, isInitial, run⟩ := reached
    exact ⟨start, isInitial, run.unrestricted⟩
  have full := (filled_of_reaches plain).full_iff quiet.1
  have counted := (follows_of_fresh reached).count quiet
  have same : (occurrences accepted labels).length =
      (occurrences handedOut labels).length + shape.capacity ↔
        state.chain.bits.length = shape.capacity := by
    omega
  rw [callPut_rejects_iff value quiet.1, same, full]
  constructor
  · intro both atEnd
    exact (both.mp atEnd).2
  · intro unused
    exact ⟨fun atEnd => ⟨atEnd, unused atEnd⟩, And.left⟩

/-- Both slots are filled. -/
def fillBoth : List (Choice (Fin 1) (BitVec 64)) :=
  [.putCall 1, .owner, .owner, .owner, .ownerReturn,
    .putCall 2, .owner, .owner, .owner, .owner, .ownerReturn]

theorem put_rejects_full_iff_fillBoth :
    ∃ labels state,
      ((system (Fin 1) (BitVec 64) twoSlots).restrict (Fresh twoSlots)).Reaches labels state ∧
        state.Quiescent ∧ state.AtEnd twoSlots ∧
        (((∃ fuel, callPut twoSlots 3 fuel state = some false) ↔
          (occurrences accepted labels).length =
            (occurrences handedOut labels).length + twoSlots.capacity) ↔
          (state.AtEnd twoSlots → state.Unused twoSlots)) := by
  have reached : ((system (Fin 1) (BitVec 64) twoSlots).restrict (Fresh twoSlots)).Reaches _ _ :=
    ⟨_, rfl, TransitionSystem.execute_restrict_run fillBoth rfl⟩
  exact ⟨_, _, reached, ⟨rfl, fun _thief => Or.inr rfl⟩, ⟨rfl, rfl⟩,
    put_rejects_full_iff 3 reached ⟨rfl, fun _thief => Or.inr rfl⟩⟩

/-- Two values are put and stolen, one after the other. -/
def usedUp : List (Choice (Fin 1) (BitVec 64)) :=
  let only : Fin 1 := ⟨0, Nat.one_pos⟩
  [.newStealer only,
    .putCall 1, .owner, .owner, .owner, .ownerReturn,
    .stealCall only, .thief only, .thief only, .thief only, .thief only, .thief only,
    .stealReturn only,
    .putCall 2, .owner, .owner, .owner, .owner, .ownerReturn,
    .stealCall only, .thief only, .thief only, .thief only, .thief only, .thief only,
    .thief only, .thief only, .stealReturn only]

/-- After `usedUp` nothing is left, and the next `put` is rejected. -/
theorem not_put_rejects_full :
    ¬ ∀ (labels : List (Label (Fin 1) (BitVec 64))) (state : State (Fin 1) (BitVec 64)),
      (system (Fin 1) (BitVec 64) twoSlots).Reaches labels state → state.Quiescent →
        ∀ value, (∃ fuel, callPut twoSlots value fuel state = some false) ↔
          (occurrences accepted labels).length =
            (occurrences handedOut labels).length + twoSlots.capacity := by
  intro claim
  obtain ⟨labels, state, reached, puts, gives, quiet, rejected⟩ : ∃ labels state,
      (system (Fin 1) (BitVec 64) twoSlots).Reaches labels state ∧
      (occurrences accepted labels).length = 2 ∧ (occurrences handedOut labels).length = 2 ∧
      state.Quiescent ∧ callPut twoSlots 3 5 state = some false :=
    ⟨_, _, ⟨_, rfl, TransitionSystem.execute_run usedUp rfl⟩, rfl, rfl,
      ⟨rfl, Fin.forall_fin_one.mpr (Or.inl rfl)⟩, rfl⟩
  have full := (claim labels state reached quiet 3).mp ⟨5, rejected⟩
  rw [puts, gives] at full
  exact absurd full (by decide)

end

end WsDeque.Bwos.Bounded
