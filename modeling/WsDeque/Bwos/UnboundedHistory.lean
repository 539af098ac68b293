import WsDeque.Bwos.Account
import WsDeque.Bwos.UnboundedLinks

/-
What holds along every run of the unbounded queue, and where the cursors of the
thieves are as long as none is left behind.
-/

namespace WsDeque.Bwos.Unbounded

open InlineValue

variable {ι α : Type*}

/-! ### The state as a chain of blocks -/

def ThiefPc.place : ThiefPc α → Option (Nat × StealPc)
  | .scanning blk pc => some (blk, pc)
  | _ => none

/-- The block a running `steal` is at. -/
def ThiefPc.block : ThiefPc α → Option Nat
  | .scanning blk _ => some blk
  | .loadNext blk => some blk
  | _ => none

/-- The value a thief is about to return. -/
def ThiefPc.held : ThiefPc α → Option α
  | .returned (.success value) => some value
  | _ => none

def ThiefPc.present : ThiefPc α → Bool
  | .absent => false
  | _ => true

def OwnerPc.phase : OwnerPc α → IndexProtocol.Owner
  | .popping pc => pc.phase
  | _ => .resting

def State.block (state : State ι α) : Block :=
  state.inner.blocks state.ownerBlock

def State.chain (state : State ι α) (older : List Nat) : Chain ι :=
  { blocks := state.inner.blocks
    older := older
    current := state.ownerBlock
    phase := state.owner.phase
    thief := fun thief => (state.thief thief).place }

/-! ### Handles that are not left behind -/

/-- The owner's blocks, newest first. -/
def Inner.prevChain (inner : Inner) : Nat → Nat → List Nat
  | 0, _ => []
  | fuel + 1, blk =>
      blk ::
        match inner.prev blk with
        | none => []
        | some prev => inner.prevChain fuel prev

def State.ownerBlocks (state : State ι α) : List Nat :=
  state.inner.prevChain (state.ownerBlock + 1) state.ownerBlock

/-- Every handle stands at the owner's block or behind it. -/
def State.NoneBeyond (state : State ι α) : Prop :=
  ∀ thief, (state.thief thief).present = true → state.cursor thief ∈ state.ownerBlocks

/-- At the store of `committed` no handle is beyond the owner's block, and a
thief moves its cursor past a block only while nothing can be taken from it. -/
def Keeps (state : State ι α) : Label ι α → Prop
  | .owner (.publish _) => state.NoneBeyond
  | .thief thief .loadNext =>
      ∀ blk ∈ (state.thief thief).block, ∀ _next ∈ state.inner.next blk,
        (state.inner.blocks blk).committed ≤ (state.inner.blocks blk).stolen
  | _ => True

instance {thieves : Nat} (state : State (Fin thieves) α) : Decidable state.NoneBeyond :=
  inferInstanceAs (Decidable (∀ thief, (state.thief thief).present = true → _))

instance (state : State ι α) [Decidable state.NoneBeyond] :
    (label : Label ι α) → Decidable (Keeps state label)
  | .owner (.publish _) => inferInstanceAs (Decidable state.NoneBeyond)
  | .thief thief .loadNext =>
      inferInstanceAs (Decidable (∀ blk ∈ (state.thief thief).block, ∀ _next ∈ _, _ ≤ _))
  | .owner .loadProduced | .owner .storeProduced | .owner .loadCommitted
  | .owner .storeCommitted | .owner .loadStolen | .owner (.casStolen _) | .owner .loadSlot
  | .owner .storeSlot | .owner .loadNext | .owner .storeNext | .thief _ .loadProduced
  | .thief _ .storeProduced | .thief _ .loadCommitted | .thief _ .storeCommitted
  | .thief _ (.publish _) | .thief _ .loadStolen | .thief _ (.casStolen _) | .thief _ .loadSlot
  | .thief _ .storeSlot | .thief _ .storeNext | .putCall _ | .popCall | .ownerReturn _
  | .newStealer _ | .stealCall _ | .stealReturn _ _ => .isTrue trivial

/-- Whatever can be taken is at the cursor or further on. -/
def Behind (inner : Inner) (order : List Nat) (cursor : Nat) : Prop :=
  ∀ blk ∈ order, (inner.blocks blk).stolen < (inner.blocks blk).committed →
    cursor ∈ order ∧ cursor ≤ blk

def Ahead (state : State ι α) (order : List Nat) : Prop :=
  ∀ thief, (state.thief thief).present = true → Behind state.inner order (state.cursor thief)

theorem Linked.behind_head {inner : Inner} {order : List Nat} (linked : Linked inner order) :
    Behind inner order inner.head := by
  intro blk member _stocked
  obtain ⟨rest, rfl⟩ := List.head?_eq_some_iff.mp linked.start
  refine ⟨List.mem_cons_self, ?_⟩
  rcases List.mem_cons.mp member with same | later
  · exact Nat.le_of_eq same.symm
  · exact Nat.le_of_lt ((List.pairwise_cons.mp linked.sorted).1 blk later)

/-- A cursor that moves on from a drained block leaves nothing behind. -/
theorem Linked.behind_next {inner : Inner} {order : List Nat} (linked : Linked inner order)
    {cursor next : Nat} (behind : Behind inner order cursor)
    (link : inner.next cursor = some next)
    (drained : (inner.blocks cursor).committed ≤ (inner.blocks cursor).stolen) :
    Behind inner order next := by
  intro blk member stocked
  obtain ⟨cursorMember, atOrBefore⟩ := behind blk member stocked
  have before : cursor < blk := by
    refine Nat.lt_of_le_of_ne atOrBefore ?_
    rintro rfl
    omega
  obtain ⟨successor, found, there, below⟩ := linked.successor cursorMember member before
  rw [link] at found
  cases found
  exact ⟨there, below⟩

theorem Linked.prevChain {inner : Inner} {older : List Nat} {current : Nat}
    (linked : Linked inner (older ++ [current])) {fuel : Nat} (enough : current < fuel) :
    (inner.prevChain fuel current).reverse = older ++ [current] := by
  induction fuel generalizing older current with
  | zero => omega
  | succ fuel ih =>
      rw [Inner.prevChain, List.reverse_cons]
      congr 1
      cases behind : inner.prev current with
      | none =>
          rcases List.eq_nil_or_concat' older with rfl | ⟨rest, last, rfl⟩
          · rfl
          · rw [linked.prev_last] at behind
            cases behind
      | some prev =>
          obtain ⟨rest, rfl, shorter⟩ := linked.stepBack behind
          have before := linked.lt_last (List.mem_append_right rest (List.mem_singleton_self prev))
          exact ih shorter (by omega)

theorem Linked.mem_ownerBlocks {state : State ι α} {older : List Nat}
    (linked : Linked state.inner (older ++ [state.ownerBlock])) {blk : Nat} :
    blk ∈ state.ownerBlocks ↔ blk ∈ older ++ [state.ownerBlock] := by
  rw [← linked.prevChain (Nat.lt_succ_self _), List.mem_reverse]
  rfl

variable [InlineValue α]

def OwnerPc.held (block : Block) : OwnerPc α → Option α
  | .popping pc => (pc.holds block).map fromBits
  | .returned (.popped value) => value
  | _ => none

def State.held (state : State ι α) : Option ι → Option α :=
  byParty (state.owner.held state.block) fun thief => (state.thief thief).held

/-- The owner's local variables. -/
def OwnerPc.Meets (inner : Inner) (ownerBlock : Nat) : OwnerPc α → Prop
  | .putStoreNext _ fresh =>
      ownerBlock < fresh ∧ fresh < inner.allocated ∧ inner.prev fresh = some ownerBlock ∧
        (inner.blocks fresh).committed = 0
  | .putting pc =>
      pc.Meets (inner.blocks ownerBlock) ∧ pc.bottom = (inner.blocks ownerBlock).committed
  | .popping pc => pc.Meets (inner.blocks ownerBlock)
  | _ => True

structure Follows [Fintype ι] (keeps : Bool) (older : List Nat) (labels : List (Label ι α))
    (state : State ι α) : Prop where
  account : Account true labels (state.chain older) state.held
  linked : Linked state.inner (older ++ [state.ownerBlock])
  untouched : ∀ blk, state.inner.allocated ≤ blk → state.inner.blocks blk = Block.new
  owner : state.owner.Meets state.inner state.ownerBlock
  cursors : ∀ thief, ∀ blk ∈ (state.thief thief).block, blk = state.cursor thief
  ahead : keeps = true → Ahead state (older ++ [state.ownerBlock])

/-! ### Steps of the owner -/

variable [Fintype ι] {keeps : Bool} {older : List Nat} {labels : List (Label ι α)}
  {state : State ι α}

omit [InlineValue α] [Fintype ι] in
theorem State.chain_owner {owner : OwnerPc α} (same : owner.phase = state.owner.phase) :
    State.chain { state with owner := owner } older = state.chain older := by
  unfold State.chain
  rw [← same]

omit [Fintype ι] in
/-- The owner holds nothing inside `put`. -/
theorem State.held_owner {owner : OwnerPc α} {inner : Inner} {ownerBlock : Nat}
    (before : state.owner.held state.block = none)
    (after : owner.held (inner.blocks ownerBlock) = none) :
    State.held { state with inner := inner, ownerBlock := ownerBlock, owner := owner } =
      state.held := by
  unfold State.held
  rw [before]
  exact congrArg (fun holding => byParty holding _) after

/-- A step of the owner that touches nothing shared. -/
theorem Follows.quiet (follows : Follows keeps older labels state) {label : Label ι α}
    {owner : OwnerPc α} (noPut : accepted label = none) (noGive : handedOut label = none)
    (phase : owner.phase = state.owner.phase)
    (meets : owner.Meets state.inner state.ownerBlock)
    (before : state.owner.held state.block = none) (after : owner.held state.block = none) :
    Follows keeps older (labels ++ [label]) { state with owner := owner } := by
  have account := follows.account.silent noPut noGive
  rw [← State.chain_owner phase, ← State.held_owner before after] at account
  exact
    { account := account
      linked := follows.linked
      untouched := follows.untouched
      owner := meets
      cursors := follows.cursors
      ahead := follows.ahead }

/-- The head of `put`: it stays in the block or allocates the next one. -/
theorem Follows.putLoadCommitted (follows : Follows keeps older labels state)
    {shape : Shape} {value : α} (atPc : state.owner = .putLoadCommitted value)
    {access : Access α} {inner : Inner} {ownerBlock : Nat} {owner : OwnerPc α}
    (taken : ownerStep shape state.inner state.ownerBlock (.putLoadCommitted value) =
      some (access, inner, ownerBlock, owner)) :
    Follows keeps older (labels ++ [.owner access])
      { state with inner := inner, ownerBlock := ownerBlock, owner := owner } := by
  have phase : state.owner.phase = .resting := by rw [atPc]; rfl
  have nothing : state.owner.held state.block = none := by rw [atPc]; rfl
  have within : state.ownerBlock < state.inner.allocated :=
    follows.linked.within _ (List.mem_append_right _ (List.mem_singleton_self _))
  simp only [ownerStep] at taken
  split at taken
  · simp only [Option.some.injEq, Prod.mk.injEq] at taken
    obtain ⟨rfl, rfl, rfl, rfl⟩ := taken
    have blocks : (state.inner.alloc (some state.ownerBlock)).blocks = state.inner.blocks := by
      change Function.update _ _ _ = _
      rw [← follows.untouched state.inner.allocated (Nat.le_refl _), Function.update_eq_self]
    have chain : State.chain
        { state with
          inner := state.inner.alloc (some state.ownerBlock)
          owner := .putStoreNext value state.inner.allocated } older = state.chain older := by
      unfold State.chain
      rw [phase]
      dsimp only
      rw [blocks]
      rfl
    refine
      { account := ?_
        linked := follows.linked.alloc _
        untouched := fun blk beyond => ?_
        owner := ⟨within, Nat.lt_succ_self _, Function.update_self .., ?_⟩
        cursors := follows.cursors
        ahead := fun kept thief present blk member => ?_ }
    · rw [chain, State.held_owner nothing rfl]
      exact follows.account.silent rfl rfl
    · dsimp only
      rw [blocks]
      exact follows.untouched blk (Nat.le_of_succ_le beyond)
    · rw [blocks, follows.untouched _ (Nat.le_refl _)]
      rfl
    · dsimp only
      rw [blocks]
      exact follows.ahead kept thief present blk member
  · simp only [Option.some.injEq, Prod.mk.injEq] at taken
    obtain ⟨rfl, rfl, rfl, rfl⟩ := taken
    exact follows.quiet rfl rfl phase.symm ⟨⟨Or.inl rfl, trivial⟩, rfl⟩ nothing rfl

/-- The owner enters the block it allocated. -/
theorem Follows.putStoreNext (follows : Follows keeps older labels state) {value : α}
    {fresh : Nat} (atPc : state.owner = .putStoreNext value fresh) :
    Follows keeps (older ++ [state.ownerBlock]) (labels ++ [.owner .storeNext])
      { state with
        inner := state.inner.setNext state.ownerBlock fresh
        ownerBlock := fresh
        owner := .putting (.storeSlot value 0) } := by
  have phase : state.owner.phase = .resting := by rw [atPc]; rfl
  have nothing : state.owner.held state.block = none := by rw [atPc]; rfl
  have meets := follows.owner
  rw [atPc] at meets
  obtain ⟨later, below, back, empty⟩ := meets
  have outside : fresh ∉ older ++ [state.ownerBlock] := fun member => by
    have behind := follows.linked.le_last member
    omega
  have chain : State.chain
      { state with
        inner := state.inner.setNext state.ownerBlock fresh
        ownerBlock := fresh
        owner := .putting (.storeSlot value 0) } (older ++ [state.ownerBlock]) =
      (state.chain older).moveTo (state.chain older).order fresh := by
    unfold State.chain Chain.moveTo
    rw [phase]
    rfl
  refine
    { account := ?_
      linked := follows.linked.setNext back later below
      untouched := follows.untouched
      owner := ⟨⟨Or.inl empty.symm, trivial⟩, empty.symm⟩
      cursors := follows.cursors
      ahead := fun kept thief present blk member stocked => ?_ }
  · rw [chain, State.held_owner nothing rfl]
    exact (follows.account.advance outside phase).silent rfl rfl
  · -- The fresh block is empty.
    rcases List.mem_append.mp member with old | new
    · obtain ⟨here, atOrBefore⟩ := follows.ahead kept thief present blk old stocked
      exact ⟨List.mem_append_left _ here, atOrBefore⟩
    · rw [List.mem_singleton.mp new] at stocked
      change _ < (state.inner.blocks fresh).committed at stocked
      omega

/-! ### Steps of the owner inside its block -/

/-- The owner changes its block and moves on. -/
def State.ownerIn (state : State ι α) (block : Block) (owner : OwnerPc α) : State ι α :=
  { state with
    inner := state.inner.setBlock state.ownerBlock block
    owner := owner }

omit [InlineValue α] [Fintype ι] in
@[simp] theorem State.block_ownerIn (block : Block) (owner : OwnerPc α) :
    (state.ownerIn block owner).block = block :=
  Function.update_self ..

variable [DecidableEq ι]

omit [Fintype ι] in
theorem State.held_ownerIn (block : Block) (owner : OwnerPc α) :
    (state.ownerIn block owner).held = Function.update state.held none (owner.held block) := by
  unfold State.held
  rw [byParty_update_owner, State.block_ownerIn]
  rfl

theorem Follows.ownerIn (follows : Follows keeps older labels state) {later : List (Label ι α)}
    {block : Block} {owner : OwnerPc α}
    (account : Account true later ((state.chain older).ownerMove block owner.phase)
      (Function.update state.held none (owner.held block)))
    (meets : owner.Meets (state.inner.setBlock state.ownerBlock block) state.ownerBlock)
    (stocked : keeps = true → block.stolen < block.committed →
      state.block.stolen < state.block.committed ∨
        ∀ thief, (state.thief thief).present = true → state.cursor thief ∈ state.ownerBlocks) :
    Follows keeps older later (state.ownerIn block owner) := by
  refine
    { account := ?_
      linked := follows.linked.setBlock _ _
      untouched := fun blk beyond => ?_
      owner := meets
      cursors := follows.cursors
      ahead := fun kept thief present blk member stockedAfter => ?_ }
  · rw [State.held_ownerIn]
    exact account
  · have within := follows.linked.within _ (List.mem_append_right older
      (List.mem_singleton_self state.ownerBlock))
    change state.inner.allocated ≤ blk at beyond
    refine Eq.trans (Function.update_of_ne ?_ ..) (follows.untouched blk beyond)
    omega
  · change (Function.update state.inner.blocks state.ownerBlock block blk).stolen <
      (Function.update state.inner.blocks state.ownerBlock block blk).committed at stockedAfter
    by_cases here : blk = state.ownerBlock
    · subst here
      rw [Function.update_self] at stockedAfter
      rcases stocked kept stockedAfter with before | stand
      · exact follows.ahead kept thief present _ member before
      · have cursorMember := follows.linked.mem_ownerBlocks.mp (stand thief present)
        exact ⟨cursorMember, follows.linked.le_last cursorMember⟩
    · rw [Function.update_of_ne here] at stockedAfter
      exact follows.ahead kept thief present blk member stockedAfter

/-- The part of `put` inside a block. -/
theorem Follows.putting (follows : Follows keeps older labels state) {pc : PutPc α}
    (atPc : state.owner = .putting pc)
    (stand : keeps = true → Keeps state (.owner (putBlock state.block pc).1)) :
    Follows keeps older (labels ++ [.owner (putBlock state.block pc).1])
      (state.ownerIn (putBlock state.block pc).2.1
        (match (putBlock state.block pc).2.2 with
          | some pc' => .putting pc'
          | none => .returned (.put true))) := by
  have phase : (state.chain older).phase = .resting := by
    change state.owner.phase = _
    rw [atPc]
    rfl
  have held : Function.update state.held none none = state.held := by
    have nothing : state.held none = none := by
      change state.owner.held state.block = none
      rw [atPc]
      rfl
    rw [← nothing, Function.update_eq_self]
  have meets := follows.owner
  rw [atPc] at meets
  obtain ⟨meets, current⟩ := meets
  cases pc with
  | storeSlot value bottom =>
      refine follows.ownerIn ?_ ?_ fun _kept before => Or.inl before
      · change Account _ _ _ (Function.update state.held none none)
        rw [held]
        exact follows.account.storeSlot phase meets
      · have written := (putBlock_storeSlot (fun _ : ι => .away) meets).2
        simp only [OwnerPc.Meets, Inner.setBlock, Function.update_self]
        exact ⟨written, current⟩
  | publish value bottom =>
      refine follows.ownerIn ?_ trivial fun kept _after => Or.inr (stand kept)
      change Account _ _ _ (Function.update state.held none none)
      rw [held]
      exact follows.account.publish phase meets fun _lossless => current

omit [DecidableEq ι] in
/-- A block with nothing left is given up; no value moves. -/
theorem Follows.stepBack (follows : Follows keeps older labels state)
    (atPc : state.owner = .popping .loadCommitted) {prev : Nat}
    (behind : state.inner.prev state.ownerBlock = some prev)
    (drained : state.block.committed ≤ state.block.stolen) :
    ∃ older', Follows keeps older' labels { state with ownerBlock := prev } := by
  have phase : state.owner.phase = .resting := by rw [atPc]; rfl
  obtain ⟨rest, rfl, shorter⟩ := follows.linked.stepBack behind
  have chain : State.chain { state with ownerBlock := prev } rest =
      (state.chain (rest ++ [prev])).moveTo rest prev := rfl
  have held : State.held { state with ownerBlock := prev } = state.held := by
    simp only [State.held, atPc, OwnerPc.held, PopPc.holds]
  refine ⟨rest,
    { account := ?_
      linked := shorter
      untouched := follows.untouched
      owner := ?_
      cursors := follows.cursors
      ahead := fun kept thief present blk member stocked => ?_ }⟩
  · rw [chain, held]
    exact follows.account.stepBack rfl phase drained
  · dsimp only
    rw [atPc]
    trivial
  · obtain ⟨here, atOrBefore⟩ := follows.ahead kept thief present blk
      (List.mem_append_left _ member) stocked
    refine ⟨?_, atOrBefore⟩
    rcases List.mem_append.mp here with old | last
    · exact old
    · have before := follows.linked.lt_last member
      rw [List.mem_singleton.mp last] at atOrBefore
      omega

/-- A step of `pop` inside a block, and the step back from a drained one. -/
theorem Follows.popping (follows : Follows keeps older labels state) {pc : PopPc}
    (atPc : state.owner = .popping pc) :
    let taken := popBlock (α := α) state.block pc
    let next : Nat × OwnerPc α := afterPop state.inner state.ownerBlock taken.2.2
    ∃ older', Follows keeps older' (labels ++ [.owner taken.1])
      { state.ownerIn taken.2.1 next.2 with ownerBlock := next.1 } := by
  intro taken next
  unfold next
  have phase : (state.chain older).phase = pc.phase := by
    change state.owner.phase = _
    rw [atPc]
    rfl
  have met : pc.Meets state.block := by
    have owner := follows.owner
    rw [atPc] at owner
    exact owner
  have holding : state.held none = (pc.holds state.block).map fromBits := by
    change state.owner.held state.block = _
    rw [atPc]
    rfl
  have protocol := follows.account.sound.protocol state.ownerBlock
  rw [Chain.protocol, show (state.chain older).phaseAt state.ownerBlock = pc.phase from
    Chain.phaseAt_current.trans phase] at protocol
  have stocked : taken.2.1.stolen < taken.2.1.committed →
      state.block.stolen < state.block.committed := popBlock_stocked protocol met
  obtain ⟨meets, popped⟩ := follows.account.pop phase met holding
  change taken.2.2.Meets taken.2.1 at meets
  change Account true (labels ++ [.owner taken.1])
    ((state.chain older).ownerMove taken.2.1 taken.2.2.phase)
    (Function.update state.held none ((taken.2.2.holds taken.2.1).map fromBits)) at popped
  generalize taken.2.2 = outcome at meets popped ⊢
  cases outcome with
  | running pc' =>
      refine ⟨older, follows.ownerIn popped ?_ fun _kept after => Or.inl (stocked after)⟩
      simp only [OwnerPc.Meets, Inner.setBlock, Function.update_self]
      exact meets
  | taken bits =>
      exact ⟨older, follows.ownerIn popped trivial fun _kept after => Or.inl (stocked after)⟩
  | drained =>
      cases behind : state.inner.prev state.ownerBlock with
      | none =>
          simp only [afterPop, behind]
          exact ⟨older, follows.ownerIn popped trivial fun _kept after => Or.inl (stocked after)⟩
      | some prev =>
          simp only [afterPop, behind]
          have stayed : Follows keeps older (labels ++ [.owner taken.1])
              (state.ownerIn taken.2.1 (.popping .loadCommitted)) :=
            follows.ownerIn popped trivial fun _kept after => Or.inl (stocked after)
          refine stayed.stepBack rfl behind ?_
          rw [State.block_ownerIn]
          exact meets

/-- Every step of the owner inside a call. -/
theorem Follows.ownerStep (follows : Follows keeps older labels state) {shape : Shape}
    {access : Access α} (stand : keeps = true → Keeps state (.owner access)) {inner : Inner}
    {ownerBlock : Nat} {owner : OwnerPc α}
    (taken : Unbounded.ownerStep shape state.inner state.ownerBlock state.owner =
      some (access, inner, ownerBlock, owner)) :
    ∃ older', Follows keeps older' (labels ++ [.owner access])
      { state with inner := inner, ownerBlock := ownerBlock, owner := owner } := by
  cases atPc : state.owner with
  | putLoadCommitted value =>
      rw [atPc] at taken
      exact ⟨older, follows.putLoadCommitted atPc taken⟩
  | putStoreNext value fresh =>
      rw [atPc] at taken
      simp only [Unbounded.ownerStep, Option.some.injEq, Prod.mk.injEq] at taken
      obtain ⟨rfl, rfl, rfl, rfl⟩ := taken
      exact ⟨_, follows.putStoreNext atPc⟩
  | putting pc =>
      rw [atPc] at taken
      simp only [Unbounded.ownerStep, Option.some.injEq, Prod.mk.injEq] at taken
      obtain ⟨rfl, rfl, rfl, rfl⟩ := taken
      exact ⟨older, follows.putting atPc stand⟩
  | popping pc =>
      rw [atPc] at taken
      simp only [Unbounded.ownerStep, Option.some.injEq, Prod.mk.injEq] at taken
      obtain ⟨rfl, rfl, rfl, rfl⟩ := taken
      exact follows.popping atPc
  | idle => rw [atPc] at taken; cases taken
  | returned result => rw [atPc] at taken; cases taken

end WsDeque.Bwos.Unbounded
