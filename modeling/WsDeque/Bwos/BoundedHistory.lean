import WsDeque.Bwos.Account
import WsDeque.Bwos.Bounded

/-
Where the values of the bounded queue are along a run. Every value taken was
put before and is taken once, whatever blocks the owner re-enters; as long as it
enters only blocks that nobody has taken from, no value is lost either.
-/

namespace WsDeque.Bwos.Bounded

open InlineValue

variable {ι α : Type*}

/-! ### The state as a chain of blocks -/

def ThiefPc.place : ThiefPc α → Option (Nat × StealPc)
  | .scanning _ blk pc => some (blk, pc)
  | _ => none

/-- The value a thief is about to return. -/
def ThiefPc.held : ThiefPc α → Option α
  | .returned (.success value) => some value
  | _ => none

def OwnerPc.phase : OwnerPc α → IndexProtocol.Owner
  | .popping pc => pc.phase
  | _ => .resting

def State.block (state : State ι α) : Block :=
  state.inner.blocks state.ownerBlock

def State.chain (state : State ι α) : Chain ι :=
  { blocks := state.inner.blocks
    older := List.range state.ownerBlock
    current := state.ownerBlock
    phase := state.owner.phase
    thief := fun thief => (state.thief thief).place }

/-- What keeps every value: a `put` that moves to the next block finds one that
nobody has taken from. -/
def State.EntersFresh (shape : Shape) (state : State ι α) : Prop :=
  match state.owner with
  | .putLoadCommitted _ =>
      state.block.committed = shape.blockSize → state.ownerBlock + 1 ≠ shape.numBlocks →
        (state.inner.blocks (state.ownerBlock + 1)).stolen = 0
  | _ => True

/-- The steps at which the owner enters only blocks nobody has taken from. -/
def Fresh (shape : Shape) (state : State ι α) : Label ι α → Prop
  | .owner _ => state.EntersFresh shape
  | _ => True

instance (shape : Shape) : (state : State ι α) → Decidable (state.EntersFresh shape)
  | { owner := .putLoadCommitted _, .. } => inferInstanceAs (Decidable (_ → _ → _))
  | { owner := .idle, .. } => .isTrue trivial
  | { owner := .putStoreProduced _, .. } => .isTrue trivial
  | { owner := .putting _, .. } => .isTrue trivial
  | { owner := .popping _, .. } => .isTrue trivial
  | { owner := .returned _, .. } => .isTrue trivial

instance (shape : Shape) (state : State ι α) :
    (label : Label ι α) → Decidable (Fresh shape state label)
  | .owner _ => inferInstanceAs (Decidable (state.EntersFresh shape))
  | .putCall _ | .popCall | .ownerReturn _ | .newStealer _ | .stealCall _ | .thief _ _
  | .stealReturn _ _ => .isTrue trivial

theorem State.order_eq (state : State ι α) :
    state.chain.order = List.range (state.ownerBlock + 1) :=
  List.range_succ.symm

variable [InlineValue α]

def OwnerPc.held (block : Block) : OwnerPc α → Option α
  | .popping pc => (pc.holds block).map fromBits
  | .returned (.popped value) => value
  | _ => none

def State.held (state : State ι α) : Option ι → Option α :=
  byParty (state.owner.held state.block) fun thief => (state.thief thief).held

/-- The owner's local variables; in a lossless run it puts at `committed`. -/
def OwnerPc.Meets (lossless : Bool) (block : Block) : OwnerPc α → Prop
  | .putStoreProduced _ =>
      block.committed ≤ block.stolen ∧ (lossless = true → block.committed = 0)
  | .putting pc => pc.Meets block ∧ (lossless = true → pc.bottom = block.committed)
  | .popping pc => pc.Meets block
  | _ => True

structure Follows [Fintype ι] (lossless : Bool) (labels : List (Label ι α))
    (state : State ι α) : Prop where
  account : Account lossless labels state.chain state.held
  owner : state.owner.Meets lossless state.block

/-! ### Steps of the owner -/

variable [Fintype ι] {lossless : Bool} {labels : List (Label ι α)} {state : State ι α}

/-- A step that moves no value. -/
theorem Follows.quiet (follows : Follows lossless labels state) {label : Label ι α}
    {after : State ι α} (noPut : accepted label = none) (noGive : handedOut label = none)
    (chain : after.chain = state.chain) (owner : after.owner.Meets lossless after.block)
    (held : after.held = state.held) : Follows lossless (labels ++ [label]) after := by
  refine ⟨?_, owner⟩
  rw [chain, held]
  exact follows.account.silent noPut noGive

omit [InlineValue α] [Fintype ι] in
theorem State.chain_owner {produced : Nat} {owner : OwnerPc α}
    (same : owner.phase = state.owner.phase) :
    State.chain
      { state with
        inner := { state.inner with produced := produced }
        owner := owner } = state.chain := by
  unfold State.chain
  rw [← same]

omit [Fintype ι] in
/-- The owner holds nothing inside `put`. -/
theorem State.held_owner {owner : OwnerPc α} {inner : Inner} {ownerBlock : Nat}
    (before : state.owner.held state.block = none)
    (after : owner.held (inner.blocks ownerBlock) = none) :
    State.held { state with inner := inner, ownerBlock := ownerBlock, owner := owner } =
      state.held := by
  unfold State.held
  rw [before]
  exact congrArg (fun holding => byParty holding _) after

/-- The head of `put`: it stays in the block, gives up, or moves on. -/
theorem Follows.putLoadCommitted (follows : Follows lossless labels state)
    {shape : Shape} {value : α} (atPc : state.owner = .putLoadCommitted value)
    (fresh : lossless = true → state.EntersFresh shape) {access : Access α} {inner : Inner}
    {ownerBlock : Nat} {owner : OwnerPc α}
    (taken : ownerStep shape state.inner state.ownerBlock (.putLoadCommitted value) =
      some (access, inner, ownerBlock, owner)) :
    Follows lossless (labels ++ [.owner access])
      { state with inner := inner, ownerBlock := ownerBlock, owner := owner } := by
  have phase : state.owner.phase = .resting := by rw [atPc]; rfl
  have nothing : state.owner.held state.block = none := by rw [atPc]; rfl
  simp only [ownerStep] at taken
  split at taken
  · rename_i full
    split at taken
    · simp only [Option.some.injEq, Prod.mk.injEq] at taken
      obtain ⟨rfl, rfl, rfl, rfl⟩ := taken
      exact follows.quiet rfl rfl (State.chain_owner phase.symm) trivial
        (State.held_owner nothing rfl)
    · rename_i more
      simp only [Option.some.injEq, Prod.mk.injEq] at taken
      obtain ⟨rfl, rfl, rfl, rfl⟩ := taken
      have outside : state.ownerBlock + 1 ∉ state.chain.order := by
        rw [State.order_eq, List.mem_range]
        omega
      have moved : State.chain
          { state with ownerBlock := state.ownerBlock + 1, owner := .putStoreProduced value } =
          state.chain.moveTo state.chain.order (state.ownerBlock + 1) := by
        rw [State.order_eq]
        unfold State.chain Chain.moveTo
        rw [phase]
        rfl
      have drained := follows.account.sound.drained _ outside
      refine ⟨?_, drained, fun kind => ?_⟩
      · rw [moved, State.held_owner nothing rfl]
        exact (follows.account.advance outside phase).silent rfl rfl
      · have enters := fresh kind
        simp only [State.EntersFresh, atPc] at enters
        have untouched := enters full more
        simp only [State.block, State.chain] at drained ⊢
        omega
  · simp only [Option.some.injEq, Prod.mk.injEq] at taken
    obtain ⟨rfl, rfl, rfl, rfl⟩ := taken
    exact follows.quiet rfl rfl (State.chain_owner phase.symm)
      ⟨⟨Or.inl rfl, trivial⟩, fun _lossless => rfl⟩ (State.held_owner nothing rfl)

/-! ### Steps of the owner inside its block -/

/-- The owner changes its block and moves on. -/
def State.ownerIn (state : State ι α) (block : Block) (owner : OwnerPc α) : State ι α :=
  { state with
    inner := state.inner.setBlock state.ownerBlock block
    owner := owner }

omit [InlineValue α] [Fintype ι] in
@[simp] theorem State.block_ownerIn (block : Block) (owner : OwnerPc α) :
    (state.ownerIn block owner).block = block :=
  Function.update_self ..

variable [DecidableEq ι]

omit [Fintype ι] in
theorem State.held_ownerIn (block : Block) (owner : OwnerPc α) :
    (state.ownerIn block owner).held = Function.update state.held none (owner.held block) := by
  unfold State.held
  rw [byParty_update_owner, State.block_ownerIn]
  rfl

theorem Follows.ownerIn {block : Block} {owner : OwnerPc α}
    (account : Account lossless labels (state.chain.ownerMove block owner.phase)
      (Function.update state.held none (owner.held block)))
    (meets : owner.Meets lossless block) : Follows lossless labels (state.ownerIn block owner) := by
  refine ⟨?_, ?_⟩
  · rw [State.held_ownerIn]
    exact account
  · rw [State.block_ownerIn]
    exact meets

/-- The part of `put` inside a block. -/
theorem Follows.putting (follows : Follows lossless labels state)
    {pc : PutPc α} (atPc : state.owner = .putting pc) :
    Follows lossless (labels ++ [.owner (putBlock state.block pc).1])
      (state.ownerIn (putBlock state.block pc).2.1
        (match (putBlock state.block pc).2.2 with
          | some pc' => .putting pc'
          | none => .returned (.put true))) := by
  have phase : state.chain.phase = .resting := by
    change state.owner.phase = _
    rw [atPc]
    rfl
  have held : Function.update state.held none none = state.held := by
    have nothing : state.held none = none := by
      change state.owner.held state.block = none
      rw [atPc]
      rfl
    rw [← nothing, Function.update_eq_self]
  have meets := follows.owner
  rw [atPc] at meets
  obtain ⟨meets, current⟩ := meets
  cases pc with
  | storeSlot value bottom =>
      refine .ownerIn ?_ ⟨(putBlock_storeSlot (fun _ : ι => .away) meets).2, current⟩
      change Account _ _ _ (Function.update state.held none none)
      rw [held]
      exact follows.account.storeSlot phase meets
  | publish value bottom =>
      refine .ownerIn ?_ trivial
      change Account _ _ _ (Function.update state.held none none)
      rw [held]
      exact follows.account.publish phase meets current

omit [DecidableEq ι] in
/-- A block with nothing left is given up; no value moves. -/
theorem Follows.stepBack (follows : Follows lossless labels state)
    (atPc : state.owner = .popping .loadCommitted) (behind : state.ownerBlock ≠ 0)
    (drained : state.block.committed ≤ state.block.stolen) :
    Follows lossless labels { state with ownerBlock := state.ownerBlock - 1 } := by
  have phase : state.chain.phase = .resting := by
    change state.owner.phase = _
    rw [atPc]
    rfl
  obtain ⟨prev, ownerBlock⟩ := Nat.exists_eq_succ_of_ne_zero behind
  have older : state.chain.older = List.range prev ++ [prev] := by
    change List.range state.ownerBlock = _
    rw [ownerBlock, List.range_succ]
  have moved : State.chain { state with ownerBlock := state.ownerBlock - 1 } =
      state.chain.moveTo (List.range prev) prev := by
    rw [ownerBlock]
    rfl
  have held : State.held { state with ownerBlock := state.ownerBlock - 1 } = state.held := by
    simp only [State.held, atPc, OwnerPc.held, PopPc.holds]
  refine ⟨?_, ?_⟩
  · rw [moved, held]
    exact follows.account.stepBack older phase drained
  · dsimp only
    rw [atPc]
    trivial

/-- A step of `pop` inside a block, and the step back from a drained one. -/
theorem Follows.popping (follows : Follows lossless labels state) {pc : PopPc}
    (atPc : state.owner = .popping pc) :
    let taken := popBlock (α := α) state.block pc
    let next : Nat × OwnerPc α := afterPop state.ownerBlock taken.2.2
    Follows lossless (labels ++ [.owner taken.1])
      { state.ownerIn taken.2.1 next.2 with ownerBlock := next.1 } := by
  intro taken next
  unfold next
  have phase : state.chain.phase = pc.phase := by
    change state.owner.phase = _
    rw [atPc]
    rfl
  have met : pc.Meets state.block := by
    have owner := follows.owner
    rw [atPc] at owner
    exact owner
  have holding : state.held none = (pc.holds state.block).map fromBits := by
    change state.owner.held state.block = _
    rw [atPc]
    rfl
  obtain ⟨meets, popped⟩ := follows.account.pop phase met holding
  change taken.2.2.Meets taken.2.1 at meets
  change Account lossless (labels ++ [.owner taken.1])
    (state.chain.ownerMove taken.2.1 taken.2.2.phase)
    (Function.update state.held none ((taken.2.2.holds taken.2.1).map fromBits)) at popped
  generalize taken.2.2 = outcome at meets popped ⊢
  cases outcome with
  | running pc' => exact .ownerIn popped meets
  | taken bits => exact .ownerIn popped trivial
  | drained =>
      by_cases first : state.ownerBlock = 0
      · simp only [afterPop, if_pos first]
        exact .ownerIn popped trivial
      · simp only [afterPop, if_neg first]
        have stayed : Follows lossless (labels ++ [.owner taken.1])
            (state.ownerIn taken.2.1 (.popping .loadCommitted)) := .ownerIn popped trivial
        refine stayed.stepBack rfl first ?_
        rw [State.block_ownerIn]
        exact meets

/-- Every step of the owner inside a call. -/
theorem Follows.ownerStep (follows : Follows lossless labels state) {shape : Shape}
    (fresh : lossless = true → state.EntersFresh shape) {access : Access α} {inner : Inner}
    {ownerBlock : Nat} {owner : OwnerPc α}
    (taken : Bounded.ownerStep shape state.inner state.ownerBlock state.owner =
      some (access, inner, ownerBlock, owner)) :
    Follows lossless (labels ++ [.owner access])
      { state with inner := inner, ownerBlock := ownerBlock, owner := owner } := by
  cases atPc : state.owner with
  | putLoadCommitted value =>
      rw [atPc] at taken
      exact follows.putLoadCommitted atPc fresh taken
  | putStoreProduced value =>
      have meets := follows.owner
      rw [atPc] at taken meets
      obtain ⟨drained, empty⟩ := meets
      simp only [Bounded.ownerStep, Option.some.injEq, Prod.mk.injEq] at taken
      obtain ⟨rfl, rfl, rfl, rfl⟩ := taken
      exact follows.quiet rfl rfl (State.chain_owner (by rw [atPc]; rfl))
        ⟨⟨Or.inr ⟨rfl, drained⟩, trivial⟩, fun kind => (empty kind).symm⟩
        (State.held_owner (by rw [atPc]; rfl) rfl)
  | putting pc =>
      rw [atPc] at taken
      simp only [Bounded.ownerStep, Option.some.injEq, Prod.mk.injEq] at taken
      obtain ⟨rfl, rfl, rfl, rfl⟩ := taken
      exact follows.putting atPc
  | popping pc =>
      rw [atPc] at taken
      simp only [Bounded.ownerStep, Option.some.injEq, Prod.mk.injEq] at taken
      obtain ⟨rfl, rfl, rfl, rfl⟩ := taken
      exact follows.popping atPc
  | idle => rw [atPc] at taken; cases taken
  | returned result => rw [atPc] at taken; cases taken

end WsDeque.Bwos.Bounded
