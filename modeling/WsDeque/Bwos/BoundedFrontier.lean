import WsDeque.Bwos.BoundedRuns

/-
The production frontier. Only `put` writes it, and what it writes is the block
after the owner's own one; `pop` may have taken the owner back by any number of
blocks since the frontier was written last.
-/

namespace WsDeque.Bwos.Bounded

variable {ι α : Type*} {shape : Shape}

/-- Where `put` leaves a full block, the owner is at most one block behind the
frontier. -/
def State.LeavesNear (shape : Shape) (state : State ι α) : Prop :=
  match state.owner with
  | .putLoadCommitted _ =>
      (state.inner.blocks state.ownerBlock).committed = shape.blockSize →
        state.ownerBlock + 1 ≠ shape.numBlocks → state.inner.produced ≤ state.ownerBlock + 2
  | _ => True

/-- The steps at which the owner leaves a block only near the frontier. -/
def Near (shape : Shape) (state : State ι α) : Label ι α → Prop
  | .owner _ => state.LeavesNear shape
  | _ => True

instance (shape : Shape) : (state : State ι α) → Decidable (state.LeavesNear shape)
  | { owner := .putLoadCommitted _, .. } => inferInstanceAs (Decidable (_ → _ → _))
  | { owner := .idle, .. } => .isTrue trivial
  | { owner := .putStoreProduced _, .. } => .isTrue trivial
  | { owner := .putting _, .. } => .isTrue trivial
  | { owner := .popping _, .. } => .isTrue trivial
  | { owner := .returned _, .. } => .isTrue trivial

instance (shape : Shape) (state : State ι α) :
    (label : Label ι α) → Decidable (Near shape state label)
  | .owner _ => inferInstanceAs (Decidable (state.LeavesNear shape))
  | .putCall _ | .popCall | .ownerReturn _ | .newStealer _ | .stealCall _ | .thief _ _
  | .stealReturn _ _ => .isTrue trivial

/-- What the owner is about to write is not below the frontier. -/
def OwnerPc.Ahead (produced ownerBlock : Nat) : OwnerPc α → Prop
  | .putStoreProduced _ => produced ≤ ownerBlock + 1
  | _ => True

def State.Ahead (state : State ι α) : Prop :=
  state.owner.Ahead state.inner.produced state.ownerBlock

/-! ### Steps -/

variable [InlineValue α] {inner after : Inner} {ownerBlock ownerBlock' : Nat}
  {pc pc' : OwnerPc α} {access : Access α}

theorem afterPop_ahead (produced ownerBlock : Nat) (outcome : PopOutcome) :
    (afterPop ownerBlock outcome : Nat × OwnerPc α).2.Ahead produced
      (afterPop ownerBlock outcome : Nat × OwnerPc α).1 := by
  cases outcome with
  | running pc => trivial
  | drained =>
      simp only [afterPop]
      by_cases first : ownerBlock = 0
      · rw [if_pos first]
        trivial
      · rw [if_neg first]
        trivial
  | taken bits => trivial

theorem ownerStep_forward (ahead : pc.Ahead inner.produced ownerBlock)
    (near : ∀ value, pc = .putLoadCommitted value →
      (inner.blocks ownerBlock).committed = shape.blockSize →
        ownerBlock + 1 ≠ shape.numBlocks → inner.produced ≤ ownerBlock + 2)
    (taken : ownerStep shape inner ownerBlock pc = some (access, after, ownerBlock', pc')) :
    inner.produced ≤ after.produced ∧ pc'.Ahead after.produced ownerBlock' := by
  cases pc with
  | idle => cases taken
  | returned result => cases taken
  | putLoadCommitted value =>
      simp only [ownerStep] at taken
      split at taken
      · rename_i full
        split at taken
        · cases taken
          exact ⟨Nat.le_refl _, trivial⟩
        · rename_i more
          cases taken
          exact ⟨Nat.le_refl _, near value rfl full more⟩
      · cases taken
        exact ⟨Nat.le_refl _, trivial⟩
  | putStoreProduced value =>
      cases taken
      exact ⟨ahead, trivial⟩
  | putting pc =>
      simp only [ownerStep] at taken
      split at taken <;> cases taken <;> exact ⟨Nat.le_refl _, trivial⟩
  | popping pc =>
      cases taken
      exact ⟨Nat.le_refl _, afterPop_ahead ..⟩

theorem thiefStep_produced {thief thief' : ThiefPc α}
    (taken : thiefStep inner thief = some (access, after, thief')) :
    after.produced = inner.produced := by
  cases thief with
  | absent => cases taken
  | idle => cases taken
  | returned result => cases taken
  | loadProduced =>
      cases taken
      rfl
  | scanning produced blk pc =>
      cases taken
      rfl

variable [DecidableEq ι] {state state' : State ι α} {label : Label ι α} {choice : Choice ι α}

/-- One step, whoever takes it. -/
theorem next_forward (ahead : state.Ahead) (near : Near shape state label)
    (moved : next shape state choice = some (label, state')) :
    state.inner.produced ≤ state'.inner.produced ∧ state'.Ahead := by
  cases next_moves moved with
  | putCall value atPc | popCall atPc | ownerReturn result atPc => exact ⟨Nat.le_refl _, trivial⟩
  | owner access inner ownerBlock pc stepped =>
      apply ownerStep_forward ahead _ stepped
      intro value atPc
      change state.LeavesNear shape at near
      rw [State.LeavesNear, atPc] at near
      exact near
  | newStealer thief atPc | stealCall thief atPc | stealReturn thief result atPc =>
      exact ⟨Nat.le_refl _, ahead⟩
  | thief thief access inner pc stepped =>
      have still := thiefStep_produced stepped
      constructor
      · exact Nat.le_of_eq still.symm
      · change state.owner.Ahead inner.produced state.ownerBlock
        rw [still]
        exact ahead

/-! ### Runs -/

/-- Along a run whose blocks are left near the frontier, it moves forward only. -/
theorem run_forward {more : List (Label ι α)} (ahead : state.Ahead)
    (run : ((system ι α shape).restrict (Near shape)).Run state more state') :
    state.inner.produced ≤ state'.inner.produced ∧ state'.Ahead := by
  induction run with
  | refl => exact ⟨Nat.le_refl _, ahead⟩
  | snoc _prior last ih =>
      obtain ⟨near, choice, moved⟩ := last
      obtain ⟨sofar, ahead⟩ := ih
      obtain ⟨here, ahead⟩ := next_forward ahead near moved
      exact ⟨Nat.le_trans sofar here, ahead⟩

/-- The two steps at which `put` goes over to the next block. -/
theorem crossing_forward_iff {value : α} (atPc : state.owner = .putLoadCommitted value)
    (full : (state.inner.blocks state.ownerBlock).committed = shape.blockSize)
    (more : state.ownerBlock + 1 ≠ shape.numBlocks) :
    ∃ middle after, next shape state .owner = some (.owner .loadCommitted, middle) ∧
      next shape middle .owner = some (.owner .storeProduced, after) ∧
        (state.inner.produced ≤ after.inner.produced ↔ state.LeavesNear shape) := by
  let middle : State ι α :=
    { state with
      ownerBlock := state.ownerBlock + 1
      owner := .putStoreProduced value }
  let after : State ι α :=
    { middle with
      inner := { state.inner with produced := state.ownerBlock + 2 }
      owner := .putting (.storeSlot value 0) }
  have leaves : next shape state .owner = some (.owner .loadCommitted, middle) := by
    simp only [Bounded.next, ownerStep, atPc, if_pos full, if_neg more, Option.map_some]
    rfl
  have enters : next shape middle .owner = some (.owner .storeProduced, after) := rfl
  refine ⟨middle, after, leaves, enters, ?_⟩
  unfold State.LeavesNear
  rw [atPc]
  constructor
  · intro forward _full _more
    exact forward
  · intro near
    exact near full more

/-- The frontier moves forward only, if and only if `put` leaves a full block at
most one block behind it. -/
theorem frontier_forward_iff {labels more : List (Label ι α)}
    (reached : ((system ι α shape).restrict (Near shape)).Reaches labels state)
    (run : ((system ι α shape).restrict (Near shape)).Run state more state') :
    state.inner.produced ≤ state'.inner.produced ∧
      ∀ (crossing : State ι α) (value : α), crossing.owner = .putLoadCommitted value →
        (crossing.inner.blocks crossing.ownerBlock).committed = shape.blockSize →
          crossing.ownerBlock + 1 ≠ shape.numBlocks →
            ∃ middle after, next shape crossing .owner = some (.owner .loadCommitted, middle) ∧
              next shape middle .owner = some (.owner .storeProduced, after) ∧
                (crossing.inner.produced ≤ after.inner.produced ↔
                  crossing.LeavesNear shape) := by
  obtain ⟨start, rfl, before⟩ := reached
  have ahead : (withBlocks ι α).Ahead := trivial
  constructor
  · exact (run_forward (run_forward ahead before).2 run).1
  · intro crossing value atPc full last
    exact crossing_forward_iff atPc full last

def threeSlots : Shape :=
  { numBlocks := 3
    blockSize := 1
    twoBlocks := Nat.le_succ 2
    nonempty := Nat.one_pos }

/-- All three blocks are filled, and two of them popped. -/
def fillThree : List (Choice (Fin 1) (BitVec 64)) :=
  [.putCall 1, .owner, .owner, .owner, .ownerReturn,
    .putCall 2, .owner, .owner, .owner, .owner, .ownerReturn,
    .putCall 3, .owner, .owner, .owner, .owner, .ownerReturn]

/-- One block back and forward again. -/
def oneBack : List (Choice (Fin 1) (BitVec 64)) :=
  [.popCall, .owner, .owner, .owner, .owner, .owner, .owner, .owner, .ownerReturn,
    .popCall, .owner, .owner, .owner, .owner, .owner, .owner, .owner, .owner, .owner, .ownerReturn,
    .putCall 4, .owner, .owner, .owner, .owner, .ownerReturn]

theorem frontier_forward_iff_oneBack :
    ∃ labels more middle final,
      ((system (Fin 1) (BitVec 64) threeSlots).restrict (Near threeSlots)).Reaches labels middle ∧
        ((system (Fin 1) (BitVec 64) threeSlots).restrict (Near threeSlots)).Run middle more final ∧
          middle.inner.produced = 3 ∧ final.inner.produced = 3 ∧
            middle.inner.produced ≤ final.inner.produced := by
  obtain ⟨labels, more, middle, final, reached, run, before, after⟩ :
      ∃ labels more middle final,
        ((system (Fin 1) (BitVec 64) threeSlots).restrict (Near threeSlots)).Reaches labels middle ∧
          ((system (Fin 1) (BitVec 64) threeSlots).restrict (Near threeSlots)).Run middle more
            final ∧ middle.inner.produced = 3 ∧ final.inner.produced = 3 :=
    ⟨_, _, _, _, ⟨_, rfl, TransitionSystem.execute_restrict_run fillThree rfl⟩,
      TransitionSystem.execute_restrict_run oneBack rfl, rfl, rfl⟩
  exact ⟨labels, more, middle, final, reached, run, before, after,
    (frontier_forward_iff reached run).1⟩

/-- Two blocks back and forward again. -/
def twoBack : List (Choice (Fin 1) (BitVec 64)) :=
  [.popCall, .owner, .owner, .owner, .owner, .owner, .owner, .owner, .ownerReturn,
    .popCall, .owner, .owner, .owner, .owner, .owner, .owner, .owner, .owner, .owner, .ownerReturn,
    .popCall, .owner, .owner, .owner, .owner, .owner, .owner, .owner, .owner, .owner, .ownerReturn,
    .putCall 4, .owner, .owner, .owner, .owner, .ownerReturn]

/-- The owner enters the second block again and hides the third. -/
theorem not_frontier_forward :
    ¬ ∀ (labels more : List (Label (Fin 1) (BitVec 64)))
      (middle final : State (Fin 1) (BitVec 64)),
      (system (Fin 1) (BitVec 64) threeSlots).Reaches labels middle →
        (system (Fin 1) (BitVec 64) threeSlots).Run middle more final →
          middle.inner.produced ≤ final.inner.produced := by
  intro claim
  obtain ⟨labels, more, middle, final, reached, run, three, two⟩ :
      ∃ labels more middle final,
        (system (Fin 1) (BitVec 64) threeSlots).Reaches labels middle ∧
          (system (Fin 1) (BitVec 64) threeSlots).Run middle more final ∧
            middle.inner.produced = 3 ∧ final.inner.produced = 2 :=
    ⟨_, _, _, _, ⟨_, rfl, TransitionSystem.execute_run fillThree rfl⟩,
      TransitionSystem.execute_run twoBack rfl, rfl, rfl⟩
  have forward := claim labels more middle final reached run
  rw [three, two] at forward
  exact absurd forward (by decide)

end WsDeque.Bwos.Bounded
