import WsDeque.Bwos.UnboundedRuns

/-
Which blocks the drop of an unbounded queue frees: those on the `next` links
from the head. A block is lost for it once the owner links another one behind
a block that already has a successor.
-/

namespace WsDeque.Bwos.Unbounded

open InlineValue

/-- `Inner::drop`: the blocks it frees, or `none` when the fuel runs out first. -/
def Inner.dropFrom (inner : Inner) : Nat → Option Nat → Option (List Nat)
  | _, none => some []
  | 0, some _ => none
  | fuel + 1, some blk => (inner.dropFrom fuel (inner.next blk)).map (blk :: ·)

/-- The walk ends, and it meets every allocated block exactly once. -/
def Inner.FreesAll (inner : Inner) : Prop :=
  ∃ fuel freed, inner.dropFrom fuel (some inner.head) = some freed ∧
    freed.Perm (List.range inner.allocated)

variable {inner : Inner}

/-- The walk frees only blocks it starts at or finds a link to. -/
theorem Inner.linked_of_dropFrom {fuel : Nat} {start : Option Nat} {freed : List Nat}
    (walked : inner.dropFrom fuel start = some freed) {blk : Nat} (member : blk ∈ freed) :
    start = some blk ∨ ∃ before, inner.next before = some blk := by
  induction fuel generalizing start freed with
  | zero =>
      cases start with
      | none =>
          cases walked
          cases member
      | some first => cases walked
  | succ fuel ih =>
      cases start with
      | none =>
          cases walked
          cases member
      | some first =>
          obtain ⟨rest, walkedOn, rfl⟩ := Option.map_eq_some_iff.mp walked
          rcases List.mem_cons.mp member with here | further
          · exact Or.inl (congrArg some here.symm)
          · rcases ih walkedOn further with next | behind
            · exact Or.inr ⟨first, next⟩
            · exact Or.inr behind

theorem Inner.dropFrom_unique {fuel other : Nat} {start : Option Nat} {freed freed' : List Nat}
    (walked : inner.dropFrom fuel start = some freed)
    (walked' : inner.dropFrom other start = some freed') : freed = freed' := by
  induction fuel generalizing other start freed freed' with
  | zero =>
      cases start with
      | none =>
          cases walked
          cases other <;> cases walked' <;> rfl
      | some first => cases walked
  | succ fuel ih =>
      cases start with
      | none =>
          cases walked
          cases other <;> cases walked' <;> rfl
      | some first =>
          cases other with
          | zero => cases walked'
          | succ other =>
              obtain ⟨rest, walkedOn, rfl⟩ := Option.map_eq_some_iff.mp walked
              obtain ⟨rest', walkedOn', rfl⟩ := Option.map_eq_some_iff.mp walked'
              rw [ih walkedOn walkedOn']

/-! ### A row of blocks -/

/-- The first `length` blocks are linked in the order of their allocation. -/
structure Inner.Row (inner : Inner) (length : Nat) : Prop where
  head : inner.head = 0
  nonempty : 1 ≤ length
  link : ∀ blk, blk < inner.allocated →
    inner.next blk = if blk + 1 < length then some (blk + 1) else none

theorem Inner.Row.dropFrom {length : Nat} (row : inner.Row length)
    (within : length ≤ inner.allocated) {fuel blk : Nat} (here : blk < length)
    (enough : length ≤ blk + fuel) :
    inner.dropFrom fuel (some blk) = some (List.range' blk (length - blk)) := by
  induction fuel generalizing blk with
  | zero => omega
  | succ fuel ih =>
      have size : length - blk = length - (blk + 1) + 1 := by omega
      rw [Inner.dropFrom, row.link blk (by omega), size, List.range'_succ]
      by_cases more : blk + 1 < length
      · rw [if_pos more, ih more (by omega)]
        rfl
      · have last : length - (blk + 1) = 0 := by omega
        rw [if_neg more, last]
        cases fuel <;> rfl

theorem Inner.Row.freesAll (row : inner.Row inner.allocated) : inner.FreesAll := by
  use inner.allocated, List.range inner.allocated
  constructor
  · rw [row.head, row.dropFrom (Nat.le_refl _) row.nonempty (by omega), List.range_eq_range']
    rfl
  · exact .refl _

theorem Inner.Row.alloc (row : inner.Row inner.allocated) (prev : Option Nat) :
    (inner.alloc prev).Row inner.allocated := by
  refine ⟨row.head, row.nonempty, fun blk below => ?_⟩
  simp only [Inner.alloc] at below ⊢
  by_cases fresh : blk = inner.allocated
  · subst fresh
    rw [Function.update_self, if_neg (by omega)]
  · rw [Function.update_of_ne fresh]
    exact row.link blk (by omega)

/-- A block without a successor is the last of the row. -/
theorem Inner.Row.setNext {current fresh : Nat} (row : inner.Row fresh)
    (below : fresh < inner.allocated) (before : current < fresh)
    (last : inner.next current = none) :
    (inner.setNext current fresh).Row (fresh + 1) := by
  have atEnd : current + 1 = fresh := by
    have link := row.link current (by omega)
    by_cases more : current + 1 < fresh
    · rw [if_pos more, last] at link
      cases link
    · omega
  refine ⟨row.head, Nat.le_add_left 1 fresh, fun blk within => ?_⟩
  simp only [Inner.setNext] at within ⊢
  by_cases here : blk = current
  · subst here
    rw [Function.update_self, if_pos (by omega), atEnd]
  · rw [Function.update_of_ne here, row.link blk within]
    congr 1
    apply propext
    omega

/-! ### A block that the walk misses -/

/-- No link leads to the block. -/
structure Inner.Leaked (inner : Inner) (blk : Nat) : Prop where
  allocated : blk < inner.allocated
  notHead : inner.head ≠ blk
  unlinked : ∀ before, inner.next before ≠ some blk

theorem Inner.Leaked.not_freesAll {blk : Nat} (leaked : inner.Leaked blk) : ¬ inner.FreesAll := by
  rintro ⟨fuel, freed, walked, all⟩
  have member : blk ∈ freed := all.mem_iff.mpr (List.mem_range.mpr leaked.allocated)
  rcases Inner.linked_of_dropFrom walked member with start | ⟨before, link⟩
  · exact leaked.notHead (Option.some.inj start)
  · exact leaked.unlinked before link

theorem Inner.Leaked.alloc {blk : Nat} (leaked : inner.Leaked blk) (prev : Option Nat) :
    (inner.alloc prev).Leaked blk := by
  refine ⟨Nat.lt_succ_of_lt leaked.allocated, leaked.notHead, fun before => ?_⟩
  simp only [Inner.alloc]
  by_cases fresh : before = inner.allocated
  · subst fresh
    rw [Function.update_self]
    intro same
    cases same
  · rw [Function.update_of_ne fresh]
    exact leaked.unlinked before

theorem Inner.Leaked.setNext {blk current fresh : Nat} (leaked : inner.Leaked blk)
    (other : fresh ≠ blk) : (inner.setNext current fresh).Leaked blk := by
  refine ⟨leaked.allocated, leaked.notHead, fun before => ?_⟩
  simp only [Inner.setNext]
  by_cases here : before = current
  · subst here
    rw [Function.update_self]
    exact fun same => other (Option.some.inj same)
  · rw [Function.update_of_ne here]
    exact leaked.unlinked before

/-- Every link is the one the `prev` of its target was set to. -/
def Inner.Backed (inner : Inner) : Prop :=
  ∀ blk next, inner.next blk = some next → inner.prev next = some blk

theorem Inner.Backed.setNext (backed : inner.Backed) {current fresh : Nat}
    (back : inner.prev fresh = some current) : (inner.setNext current fresh).Backed := by
  intro blk next link
  simp only [Inner.setNext] at link ⊢
  by_cases here : blk = current
  · subst here
    rw [Function.update_self] at link
    cases link
    exact back
  · rw [Function.update_of_ne here] at link
    exact backed blk next link

theorem Inner.Backed.alloc (backed : inner.Backed) (prev : Option Nat)
    (forward : ∀ blk next, inner.next blk = some next → blk < next ∧ next < inner.allocated) :
    (inner.alloc prev).Backed := by
  intro blk next link
  simp only [Inner.alloc] at link ⊢
  by_cases fresh : blk = inner.allocated
  · subst fresh
    rw [Function.update_self] at link
    cases link
  · rw [Function.update_of_ne fresh] at link
    rw [Function.update_of_ne (Nat.ne_of_lt (forward blk next link).2)]
    exact backed blk next link

/-- A second link from one block leaks the first successor. -/
theorem Inner.Backed.leaks (backed : inner.Backed) {current fresh old : Nat}
    (linked : inner.next current = some old) (other : fresh ≠ old) (notHead : inner.head ≠ old)
    (below : old < inner.allocated) : (inner.setNext current fresh).Leaked old := by
  refine ⟨below, notHead, fun before => ?_⟩
  simp only [Inner.setNext]
  by_cases here : before = current
  · subst here
    rw [Function.update_self]
    exact fun same => other (Option.some.inj same)
  · rw [Function.update_of_ne here]
    intro link
    have same : before = current :=
      Option.some.inj ((backed before old link).symm.trans (backed current old linked))
    exact here same

/-! ### Along a run -/

variable {ι α : Type*}

/-- The block that `put` has allocated and not linked yet. -/
def OwnerPc.fresh : OwnerPc α → Option Nat
  | .putStoreNext _ fresh => some fresh
  | _ => none

/-- A fresh block is linked only behind a block that has no successor. -/
def Appends (state : State ι α) : Label ι α → Prop
  | .owner .storeNext => state.inner.next state.ownerBlock = none
  | _ => True

instance (state : State ι α) : (label : Label ι α) → Decidable (Appends state label)
  | .owner .storeNext =>
      inferInstanceAs (Decidable (state.inner.next state.ownerBlock = none))
  | .owner .loadProduced | .owner .storeProduced | .owner .loadCommitted
  | .owner .storeCommitted | .owner (.publish _) | .owner .loadStolen | .owner (.casStolen _)
  | .owner .loadSlot | .owner .storeSlot | .owner .loadNext | .thief _ _ | .putCall _ | .popCall
  | .ownerReturn _ | .newStealer _ | .stealCall _ | .stealReturn _ _ => .isTrue trivial

def storesNext : Label ι α → Bool
  | .owner .storeNext => true
  | _ => false

theorem appends_of_silent {state : State ι α} {label : Label ι α}
    (silent : storesNext label = false) : Appends state label := by
  cases label with
  | owner access =>
      cases access with
      | storeNext => cases silent
      | _ => trivial
  | _ => trivial

/-- What a step does to the links. -/
inductive LinkStep (before : State ι α) (label : Label ι α) (after : State ι α) : Prop
  | blocks (blocks : Nat → Block) (inner : after.inner = { before.inner with blocks := blocks })
      (fresh : after.owner.fresh = before.owner.fresh) (silent : storesNext label = false)
  | alloc (inner : after.inner = before.inner.alloc (some before.ownerBlock))
      (fresh : after.owner.fresh = some before.inner.allocated)
      (free : before.owner.fresh = none) (silent : storesNext label = false)
  | store (fresh : Nat) (pending : before.owner.fresh = some fresh)
      (inner : after.inner = before.inner.setNext before.ownerBlock fresh)
      (done : after.owner.fresh = none) (stored : label = .owner .storeNext)

theorem popBlock_silent_next (block : Block) (pc : PopPc) :
    storesNext (.owner (popBlock block pc).1 : Label ι α) = false := by
  cases pc with
  | casStolen s bits =>
      simp only [popBlock]
      split <;> rfl
  | _ => rfl

variable [InlineValue α] {shape : Shape} {state after : State ι α} {label : Label ι α}

theorem putBlock_silent_next (block : Block) (pc : PutPc α) :
    storesNext (.owner (putBlock block pc).1 : Label ι α) = false := by
  cases pc <;> rfl

theorem afterPop_fresh (ownerBlock : Nat) (outcome : PopOutcome) :
    (afterPop inner ownerBlock outcome : Nat × OwnerPc α).2.fresh = none := by
  cases outcome with
  | drained =>
      simp only [afterPop]
      split <;> rfl
  | _ => rfl

theorem ownerStep_links {access : Access α} {inner' : Inner} {ownerBlock' : Nat}
    {owner' : OwnerPc α}
    (taken : ownerStep shape state.inner state.ownerBlock state.owner =
      some (access, inner', ownerBlock', owner')) :
    LinkStep state (.owner access)
      { state with
        inner := inner'
        ownerBlock := ownerBlock'
        owner := owner' } := by
  cases atPc : state.owner with
  | idle | returned result =>
      rw [atPc] at taken
      cases taken
  | putLoadCommitted value =>
      rw [atPc] at taken
      simp only [ownerStep] at taken
      split at taken <;> cases taken
      · exact .alloc rfl rfl (by rw [atPc]; rfl) rfl
      · exact .blocks _ rfl (by rw [atPc]; rfl) rfl
  | putStoreNext value fresh =>
      rw [atPc] at taken
      cases taken
      exact .store _ (by rw [atPc]; rfl) rfl rfl rfl
  | putting pc =>
      rw [atPc] at taken
      cases taken
      refine .blocks _ rfl ?_ (putBlock_silent_next _ _)
      rw [atPc]
      cases pc <;> rfl
  | popping pc =>
      rw [atPc] at taken
      cases taken
      refine .blocks _ rfl ?_ (popBlock_silent_next _ _)
      rw [atPc]
      exact afterPop_fresh _ _

variable [DecidableEq ι]

theorem next_links {choice : Choice ι α} (taken : next shape state choice = some (label, after)) :
    LinkStep state label after := by
  cases next_moves taken with
  | owner access inner ownerBlock pc stepped => exact ownerStep_links stepped
  | thief thief access inner cursor pc stepped =>
      cases atPc : state.thief thief with
      | scanning blk pc =>
          rw [atPc] at stepped
          simp only [thiefStep, Option.some.injEq, Prod.mk.injEq] at stepped
          obtain ⟨rfl, rfl, _moved⟩ := stepped
          exact .blocks _ rfl rfl rfl
      | loadNext blk =>
          rw [atPc] at stepped
          simp only [thiefStep, Option.some.injEq, Prod.mk.injEq] at stepped
          obtain ⟨rfl, rfl, _moved⟩ := stepped
          exact .blocks _ rfl rfl rfl
      | _ =>
          rw [atPc] at stepped
          cases stepped
  | putCall value atPc | popCall atPc | ownerReturn result atPc =>
      exact .blocks _ rfl (by rw [atPc]; rfl) rfl
  | newStealer thief atPc | stealCall thief atPc | stealReturn thief result atPc =>
      exact .blocks _ rfl rfl rfl

/-- Links lead to later blocks, and the block still to be linked is one. -/
structure State.Ordered (state : State ι α) : Prop where
  headFirst : state.inner.head ≤ state.ownerBlock
  forward : ∀ blk next, state.inner.next blk = some next →
    blk < next ∧ next < state.inner.allocated
  fresh : ∀ fresh ∈ state.owner.fresh,
    state.ownerBlock < fresh ∧ state.inner.prev fresh = some state.ownerBlock

/-! ### Blocks in a row -/

/-- Where the links stand as long as nothing is linked twice. -/
structure State.Appended (state : State ι α) : Prop where
  row : state.inner.Row (state.owner.fresh.getD state.inner.allocated)
  fresh : ∀ fresh ∈ state.owner.fresh, fresh + 1 = state.inner.allocated

omit [InlineValue α] [DecidableEq ι] in
theorem State.Appended.step (appended : state.Appended) (meets : Appends state label)
    (ordered : state.Ordered) (taken : LinkStep state label after) : after.Appended := by
  obtain ⟨row, last⟩ := appended
  cases taken with
  | blocks blocks inner fresh silent =>
      constructor
      · rw [fresh, inner]
        exact ⟨row.head, row.nonempty, row.link⟩
      · rw [fresh, inner]
        exact last
  | alloc inner fresh free silent =>
      rw [free] at row
      constructor
      · rw [fresh, inner]
        exact row.alloc _
      · rw [fresh, inner]
        rintro fresh ⟨⟩
        rfl
  | store fresh atPc inner done stored =>
      subst stored
      rw [atPc, Option.getD_some] at row
      have next := last fresh atPc
      constructor
      · rw [done, inner]
        have longer := row.setNext (by omega) (ordered.fresh fresh atPc).1 meets
        rwa [next] at longer
      · rw [done]
        rintro fresh ⟨⟩

/-! ### A block linked twice -/

/-- Links agree with `prev`, and none leads to a block still to be linked. -/
structure State.Backed (state : State ι α) : Prop where
  backed : state.inner.Backed
  unlinked : ∀ fresh ∈ state.owner.fresh, ∀ blk, state.inner.next blk ≠ some fresh

/-- Some block is neither linked nor about to be linked. -/
def State.Leaks (state : State ι α) : Prop :=
  ∃ blk, state.inner.Leaked blk ∧ state.owner.fresh ≠ some blk

omit [InlineValue α] [DecidableEq ι] in
theorem State.Backed.step (invariant : state.Backed) (ordered : state.Ordered)
    (taken : LinkStep state label after) : after.Backed := by
  obtain ⟨backed, unlinked⟩ := invariant
  cases taken with
  | blocks blocks inner fresh silent =>
      constructor
      · rw [inner]
        exact backed
      · rw [fresh, inner]
        exact unlinked
  | alloc inner fresh free silent =>
      constructor
      · rw [inner]
        exact backed.alloc _ ordered.forward
      · rw [fresh, inner]
        rintro fresh ⟨⟩ blk link
        simp only [Inner.alloc] at link
        by_cases same : blk = state.inner.allocated
        · subst same
          rw [Function.update_self] at link
          cases link
        · rw [Function.update_of_ne same] at link
          exact Nat.lt_irrefl _ (ordered.forward blk _ link).2
  | store fresh atPc inner done stored =>
      constructor
      · rw [inner]
        exact backed.setNext (ordered.fresh fresh atPc).2
      · rw [done]
        rintro fresh ⟨⟩

omit [InlineValue α] [DecidableEq ι] in
/-- What is leaked stays leaked. -/
theorem State.Leaks.step (leaks : state.Leaks) (taken : LinkStep state label after) :
    after.Leaks := by
  obtain ⟨blk, leaked, other⟩ := leaks
  use blk
  cases taken with
  | blocks blocks inner fresh silent =>
      rw [fresh, inner]
      exact ⟨⟨leaked.allocated, leaked.notHead, leaked.unlinked⟩, other⟩
  | alloc inner fresh free silent =>
      rw [fresh, inner]
      refine ⟨leaked.alloc _, fun same => ?_⟩
      have below := leaked.allocated
      rw [Option.some.inj same] at below
      exact Nat.lt_irrefl _ below
  | store fresh atPc inner done stored =>
      rw [done, inner]
      constructor
      · exact leaked.setNext fun same => other (atPc.trans (congrArg some same))
      · intro same
        cases same

omit [InlineValue α] [DecidableEq ι] in
/-- A step that links a block twice leaks the first successor. -/
theorem State.Backed.leaks (invariant : state.Backed) (ordered : state.Ordered)
    (taken : LinkStep state label after) (twice : ¬ Appends state label) : after.Leaks := by
  cases taken with
  | store fresh atPc inner done stored =>
      subst stored
      obtain ⟨old, link⟩ := Option.ne_none_iff_exists'.mp twice
      have ahead := ordered.forward _ old link
      have headFirst := ordered.headFirst
      use old
      rw [done, inner]
      constructor
      · refine invariant.backed.leaks link ?_ (by omega) ahead.2
        rintro rfl
        exact invariant.unlinked fresh atPc _ link
      · intro same
        cases same
  | blocks blocks inner fresh silent | alloc inner fresh free silent =>
      exact absurd (appends_of_silent silent) twice

/-! ### What the drop frees -/

variable [Fintype ι] {labels : List (Label ι α)}

theorem ordered_of_reaches (reached : (system ι α shape).Reaches labels state) :
    state.Ordered := by
  obtain ⟨older, follows⟩ := follows_of_reaches reached
  have linked := follows.linked
  have owner := follows.owner
  constructor
  · exact linked.le_last (List.mem_of_head? linked.start)
  · exact linked.forward
  · intro fresh pending
    cases atPc : state.owner with
    | putStoreNext value block =>
        rw [atPc] at pending owner
        cases pending
        exact ⟨owner.1, owner.2.2.1⟩
    | _ =>
        rw [atPc] at pending
        cases pending

omit [InlineValue α] [DecidableEq ι] [Fintype ι] in
theorem backed_initial : (withBlockSize ι α).Backed := by
  constructor
  · intro blk next link
    cases link
  · intro fresh pending
    cases pending

omit [InlineValue α] [DecidableEq ι] [Fintype ι] in
theorem appended_initial : (withBlockSize ι α).Appended := by
  constructor
  · refine ⟨rfl, Nat.le_refl 1, fun blk below => ?_⟩
    have single : ¬ blk + 1 < 1 := by omega
    exact (if_neg single).symm
  · intro fresh pending
    cases pending

theorem backed_of_reaches (reached : (system ι α shape).Reaches labels state) :
    state.Backed := by
  obtain ⟨start, isInitial, run⟩ := reached
  induction run with
  | refl =>
      obtain rfl : start = withBlockSize ι α := isInitial
      exact backed_initial
  | snoc prior last ih =>
      obtain ⟨choice, taken⟩ := last
      exact ih.step (ordered_of_reaches ⟨start, isInitial, prior⟩) (next_links taken)

theorem appended_of_appends
    (reached : ((system ι α shape).restrict Appends).Reaches labels state) :
    state.Appended := by
  obtain ⟨start, isInitial, run⟩ := reached
  induction run with
  | refl =>
      obtain rfl : start = withBlockSize ι α := isInitial
      exact appended_initial
  | snoc prior last ih =>
      obtain ⟨meets, choice, taken⟩ := last
      have ordered := ordered_of_reaches ⟨start, isInitial, prior.unrestricted⟩
      exact ih.step meets ordered (next_links taken)

/-- A run links nothing twice, or it has leaked a block for good. -/
theorem appends_or_leaks (reached : (system ι α shape).Reaches labels state) :
    ((system ι α shape).restrict Appends).Reaches labels state ∨ state.Leaks := by
  obtain ⟨start, isInitial, run⟩ := reached
  induction run with
  | refl => exact Or.inl ⟨start, isInitial, .refl start⟩
  | @snoc before final labels label prior last ih =>
      have earlier : (system ι α shape).Reaches labels before := ⟨start, isInitial, prior⟩
      obtain ⟨choice, taken⟩ := last
      have moved := next_links taken
      rcases ih with appends | leaks
      · by_cases meets : Appends before label
        · exact Or.inl (appends.snoc ⟨meets, choice, taken⟩)
        · exact Or.inr
            ((backed_of_reaches earlier).leaks (ordered_of_reaches earlier) moved meets)
      · exact Or.inr (leaks.step moved)

/-- Between calls the drop frees every block exactly once if and only if no
block was ever linked behind one that had a successor. -/
theorem drop_frees_all_iff (reached : (system ι α shape).Reaches labels state)
    (quiet : state.Quiescent) :
    state.inner.FreesAll ↔ ((system ι α shape).restrict Appends).Reaches labels state := by
  constructor
  · intro freesAll
    rcases appends_or_leaks reached with appends | ⟨blk, leaked, _other⟩
    · exact appends
    · exact absurd freesAll leaked.not_freesAll
  · intro appends
    have row := (appended_of_appends appends).row
    rw [quiet.1] at row
    exact row.freesAll

def twoSlotBlocks : Shape :=
  { blockSize := 2
    nonempty := Nat.le_add_left 1 1 }

/-- Three values cross into a second block. -/
def crossOver : List (Choice (Fin 1) (BitVec 64)) :=
  [.putCall 1, .owner, .owner, .owner, .ownerReturn,
    .putCall 2, .owner, .owner, .owner, .ownerReturn,
    .putCall 3, .owner, .owner, .owner, .owner, .ownerReturn]

theorem drop_frees_all_iff_crossOver :
    ∃ labels state, (system (Fin 1) (BitVec 64) twoSlotBlocks).Reaches labels state ∧
      state.Quiescent ∧ state.inner.allocated = 2 ∧
      (state.inner.FreesAll ↔
        ((system (Fin 1) (BitVec 64) twoSlotBlocks).restrict Appends).Reaches labels state) := by
  have reached : (system (Fin 1) (BitVec 64) twoSlotBlocks).Reaches _ _ :=
    ⟨_, rfl, TransitionSystem.execute_run crossOver rfl⟩
  exact ⟨_, _, reached, ⟨rfl, fun _thief => Or.inr rfl⟩, rfl,
    drop_frees_all_iff reached ⟨rfl, fun _thief => Or.inr rfl⟩⟩

/-- The owner pops its way back into the first block and refills it. -/
def linkTwice : List (Choice (Fin 1) (BitVec 64)) :=
  crossOver ++
    [.popCall, .owner, .owner, .owner, .owner, .owner, .owner, .owner, .ownerReturn,
      .popCall, .owner, .owner, .owner, .owner, .owner, .owner, .owner, .ownerReturn,
      .putCall 4, .owner, .owner, .owner, .ownerReturn,
      .putCall 5, .owner, .owner, .owner, .owner, .ownerReturn]

/-- After `linkTwice` the drop frees two of the three blocks. -/
theorem not_drop_frees_all :
    ¬ ∀ (labels : List (Label (Fin 1) (BitVec 64))) (state : State (Fin 1) (BitVec 64)),
      (system (Fin 1) (BitVec 64) twoSlotBlocks).Reaches labels state → state.Quiescent →
        state.inner.FreesAll := by
  intro claim
  obtain ⟨labels, state, run, quiet, allocated, walked⟩ :=
    TransitionSystem.execute_finds (next twoSlotBlocks) (withBlockSize (Fin 1) (BitVec 64))
      linkTwice
      (fun _labels state => state.Quiescent ∧ state.inner.allocated = 3 ∧
        state.inner.dropFrom 3 (some state.inner.head) = some [0, 2])
      (by decide +kernel)
  obtain ⟨fuel, freed, frees, all⟩ := claim labels state ⟨_, rfl, run⟩ quiet
  rw [Inner.dropFrom_unique frees walked, allocated] at all
  exact absurd all.length_eq (by decide)

end WsDeque.Bwos.Unbounded
