import WsDeque.Bwos.BoundedRuns
import WsDeque.Bwos.Stack
import WsDeque.Bwos.UnboundedRuns

/-
Both BWoS queues behave as the stack, with every access of the code at its place:
whatever the thieves do, `pop` takes the newest element there is, and answers that
there is none only when nobody could take anything.
-/

namespace WsDeque.Bwos

open InlineValue

variable {ι α : Type*}

def PutPc.value : PutPc α → α
  | .storeSlot value _ | .publish value _ => value

/-! ### The bounded queue -/

namespace Bounded

variable [InlineValue α] [Fintype ι] [DecidableEq ι]

def OwnerPc.status (block : Block) : OwnerPc α → Stack.OwnerStatus α
  | .idle => .idle
  | .putLoadCommitted value | .putStoreProduced value => .putting value
  | .putting pc => .putting pc.value
  | .popping pc => Stack.popStatus (pc.holds block)
  | .returned result => .done result

def ThiefPc.status : ThiefPc α → Stack.ThiefStatus α
  | .absent => .absent
  | .idle => .idle
  | .loadProduced | .scanning _ _ _ => .stealing
  | .returned result => .done result

def State.abstract (state : State ι α) : Stack.State ι α :=
  { items := state.chain.bits.map fromBits
    owner := state.owner.status state.block
    thief := fun thief => (state.thief thief).status }

/-- A block that is entered below what was stolen from it swallows what is put. -/
def kind (lossless : Bool) : Stack.Kind :=
  { loses := !lossless
    rejects := true }

variable {lossless : Bool} {labels : List (Label ι α)} {state : State ι α} {shape : Shape}

omit [Fintype ι] [DecidableEq ι] in
/-- The owner is elsewhere in its code, and the blocks are as they were. -/
theorem State.abstract_owner {after : State ι α} (chain : after.chain = state.chain)
    (thief : after.thief = state.thief) :
    after.abstract = { state.abstract with owner := after.owner.status after.block } := by
  unfold State.abstract
  rw [chain, thief]

omit [Fintype ι] [DecidableEq ι] in
theorem State.abstract_quiet (owner : OwnerPc α) (same : owner.phase = state.owner.phase) :
    State.abstract { state with owner := owner } =
      { state.abstract with owner := owner.status state.block } :=
  State.abstract_owner (State.chain_owner same) rfl

omit [Fintype ι] [DecidableEq ι] in
theorem State.status_of {owner : OwnerPc α} (atPc : state.owner = owner) :
    state.abstract.owner = owner.status state.block :=
  congrArg (fun owner => owner.status state.block) atPc

theorem Follows.abstract_putLoadCommitted (follows : Follows lossless labels state) {value : α}
    (atPc : state.owner = .putLoadCommitted value) {access : Access α} {inner : Inner}
    {ownerBlock : Nat} {owner : OwnerPc α}
    (taken : Bounded.ownerStep shape state.inner state.ownerBlock (.putLoadCommitted value) =
      some (access, inner, ownerBlock, owner)) :
    Stack.Step (kind lossless) state.abstract (.owner access)
      (State.abstract { state with inner := inner, ownerBlock := ownerBlock, owner := owner }) := by
  have phase : state.owner.phase = .resting := by rw [atPc]; rfl
  have putting : state.abstract.owner = .putting value := State.status_of atPc
  have stays : { state.abstract with owner := .putting value } = state.abstract := by
    rw [← putting]
  have internal : ∀ {after : State ι α}, after.abstract =
      { state.abstract with owner := .putting value } →
        Stack.Step (kind lossless) state.abstract (.owner .loadCommitted) after.abstract := by
    intro after same
    rw [same, stays]
    exact .putInternal value _ putting fun published same => by cases same
  simp only [Bounded.ownerStep] at taken
  split at taken
  · split at taken
    · simp only [Option.some.injEq, Prod.mk.injEq] at taken
      obtain ⟨rfl, rfl, rfl, rfl⟩ := taken
      rw [State.abstract_quiet (.returned (.put false)) phase.symm]
      exact .putReject value putting rfl
    · simp only [Option.some.injEq, Prod.mk.injEq] at taken
      obtain ⟨rfl, rfl, rfl, rfl⟩ := taken
      have outside : state.ownerBlock + 1 ∉ state.chain.order := by
        rw [State.order_eq, List.mem_range]
        omega
      have moved : State.chain
          { state with ownerBlock := state.ownerBlock + 1, owner := .putStoreProduced value } =
          state.chain.moveTo state.chain.order (state.ownerBlock + 1) := by
        rw [State.order_eq]
        unfold State.chain Chain.moveTo
        rw [phase]
        rfl
      refine internal ?_
      unfold State.abstract
      rw [moved, (follows.account.sound.advance outside phase).2]
      rfl
  · simp only [Option.some.injEq, Prod.mk.injEq] at taken
    obtain ⟨rfl, rfl, rfl, rfl⟩ := taken
    exact internal (State.abstract_quiet _ phase.symm)

theorem Follows.abstract_putting (follows : Follows lossless labels state) {pc : PutPc α}
    (atPc : state.owner = .putting pc) :
    Stack.Step (kind lossless) state.abstract (.owner (putBlock state.block pc).1)
      (State.abstract (state.ownerIn (putBlock state.block pc).2.1
        (match (putBlock state.block pc).2.2 with
          | some pc' => .putting pc'
          | none => .returned (.put true)))) := by
  have phase : state.chain.phase = .resting := by
    change state.owner.phase = _
    rw [atPc]
    rfl
  have before : state.abstract = { state.abstract with owner := .putting pc.value } := by
    unfold State.abstract
    rw [atPc]
    rfl
  have meets := follows.owner
  rw [atPc] at meets
  obtain ⟨meets, current⟩ := meets
  cases pc with
  | storeSlot value bottom =>
      have bits := (follows.account.sound.storeSlot phase meets).2
      have after : State.abstract (state.ownerIn (state.block.slotsWrite bottom (toBits value))
          (.putting (.publish value bottom))) = state.abstract := by
        rw [before]
        unfold State.abstract
        rw [← bits]
        rfl
      simp only [putBlock, after]
      exact .putInternal value _ (by rw [before]; rfl) fun published same => by cases same
  | publish value bottom =>
      have bits := (follows.account.sound.publish phase meets).2
      rw [before]
      have moved : (state.chain.ownerMove { state.block with committed := bottom + 1 }
          .resting).bits = state.chain.bits ++
            if decide (state.block.stolen ≤ bottom) then [toBits value] else [] := by
        simp only [decide_eq_true_eq]
        exact bits
      refine Stack.Step.publish moved ?_
      · intro below
        cases lossless with
        | false => rfl
        | true =>
            have level := (follows.account.level rfl).current
            have atCommitted := current rfl
            simp only [phase, Block.back, IndexProtocol.Owner.back, PutPc.bottom] at level atCommitted
            have above := of_decide_eq_false below
            simp only [State.block, State.chain] at level atCommitted above
            omega

/-- A step of `pop` inside a block, and the step back from a drained one. -/
theorem Follows.abstract_popping (follows : Follows lossless labels state) {pc : PopPc}
    (atPc : state.owner = .popping pc) :
    let taken := popBlock (α := α) state.block pc
    let next : Nat × OwnerPc α := afterPop state.ownerBlock taken.2.2
    Stack.Step (kind lossless) state.abstract (.owner taken.1)
      (State.abstract { state.ownerIn taken.2.1 next.2 with ownerBlock := next.1 }) := by
  intro taken next
  unfold next
  have phase : state.chain.phase = pc.phase := by
    change state.owner.phase = _
    rw [atPc]
    rfl
  have met : pc.Meets state.block := by
    have owner := follows.owner
    rw [atPc] at owner
    exact owner
  have before : state.abstract =
      { state.abstract with owner := Stack.popStatus (pc.holds state.block) } := by
    unfold State.abstract
    rw [atPc]
    rfl
  have protocol := follows.account.sound.protocol state.chain.current
  rw [Chain.protocol, Chain.phaseAt_current, phase] at protocol
  have moved : PopMove _ pc _ taken.2.1 taken.2.2 := popBlock_move protocol met
  have meets := moved.meets
  obtain ⟨kept, bits⟩ := follows.account.sound.pop phase moved
  generalize taken.2.2 = outcome at meets bits kept ⊢
  have stepped : ∀ owner : OwnerPc α, owner.phase = outcome.phase →
      owner.status taken.2.1 = Stack.popStatus (outcome.holds taken.2.1) →
        Stack.Step (kind lossless) state.abstract (.owner taken.1)
          (State.abstract (state.ownerIn taken.2.1 owner)) := by
    intro owner samePhase status
    have after : State.abstract (state.ownerIn taken.2.1 owner) =
        { items := (state.chain.ownerMove taken.2.1 outcome.phase).bits.map fromBits
          owner := Stack.popStatus (outcome.holds taken.2.1)
          thief := state.abstract.thief } := by
      rw [← status, ← samePhase]
      unfold State.abstract
      rw [State.block_ownerIn]
      rfl
    rw [before, after]
    exact Stack.Step.pop taken.1 bits
  cases outcome with
  | running pc' => exact stepped _ rfl rfl
  | taken bits => exact stepped _ rfl rfl
  | drained =>
      have quiet : (state.chain.ownerMove taken.2.1 .resting).bits = state.chain.bits ∧
          none = pc.holds state.block := by
        rcases bits with same | ⟨_bits, _split, _free, gained⟩
        · exact same
        · cases gained
      have popping : state.abstract.owner = .popping := by
        rw [before, ← quiet.2]
        rfl
      have stays : { state.abstract with owner := .popping } = state.abstract := by
        rw [← popping]
      by_cases first : state.ownerBlock = 0
      · simp only [afterPop, if_pos first]
        have nothing : state.chain.bits = [] := by
          rw [← quiet.1, follows.account.sound.ownerMove_bits,
            show state.chain.older = [] from congrArg List.range first]
          exact Block.live_nil_of_drained meets
        have after : State.abstract { state.ownerIn taken.2.1 (.returned (.popped none)) with
            ownerBlock := state.ownerBlock } =
            { state.abstract with owner := .done (.popped none) } := by
          unfold State.abstract
          rw [← quiet.1]
          rfl
        rw [after]
        refine .popEmpty _ popping ?_
        change state.chain.bits.map fromBits = []
        rw [nothing]
        rfl
      · simp only [afterPop, if_neg first]
        obtain ⟨prev, ownerBlock⟩ := Nat.exists_eq_succ_of_ne_zero first
        have older : (state.chain.ownerMove taken.2.1 .resting).older =
            List.range prev ++ [prev] := by
          change List.range state.ownerBlock = _
          rw [ownerBlock, List.range_succ]
        have drained : (state.chain.ownerMove taken.2.1 .resting).bits =
            ((state.chain.ownerMove taken.2.1 .resting).moveTo (List.range prev) prev).bits := by
          refine (kept.stepBack older rfl ?_).2.symm
          simp only [Chain.ownerMove, Function.update_self]
          exact meets
        have after : State.abstract { state.ownerIn taken.2.1 (.popping .loadCommitted) with
            ownerBlock := state.ownerBlock - 1 } =
            { state.abstract with owner := .popping } := by
          unfold State.abstract
          rw [← quiet.1, drained, ownerBlock]
          rfl
        rw [after, stays]
        exact .popInternal _ popping

theorem Follows.abstract_ownerStep (follows : Follows lossless labels state) {access : Access α}
    {inner : Inner} {ownerBlock : Nat} {owner : OwnerPc α}
    (taken : Bounded.ownerStep shape state.inner state.ownerBlock state.owner =
      some (access, inner, ownerBlock, owner)) :
    Stack.Step (kind lossless) state.abstract (.owner access)
      (State.abstract { state with inner := inner, ownerBlock := ownerBlock, owner := owner }) := by
  cases atPc : state.owner with
  | putLoadCommitted value =>
      rw [atPc] at taken
      exact follows.abstract_putLoadCommitted atPc taken
  | putStoreProduced value =>
      rw [atPc] at taken
      simp only [Bounded.ownerStep, Option.some.injEq, Prod.mk.injEq] at taken
      obtain ⟨rfl, rfl, rfl, rfl⟩ := taken
      have putting : state.abstract.owner = .putting value := State.status_of atPc
      have entered : State.abstract
          { state with
            inner := { state.inner with produced := state.ownerBlock + 1 }
            owner := .putting (.storeSlot value 0) } =
          { state.abstract with owner := .putting value } :=
        State.abstract_owner (State.chain_owner (by rw [atPc]; rfl)) rfl
      rw [entered, ← putting]
      exact .putInternal value _ putting fun published same => by cases same
  | putting pc =>
      rw [atPc] at taken
      simp only [Bounded.ownerStep, Option.some.injEq, Prod.mk.injEq] at taken
      obtain ⟨rfl, rfl, rfl, rfl⟩ := taken
      exact follows.abstract_putting atPc
  | popping pc =>
      rw [atPc] at taken
      simp only [Bounded.ownerStep, Option.some.injEq, Prod.mk.injEq] at taken
      obtain ⟨rfl, rfl, rfl, rfl⟩ := taken
      exact follows.abstract_popping atPc
  | idle => rw [atPc] at taken; cases taken
  | returned result => rw [atPc] at taken; cases taken

omit [Fintype ι] in
theorem State.abstract_setThief (thief : ι) (pc : ThiefPc α) :
    (state.setThief thief pc).abstract = state.abstract.setThief thief pc.status := by
  unfold State.abstract Stack.State.setThief
  rw [State.chain_setThief]
  congr 1
  exact Function.comp_update ThiefPc.status state.thief thief pc

omit [InlineValue α] [Fintype ι] [DecidableEq ι] in
theorem scan_status (produced blk : Nat) :
    (scan produced blk : ThiefPc α).status = .stealing ∨
      (scan produced blk : ThiefPc α).status = .done .empty := by
  unfold scan
  split
  · exact .inl rfl
  · exact .inr rfl

omit [Fintype ι] in
/-- The head of the scan goes on or ends it. -/
theorem State.abstract_scan {thief : ι} (stealing : state.abstract.thief thief = .stealing)
    {access : Access α} (produced blk : Nat) :
    Stack.Step (kind lossless) state.abstract (.thief thief access)
      (state.setThief thief (scan produced blk)).abstract := by
  rw [State.abstract_setThief]
  rcases scan_status (α := α) produced blk with goesOn | ends
  · have still : state.abstract.setThief thief .stealing = state.abstract := by
      unfold Stack.State.setThief
      rw [← stealing, Function.update_eq_self]
    rw [goesOn, still]
    exact .stealInternal thief access stealing
  · rw [ends]
    exact .stealFail thief access .empty stealing fun value same => by cases same

theorem Follows.abstract_scanning (follows : Follows lossless labels state) {thief : ι}
    {produced blk : Nat} {pc : StealPc} (atPc : state.thief thief = .scanning produced blk pc) :
    let taken := stealBlock (α := α) (state.inner.blocks blk) pc
    Stack.Step (kind lossless) state.abstract (.thief thief taken.1)
      (State.abstract ({ state with inner := state.inner.setBlock blk taken.2.1 }.setThief thief
        (afterSteal produced blk taken.2.2))) := by
  intro taken
  have here : state.chain.thief thief = some (blk, pc) := by
    change (state.thief thief).place = _
    rw [atPc]
    rfl
  have taker : takerAt (state.chain.thief thief) blk = pc.taker := by
    rw [here]
    exact if_pos rfl
  have stealing : state.abstract.thief thief = .stealing := by
    change (state.thief thief).status = _
    rw [atPc]
    rfl
  have moved : StealMove (state.chain.blocks blk) (state.chain.phaseAt blk)
      (fun other => takerAt (state.chain.thief other) blk) thief taken.2.1 taken.2.2 :=
    stealBlock_move (follows.account.sound.protocol blk) taker
  obtain ⟨slots, _committed, _stolen⟩ := Chain.thiefMove_current none moved
  have bits := follows.account.sound.steal_bits none moved
  have status : state.owner.status (Function.update state.inner.blocks blk taken.2.1
      state.ownerBlock) = state.owner.status state.block := by
    cases atOwner : state.owner with
    | popping pc => exact congrArg Stack.popStatus (PopPc.holds_congr slots pc)
    | _ => rfl
  generalize taken.2.2 = outcome at bits ⊢
  by_cases drained : outcome = .drained
  · subst drained
    have quiet : State.abstract { state with inner := state.inner.setBlock blk taken.2.1 } =
        state.abstract := by
      rcases bits with ⟨same, _silent⟩ | ⟨_bits, _before, _after, won, _rest⟩
      · unfold State.abstract
        rw [← same]
        exact congrArg (fun owner => Stack.State.mk _ owner _) status
      · cases won
    have scanned : Stack.Step (kind lossless)
        (State.abstract { state with inner := state.inner.setBlock blk taken.2.1 })
        (.thief thief taken.1) _ :=
      State.abstract_scan ((congrArg (fun abstract => abstract.thief thief) quiet).trans stealing)
        produced (blk + 1)
    rw [quiet] at scanned
    exact scanned
  · have after : State.abstract ({ state with inner := state.inner.setBlock blk taken.2.1 }.setThief
        thief (afterSteal produced blk outcome)) =
        { items := (state.chain.thiefMove thief blk taken.2.1 none).bits.map fromBits
          owner := state.abstract.owner
          thief := Function.update state.abstract.thief thief (Stack.stealStatus outcome) } := by
      have reached : (afterSteal produced blk outcome : ThiefPc α).status =
          Stack.stealStatus outcome := by
        cases outcome with
        | drained => exact absurd rfl drained
        | _ => rfl
      rw [State.abstract_setThief, reached]
      exact congrArg (fun owner => Stack.State.mk _ owner _) status
    rw [after]
    exact Stack.Step.steal taken.1 stealing bits

/-- One step of the bounded queue is one step of the stack. -/
theorem Follows.abstract_step (follows : Follows lossless labels state) {label : Label ι α}
    {after : State ι α} (moves : Moves shape state label after) :
    Stack.Step (kind lossless) state.abstract label after.abstract := by
  cases moves with
  | putCall value atPc =>
      rw [State.abstract_quiet (.putLoadCommitted value) (by rw [atPc]; rfl)]
      exact .putCall value (State.status_of atPc)
  | popCall atPc =>
      rw [State.abstract_quiet (.popping .loadCommitted) (by rw [atPc]; rfl)]
      exact .popCall (State.status_of atPc)
  | owner access inner ownerBlock pc stepped => exact follows.abstract_ownerStep stepped
  | ownerReturn result atPc =>
      rw [State.abstract_quiet .idle (by rw [atPc]; rfl)]
      exact .ownerReturn result (State.status_of atPc)
  | newStealer thief atPc =>
      rw [State.abstract_setThief]
      exact .newStealer thief (congrArg ThiefPc.status atPc)
  | stealCall thief atPc =>
      rw [State.abstract_setThief]
      exact .stealCall thief (congrArg ThiefPc.status atPc)
  | thief thief access inner pc stepped =>
      cases atPc : state.thief thief with
      | loadProduced =>
          rw [atPc] at stepped
          simp only [Bounded.thiefStep, Option.some.injEq, Prod.mk.injEq] at stepped
          obtain ⟨rfl, rfl, rfl⟩ := stepped
          exact State.abstract_scan (congrArg ThiefPc.status atPc) _ _
      | scanning produced blk stealPc =>
          rw [atPc] at stepped
          simp only [Bounded.thiefStep, Option.some.injEq, Prod.mk.injEq] at stepped
          obtain ⟨rfl, rfl, rfl⟩ := stepped
          exact follows.abstract_scanning atPc
      | absent => rw [atPc] at stepped; cases stepped
      | idle => rw [atPc] at stepped; cases stepped
      | returned result => rw [atPc] at stepped; cases stepped
  | stealReturn thief result atPc =>
      rw [State.abstract_setThief]
      exact .stealReturn thief result (congrArg ThiefPc.status atPc)

end Bounded

/-! ### The unbounded queue -/

namespace Unbounded

variable [InlineValue α] [Fintype ι] [DecidableEq ι]

def OwnerPc.status (block : Block) : OwnerPc α → Stack.OwnerStatus α
  | .idle => .idle
  | .putLoadCommitted value | .putStoreNext value _ => .putting value
  | .putting pc => .putting pc.value
  | .popping pc => Stack.popStatus (pc.holds block)
  | .returned result => .done result

def ThiefPc.status : ThiefPc α → Stack.ThiefStatus α
  | .absent => .absent
  | .idle => .idle
  | .scanning _ _ | .loadNext _ => .stealing
  | .returned result => .done result

/-- The blocks behind the owner's, oldest first. -/
def State.older (state : State ι α) : List Nat :=
  state.ownerBlocks.tail.reverse

def State.abstractBehind (state : State ι α) (older : List Nat) : Stack.State ι α :=
  { items := (state.chain older).bits.map fromBits
    owner := state.owner.status state.block
    thief := fun thief => (state.thief thief).status }

def State.abstract (state : State ι α) : Stack.State ι α :=
  state.abstractBehind state.older

def kind : Stack.Kind :=
  { loses := false
    rejects := false }

variable {keeps : Bool} {older : List Nat} {labels : List (Label ι α)} {state : State ι α}
  {shape : Shape}

omit [InlineValue α] [Fintype ι] [DecidableEq ι] in
theorem State.older_of_linked (linked : Linked state.inner (older ++ [state.ownerBlock])) :
    state.older = older := by
  have path := linked.prevChain (Nat.lt_succ_self state.ownerBlock)
  have blocks : state.ownerBlocks = (older ++ [state.ownerBlock]).reverse := by
    rw [← path, List.reverse_reverse]
    rfl
  unfold State.older
  rw [blocks, List.reverse_append, List.reverse_singleton, List.singleton_append, List.tail_cons,
    List.reverse_reverse]

omit [Fintype ι] [DecidableEq ι] in
theorem State.abstract_quiet (owner : OwnerPc α) (same : owner.phase = state.owner.phase) :
    State.abstractBehind { state with owner := owner } older =
      { state.abstractBehind older with owner := owner.status state.block } := by
  unfold State.abstractBehind
  rw [State.chain_owner same]
  rfl

omit [Fintype ι] [DecidableEq ι] in
theorem State.status_of {owner : OwnerPc α} (atPc : state.owner = owner) :
    (state.abstractBehind older).owner = owner.status state.block :=
  congrArg (fun owner => owner.status state.block) atPc

theorem Follows.abstract_putLoadCommitted (follows : Follows keeps older labels state) {value : α}
    (atPc : state.owner = .putLoadCommitted value) {access : Access α} {inner : Inner}
    {ownerBlock : Nat} {owner : OwnerPc α}
    (taken : Unbounded.ownerStep shape state.inner state.ownerBlock (.putLoadCommitted value) =
      some (access, inner, ownerBlock, owner)) :
    Linked inner (older ++ [ownerBlock]) ∧
      Stack.Step kind (state.abstractBehind older) (.owner access)
        (State.abstractBehind
          { state with inner := inner, ownerBlock := ownerBlock, owner := owner } older) := by
  have phase : state.owner.phase = .resting := by rw [atPc]; rfl
  have putting : (state.abstractBehind older).owner = .putting value := State.status_of atPc
  have stays : { state.abstractBehind older with owner := .putting value } =
      state.abstractBehind older := by
    rw [← putting]
  have internal : Stack.Step kind (state.abstractBehind older) (.owner .loadCommitted)
      (state.abstractBehind older) :=
    .putInternal value _ putting fun published same => by cases same
  simp only [Unbounded.ownerStep] at taken
  split at taken
  · simp only [Option.some.injEq, Prod.mk.injEq] at taken
    obtain ⟨rfl, rfl, rfl, rfl⟩ := taken
    refine ⟨follows.linked.alloc _, ?_⟩
    have blocks : (state.inner.alloc (some state.ownerBlock)).blocks = state.inner.blocks := by
      change Function.update _ _ _ = _
      rw [← follows.untouched state.inner.allocated (Nat.le_refl _), Function.update_eq_self]
    have after : State.abstractBehind
        { state with
          inner := state.inner.alloc (some state.ownerBlock)
          owner := .putStoreNext value state.inner.allocated } older =
        { state.abstractBehind older with owner := .putting value } := by
      unfold State.abstractBehind State.chain State.block
      rw [phase]
      dsimp only
      rw [blocks]
      rfl
    rw [after, stays]
    exact internal
  · simp only [Option.some.injEq, Prod.mk.injEq] at taken
    obtain ⟨rfl, rfl, rfl, rfl⟩ := taken
    refine ⟨follows.linked, ?_⟩
    rw [State.abstract_quiet (.putting _) phase.symm]
    exact stays.symm ▸ internal

theorem Follows.abstract_putStoreNext (follows : Follows keeps older labels state) {value : α}
    {fresh : Nat} (atPc : state.owner = .putStoreNext value fresh) :
    Linked (state.inner.setNext state.ownerBlock fresh)
        (older ++ [state.ownerBlock] ++ [fresh]) ∧
      Stack.Step kind (state.abstractBehind older) (.owner .storeNext)
        (State.abstractBehind
          { state with
            inner := state.inner.setNext state.ownerBlock fresh
            ownerBlock := fresh
            owner := .putting (.storeSlot value 0) } (older ++ [state.ownerBlock])) := by
  have phase : state.owner.phase = .resting := by rw [atPc]; rfl
  have putting : (state.abstractBehind older).owner = .putting value := State.status_of atPc
  have meets := follows.owner
  rw [atPc] at meets
  obtain ⟨later, below, back, empty⟩ := meets
  have outside : fresh ∉ older ++ [state.ownerBlock] := fun member => by
    have behind := follows.linked.le_last member
    omega
  have chain : State.chain
      { state with
        inner := state.inner.setNext state.ownerBlock fresh
        ownerBlock := fresh
        owner := .putting (.storeSlot value 0) } (older ++ [state.ownerBlock]) =
      (state.chain older).moveTo (state.chain older).order fresh := by
    unfold State.chain Chain.moveTo
    rw [phase]
    rfl
  have after : State.abstractBehind
      { state with
        inner := state.inner.setNext state.ownerBlock fresh
        ownerBlock := fresh
        owner := .putting (.storeSlot value 0) } (older ++ [state.ownerBlock]) =
      { state.abstractBehind older with owner := .putting value } := by
    unfold State.abstractBehind
    rw [chain, (follows.account.sound.advance outside phase).2]
    rfl
  refine ⟨follows.linked.setNext back later below, ?_⟩
  rw [after, ← putting]
  exact .putInternal value _ putting fun published same => by cases same

theorem Follows.abstract_putting (follows : Follows keeps older labels state) {pc : PutPc α}
    (atPc : state.owner = .putting pc) :
    Stack.Step kind (state.abstractBehind older) (.owner (putBlock state.block pc).1)
      (State.abstractBehind (state.ownerIn (putBlock state.block pc).2.1
        (match (putBlock state.block pc).2.2 with
          | some pc' => .putting pc'
          | none => .returned (.put true))) older) := by
  have phase : (state.chain older).phase = .resting := by
    change state.owner.phase = _
    rw [atPc]
    rfl
  have before : state.abstractBehind older =
      { state.abstractBehind older with owner := .putting pc.value } := by
    unfold State.abstractBehind
    rw [atPc]
    rfl
  have meets := follows.owner
  rw [atPc] at meets
  obtain ⟨meets, current⟩ := meets
  cases pc with
  | storeSlot value bottom =>
      have bits := (follows.account.sound.storeSlot phase meets).2
      have after : State.abstractBehind (state.ownerIn (state.block.slotsWrite bottom
          (toBits value)) (.putting (.publish value bottom))) older =
            state.abstractBehind older := by
        rw [before]
        unfold State.abstractBehind
        rw [← bits]
        rfl
      simp only [putBlock, after]
      exact .putInternal value _ (by rw [before]; rfl) fun published same => by cases same
  | publish value bottom =>
      have bits := (follows.account.sound.publish phase meets).2
      have level := (follows.account.level rfl).current
      simp only [phase, Block.back, IndexProtocol.Owner.back] at level
      have above : state.block.stolen ≤ bottom := by
        change bottom = (state.inner.blocks state.ownerBlock).committed at current
        change ((state.inner.blocks state.ownerBlock).stolen : Int) ≤
          (state.inner.blocks state.ownerBlock).committed at level
        simp only [State.block]
        omega
      have moved : ((state.chain older).ownerMove { state.block with committed := bottom + 1 }
          .resting).bits = (state.chain older).bits ++
            if true then [toBits value] else [] :=
        bits.trans (congrArg _ (if_pos above))
      rw [before]
      exact Stack.Step.publish moved fun lost => by cases lost

/-- A step of `pop` inside a block, and the step back from a drained one. -/
theorem Follows.abstract_popping (follows : Follows keeps older labels state) {pc : PopPc}
    (atPc : state.owner = .popping pc) :
    let taken := popBlock (α := α) state.block pc
    let next : Nat × OwnerPc α := afterPop state.inner state.ownerBlock taken.2.2
    ∃ older', Linked (state.inner.setBlock state.ownerBlock taken.2.1) (older' ++ [next.1]) ∧
      Stack.Step kind (state.abstractBehind older) (.owner taken.1)
        (State.abstractBehind
          { state.ownerIn taken.2.1 next.2 with ownerBlock := next.1 } older') := by
  intro taken next
  unfold next
  have phase : (state.chain older).phase = pc.phase := by
    change state.owner.phase = _
    rw [atPc]
    rfl
  have met : pc.Meets state.block := by
    have owner := follows.owner
    rw [atPc] at owner
    exact owner
  have before : state.abstractBehind older =
      { state.abstractBehind older with owner := Stack.popStatus (pc.holds state.block) } := by
    unfold State.abstractBehind
    rw [atPc]
    rfl
  have protocol := follows.account.sound.protocol (state.chain older).current
  rw [Chain.protocol, Chain.phaseAt_current, phase] at protocol
  have moved : PopMove _ pc _ taken.2.1 taken.2.2 := popBlock_move protocol met
  have meets := moved.meets
  obtain ⟨kept, bits⟩ := follows.account.sound.pop phase moved
  have linked := follows.linked.setBlock state.ownerBlock taken.2.1
  generalize taken.2.2 = outcome at meets bits kept ⊢
  have stepped : ∀ owner : OwnerPc α, owner.phase = outcome.phase →
      owner.status taken.2.1 = Stack.popStatus (outcome.holds taken.2.1) →
        Stack.Step kind (state.abstractBehind older) (.owner taken.1)
          (State.abstractBehind (state.ownerIn taken.2.1 owner) older) := by
    intro owner samePhase status
    have after : State.abstractBehind (state.ownerIn taken.2.1 owner) older =
        { items := ((state.chain older).ownerMove taken.2.1 outcome.phase).bits.map fromBits
          owner := Stack.popStatus (outcome.holds taken.2.1)
          thief := (state.abstractBehind older).thief } := by
      rw [← status, ← samePhase]
      unfold State.abstractBehind
      rw [State.block_ownerIn]
      rfl
    rw [before, after]
    exact Stack.Step.pop taken.1 bits
  cases outcome with
  | running pc' => exact ⟨older, linked, stepped _ rfl rfl⟩
  | taken bits => exact ⟨older, linked, stepped _ rfl rfl⟩
  | drained =>
      have quiet : ((state.chain older).ownerMove taken.2.1 .resting).bits =
          (state.chain older).bits ∧ none = pc.holds state.block := by
        rcases bits with same | ⟨_bits, _split, _free, gained⟩
        · exact same
        · cases gained
      have popping : (state.abstractBehind older).owner = .popping := by
        rw [before, ← quiet.2]
        rfl
      have stays : { state.abstractBehind older with owner := .popping } =
          state.abstractBehind older := by
        rw [← popping]
      cases behind : state.inner.prev state.ownerBlock with
      | none =>
          simp only [afterPop, behind]
          have none : older = [] := by
            rcases List.eq_nil_or_concat' older with first | ⟨rest, last, rfl⟩
            · exact first
            · rw [follows.linked.prev_last] at behind
              cases behind
          have nothing : (state.chain older).bits = [] := by
            rw [← quiet.1, follows.account.sound.ownerMove_bits,
              show (state.chain older).older = [] from none]
            exact Block.live_nil_of_drained meets
          have after : State.abstractBehind
              { state.ownerIn taken.2.1 (.returned (.popped Option.none)) with
                ownerBlock := state.ownerBlock } older =
              { state.abstractBehind older with owner := .done (.popped Option.none) } := by
            unfold State.abstractBehind
            rw [← quiet.1]
            rfl
          refine ⟨older, linked, ?_⟩
          rw [after]
          refine .popEmpty _ popping ?_
          change (state.chain older).bits.map fromBits = []
          rw [nothing]
          rfl
      | some prev =>
          simp only [afterPop, behind]
          obtain ⟨rest, rfl, shorter⟩ := linked.stepBack behind
          have drained : ((state.chain (rest ++ [prev])).ownerMove taken.2.1 .resting).bits =
              (((state.chain (rest ++ [prev])).ownerMove taken.2.1 .resting).moveTo rest
                prev).bits := by
            refine (kept.stepBack rfl rfl ?_).2.symm
            simp only [Chain.ownerMove, Function.update_self]
            exact meets
          have after : State.abstractBehind
              { state.ownerIn taken.2.1 (.popping .loadCommitted) with ownerBlock := prev } rest =
              { state.abstractBehind (rest ++ [prev]) with owner := .popping } := by
            unfold State.abstractBehind
            rw [← quiet.1, drained]
            rfl
          refine ⟨rest, shorter, ?_⟩
          rw [after, stays]
          exact .popInternal _ popping

theorem Follows.abstract_ownerStep (follows : Follows keeps older labels state)
    {access : Access α} {inner : Inner} {ownerBlock : Nat} {owner : OwnerPc α}
    (taken : Unbounded.ownerStep shape state.inner state.ownerBlock state.owner =
      some (access, inner, ownerBlock, owner)) :
    ∃ older', Linked inner (older' ++ [ownerBlock]) ∧
      Stack.Step kind (state.abstractBehind older) (.owner access)
        (State.abstractBehind
          { state with inner := inner, ownerBlock := ownerBlock, owner := owner } older') := by
  cases atPc : state.owner with
  | putLoadCommitted value =>
      rw [atPc] at taken
      exact ⟨older, follows.abstract_putLoadCommitted atPc taken⟩
  | putStoreNext value fresh =>
      rw [atPc] at taken
      simp only [Unbounded.ownerStep, Option.some.injEq, Prod.mk.injEq] at taken
      obtain ⟨rfl, rfl, rfl, rfl⟩ := taken
      exact ⟨_, follows.abstract_putStoreNext atPc⟩
  | putting pc =>
      rw [atPc] at taken
      simp only [Unbounded.ownerStep, Option.some.injEq, Prod.mk.injEq] at taken
      obtain ⟨rfl, rfl, rfl, rfl⟩ := taken
      exact ⟨older, follows.linked.setBlock _ _, follows.abstract_putting atPc⟩
  | popping pc =>
      rw [atPc] at taken
      simp only [Unbounded.ownerStep, Option.some.injEq, Prod.mk.injEq] at taken
      obtain ⟨rfl, rfl, rfl, rfl⟩ := taken
      exact follows.abstract_popping atPc
  | idle => rw [atPc] at taken; cases taken
  | returned result => rw [atPc] at taken; cases taken

omit [Fintype ι] in
theorem State.abstract_setThief (thief : ι) (cursor : Nat) (pc : ThiefPc α) :
    (state.setThief thief cursor pc).abstractBehind older =
      (state.abstractBehind older).setThief thief pc.status := by
  unfold State.abstractBehind Stack.State.setThief
  rw [State.chain_setThief]
  congr 1
  exact Function.comp_update ThiefPc.status state.thief thief pc

theorem Follows.abstract_scanning (follows : Follows keeps older labels state) {thief : ι}
    {blk : Nat} {pc : StealPc} (atPc : state.thief thief = .scanning blk pc) :
    let taken := stealBlock (α := α) (state.inner.blocks blk) pc
    let next : Nat × ThiefPc α := afterSteal (state.cursor thief) blk taken.2.2
    Stack.Step kind (state.abstractBehind older) (.thief thief taken.1)
      (State.abstractBehind ({ state with inner := state.inner.setBlock blk taken.2.1 }.setThief
        thief next.1 next.2) older) := by
  intro taken next
  have here : (state.chain older).thief thief = some (blk, pc) := by
    change (state.thief thief).place = _
    rw [atPc]
    rfl
  have taker : takerAt ((state.chain older).thief thief) blk = pc.taker := by
    rw [here]
    exact if_pos rfl
  have moved : StealMove ((state.chain older).blocks blk) ((state.chain older).phaseAt blk)
      (fun other => takerAt ((state.chain older).thief other) blk) thief taken.2.1 taken.2.2 :=
    stealBlock_move (follows.account.sound.protocol blk) taker
  obtain ⟨slots, _committed, _stolen⟩ := Chain.thiefMove_current none moved
  have bits := follows.account.sound.steal_bits none moved
  have status : state.owner.status (Function.update state.inner.blocks blk taken.2.1
      state.ownerBlock) = state.owner.status state.block := by
    cases atOwner : state.owner with
    | popping pc => exact congrArg Stack.popStatus (PopPc.holds_congr slots pc)
    | _ => rfl
  have reached : next.2.status = Stack.stealStatus taken.2.2 := by
    unfold next
    cases taken.2.2 <;> rfl
  have after : State.abstractBehind
      ({ state with inner := state.inner.setBlock blk taken.2.1 }.setThief thief next.1
        next.2) older =
      { items := ((state.chain older).thiefMove thief blk taken.2.1 none).bits.map fromBits
        owner := (state.abstractBehind older).owner
        thief := Function.update (state.abstractBehind older).thief thief
          (Stack.stealStatus taken.2.2) } := by
    rw [State.abstract_setThief, reached]
    exact congrArg (fun owner => Stack.State.mk _ owner _) status
  rw [after]
  exact Stack.Step.steal taken.1 (congrArg ThiefPc.status atPc) bits

omit [Fintype ι] in
/-- A thief goes on to the next block, or has seen the last one. -/
theorem State.abstract_loadNext {thief : ι} {blk : Nat}
    (atPc : state.thief thief = .loadNext blk) :
    let next : Nat × ThiefPc α := afterNext (state.cursor thief) (state.inner.next blk)
    Stack.Step kind (state.abstractBehind older) (.thief thief .loadNext)
      ((state.setThief thief next.1 next.2).abstractBehind older) := by
  intro next
  have stealing : (state.abstractBehind older).thief thief = .stealing :=
    congrArg ThiefPc.status atPc
  rw [State.abstract_setThief]
  unfold next
  cases link : state.inner.next blk with
  | none => exact .stealFail thief _ .empty stealing fun value same => by cases same
  | some successor =>
      have still : (state.abstractBehind older).setThief thief .stealing =
          state.abstractBehind older := by
        unfold Stack.State.setThief
        rw [← stealing, Function.update_eq_self]
      change Stack.Step kind _ _ ((state.abstractBehind older).setThief thief .stealing)
      rw [still]
      exact .stealInternal thief _ stealing

theorem Follows.abstract_moves (follows : Follows keeps older labels state) {label : Label ι α}
    {after : State ι α} (moves : Moves shape state label after) :
    ∃ older', Linked after.inner (older' ++ [after.ownerBlock]) ∧
      Stack.Step kind (state.abstractBehind older) label (after.abstractBehind older') := by
  cases moves with
  | putCall value atPc =>
      refine ⟨older, follows.linked, ?_⟩
      rw [State.abstract_quiet (.putLoadCommitted value) (by rw [atPc]; rfl)]
      exact .putCall value (State.status_of atPc)
  | popCall atPc =>
      refine ⟨older, follows.linked, ?_⟩
      rw [State.abstract_quiet (.popping .loadCommitted) (by rw [atPc]; rfl)]
      exact .popCall (State.status_of atPc)
  | owner access inner ownerBlock pc stepped => exact follows.abstract_ownerStep stepped
  | ownerReturn result atPc =>
      refine ⟨older, follows.linked, ?_⟩
      rw [State.abstract_quiet .idle (by rw [atPc]; rfl)]
      exact .ownerReturn result (State.status_of atPc)
  | newStealer thief atPc =>
      refine ⟨older, follows.linked, ?_⟩
      rw [State.abstract_setThief]
      exact .newStealer thief (congrArg ThiefPc.status atPc)
  | stealCall thief atPc =>
      refine ⟨older, follows.linked, ?_⟩
      rw [State.abstract_setThief]
      exact .stealCall thief (congrArg ThiefPc.status atPc)
  | thief thief access inner cursor pc stepped =>
      cases atPc : state.thief thief with
      | scanning blk stealPc =>
          rw [atPc] at stepped
          simp only [Unbounded.thiefStep, Option.some.injEq, Prod.mk.injEq] at stepped
          obtain ⟨rfl, rfl, next⟩ := stepped
          obtain ⟨rfl, rfl⟩ := Prod.ext_iff.mp next.symm
          exact ⟨older, follows.linked.setBlock _ _, follows.abstract_scanning atPc⟩
      | loadNext blk =>
          rw [atPc] at stepped
          simp only [Unbounded.thiefStep, Option.some.injEq, Prod.mk.injEq] at stepped
          obtain ⟨rfl, rfl, next⟩ := stepped
          obtain ⟨rfl, rfl⟩ := Prod.ext_iff.mp next.symm
          exact ⟨older, follows.linked, State.abstract_loadNext atPc⟩
      | absent => rw [atPc] at stepped; cases stepped
      | idle => rw [atPc] at stepped; cases stepped
      | returned result => rw [atPc] at stepped; cases stepped
  | stealReturn thief result atPc =>
      refine ⟨older, follows.linked, ?_⟩
      rw [State.abstract_setThief]
      exact .stealReturn thief result (congrArg ThiefPc.status atPc)

/-- One step of the unbounded queue is one step of the stack. -/
theorem Follows.abstract_step (follows : Follows keeps older labels state) {label : Label ι α}
    {after : State ι α} (moves : Moves shape state label after) :
    Stack.Step kind state.abstract label after.abstract := by
  obtain ⟨older', linked, step⟩ := follows.abstract_moves moves
  unfold State.abstract
  rw [State.older_of_linked follows.linked, State.older_of_linked linked]
  exact step

/-- Every run of the unbounded queue is a run of the stack, which neither loses nor
rejects a value. -/
theorem unbounded_refines_stack {labels : List (Label ι α)} {state : State ι α}
    (reached : (system ι α shape).Reaches labels state) :
    (Stack.system ι α kind).Reaches labels state.abstract := by
  refine TransitionSystem.Reaches.simulated ?_ ?_ reached
  · rintro start rfl
    have nothing : ((withBlockSize ι α).chain []).bits = [] := by
      rw [Chain.bits_split]
      rfl
    change State.abstractBehind (withBlockSize ι α) [] = _
    unfold State.abstractBehind
    rw [nothing]
    rfl
  · rintro labels before label after earlier ⟨choice, taken⟩
    obtain ⟨older, follows⟩ := follows_of_reaches earlier
    exact follows.abstract_step (next_moves taken)

/-- The owner empties both its blocks from the end and puts into a fresh one. -/
def backAndOn : List (Choice (Fin 1) (BitVec 64)) :=
  [.putCall 1, .owner, .owner, .owner, .ownerReturn,
    .putCall 2, .owner, .owner, .owner, .owner, .ownerReturn,
    .popCall, .owner, .owner, .owner, .owner, .owner, .owner, .owner, .ownerReturn,
    .popCall, .owner, .owner, .owner, .owner, .owner, .owner, .owner, .owner, .owner, .ownerReturn,
    .putCall 3, .owner, .owner, .owner, .owner, .ownerReturn]

theorem unbounded_refines_stack_backAndOn :
    ∃ labels state, (system (Fin 1) (BitVec 64) oneSlot).Reaches labels state ∧
      labels.filterMap accepted = [1, 2, 3] ∧ state.abstract.items = [3] ∧
      (Stack.system (Fin 1) (BitVec 64) kind).Reaches labels state.abstract := by
  obtain ⟨labels, state, run, put, items⟩ :=
    TransitionSystem.execute_finds (next oneSlot) (withBlockSize (Fin 1) (BitVec 64)) backAndOn
      (fun labels state => labels.filterMap accepted = [1, 2, 3] ∧ state.abstract.items = [3])
      (by decide +kernel)
  exact ⟨labels, state, ⟨_, rfl, run⟩, put, items, unbounded_refines_stack ⟨_, rfl, run⟩⟩

end Unbounded

end WsDeque.Bwos
