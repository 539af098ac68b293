import WsDeque.Bwos.UnboundedHistory

/-
Steps of the thieves, calls and returns, and from them what holds along every
run of the unbounded queue.
-/

namespace WsDeque.Bwos.Unbounded

open InlineValue

variable {ι α : Type*} [InlineValue α] [Fintype ι] [DecidableEq ι]
  {keeps : Bool} {older : List Nat} {labels : List (Label ι α)} {state : State ι α}

/-! ### Steps of a thief -/

omit [InlineValue α] [Fintype ι] in
theorem State.chain_setThief (thief : ι) (cursor : Nat) (pc : ThiefPc α) :
    (state.setThief thief cursor pc).chain older =
      { state.chain older with
        thief := Function.update (state.chain older).thief thief pc.place } := by
  unfold State.chain
  congr 1
  exact Function.comp_update ThiefPc.place state.thief thief pc

omit [Fintype ι] in
theorem State.held_setThief (thief : ι) (cursor : Nat) (pc : ThiefPc α) :
    (state.setThief thief cursor pc).held = Function.update state.held (some thief) pc.held := by
  unfold State.held
  rw [byParty_update_thief]
  congr 1
  exact Function.comp_update ThiefPc.held state.thief thief pc

omit [Fintype ι] in
theorem OwnerPc.Meets.steal {owner : OwnerPc α} {inner : Inner} {ownerBlock blk : Nat}
    {block : Block} (meets : owner.Meets inner ownerBlock)
    (committed : block.committed = (inner.blocks blk).committed)
    (current : let after := (inner.setBlock blk block).blocks ownerBlock
      let before := inner.blocks ownerBlock
      after.slots = before.slots ∧ after.committed = before.committed ∧
        (after.stolen = before.stolen ∨ after.stolen = before.stolen + 1 ∧
          (before.stolen : Int) < before.back owner.phase)) :
    owner.Meets (inner.setBlock blk block) ownerBlock := by
  obtain ⟨slots, committedHere, stolen⟩ := current
  have forward : (inner.blocks ownerBlock).stolen ≤
      ((inner.setBlock blk block).blocks ownerBlock).stolen := by
    rcases stolen with same | ⟨raised, _⟩ <;> omega
  cases owner with
  | putStoreNext value fresh =>
      obtain ⟨later, below, back, empty⟩ := meets
      refine ⟨later, below, back, ?_⟩
      simp only [Inner.setBlock]
      by_cases here : fresh = blk
      · subst here
        rw [Function.update_self, committed, empty]
      · rw [Function.update_of_ne here, empty]
  | putting pc =>
      obtain ⟨met, atCommitted⟩ := meets
      exact ⟨met.steal slots committedHere forward, atCommitted.trans committedHere.symm⟩
  | popping pc => exact PopPc.Meets.steal meets slots committedHere stolen
  | _ => trivial

omit [Fintype ι] [DecidableEq ι] in
theorem OwnerPc.held_congr {block after : Block} (slots : after.slots = block.slots)
    (owner : OwnerPc α) : owner.held after = owner.held block := by
  cases owner with
  | popping pc => simp only [OwnerPc.held, PopPc.holds_congr slots]
  | returned result => cases result <;> rfl
  | _ => rfl

omit [Fintype ι] [DecidableEq ι] in
theorem afterSteal_takerAt (cursor blk : Nat) (outcome : StealOutcome) (other : Nat) :
    takerAt (afterSteal cursor blk outcome : Nat × ThiefPc α).2.place other =
      if other = blk then outcome.taker else .away := by
  cases outcome with
  | running pc =>
      simp only [afterSteal, ThiefPc.place, takerAt, StealOutcome.taker, eq_comm]
  | _ => exact (ite_self _).symm

omit [Fintype ι] [DecidableEq ι] in
theorem afterSteal_held (cursor blk : Nat) (outcome : StealOutcome) :
    (afterSteal cursor blk outcome : Nat × ThiefPc α).2.held = outcome.holds.map fromBits := by
  cases outcome <;> rfl

omit [Fintype ι] [DecidableEq ι] in
/-- A thief is always at the block of its cursor. -/
theorem afterSteal_cursor {cursor blk : Nat} (here : blk = cursor) (outcome : StealOutcome) :
    (afterSteal cursor blk outcome : Nat × ThiefPc α).1 = cursor := by
  cases outcome with
  | taken bits => exact here
  | _ => rfl

omit [Fintype ι] [DecidableEq ι] in
theorem afterSteal_block (cursor blk : Nat) (outcome : StealOutcome) :
    ∀ at' ∈ (afterSteal cursor blk outcome : Nat × ThiefPc α).2.block, at' = blk := by
  cases outcome <;> simp [afterSteal, ThiefPc.block]

omit [InlineValue α] [Fintype ι] in
/-- A thief with a new cursor, the others as before. -/
theorem Ahead.setThief {order : List Nat} (ahead : Ahead state order) {thief : ι} {cursor : Nat}
    {pc : ThiefPc α} (behind : Behind state.inner order cursor) :
    Ahead (state.setThief thief cursor pc) order := by
  intro other present
  change Behind state.inner order (Function.update state.cursor thief cursor other)
  by_cases same : other = thief
  · subst same
    rw [Function.update_self]
    exact behind
  · rw [Function.update_of_ne same]
    refine ahead other ?_
    change (Function.update state.thief thief pc other).present = true at present
    rwa [Function.update_of_ne same] at present

omit [InlineValue α] [Fintype ι] in
theorem State.cursors_setThief {thief : ι} {cursor : Nat} {pc : ThiefPc α}
    (cursors : ∀ thief, ∀ blk ∈ (state.thief thief).block, blk = state.cursor thief)
    (here : ∀ blk ∈ pc.block, blk = cursor) (other : ι) :
    ∀ blk ∈ ((state.setThief thief cursor pc).thief other).block,
      blk = (state.setThief thief cursor pc).cursor other := by
  simp only [State.setThief]
  by_cases same : other = thief
  · subst same
    simpa only [Function.update_self] using here
  · simpa only [Function.update_of_ne same] using cursors other

/-- Stealing leaves less to be behind of. -/
theorem Behind.steal {inner : Inner} {order : List Nat} {cursor blk : Nat} {block : Block}
    (behind : Behind inner order cursor)
    (committed : block.committed = (inner.blocks blk).committed)
    (forward : (inner.blocks blk).stolen ≤ block.stolen) :
    Behind (inner.setBlock blk block) order cursor := by
  intro other member stocked
  simp only [Inner.setBlock] at stocked
  by_cases same : other = blk
  · subst same
    rw [Function.update_self] at stocked
    exact behind other member (by omega)
  · rw [Function.update_of_ne same] at stocked
    exact behind other member stocked

/-- A thief finds nothing in a block that was never allocated. -/
theorem Follows.steal_untouched (follows : Follows keeps older labels state) {thief : ι}
    {blk : Nat} {block : Block} {outcome : StealOutcome}
    (moved : StealMove (state.inner.blocks blk) ((state.chain older).phaseAt blk)
      (fun other => takerAt ((state.chain older).thief other) blk) thief block outcome)
    (beyond : state.inner.allocated ≤ blk) : block = Block.new := by
  have fresh := follows.untouched blk beyond
  have resting : (state.chain older).phaseAt blk = .resting := by
    apply Chain.phaseAt_of_ne
    have within := follows.linked.within _ (List.mem_append_right older
      (List.mem_singleton_self state.ownerBlock))
    change blk ≠ state.ownerBlock
    omega
  obtain ⟨_step, slots, committed, stolen⟩ := moved
  rw [resting, fresh] at stolen
  rw [fresh] at slots committed
  cases block with
  | mk slots' committed' stolen' =>
      rcases stolen with same | ⟨_raised, inside⟩
      · cases slots
        cases committed
        cases same
        rfl
      · cases inside

/-- A step of `steal` inside a block. -/
theorem Follows.scanning (follows : Follows keeps older labels state) {thief : ι} {blk : Nat}
    {pc : StealPc} (atPc : state.thief thief = .scanning blk pc) :
    let taken := stealBlock (α := α) (state.inner.blocks blk) pc
    let next : Nat × ThiefPc α := afterSteal (state.cursor thief) blk taken.2.2
    Follows keeps older (labels ++ [.thief thief taken.1])
      ({ state with inner := state.inner.setBlock blk taken.2.1 }.setThief thief next.1
        next.2) := by
  intro taken next
  have here : (state.chain older).thief thief = some (blk, pc) := by
    change (state.thief thief).place = _
    rw [atPc]
    rfl
  have free : state.held (some thief) = none := by
    change (state.thief thief).held = _
    rw [atPc]
    rfl
  have cursor : blk = state.cursor thief := by
    refine follows.cursors thief blk ?_
    rw [atPc]
    rfl
  have nextCursor : next.1 = state.cursor thief := afterSteal_cursor cursor _
  obtain ⟨moved, account⟩ := follows.account.steal next.2.place here free
    (by rw [afterSteal_takerAt, if_pos rfl]; rfl)
    (fun other different => by rw [afterSteal_takerAt, if_neg different])
  have current := Chain.thiefMove_current next.2.place moved
  have forward : (state.inner.blocks blk).stolen ≤ taken.2.1.stolen := by
    rcases moved.stolen with same | ⟨raised, _inside⟩
    · exact Nat.le_of_eq same.symm
    · exact Nat.le_of_lt (Nat.lt_of_succ_le (Nat.le_of_eq raised.symm))
  have chain : State.chain ({ state with inner := state.inner.setBlock blk taken.2.1 }.setThief
      thief next.1 next.2) older =
      (state.chain older).thiefMove thief blk taken.2.1 next.2.place := by
    rw [State.chain_setThief]
    rfl
  have held : State.held ({ state with inner := state.inner.setBlock blk taken.2.1 }.setThief
      thief next.1 next.2) =
      Function.update state.held (some thief) (taken.2.2.holds.map fromBits) := by
    rw [State.held_setThief, afterSteal_held]
    congr 1
    unfold State.held
    congr 1
    exact OwnerPc.held_congr current.1 state.owner
  refine
    { account := ?_
      linked := follows.linked.setBlock _ _
      untouched := fun other beyond => ?_
      owner := follows.owner.steal moved.committed current
      cursors := State.cursors_setThief follows.cursors fun at' member => ?_
      ahead := fun kept => Ahead.setThief ?_ ?_ }
  · rw [chain, held]
    exact account
  · simp only [State.setThief, Inner.setBlock]
    by_cases same : other = blk
    · subst same
      rw [Function.update_self]
      exact follows.steal_untouched moved beyond
    · rw [Function.update_of_ne same]
      exact follows.untouched other beyond
  · rw [afterSteal_block _ _ _ at' member, nextCursor, cursor]
  · exact fun other present => (follows.ahead kept other present).steal moved.committed forward
  · have present : (state.thief thief).present = true := by
      rw [atPc]
      rfl
    rw [nextCursor]
    exact (follows.ahead kept thief present).steal moved.committed forward

/-- A thief moves, or only its cursor, with the blocks as they are. -/
theorem Follows.thiefQuiet (follows : Follows keeps older labels state) {thief : ι}
    {cursor : Nat} {pc : ThiefPc α} {label : Label ι α} (noPut : accepted label = none)
    (noGive : handedOut label = none)
    (before : ∀ blk, takerAt (state.thief thief).place blk = .away)
    (after : ∀ blk, takerAt pc.place blk = .away) (held : pc.held = (state.thief thief).held)
    (here : ∀ blk ∈ pc.block, blk = cursor)
    (behind : keeps = true → Behind state.inner (older ++ [state.ownerBlock]) cursor) :
    Follows keeps older (labels ++ [label]) (state.setThief thief cursor pc) := by
  have same : (state.setThief thief cursor pc).held = state.held := by
    rw [State.held_setThief, held]
    exact Function.update_eq_self (some thief) _
  refine
    { account := ?_
      linked := follows.linked
      untouched := follows.untouched
      owner := follows.owner
      cursors := State.cursors_setThief follows.cursors here
      ahead := fun kept => (follows.ahead kept).setThief (behind kept) }
  rw [State.chain_setThief, same]
  exact (follows.account.relocate before after).silent noPut noGive

/-- The cursor goes on only from a block with nothing in it. -/
theorem Follows.loadNext (follows : Follows keeps older labels state) {thief : ι} {blk : Nat}
    (atPc : state.thief thief = .loadNext blk)
    (stand : keeps = true → Keeps state (.thief thief .loadNext)) :
    let next : Nat × ThiefPc α := afterNext (state.cursor thief) (state.inner.next blk)
    Follows keeps older (labels ++ [.thief thief .loadNext])
      (state.setThief thief next.1 next.2) := by
  intro next
  have away : ∀ other, takerAt (state.thief thief).place other = .away := by
    rw [atPc]
    exact fun _other => rfl
  have present : (state.thief thief).present = true := by
    rw [atPc]
    rfl
  have cursor : blk = state.cursor thief := by
    refine follows.cursors thief blk ?_
    rw [atPc]
    rfl
  unfold next
  cases link : state.inner.next blk with
  | none =>
      exact follows.thiefQuiet rfl rfl away (fun _other => rfl) (by rw [atPc]; rfl)
        (fun _blk member => nomatch member) fun kept => follows.ahead kept thief present
  | some successor =>
      refine follows.thiefQuiet rfl rfl away (fun other => ite_self _) (by rw [atPc]; rfl)
        (fun _blk member => (Option.some.inj member).symm) fun kept => ?_
      subst cursor
      exact follows.linked.behind_next (follows.ahead kept thief present) link
        (stand kept _ (by rw [atPc]; rfl) successor link)

theorem Follows.thiefStep (follows : Follows keeps older labels state) {thief : ι}
    {access : Access α} (stand : keeps = true → Keeps state (.thief thief access))
    {inner : Inner} {cursor : Nat} {pc : ThiefPc α}
    (taken : Unbounded.thiefStep state.inner (state.cursor thief) (state.thief thief) =
      some (access, inner, cursor, pc)) :
    Follows keeps older (labels ++ [.thief thief access])
      ({ state with inner := inner }.setThief thief cursor pc) := by
  cases atPc : state.thief thief with
  | scanning blk stealPc =>
      rw [atPc] at taken
      simp only [Unbounded.thiefStep, Option.some.injEq, Prod.mk.injEq] at taken
      obtain ⟨rfl, rfl, next⟩ := taken
      obtain ⟨rfl, rfl⟩ := Prod.ext_iff.mp next.symm
      exact follows.scanning atPc
  | loadNext blk =>
      rw [atPc] at taken
      simp only [Unbounded.thiefStep, Option.some.injEq, Prod.mk.injEq] at taken
      obtain ⟨rfl, rfl, next⟩ := taken
      obtain ⟨rfl, rfl⟩ := Prod.ext_iff.mp next.symm
      exact follows.loadNext atPc stand
  | absent => rw [atPc] at taken; cases taken
  | idle => rw [atPc] at taken; cases taken
  | returned result => rw [atPc] at taken; cases taken

/-! ### Calls and returns -/

theorem Follows.ownerReturn (follows : Follows keeps older labels state)
    {result : OwnerResult α} (atPc : state.owner = .returned result) :
    Follows keeps older (labels ++ [.ownerReturn result]) { state with owner := .idle } := by
  have phase : (OwnerPc.idle : OwnerPc α).phase = state.owner.phase := by
    rw [atPc]
    rfl
  rcases result with accepts | _ | value
  · exact follows.quiet rfl rfl phase trivial (by rw [atPc]; rfl) rfl
  · exact follows.quiet rfl rfl phase trivial (by rw [atPc]; rfl) rfl
  · have holding : state.held none = some value := by
      change state.owner.held state.block = _
      rw [atPc]
      rfl
    have held :
        State.held { state with owner := .idle } = Function.update state.held none none := by
      unfold State.held
      rw [byParty_update_owner]
      rfl
    refine
      { account := ?_
        linked := follows.linked
        untouched := follows.untouched
        owner := trivial
        cursors := follows.cursors
        ahead := follows.ahead }
    rw [State.chain_owner phase, held]
    exact follows.account.handOut rfl rfl holding

theorem Follows.stealReturn (follows : Follows keeps older labels state) {thief : ι}
    {result : Steal α} (atPc : state.thief thief = .returned result) :
    Follows keeps older (labels ++ [.stealReturn thief result])
      (state.setThief thief (state.cursor thief) .idle) := by
  have away : ∀ blk, takerAt (state.thief thief).place blk = .away := by
    rw [atPc]
    exact fun _blk => rfl
  have idle : ∀ blk, takerAt (ThiefPc.idle : ThiefPc α).place blk = .away := fun _blk => rfl
  have here : ∀ blk ∈ (ThiefPc.idle : ThiefPc α).block, blk = state.cursor thief :=
    fun _blk member => nomatch member
  have behind : keeps = true →
      Behind state.inner (older ++ [state.ownerBlock]) (state.cursor thief) :=
    fun kept => follows.ahead kept thief (by rw [atPc]; rfl)
  cases result with
  | success value =>
      have holding : state.held (some thief) = some value := by
        change (state.thief thief).held = _
        rw [atPc]
        rfl
      refine
        { account := ?_
          linked := follows.linked
          untouched := follows.untouched
          owner := follows.owner
          cursors := State.cursors_setThief follows.cursors here
          ahead := fun kept => (follows.ahead kept).setThief (behind kept) }
      rw [State.chain_setThief, State.held_setThief]
      exact (follows.account.relocate away idle).handOut rfl rfl holding
  | empty => exact follows.thiefQuiet rfl rfl away idle (by rw [atPc]; rfl) here behind
  | retry => exact follows.thiefQuiet rfl rfl away idle (by rw [atPc]; rfl) here behind

omit [Fintype ι] in
/-- What one step of the queue can be. -/
inductive Moves (shape : Shape) (before : State ι α) : Label ι α → State ι α → Prop
  | putCall (value : α) (atPc : before.owner = .idle) :
      Moves shape before (.putCall value) { before with owner := .putLoadCommitted value }
  | popCall (atPc : before.owner = .idle) :
      Moves shape before .popCall { before with owner := .popping .loadCommitted }
  | owner (access : Access α) (inner : Inner) (ownerBlock : Nat) (pc : OwnerPc α)
      (stepped : ownerStep shape before.inner before.ownerBlock before.owner =
        some (access, inner, ownerBlock, pc)) :
      Moves shape before (.owner access)
        { before with
          inner := inner
          ownerBlock := ownerBlock
          owner := pc }
  | ownerReturn (result : OwnerResult α) (atPc : before.owner = .returned result) :
      Moves shape before (.ownerReturn result) { before with owner := .idle }
  | newStealer (thief : ι) (atPc : before.thief thief = .absent) :
      Moves shape before (.newStealer thief) (before.setThief thief before.inner.head .idle)
  | stealCall (thief : ι) (atPc : before.thief thief = .idle) :
      Moves shape before (.stealCall thief)
        (before.setThief thief (before.cursor thief)
          (.scanning (before.cursor thief) .loadStolen))
  | thief (thief : ι) (access : Access α) (inner : Inner) (cursor : Nat) (pc : ThiefPc α)
      (stepped : thiefStep before.inner (before.cursor thief) (before.thief thief) =
        some (access, inner, cursor, pc)) :
      Moves shape before (.thief thief access)
        ({ before with inner := inner }.setThief thief cursor pc)
  | stealReturn (thief : ι) (result : Steal α) (atPc : before.thief thief = .returned result) :
      Moves shape before (.stealReturn thief result)
        (before.setThief thief (before.cursor thief) .idle)

omit [Fintype ι] in
theorem next_moves {shape : Shape} {choice : Choice ι α} {label : Label ι α}
    {after : State ι α} (taken : next shape state choice = some (label, after)) :
    Moves shape state label after := by
  cases choice with
  | putCall value =>
      simp only [next] at taken
      split at taken <;> cases taken
      rename_i atPc
      exact .putCall value atPc
  | popCall =>
      simp only [next] at taken
      split at taken <;> cases taken
      rename_i atPc
      exact .popCall atPc
  | owner =>
      obtain ⟨moved, stepped, same⟩ := Option.map_eq_some_iff.mp taken
      cases same
      exact .owner _ _ _ _ stepped
  | ownerReturn =>
      simp only [next] at taken
      split at taken <;> cases taken
      rename_i result atPc
      exact .ownerReturn result atPc
  | newStealer thief =>
      simp only [next] at taken
      split at taken <;> cases taken
      rename_i atPc
      exact .newStealer thief atPc
  | stealCall thief =>
      simp only [next] at taken
      split at taken <;> cases taken
      rename_i atPc
      exact .stealCall thief atPc
  | thief thief =>
      obtain ⟨moved, stepped, same⟩ := Option.map_eq_some_iff.mp taken
      cases same
      exact .thief thief _ _ _ _ stepped
  | stealReturn thief =>
      simp only [next] at taken
      split at taken <;> cases taken
      rename_i result atPc
      exact .stealReturn thief result atPc

/-- Every step of the queue, at any party. -/
theorem Follows.next (follows : Follows keeps older labels state) {shape : Shape}
    {choice : Choice ι α} {label : Label ι α} {after : State ι α}
    (stand : keeps = true → Keeps state label)
    (taken : Unbounded.next shape state choice = some (label, after)) :
    ∃ older', Follows keeps older' (labels ++ [label]) after := by
  cases next_moves taken with
  | putCall value atPc | popCall atPc =>
      exact ⟨older, follows.quiet rfl rfl (by rw [atPc]; rfl) trivial (by rw [atPc]; rfl) rfl⟩
  | owner access inner ownerBlock pc stepped => exact follows.ownerStep stand stepped
  | ownerReturn result atPc => exact ⟨older, follows.ownerReturn atPc⟩
  | newStealer thief atPc =>
      exact ⟨older, follows.thiefQuiet rfl rfl (by rw [atPc]; exact fun _blk => rfl)
        (fun _blk => rfl) (by rw [atPc]; rfl) (fun _blk member => nomatch member)
        fun _kept => follows.linked.behind_head⟩
  | stealCall thief atPc =>
      exact ⟨older, follows.thiefQuiet rfl rfl (by rw [atPc]; exact fun _blk => rfl)
        (fun _blk => ite_self _) (by rw [atPc]; rfl)
        (fun _blk member => (Option.some.inj member).symm)
        fun kept => follows.ahead kept thief (by rw [atPc]; rfl)⟩
  | thief thief access inner cursor pc stepped => exact ⟨older, follows.thiefStep stand stepped⟩
  | stealReturn thief result atPc => exact ⟨older, follows.stealReturn atPc⟩

/-! ### Whole runs -/

omit [DecidableEq ι] in
theorem Follows.initial (keeps : Bool) : Follows keeps [] [] (withBlockSize ι α) := by
  have resting : ∀ blk, ((withBlockSize ι α).chain []).phaseAt blk = .resting :=
    fun blk => ite_self _
  have held : (withBlockSize ι α).held = fun _party => none := by
    funext party
    cases party <;> rfl
  have bits : ((withBlockSize ι α).chain []).bits = [] := by
    rw [Chain.bits_split]
    rfl
  refine
    { account := ⟨⟨List.nodup_singleton 0, fun blk => ?_, fun blk _outside => Nat.le_refl 0⟩,
        fun _kind blk => ?_, ?_⟩
      linked := ⟨.singleton 0, rfl, rfl, fun blk next link => (nomatch link), fun blk member => ?_⟩
      untouched := fun blk _beyond => rfl
      owner := trivial
      cursors := fun thief blk member => nomatch member
      ahead := fun _kept thief present => nomatch present }
  · unfold Chain.protocol
    rw [resting]
    exact ⟨trivial, fun thief => trivial⟩
  · rw [resting]
    exact Int.le_refl 0
  · rw [held, bits]
    exact .empty accepted handedOut true
  · rw [List.mem_singleton.mp member]
    exact Nat.lt_succ_self 0

theorem follows_of_keeps {shape : Shape} {labels : List (Label ι α)} {state : State ι α}
    (reached : ((system ι α shape).restrict Keeps).Reaches labels state) :
    ∃ older, Follows true older labels state := by
  obtain ⟨start, isInitial, run⟩ := reached
  induction run with
  | refl =>
      obtain rfl : start = withBlockSize ι α := isInitial
      exact ⟨[], Follows.initial true⟩
  | snoc _prior last ih =>
      obtain ⟨older, follows⟩ := ih
      obtain ⟨stand, choice, taken⟩ := last
      exact follows.next (fun _kept => stand) taken

theorem follows_of_reaches {shape : Shape} {labels : List (Label ι α)} {state : State ι α}
    (reached : (system ι α shape).Reaches labels state) :
    ∃ older, Follows false older labels state := by
  obtain ⟨start, isInitial, run⟩ := reached
  induction run with
  | refl =>
      obtain rfl : start = withBlockSize ι α := isInitial
      exact ⟨[], Follows.initial false⟩
  | snoc _prior last ih =>
      obtain ⟨older, follows⟩ := ih
      obtain ⟨choice, taken⟩ := last
      exact follows.next (fun kept => nomatch kept) taken

/-! ### With no call in progress -/

omit [Fintype ι] [DecidableEq ι] in
theorem State.Quiescent.free {state : State ι α} (quiet : state.Quiescent) :
    ∀ party, state.held party = none := by
  obtain ⟨idle, thieves⟩ := quiet
  intro party
  cases party with
  | none =>
      change state.owner.held state.block = none
      rw [idle]
      rfl
  | some thief =>
      change (state.thief thief).held = none
      rcases thieves thief with rests | gone
      · rw [rests]
        rfl
      · rw [gone]
        rfl

omit [InlineValue α] [Fintype ι] [DecidableEq ι] in
theorem State.bits_of_idle {state : State ι α} (idle : state.owner = .idle) :
    (state.chain older).bits = (older ++ [state.ownerBlock]).flatMap fun blk =>
      (state.inner.blocks blk).live .resting := by
  apply List.flatMap_congr
  intro blk _member
  congr 1
  unfold Chain.phaseAt State.chain
  rw [idle]
  exact ite_self _

end WsDeque.Bwos.Unbounded
