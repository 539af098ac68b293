import WsDeque.Bwos.BoundedHistory

/-
Steps of the thieves, calls and returns, and from them what holds along every
run of the bounded queue.
-/

namespace WsDeque.Bwos.Bounded

open InlineValue

variable {ι α : Type*} [InlineValue α] [Fintype ι] [DecidableEq ι]
  {lossless : Bool} {labels : List (Label ι α)} {state : State ι α}

/-! ### Steps of a thief -/

omit [InlineValue α] [Fintype ι] in
theorem State.places_setThief (thieves : ι → ThiefPc α) (thief : ι) (pc : ThiefPc α) :
    (fun other => (Function.update thieves thief pc other).place) =
      Function.update (fun other => (thieves other).place) thief pc.place :=
  Function.comp_update ThiefPc.place thieves thief pc

omit [InlineValue α] [Fintype ι] in
theorem State.helds_setThief (thieves : ι → ThiefPc α) (thief : ι) (pc : ThiefPc α) :
    (fun other => (Function.update thieves thief pc other).held) =
      Function.update (fun other => (thieves other).held) thief pc.held :=
  Function.comp_update ThiefPc.held thieves thief pc

omit [InlineValue α] [Fintype ι] in
theorem State.chain_setThief (thief : ι) (pc : ThiefPc α) :
    (state.setThief thief pc).chain =
      { state.chain with thief := Function.update state.chain.thief thief pc.place } := by
  unfold State.chain
  dsimp only
  rw [← State.places_setThief]
  rfl

omit [Fintype ι] in
theorem State.held_setThief (thief : ι) (pc : ThiefPc α) :
    (state.setThief thief pc).held = Function.update state.held (some thief) pc.held := by
  unfold State.held
  rw [byParty_update_thief, ← State.helds_setThief]
  rfl

omit [Fintype ι] in
theorem OwnerPc.Meets.steal {owner : OwnerPc α} {block after : Block}
    (meets : owner.Meets lossless block) (slots : after.slots = block.slots)
    (committed : after.committed = block.committed)
    (stolen : after.stolen = block.stolen ∨
      (after.stolen = block.stolen + 1 ∧ (block.stolen : Int) < block.back owner.phase)) :
    owner.Meets lossless after := by
  have forward : block.stolen ≤ after.stolen := by
    rcases stolen with same | ⟨raised, _⟩ <;> omega
  cases owner with
  | putStoreProduced value =>
      obtain ⟨drained, empty⟩ := meets
      exact ⟨by omega, fun kind => committed.trans (empty kind)⟩
  | putting pc =>
      obtain ⟨met, current⟩ := meets
      exact ⟨met.steal slots committed forward, fun kind => (current kind).trans committed.symm⟩
  | popping pc => exact PopPc.Meets.steal meets slots committed stolen
  | _ => trivial

omit [Fintype ι] [DecidableEq ι] in
theorem OwnerPc.held_congr {block after : Block} (slots : after.slots = block.slots)
    (owner : OwnerPc α) : owner.held after = owner.held block := by
  cases owner with
  | popping pc => simp only [OwnerPc.held, PopPc.holds_congr slots]
  | returned result => cases result <;> rfl
  | _ => rfl

omit [InlineValue α] [Fintype ι] [DecidableEq ι] in
/-- A thief that enters a block has not looked at anything in it. -/
theorem scan_takerAt (produced blk other : Nat) :
    takerAt (scan produced blk : ThiefPc α).place other = .away := by
  unfold scan
  split
  · simp only [ThiefPc.place, takerAt]
    split <;> rfl
  · rfl

omit [InlineValue α] [Fintype ι] [DecidableEq ι] in
theorem scan_held (produced blk : Nat) : (scan produced blk : ThiefPc α).held = none := by
  unfold scan
  split <;> rfl

omit [Fintype ι] [DecidableEq ι] in
theorem afterSteal_held (produced blk : Nat) (outcome : StealOutcome) :
    (afterSteal produced blk outcome : ThiefPc α).held = outcome.holds.map fromBits := by
  cases outcome with
  | drained => exact scan_held produced (blk + 1)
  | _ => rfl

omit [Fintype ι] [DecidableEq ι] in
theorem afterSteal_takerAt (produced blk : Nat) (outcome : StealOutcome) (other : Nat) :
    takerAt (afterSteal produced blk outcome : ThiefPc α).place other =
      if other = blk then outcome.taker else .away := by
  cases outcome with
  | running pc =>
      simp only [afterSteal, ThiefPc.place, takerAt, StealOutcome.taker, eq_comm]
  | drained =>
      rw [afterSteal, scan_takerAt]
      exact (ite_self _).symm
  | taken bits => exact (ite_self _).symm
  | lost => exact (ite_self _).symm

/-- A step of `steal` inside a block. -/
theorem Follows.scanning (follows : Follows lossless labels state) {thief : ι}
    {produced blk : Nat} {pc : StealPc} (atPc : state.thief thief = .scanning produced blk pc) :
    let taken := stealBlock (α := α) (state.inner.blocks blk) pc
    Follows lossless (labels ++ [.thief thief taken.1])
      ({ state with inner := state.inner.setBlock blk taken.2.1 }.setThief thief
        (afterSteal produced blk taken.2.2)) := by
  intro taken
  have here : state.chain.thief thief = some (blk, pc) := by
    change (state.thief thief).place = _
    rw [atPc]
    rfl
  have free : state.held (some thief) = none := by
    change (state.thief thief).held = _
    rw [atPc]
    rfl
  obtain ⟨moved, account⟩ := follows.account.steal
    (afterSteal produced blk taken.2.2 : ThiefPc α).place here free
    (by rw [afterSteal_takerAt, if_pos rfl]; rfl)
    (fun other different => by rw [afterSteal_takerAt, if_neg different])
  obtain ⟨slots, committed, stolen⟩ := Chain.thiefMove_current
    (afterSteal produced blk taken.2.2 : ThiefPc α).place moved
  refine ⟨?_, follows.owner.steal slots committed stolen⟩
  have chain : State.chain ({ state with inner := state.inner.setBlock blk taken.2.1 }.setThief
      thief (afterSteal produced blk taken.2.2)) =
      state.chain.thiefMove thief blk taken.2.1
        (afterSteal produced blk taken.2.2 : ThiefPc α).place := by
    unfold State.chain Chain.thiefMove
    dsimp only
    rw [← State.places_setThief]
    rfl
  have held : State.held ({ state with inner := state.inner.setBlock blk taken.2.1 }.setThief
      thief (afterSteal produced blk taken.2.2)) =
      Function.update state.held (some thief) (taken.2.2.holds.map fromBits) := by
    rw [State.held_setThief, afterSteal_held]
    congr 1
    unfold State.held
    congr 1
    exact OwnerPc.held_congr slots state.owner
  rw [chain, held]
  exact account

theorem Follows.thiefQuiet (follows : Follows lossless labels state) {thief : ι}
    {pc : ThiefPc α} {label : Label ι α} (noPut : accepted label = none)
    (noGive : handedOut label = none)
    (before : ∀ blk, takerAt (state.thief thief).place blk = .away)
    (after : ∀ blk, takerAt pc.place blk = .away) (held : pc.held = (state.thief thief).held) :
    Follows lossless (labels ++ [label]) (state.setThief thief pc) := by
  refine ⟨?_, follows.owner⟩
  have same : (state.setThief thief pc).held = state.held := by
    rw [State.held_setThief, held]
    exact Function.update_eq_self (some thief) _
  rw [State.chain_setThief, same]
  exact (follows.account.relocate before after).silent noPut noGive

theorem Follows.thiefStep (follows : Follows lossless labels state) {thief : ι}
    {access : Access α} {inner : Inner} {pc : ThiefPc α}
    (taken : Bounded.thiefStep state.inner (state.thief thief) = some (access, inner, pc)) :
    Follows lossless (labels ++ [.thief thief access])
      ({ state with inner := inner }.setThief thief pc) := by
  cases atPc : state.thief thief with
  | loadProduced =>
      rw [atPc] at taken
      simp only [Bounded.thiefStep, Option.some.injEq, Prod.mk.injEq] at taken
      obtain ⟨rfl, rfl, rfl⟩ := taken
      exact follows.thiefQuiet rfl rfl (by rw [atPc]; exact fun _blk => rfl)
        (scan_takerAt _ _) (by rw [atPc, scan_held]; rfl)
  | scanning produced blk stealPc =>
      rw [atPc] at taken
      simp only [Bounded.thiefStep, Option.some.injEq, Prod.mk.injEq] at taken
      obtain ⟨rfl, rfl, rfl⟩ := taken
      exact follows.scanning atPc
  | absent => rw [atPc] at taken; cases taken
  | idle => rw [atPc] at taken; cases taken
  | returned result => rw [atPc] at taken; cases taken

/-! ### Calls and returns -/

omit [DecidableEq ι] in
/-- The owner enters a call. -/
theorem Follows.ownerCall (follows : Follows lossless labels state) {label : Label ι α}
    {owner : OwnerPc α} (idle : state.owner = .idle) (noPut : accepted label = none)
    (noGive : handedOut label = none) (phase : owner.phase = .resting)
    (meets : owner.Meets lossless state.block) (held : owner.held state.block = none) :
    Follows lossless (labels ++ [label]) { state with owner := owner } := by
  refine follows.quiet noPut noGive (State.chain_owner ?_) meets (State.held_owner ?_ held)
  · rw [phase, idle]
    rfl
  · rw [idle]
    rfl

theorem Follows.ownerReturn (follows : Follows lossless labels state) {result : OwnerResult α}
    (atPc : state.owner = .returned result) :
    Follows lossless (labels ++ [.ownerReturn result]) { state with owner := .idle } := by
  have chain : State.chain { state with owner := .idle } = state.chain :=
    State.chain_owner (by rw [atPc]; rfl)
  have quiet : (OwnerPc.returned result).held state.block = none →
      handedOut (.ownerReturn result : Label ι α) = none →
      Follows lossless (labels ++ [.ownerReturn result]) { state with owner := .idle } :=
    fun nothing silent => follows.quiet rfl silent chain trivial
      (State.held_owner (by rw [atPc]; exact nothing) rfl)
  rcases result with accepts | _ | value
  · exact quiet rfl rfl
  · exact quiet rfl rfl
  · have holding : state.held none = some value := by
      change state.owner.held state.block = _
      rw [atPc]
      rfl
    have held :
        State.held { state with owner := .idle } = Function.update state.held none none := by
      unfold State.held
      rw [byParty_update_owner]
      rfl
    refine ⟨?_, trivial⟩
    rw [chain, held]
    exact follows.account.handOut rfl rfl holding

theorem Follows.stealReturn (follows : Follows lossless labels state) {thief : ι}
    {result : Steal α} (atPc : state.thief thief = .returned result) :
    Follows lossless (labels ++ [.stealReturn thief result]) (state.setThief thief .idle) := by
  have away : ∀ blk, takerAt (state.thief thief).place blk = .away := by
    rw [atPc]
    exact fun _blk => rfl
  have idle : ∀ blk, takerAt (ThiefPc.idle : ThiefPc α).place blk = .away := fun _blk => rfl
  cases result with
  | success value =>
      have holding : state.held (some thief) = some value := by
        change (state.thief thief).held = _
        rw [atPc]
        rfl
      refine ⟨?_, follows.owner⟩
      rw [State.chain_setThief, State.held_setThief]
      exact (follows.account.relocate away idle).handOut rfl rfl holding
  | empty => exact follows.thiefQuiet rfl rfl away idle (by rw [atPc]; rfl)
  | retry => exact follows.thiefQuiet rfl rfl away idle (by rw [atPc]; rfl)

omit [Fintype ι] in
/-- What one step of the queue can be. -/
inductive Moves (shape : Shape) (before : State ι α) : Label ι α → State ι α → Prop
  | putCall (value : α) (atPc : before.owner = .idle) :
      Moves shape before (.putCall value) { before with owner := .putLoadCommitted value }
  | popCall (atPc : before.owner = .idle) :
      Moves shape before .popCall { before with owner := .popping .loadCommitted }
  | owner (access : Access α) (inner : Inner) (ownerBlock : Nat) (pc : OwnerPc α)
      (stepped : ownerStep shape before.inner before.ownerBlock before.owner =
        some (access, inner, ownerBlock, pc)) :
      Moves shape before (.owner access)
        { before with
          inner := inner
          ownerBlock := ownerBlock
          owner := pc }
  | ownerReturn (result : OwnerResult α) (atPc : before.owner = .returned result) :
      Moves shape before (.ownerReturn result) { before with owner := .idle }
  | newStealer (thief : ι) (atPc : before.thief thief = .absent) :
      Moves shape before (.newStealer thief) (before.setThief thief .idle)
  | stealCall (thief : ι) (atPc : before.thief thief = .idle) :
      Moves shape before (.stealCall thief) (before.setThief thief .loadProduced)
  | thief (thief : ι) (access : Access α) (inner : Inner) (pc : ThiefPc α)
      (stepped : thiefStep before.inner (before.thief thief) = some (access, inner, pc)) :
      Moves shape before (.thief thief access) ({ before with inner := inner }.setThief thief pc)
  | stealReturn (thief : ι) (result : Steal α) (atPc : before.thief thief = .returned result) :
      Moves shape before (.stealReturn thief result) (before.setThief thief .idle)

omit [Fintype ι] in
theorem next_moves {shape : Shape} {choice : Choice ι α} {label : Label ι α}
    {after : State ι α} (taken : next shape state choice = some (label, after)) :
    Moves shape state label after := by
  cases choice with
  | putCall value =>
      simp only [next] at taken
      split at taken <;> cases taken
      rename_i atPc
      exact .putCall value atPc
  | popCall =>
      simp only [next] at taken
      split at taken <;> cases taken
      rename_i atPc
      exact .popCall atPc
  | owner =>
      obtain ⟨moved, stepped, same⟩ := Option.map_eq_some_iff.mp taken
      cases same
      exact .owner _ _ _ _ stepped
  | ownerReturn =>
      simp only [next] at taken
      split at taken <;> cases taken
      rename_i result atPc
      exact .ownerReturn result atPc
  | newStealer thief =>
      simp only [next] at taken
      split at taken <;> cases taken
      rename_i atPc
      exact .newStealer thief atPc
  | stealCall thief =>
      simp only [next] at taken
      split at taken <;> cases taken
      rename_i atPc
      exact .stealCall thief atPc
  | thief thief =>
      obtain ⟨moved, stepped, same⟩ := Option.map_eq_some_iff.mp taken
      cases same
      exact .thief thief _ _ _ stepped
  | stealReturn thief =>
      simp only [next] at taken
      split at taken <;> cases taken
      rename_i result atPc
      exact .stealReturn thief result atPc

/-- Every step of the queue, at any party. -/
theorem Follows.next (follows : Follows lossless labels state) {shape : Shape}
    {choice : Choice ι α} {label : Label ι α} {after : State ι α}
    (fresh : lossless = true → Fresh shape state label)
    (taken : Bounded.next shape state choice = some (label, after)) :
    Follows lossless (labels ++ [label]) after := by
  cases next_moves taken with
  | putCall value atPc | popCall atPc => exact follows.ownerCall atPc rfl rfl rfl trivial rfl
  | owner access inner ownerBlock pc stepped => exact follows.ownerStep fresh stepped
  | ownerReturn result atPc => exact follows.ownerReturn atPc
  | newStealer thief atPc | stealCall thief atPc =>
      exact follows.thiefQuiet rfl rfl (by rw [atPc]; exact fun _blk => rfl)
        (fun _blk => rfl) (by rw [atPc]; rfl)
  | thief thief access inner pc stepped => exact follows.thiefStep stepped
  | stealReturn thief result atPc => exact follows.stealReturn atPc

/-! ### Whole runs -/

omit [DecidableEq ι] in
theorem Follows.initial (lossless : Bool) : Follows lossless [] (withBlocks ι α) := by
  have resting : ∀ blk, (withBlocks ι α).chain.phaseAt blk = .resting := fun blk => ite_self _
  have held : (withBlocks ι α).held = fun _party => none := by
    funext party
    cases party <;> rfl
  have bits : (withBlocks ι α).chain.bits = [] := by
    rw [Chain.bits_split]
    rfl
  refine ⟨⟨⟨List.nodup_singleton 0, fun blk => ?_, fun blk _outside => Nat.le_refl 0⟩,
    fun _kind blk => ?_, ?_⟩, trivial⟩
  · unfold Chain.protocol
    rw [resting]
    exact ⟨trivial, fun thief => trivial⟩
  · rw [resting]
    exact Int.le_refl 0
  · rw [held, bits]
    exact .empty accepted handedOut lossless

theorem follows_of_reaches {shape : Shape} {labels : List (Label ι α)} {state : State ι α}
    (reached : (system ι α shape).Reaches labels state) : Follows false labels state := by
  refine TransitionSystem.Reaches.induction ?_ ?_ reached
  · rintro start rfl
    exact Follows.initial false
  · intro labels before label after _reached follows stepped
    obtain ⟨choice, taken⟩ := stepped
    exact follows.next (fun lossless => nomatch lossless) taken

theorem follows_of_fresh {shape : Shape} {labels : List (Label ι α)} {state : State ι α}
    (reached : ((system ι α shape).restrict (Fresh shape)).Reaches labels state) :
    Follows true labels state := by
  refine TransitionSystem.Reaches.induction ?_ ?_ reached
  · rintro start rfl
    exact Follows.initial true
  · intro labels before label after _reached follows stepped
    obtain ⟨fresh, choice, taken⟩ := stepped
    exact follows.next (fun _lossless => fresh) taken

/-- Every pop and every steal returns a value that was put before, and no two of
them the same one, also when blocks are entered again. -/
theorem bounded_exactly_once {shape : Shape} {labels : List (Label ι α)} {state : State ι α}
    (reached : (system ι α shape).Reaches labels state) :
    ∃ source, Matching accepted handedOut labels source :=
  (follows_of_reaches reached).account.tracked.matching

/-- Two blocks of one slot: the owner fills both, empties both and enters the
second one again. -/
def twoSlots : Shape :=
  { numBlocks := 2
    blockSize := 1
    twoBlocks := by decide
    nonempty := by decide }

def enterAgain : List (Choice (Fin 1) (BitVec 64)) :=
  [.putCall 1, .owner, .owner, .owner, .ownerReturn,
    .putCall 2, .owner, .owner, .owner, .owner, .ownerReturn,
    .popCall, .owner, .owner, .owner, .owner, .owner, .owner, .owner, .ownerReturn,
    .popCall, .owner, .owner, .owner, .owner, .owner, .owner, .owner, .owner, .owner, .ownerReturn,
    .putCall 3, .owner, .owner, .owner, .owner, .ownerReturn]

theorem bounded_exactly_once_enterAgain :
    ∃ labels state, (system (Fin 1) (BitVec 64) twoSlots).Reaches labels state ∧
      (occurrences handedOut labels).map Prod.snd = [2, 1] ∧
      ∃ source, Matching accepted handedOut labels source := by
  have reached : (system (Fin 1) (BitVec 64) twoSlots).Reaches _ _ :=
    ⟨_, rfl, TransitionSystem.execute_run enterAgain rfl⟩
  exact ⟨_, _, reached, rfl, bounded_exactly_once reached⟩

end WsDeque.Bwos.Bounded
