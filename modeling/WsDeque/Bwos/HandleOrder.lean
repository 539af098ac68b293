import Mathlib.Data.List.Flatten
import WsDeque.Bwos.StackRefinement

/-
The order in which one thief of the unbounded queue gets its values: a cursor
only moves forward, so what it takes are values in the order they were put.
-/

namespace WsDeque.Bwos

open InlineValue

variable {ι α : Type*}

/-! ### What lies ahead of a cursor -/

namespace Chain

/-- What can still be taken from a block on, oldest first. -/
def ahead (chain : Chain ι) (cursor : Nat) : List (BitVec 64) :=
  (chain.order.filter (cursor ≤ ·)).flatMap fun blk => (chain.blocks blk).live (chain.phaseAt blk)

variable {chain after : Chain ι} {cursor : Nat}

theorem ahead_mono {further : Nat} (forward : cursor ≤ further) :
    (chain.ahead further).Sublist (chain.ahead cursor) := by
  refine List.Sublist.flatMap (List.monotone_filter_right _ ?_) _
  intro blk beyond
  simp only [decide_eq_true_eq] at beyond ⊢
  omega

/-- Blocks that hold less hold no more ahead of a cursor. -/
theorem ahead_shrinks (order : after.order.Sublist chain.order)
    (live : ∀ blk ∈ after.order, ((after.blocks blk).live (after.phaseAt blk)).Sublist
      ((chain.blocks blk).live (chain.phaseAt blk))) (cursor : Nat) :
    (after.ahead cursor).Sublist (chain.ahead cursor) := by
  refine .trans (List.Sublist.flatMap_right _ fun blk member => ?_) ((order.filter _).flatMap _)
  exact live blk (List.mem_filter.mp member).1

theorem ownerMove_live {block : Block} {phase : IndexProtocol.Owner} (blk : Nat) :
    ((chain.ownerMove block phase).blocks blk).live ((chain.ownerMove block phase).phaseAt blk) =
      if blk = chain.current then block.live phase
      else (chain.blocks blk).live (chain.phaseAt blk) := by
  by_cases here : blk = chain.current
  · subst here
    simp only [ownerMove, phaseAt, Function.update_self, if_true]
  · simp only [ownerMove, phaseAt, Function.update_of_ne here, here, if_false]

theorem ownerMove_ahead {block : Block} {phase : IndexProtocol.Owner}
    (less : (block.live phase).Sublist ((chain.blocks chain.current).live chain.phase))
    (cursor : Nat) : ((chain.ownerMove block phase).ahead cursor).Sublist (chain.ahead cursor) := by
  apply ahead_shrinks
  · exact List.Sublist.refl chain.order
  · intro blk _member
    rw [ownerMove_live]
    split
    · rename_i here
      subst here
      rw [phaseAt_current]
      exact less
    · exact .refl _

/-- What the owner appends comes last. -/
theorem Invariant.appends (invariant : chain.Invariant) {block : Block}
    {phase : IndexProtocol.Owner} {added : List (BitVec 64)}
    (live : block.live phase = (chain.blocks chain.current).live chain.phase ++ added)
    (cursor : Nat) :
    ((chain.ownerMove block phase).ahead cursor).Sublist (chain.ahead cursor ++ added) := by
  have older : ∀ blk ∈ chain.older.filter (cursor ≤ ·),
      ((chain.ownerMove block phase).blocks blk).live ((chain.ownerMove block phase).phaseAt blk) =
        (chain.blocks blk).live (chain.phaseAt blk) := by
    intro blk member
    rw [ownerMove_live, if_neg]
    rintro rfl
    exact invariant.current_not_older (List.mem_filter.mp member).1
  have here : ((chain.ownerMove block phase).blocks chain.current).live
      ((chain.ownerMove block phase).phaseAt chain.current) =
        (chain.blocks chain.current).live (chain.phaseAt chain.current) ++ added := by
    rw [ownerMove_live, if_pos rfl, live, phaseAt_current]
  unfold ahead
  rw [show (chain.ownerMove block phase).order = chain.order from rfl, order, List.filter_append,
    List.flatMap_append, List.flatMap_append, List.flatMap_congr older]
  by_cases beyond : cursor ≤ chain.current
  · have kept : [chain.current].filter (cursor ≤ ·) = [chain.current] := by simp [beyond]
    rw [kept, List.flatMap_singleton, List.flatMap_singleton, here, List.append_assoc]
  · have gone : [chain.current].filter (cursor ≤ ·) = [] := by simp [beyond]
    rw [gone, List.flatMap_nil, List.flatMap_nil, List.append_nil]
    exact List.sublist_append_left ..

theorem moveTo_ahead (phase : chain.phase = .resting) {older : List Nat} {current : Nat}
    (order : (older ++ [current]).Sublist chain.order) (cursor : Nat) :
    ((chain.moveTo older current).ahead cursor).Sublist (chain.ahead cursor) := by
  apply ahead_shrinks
  · exact order
  · intro blk _member
    rw [moveTo_phaseAt phase]
    exact .refl _

/-- The owner enters an empty block. -/
theorem Invariant.enter_ahead (invariant : chain.Invariant) {next : Nat}
    (outside : next ∉ chain.order) (phase : chain.phase = .resting) (cursor : Nat) :
    (chain.moveTo chain.order next).ahead cursor = chain.ahead cursor := by
  have empty : (chain.blocks next).live (chain.phaseAt next) = [] := by
    have resting : chain.phaseAt next = .resting := by
      rw [phaseAt, phase, ite_self]
    rw [resting]
    exact Block.live_nil_of_drained (invariant.drained next outside)
  unfold ahead
  simp only [moveTo_phaseAt phase]
  rw [show (chain.moveTo chain.order next).order = chain.order ++ [next] from rfl,
    List.filter_append, List.flatMap_append]
  have nothing : ([next].filter (cursor ≤ ·)).flatMap
      (fun blk => (chain.blocks blk).live (chain.phaseAt blk)) = [] := by
    by_cases beyond : cursor ≤ next
    · have kept : [next].filter (cursor ≤ ·) = [next] := by simp [beyond]
      rw [kept, List.flatMap_singleton, empty]
    · have gone : [next].filter (cursor ≤ ·) = [] := by simp [beyond]
      rw [gone, List.flatMap_nil]
  exact (congrArg (_ ++ ·) nothing).trans (List.append_nil _)

variable [DecidableEq ι] {thief : ι} {blk : Nat} {block : Block} {outcome : StealOutcome}

/-- A step of a thief in a block takes at most its front. -/
theorem Invariant.steal_live (invariant : chain.Invariant)
    (moved : StealMove (chain.blocks blk) (chain.phaseAt blk)
      (fun other => takerAt (chain.thief other) blk) thief block outcome) :
    block.live (chain.phaseAt blk) = (chain.blocks blk).live (chain.phaseAt blk) ∧
        outcome.effect = .silent ∨
      ∃ bits, outcome = .taken bits ∧
        (chain.blocks blk).live (chain.phaseAt blk) = bits :: block.live (chain.phaseAt blk) := by
  have applied := moved.step.applies (invariant.protocol blk)
  simp only [Block.protocol_live] at applied
  cases outcome with
  | taken bits => exact .inr ⟨bits, rfl, applied⟩
  | _ => exact .inl ⟨applied, rfl⟩

theorem Invariant.steal_ahead (invariant : chain.Invariant)
    (moved : StealMove (chain.blocks blk) (chain.phaseAt blk)
      (fun other => takerAt (chain.thief other) blk) thief block outcome)
    (place : Option (Nat × StealPc)) (cursor : Nat) :
    ((chain.thiefMove thief blk block place).ahead cursor).Sublist (chain.ahead cursor) := by
  apply ahead_shrinks
  · exact List.Sublist.refl chain.order
  · intro other _member
    change ((Function.update chain.blocks blk block other).live (chain.phaseAt other)).Sublist _
    by_cases same : other = blk
    · subst same
      rw [Function.update_self]
      rcases invariant.steal_live moved with ⟨kept, _silent⟩ | ⟨bits, _won, front⟩
      · exact kept ▸ List.Sublist.refl _
      · exact front ▸ List.sublist_cons_self ..
    · rw [Function.update_of_ne same]

/-- What a thief takes at its cursor was the first of all that was ahead of it. -/
theorem Invariant.take_ahead (invariant : chain.Invariant)
    (sorted : chain.order.Pairwise (· < ·)) {bits : BitVec 64}
    (moved : StealMove (chain.blocks blk) (chain.phaseAt blk)
      (fun other => takerAt (chain.thief other) blk) thief block (.taken bits))
    (place : Option (Nat × StealPc)) :
    chain.ahead blk = bits :: (chain.thiefMove thief blk block place).ahead blk := by
  have front : (chain.blocks blk).live (chain.phaseAt blk) =
      bits :: block.live (chain.phaseAt blk) := by
    rcases invariant.steal_live moved with ⟨_kept, silent⟩ | ⟨_bits, won, front⟩
    · cases silent
    · cases won
      exact front
  have member : blk ∈ chain.order := by
    by_contra outside
    have resting : chain.phaseAt blk = .resting := by
      apply phaseAt_of_ne
      rintro rfl
      exact outside (List.mem_append_right _ (List.mem_singleton_self _))
    rw [resting, Block.live_nil_of_drained (invariant.drained blk outside)] at front
    cases front
  obtain ⟨left, right, split⟩ := List.append_of_mem member
  rw [split, List.pairwise_append, List.pairwise_cons] at sorted
  have kept : chain.order.filter (blk ≤ ·) = blk :: right := by
    have before : left.filter (blk ≤ ·) = [] := by
      rw [List.filter_eq_nil_iff]
      intro other inside
      have earlier := sorted.2.2 other inside blk List.mem_cons_self
      simp only [decide_eq_true_eq]
      omega
    have later : right.filter (blk ≤ ·) = right := by
      rw [List.filter_eq_self]
      intro other inside
      have beyond := sorted.2.1.1 other inside
      simp only [decide_eq_true_eq]
      omega
    rw [split, List.filter_append, before, List.filter_cons_of_pos (by simp), later,
      List.nil_append]
  have unchanged : ∀ other ∈ right,
      (Function.update chain.blocks blk block other).live (chain.phaseAt other) =
        (chain.blocks other).live (chain.phaseAt other) := by
    intro other inside
    have beyond := sorted.2.1.1 other inside
    rw [Function.update_of_ne (Nat.ne_of_gt beyond)]
  have after : (chain.thiefMove thief blk block place).ahead blk =
      (blk :: right).flatMap fun other =>
        (Function.update chain.blocks blk block other).live (chain.phaseAt other) := by
    rw [← kept]
    rfl
  rw [after, List.flatMap_cons, Function.update_self, List.flatMap_congr unchanged, ahead, kept,
    List.flatMap_cons, front, List.cons_append]

end Chain

/-- A step of `pop` inside a block leaves no more in it. -/
theorem PopMove.live_sublist [DecidableEq ι] {block after : Block} {pc : PopPc}
    {outcome : PopOutcome} {taker : ι → IndexProtocol.Taker (BitVec 64)}
    (moved : PopMove block pc taker after outcome)
    (invariant : IndexProtocol.Invariant (block.protocol pc.phase taker)) :
    (after.live outcome.phase).Sublist (block.live pc.phase) := by
  obtain ⟨effect, step, gains⟩ := moved.step
  have applied := step.applies invariant
  simp only [Block.protocol_live] at applied
  cases effect with
  | silent => exact (show after.live outcome.phase = _ from applied) ▸ List.Sublist.refl _
  | popped bits =>
      rw [show block.live pc.phase = after.live outcome.phase ++ [bits] from applied]
      exact List.sublist_append_left ..
  | taken bits =>
      rw [show block.live pc.phase = bits :: after.live outcome.phase from applied]
      exact List.sublist_cons_self ..
  | appended bits => exact gains.elim

/-! ### What a handle has taken -/

/-- The values that this thief's calls have returned, in order. -/
def stolenBy [DecidableEq ι] (thief : ι) (labels : List (Label ι α)) : List α :=
  labels.filterMap fun label =>
    match label with
    | .stealReturn other (.success value) => if other = thief then some value else none
    | _ => none

/-- The values put, in order. -/
def putValues (labels : List (Label ι α)) : List α :=
  labels.filterMap accepted

theorem putValues_append (first second : List (Label ι α)) :
    putValues (first ++ second) = putValues first ++ putValues second :=
  List.filterMap_append

theorem stolenBy_append [DecidableEq ι] (thief : ι) (first second : List (Label ι α)) :
    stolenBy thief (first ++ second) = stolenBy thief first ++ stolenBy thief second :=
  List.filterMap_append

namespace Unbounded

variable [InlineValue α] [Fintype ι] [DecidableEq ι] {keeps : Bool} {older : List Nat}
  {labels : List (Label ι α)} {state after : State ι α} {label : Label ι α}

/-- What a thief has, and could still get from its cursor on. -/
def State.share (state : State ι α) (older : List Nat) (thief : ι) : List α :=
  (state.thief thief).held.toList ++
    ((state.chain older).ahead (state.cursor thief)).map fromBits

/-- What a thief has taken and what lies ahead of it are values in the order they were
put. -/
structure InOrder (older : List Nat) (labels : List (Label ι α)) (state : State ι α) : Prop where
  puts : ∀ thief, (stolenBy thief labels ++ state.share older thief).Sublist (putValues labels)
  absent : ∀ thief, (state.thief thief).present = false → state.cursor thief = 0

omit [Fintype ι] in
/-- A step that gives a thief nothing but may take something from it. -/
theorem InOrder.of_share {older' : List Nat} (inOrder : InOrder older labels state)
    (share : ∀ thief, (stolenBy thief [label] ++ after.share older' thief).Sublist
      (state.share older thief ++ putValues [label]))
    (absent : ∀ thief, (after.thief thief).present = false → after.cursor thief = 0) :
    InOrder older' (labels ++ [label]) after := by
  refine ⟨fun thief => ?_, absent⟩
  rw [stolenBy_append, putValues_append, List.append_assoc]
  refine .trans ((List.Sublist.refl _).append (share thief)) ?_
  rw [← List.append_assoc]
  exact (inOrder.puts thief).append (.refl _)

omit [Fintype ι] in
/-- A step of the owner. -/
theorem InOrder.owner {older' : List Nat} (inOrder : InOrder older labels state)
    (thief : after.thief = state.thief) (cursor : after.cursor = state.cursor)
    (silent : ∀ thief, stolenBy thief [label] = [])
    (ahead : ∀ cursor, (((after.chain older').ahead cursor).map fromBits).Sublist
      (((state.chain older).ahead cursor).map fromBits ++ putValues [label])) :
    InOrder older' (labels ++ [label]) after := by
  refine inOrder.of_share (fun other => ?_) fun other gone => ?_
  · rw [silent, List.nil_append, State.share, State.share, thief, cursor, List.append_assoc]
    exact (List.Sublist.refl _).append (ahead _)
  · rw [thief] at gone
    rw [cursor]
    exact inOrder.absent other gone

omit [Fintype ι] in
/-- Nothing new is put. -/
theorem InOrder.ownerShrinks {older' : List Nat} (inOrder : InOrder older labels state)
    (thief : after.thief = state.thief) (cursor : after.cursor = state.cursor)
    (silent : ∀ thief, stolenBy thief [label] = [])
    (ahead : ∀ cursor, ((after.chain older').ahead cursor).Sublist
      ((state.chain older).ahead cursor)) :
    InOrder older' (labels ++ [label]) after :=
  inOrder.owner thief cursor silent fun cursor =>
    ((ahead cursor).map fromBits).trans (List.sublist_append_left ..)

theorem Follows.inOrder_putLoadCommitted (follows : Follows keeps older labels state)
    (inOrder : InOrder older labels state) {shape : Shape} {value : α}
    (atPc : state.owner = .putLoadCommitted value) {access : Access α} {inner : Inner}
    {ownerBlock : Nat} {owner : OwnerPc α}
    (taken : Unbounded.ownerStep shape state.inner state.ownerBlock (.putLoadCommitted value) =
      some (access, inner, ownerBlock, owner)) :
    Linked inner (older ++ [ownerBlock]) ∧ InOrder older (labels ++ [.owner access])
      { state with inner := inner, ownerBlock := ownerBlock, owner := owner } := by
  have phase : state.owner.phase = .resting := by rw [atPc]; rfl
  simp only [Unbounded.ownerStep] at taken
  split at taken
  · simp only [Option.some.injEq, Prod.mk.injEq] at taken
    obtain ⟨rfl, rfl, rfl, rfl⟩ := taken
    refine ⟨follows.linked.alloc _, inOrder.ownerShrinks rfl rfl (fun _thief => rfl) ?_⟩
    have blocks : (state.inner.alloc (some state.ownerBlock)).blocks = state.inner.blocks := by
      change Function.update _ _ _ = _
      rw [← follows.untouched state.inner.allocated (Nat.le_refl _), Function.update_eq_self]
    have chain : State.chain
        { state with
          inner := state.inner.alloc (some state.ownerBlock)
          owner := .putStoreNext value state.inner.allocated } older = state.chain older := by
      unfold State.chain
      rw [phase]
      dsimp only
      rw [blocks]
      rfl
    rw [chain]
    exact fun cursor => .refl _
  · simp only [Option.some.injEq, Prod.mk.injEq] at taken
    obtain ⟨rfl, rfl, rfl, rfl⟩ := taken
    have chain : State.chain
        { state with
          owner := .putting (.storeSlot value (state.inner.blocks state.ownerBlock).committed) }
          older = state.chain older := State.chain_owner phase.symm
    refine ⟨follows.linked, inOrder.ownerShrinks rfl rfl (fun _thief => rfl) ?_⟩
    rw [chain]
    exact fun cursor => .refl _

theorem Follows.inOrder_putStoreNext (follows : Follows keeps older labels state)
    (inOrder : InOrder older labels state) {value : α} {fresh : Nat}
    (atPc : state.owner = .putStoreNext value fresh) :
    Linked (state.inner.setNext state.ownerBlock fresh)
        (older ++ [state.ownerBlock] ++ [fresh]) ∧
      InOrder (older ++ [state.ownerBlock]) (labels ++ [.owner .storeNext])
        { state with
          inner := state.inner.setNext state.ownerBlock fresh
          ownerBlock := fresh
          owner := .putting (.storeSlot value 0) } := by
  have phase : state.owner.phase = .resting := by rw [atPc]; rfl
  have meets := follows.owner
  rw [atPc] at meets
  obtain ⟨later, below, back, _empty⟩ := meets
  have outside : fresh ∉ older ++ [state.ownerBlock] := fun member => by
    have behind := follows.linked.le_last member
    omega
  have chain : State.chain
      { state with
        inner := state.inner.setNext state.ownerBlock fresh
        ownerBlock := fresh
        owner := .putting (.storeSlot value 0) } (older ++ [state.ownerBlock]) =
      (state.chain older).moveTo (state.chain older).order fresh := by
    unfold State.chain Chain.moveTo
    rw [phase]
    rfl
  refine ⟨follows.linked.setNext back later below,
    inOrder.ownerShrinks rfl rfl (fun _thief => rfl) fun cursor => ?_⟩
  exact (chain.symm ▸ follows.account.sound.enter_ahead outside phase cursor) ▸ .refl _

theorem Follows.inOrder_putting (follows : Follows keeps older labels state)
    (inOrder : InOrder older labels state) {pc : PutPc α} (atPc : state.owner = .putting pc) :
    InOrder older (labels ++ [.owner (putBlock state.block pc).1])
      (state.ownerIn (putBlock state.block pc).2.1
        (match (putBlock state.block pc).2.2 with
          | some pc' => .putting pc'
          | none => .returned (.put true))) := by
  have phase : (state.chain older).phase = .resting := by
    change state.owner.phase = _
    rw [atPc]
    rfl
  have invariant := follows.account.sound.protocol (state.chain older).current
  rw [Chain.protocol, Chain.phaseAt_current, phase] at invariant
  have meets := follows.owner
  rw [atPc] at meets
  obtain ⟨meets, _current⟩ := meets
  cases pc with
  | storeSlot value bottom =>
      have step := (putBlock_storeSlot (fun thief =>
        takerAt ((state.chain older).thief thief) (state.chain older).current) meets).1
      have live : (state.block.slotsWrite bottom (toBits value)).live .resting =
          (state.block.live (state.chain older).phase) :=
        (step.applies invariant).trans (congrArg state.block.live phase.symm)
      refine inOrder.ownerShrinks rfl rfl (fun _thief => rfl) fun cursor => ?_
      have moved : (((state.chain older).ownerMove (state.block.slotsWrite bottom (toBits value))
          .resting).ahead cursor).Sublist ((state.chain older).ahead cursor) :=
        Chain.ownerMove_ahead (live ▸ List.Sublist.refl _) cursor
      exact moved
  | publish value bottom =>
      have live : Block.live { state.block with committed := bottom + 1 } .resting =
          state.block.live (state.chain older).phase ++
            (if state.block.stolen ≤ bottom then [toBits value] else []) := by
        rw [phase]
        exact (putBlock_publish invariant meets).2
      have added : ((if state.block.stolen ≤ bottom then [toBits value] else []).map
          (fromBits (α := α))).Sublist [value] := by
        split
        · rw [List.map_singleton, fromBits_toBits]
        · exact List.nil_sublist _
      refine inOrder.owner rfl rfl (fun _thief => rfl) fun cursor => ?_
      have appends := (follows.account.sound.appends live cursor).map (fromBits (α := α))
      rw [List.map_append] at appends
      exact appends.trans ((List.Sublist.refl _).append added)

/-- A step of `pop` inside a block, and the step back from a drained one. -/
theorem Follows.inOrder_popping (follows : Follows keeps older labels state)
    (inOrder : InOrder older labels state) {pc : PopPc} (atPc : state.owner = .popping pc) :
    let taken := popBlock (α := α) state.block pc
    let next : Nat × OwnerPc α := afterPop state.inner state.ownerBlock taken.2.2
    ∃ older', Linked (state.inner.setBlock state.ownerBlock taken.2.1) (older' ++ [next.1]) ∧
      InOrder older' (labels ++ [.owner taken.1])
        { state.ownerIn taken.2.1 next.2 with ownerBlock := next.1 } := by
  intro taken next
  unfold next
  have phase : (state.chain older).phase = pc.phase := by
    change state.owner.phase = _
    rw [atPc]
    rfl
  have met : pc.Meets state.block := by
    have owner := follows.owner
    rw [atPc] at owner
    exact owner
  have protocol := follows.account.sound.protocol (state.chain older).current
  rw [Chain.protocol, Chain.phaseAt_current, phase] at protocol
  have moved : PopMove _ pc _ taken.2.1 taken.2.2 := popBlock_move protocol met
  have shrinks : ∀ cursor, (((state.chain older).ownerMove taken.2.1 taken.2.2.phase).ahead
      cursor).Sublist ((state.chain older).ahead cursor) := fun cursor =>
    Chain.ownerMove_ahead (phase.symm ▸ moved.live_sublist protocol) cursor
  have linked := follows.linked.setBlock state.ownerBlock taken.2.1
  generalize taken.2.2 = outcome at shrinks ⊢
  cases outcome with
  | running pc' => exact ⟨older, linked, inOrder.ownerShrinks rfl rfl (fun _thief => rfl) shrinks⟩
  | taken bits => exact ⟨older, linked, inOrder.ownerShrinks rfl rfl (fun _thief => rfl) shrinks⟩
  | drained =>
      cases behind : state.inner.prev state.ownerBlock with
      | none =>
          simp only [afterPop, behind]
          exact ⟨older, linked, inOrder.ownerShrinks rfl rfl (fun _thief => rfl) shrinks⟩
      | some prev =>
          simp only [afterPop, behind]
          obtain ⟨rest, rfl, shorter⟩ := linked.stepBack behind
          refine ⟨rest, shorter, inOrder.ownerShrinks rfl rfl (fun _thief => rfl) fun cursor => ?_⟩
          have back : ((((state.chain (rest ++ [prev])).ownerMove taken.2.1 .resting).moveTo rest
              prev).ahead cursor).Sublist _ :=
            Chain.moveTo_ahead rfl (List.sublist_append_left ..) cursor
          exact back.trans (shrinks cursor)

theorem Follows.inOrder_ownerStep (follows : Follows keeps older labels state)
    (inOrder : InOrder older labels state) {shape : Shape} {access : Access α} {inner : Inner}
    {ownerBlock : Nat} {owner : OwnerPc α}
    (taken : Unbounded.ownerStep shape state.inner state.ownerBlock state.owner =
      some (access, inner, ownerBlock, owner)) :
    ∃ older', Linked inner (older' ++ [ownerBlock]) ∧ InOrder older' (labels ++ [.owner access])
      { state with inner := inner, ownerBlock := ownerBlock, owner := owner } := by
  cases atPc : state.owner with
  | putLoadCommitted value =>
      rw [atPc] at taken
      exact ⟨older, follows.inOrder_putLoadCommitted inOrder atPc taken⟩
  | putStoreNext value fresh =>
      rw [atPc] at taken
      simp only [Unbounded.ownerStep, Option.some.injEq, Prod.mk.injEq] at taken
      obtain ⟨rfl, rfl, rfl, rfl⟩ := taken
      exact ⟨_, follows.inOrder_putStoreNext inOrder atPc⟩
  | putting pc =>
      rw [atPc] at taken
      simp only [Unbounded.ownerStep, Option.some.injEq, Prod.mk.injEq] at taken
      obtain ⟨rfl, rfl, rfl, rfl⟩ := taken
      exact ⟨older, follows.linked.setBlock _ _, follows.inOrder_putting inOrder atPc⟩
  | popping pc =>
      rw [atPc] at taken
      simp only [Unbounded.ownerStep, Option.some.injEq, Prod.mk.injEq] at taken
      obtain ⟨rfl, rfl, rfl, rfl⟩ := taken
      exact follows.inOrder_popping inOrder atPc
  | idle => rw [atPc] at taken; cases taken
  | returned result => rw [atPc] at taken; cases taken

omit [Fintype ι] in
/-- A step of one thief: its share may pass into its hands, the others' only shrink. -/
theorem InOrder.thief (inOrder : InOrder older labels state) {thief : ι} {inner : Inner}
    {cursor : Nat} {pc : ThiefPc α} (present : pc.present = true)
    (others : ∀ other, other ≠ thief → stolenBy other [label] = [])
    (ahead : ∀ cursor,
      ((State.chain { state with inner := inner } older).ahead cursor).Sublist
        ((state.chain older).ahead cursor))
    (mine : (stolenBy thief [label] ++ (pc.held.toList ++
        ((State.chain { state with inner := inner } older).ahead cursor).map fromBits)).Sublist
      (state.share older thief)) :
    InOrder older (labels ++ [label])
      ({ state with inner := inner }.setThief thief cursor pc) := by
  have same : ∀ further, (({ state with inner := inner }.setThief thief cursor pc).chain
      older).ahead further = (State.chain { state with inner := inner } older).ahead further :=
    fun _further => rfl
  refine inOrder.of_share (fun other => ?_) fun other gone => ?_
  · refine .trans ?_ (List.sublist_append_left ..)
    unfold State.share
    rw [same]
    by_cases here : other = thief
    · subst here
      simp only [State.setThief, Function.update_self]
      exact mine
    · simp only [State.setThief, Function.update_of_ne here]
      rw [others other here, List.nil_append]
      exact (List.Sublist.refl _).append ((ahead _).map _)
  · by_cases here : other = thief
    · subst here
      simp only [State.setThief, Function.update_self, present] at gone
      cases gone
    · simp only [State.setThief, Function.update_of_ne here] at gone ⊢
      exact inOrder.absent other gone

omit [Fintype ι] in
/-- A step of one thief that gains nothing and does not go back. -/
theorem InOrder.thiefQuiet (inOrder : InOrder older labels state) {thief : ι}
    {cursor : Nat} {pc : ThiefPc α} (present : pc.present = true) (holds : pc.held = none)
    (forward : state.cursor thief ≤ cursor) (silent : ∀ thief, stolenBy thief [label] = []) :
    InOrder older (labels ++ [label]) (state.setThief thief cursor pc) := by
  have ahead : ∀ further,
      ((State.chain { state with inner := state.inner } older).ahead further).Sublist
        ((state.chain older).ahead further) := fun _further => .refl _
  refine inOrder.thief present (fun other _there => silent other) ahead ?_
  rw [silent, holds]
  exact .trans ((Chain.ahead_mono forward).map _) (List.sublist_append_right ..)

theorem Follows.inOrder_scanning (follows : Follows keeps older labels state)
    (inOrder : InOrder older labels state) {thief : ι} {blk : Nat} {pc : StealPc}
    (atPc : state.thief thief = .scanning blk pc) :
    let taken := stealBlock (α := α) (state.inner.blocks blk) pc
    let next : Nat × ThiefPc α := afterSteal (state.cursor thief) blk taken.2.2
    InOrder older (labels ++ [.thief thief taken.1])
      ({ state with inner := state.inner.setBlock blk taken.2.1 }.setThief thief next.1
        next.2) := by
  intro taken next
  have here : (state.chain older).thief thief = some (blk, pc) := by
    change (state.thief thief).place = _
    rw [atPc]
    rfl
  have taker : takerAt ((state.chain older).thief thief) blk = pc.taker := by
    rw [here]
    exact if_pos rfl
  have moved : StealMove ((state.chain older).blocks blk) ((state.chain older).phaseAt blk)
      (fun other => takerAt ((state.chain older).thief other) blk) thief taken.2.1 taken.2.2 :=
    stealBlock_move (follows.account.sound.protocol blk) taker
  have cursor : blk = state.cursor thief :=
    follows.cursors thief blk (congrArg ThiefPc.block atPc)
  have empty : (state.thief thief).held = none := congrArg ThiefPc.held atPc
  refine inOrder.thief ?_ (fun _other _there => rfl) ?_ ?_
  · unfold next
    cases taken.2.2 <;> rfl
  · exact follows.account.sound.steal_ahead moved none
  · unfold State.share
    rw [empty]
    change (next.2.held.toList ++ (((state.chain older).thiefMove thief blk taken.2.1 none).ahead
      next.1).map fromBits).Sublist (((state.chain older).ahead (state.cursor thief)).map fromBits)
    have shrinks := follows.account.sound.steal_ahead moved none (state.cursor thief)
    unfold next
    cases won : taken.2.2 with
    | taken bits =>
        have front := follows.account.sound.take_ahead follows.linked.sorted (won ▸ moved) none
        rw [← cursor, front]
        exact .refl _
    | _ => exact shrinks.map _

theorem Follows.inOrder_moves (follows : Follows keeps older labels state)
    (inOrder : InOrder older labels state) {shape : Shape}
    (moves : Moves shape state label after) :
    ∃ older', Linked after.inner (older' ++ [after.ownerBlock]) ∧
      InOrder older' (labels ++ [label]) after := by
  have ownerQuiet : ∀ {label : Label ι α} (owner : OwnerPc α),
      owner.phase = state.owner.phase → (∀ thief, stolenBy thief [label] = []) →
        InOrder older (labels ++ [label]) { state with owner := owner } := by
    intro label owner phase silent
    refine inOrder.ownerShrinks rfl rfl silent ?_
    rw [State.chain_owner phase]
    exact fun cursor => .refl _
  cases moves with
  | putCall value atPc =>
      exact ⟨older, follows.linked, ownerQuiet _ (by rw [atPc]; rfl) fun _thief => rfl⟩
  | popCall atPc =>
      exact ⟨older, follows.linked, ownerQuiet _ (by rw [atPc]; rfl) fun _thief => rfl⟩
  | owner access inner ownerBlock pc stepped => exact follows.inOrder_ownerStep inOrder stepped
  | ownerReturn result atPc =>
      exact ⟨older, follows.linked, ownerQuiet _ (by rw [atPc]; rfl) fun _thief => rfl⟩
  | newStealer thief atPc =>
      refine ⟨older, follows.linked, inOrder.thiefQuiet rfl rfl ?_ fun _thief => rfl⟩
      rw [inOrder.absent thief (congrArg ThiefPc.present atPc)]
      exact Nat.zero_le _
  | stealCall thief atPc =>
      exact ⟨older, follows.linked,
        inOrder.thiefQuiet rfl rfl (Nat.le_refl _) fun _thief => rfl⟩
  | thief thief access inner cursor pc stepped =>
      cases atPc : state.thief thief with
      | scanning blk stealPc =>
          rw [atPc] at stepped
          simp only [Unbounded.thiefStep, Option.some.injEq, Prod.mk.injEq] at stepped
          obtain ⟨rfl, rfl, next⟩ := stepped
          obtain ⟨rfl, rfl⟩ := Prod.ext_iff.mp next.symm
          exact ⟨older, follows.linked.setBlock _ _, follows.inOrder_scanning inOrder atPc⟩
      | loadNext blk =>
          rw [atPc] at stepped
          simp only [Unbounded.thiefStep, Option.some.injEq, Prod.mk.injEq] at stepped
          obtain ⟨rfl, rfl, next⟩ := stepped
          obtain ⟨rfl, rfl⟩ := Prod.ext_iff.mp next.symm
          refine ⟨older, follows.linked, ?_⟩
          have atCursor : blk = state.cursor thief :=
            follows.cursors thief blk (congrArg ThiefPc.block atPc)
          cases link : state.inner.next blk with
          | none => exact inOrder.thiefQuiet rfl rfl (Nat.le_refl _) fun _thief => rfl
          | some successor =>
              have later := (follows.linked.forward blk successor link).1
              exact inOrder.thiefQuiet rfl rfl (by simp only [afterNext]; omega) fun _thief => rfl
      | absent => rw [atPc] at stepped; cases stepped
      | idle => rw [atPc] at stepped; cases stepped
      | returned result => rw [atPc] at stepped; cases stepped
  | stealReturn thief result atPc =>
      refine ⟨older, follows.linked, inOrder.thief rfl (fun other there => ?_)
        (fun _cursor => .refl _) ?_⟩
      · cases result with
        | success value => simp [stolenBy, there.symm]
        | _ => rfl
      · unfold State.share
        rw [atPc]
        cases result with
        | success value =>
            have mine : stolenBy thief [Label.stealReturn thief (Steal.success value)] = [value] :=
              List.filterMap_cons_some (if_pos rfl)
            rw [mine]
            exact .refl _
        | _ => exact .refl _

theorem inOrder_of_reaches {shape : Shape} (reached : (system ι α shape).Reaches labels state) :
    ∃ older, Follows false older labels state ∧ InOrder older labels state := by
  obtain ⟨start, isInitial, run⟩ := reached
  induction run with
  | refl =>
      obtain rfl : start = withBlockSize ι α := isInitial
      exact ⟨[], Follows.initial false, fun _thief => .refl _, fun _thief _gone => rfl⟩
  | snoc _prior last ih =>
      obtain ⟨older, follows, inOrder⟩ := ih
      obtain ⟨choice, taken⟩ := last
      obtain ⟨later, stillFollows⟩ := follows.next (fun kept => nomatch kept) taken
      obtain ⟨later', linked, stillInOrder⟩ := follows.inOrder_moves inOrder (next_moves taken)
      -- The links decide which blocks are behind the owner's.
      obtain rfl : later' = later :=
        (State.older_of_linked linked).symm.trans (State.older_of_linked stillFollows.linked)
      exact ⟨later', stillFollows, stillInOrder⟩

/-- What one handle of the unbounded queue steals comes in the order it was put, whatever
the owner and the other handles do. -/
theorem steals_in_order {shape : Shape} {labels : List (Label ι α)} {state : State ι α}
    (reached : (system ι α shape).Reaches labels state) (thief : ι) :
    (stolenBy thief labels).Sublist (putValues labels) := by
  obtain ⟨older, _follows, inOrder⟩ := inOrder_of_reaches reached
  exact (List.sublist_append_left ..).trans (inOrder.puts thief)

/-- Between the two steals the owner pops the second value and puts a third. -/
def skipsPopped : List (Choice (Fin 1) (BitVec 64)) :=
  let only : Fin 1 := ⟨0, Nat.one_pos⟩
  [.putCall 1, .owner, .owner, .owner, .ownerReturn,
    .putCall 2, .owner, .owner, .owner, .owner, .ownerReturn,
    .newStealer only,
    .stealCall only, .thief only, .thief only, .thief only, .thief only, .stealReturn only,
    .popCall, .owner, .owner, .owner, .owner, .owner, .owner, .owner, .ownerReturn,
    .putCall 3, .owner, .owner, .owner, .owner, .ownerReturn,
    .stealCall only] ++ List.replicate 10 (.thief only) ++ [.stealReturn only]

theorem steals_in_order_skipsPopped :
    ∃ labels state, (system (Fin 1) (BitVec 64) oneSlot).Reaches labels state ∧
      stolenBy 0 labels = [1, 3] ∧ putValues labels = [1, 2, 3] ∧
      (stolenBy 0 labels).Sublist (putValues labels) := by
  obtain ⟨labels, state, run, stolen, put⟩ :=
    TransitionSystem.execute_finds (next oneSlot) (withBlockSize (Fin 1) (BitVec 64)) skipsPopped
      (fun labels _state => stolenBy 0 labels = [1, 3] ∧ putValues labels = [1, 2, 3])
      (by decide +kernel)
  exact ⟨labels, state, ⟨_, rfl, run⟩, stolen, put, steals_in_order ⟨_, rfl, run⟩ 0⟩

end Unbounded

end WsDeque.Bwos
