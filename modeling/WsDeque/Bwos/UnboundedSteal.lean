import WsDeque.Bwos.UnboundedRuns

/-
One `steal` with nobody else moving. As long as no handle is left behind it
takes the oldest value there is; a handle whose cursor went past the owner's
block finds nothing in what is put afterwards.
-/

namespace WsDeque.Bwos.Unbounded

open InlineValue

variable {ι α : Type*} [InlineValue α] [DecidableEq ι]

/-- The rest of a running `steal`, with nobody else moving. -/
def finishSteal (shape : Shape) (thief : ι) : Nat → State ι α → Option (Steal α)
  | 0, _ => none
  | fuel + 1, state =>
      match state.thief thief with
      | .returned result => some result
      | _ => (next shape state (.thief thief)).bind fun taken => finishSteal shape thief fuel taken.2

def callSteal (shape : Shape) (thief : ι) (fuel : Nat) (state : State ι α) : Option (Steal α) :=
  (next shape state (.stealCall thief)).bind fun taken => finishSteal shape thief fuel taken.2

theorem finishSteal_mono {shape : Shape} {thief : ι} {fuel more : Nat} (enough : fuel ≤ more)
    {state : State ι α} {result : Steal α}
    (finished : finishSteal shape thief fuel state = some result) :
    finishSteal shape thief more state = some result := by
  induction fuel generalizing more state with
  | zero => cases finished
  | succ fuel ih =>
      obtain ⟨more, rfl⟩ : ∃ less, more = less + 1 := ⟨more - 1, by omega⟩
      unfold finishSteal at finished ⊢
      split at finished
      · exact finished
      · simp only [Option.bind_eq_some_iff] at finished ⊢
        obtain ⟨taken, stepped, rest⟩ := finished
        exact ⟨taken, stepped, ih (by omega) rest⟩

theorem callSteal_mono {shape : Shape} {thief : ι} {fuel more : Nat} (enough : fuel ≤ more)
    {state : State ι α} {result : Steal α}
    (finished : callSteal shape thief fuel state = some result) :
    callSteal shape thief more state = some result := by
  simp only [callSteal, Option.bind_eq_some_iff] at finished ⊢
  obtain ⟨taken, called, rest⟩ := finished
  exact ⟨taken, called, finishSteal_mono enough rest⟩

/-! ### Inside one block -/

section

variable {shape : Shape} {thief : ι} {state : State ι α} {fuel blk cursor : Nat}

theorem finishSteal_scanning (pc : StealPc) :
    finishSteal shape thief (fuel + 1) (state.setThief thief cursor (.scanning blk pc)) =
      finishSteal shape thief fuel
        (({ state with
            inner := state.inner.setBlock blk
              (stealBlock (α := α) (state.inner.blocks blk) pc).2.1 } : State ι α).setThief thief
          (afterSteal cursor blk (stealBlock (α := α) (state.inner.blocks blk) pc).2.2 :
            Nat × ThiefPc α).1
          (afterSteal cursor blk (stealBlock (α := α) (state.inner.blocks blk) pc).2.2).2) := by
  simp only [finishSteal, State.setThief, Function.update_self, next, thiefStep, Option.map_some,
    Option.bind_some, Function.update_idem]

omit [InlineValue α] [DecidableEq ι] in
theorem Inner.setBlock_self (inner : Inner) (blk : Nat) :
    inner.setBlock blk (inner.blocks blk) = inner := by
  unfold Inner.setBlock
  rw [Function.update_eq_self]

/-- The two loads at the head of the loop. -/
theorem finishSteal_loads :
    finishSteal shape thief (fuel + 2) (state.setThief thief cursor (.scanning blk .loadStolen)) =
      finishSteal shape thief fuel (state.setThief thief cursor
        (if (state.inner.blocks blk).committed ≤ (state.inner.blocks blk).stolen then .loadNext blk
          else .scanning blk (.loadSlot (state.inner.blocks blk).stolen))) := by
  rw [finishSteal_scanning]
  simp only [stealBlock, afterSteal, Inner.setBlock_self]
  rw [finishSteal_scanning]
  simp only [stealBlock, Inner.setBlock_self, ge_iff_le]
  split <;> rfl

theorem finishSteal_stocked
    (stocked : (state.inner.blocks blk).stolen < (state.inner.blocks blk).committed) :
    finishSteal shape thief 5 (state.setThief thief cursor (.scanning blk .loadStolen)) =
      some (.success (fromBits
        ((state.inner.blocks blk).slots (state.inner.blocks blk).stolen))) := by
  rw [finishSteal_loads, if_neg (Nat.not_le_of_lt stocked), finishSteal_scanning]
  simp only [stealBlock, afterSteal, Inner.setBlock_self]
  rw [finishSteal_scanning]
  simp only [stealBlock, if_true, afterSteal, finishSteal, State.setThief, Function.update_self,
    Block.slotsRead]

theorem finishSteal_next
    (drained : (state.inner.blocks blk).committed ≤ (state.inner.blocks blk).stolen) :
    finishSteal shape thief (fuel + 3)
        (state.setThief thief cursor (.scanning blk .loadStolen)) =
      finishSteal shape thief fuel (state.setThief thief
        (afterNext cursor (state.inner.next blk) : Nat × ThiefPc α).1
        (afterNext cursor (state.inner.next blk)).2) := by
  rw [finishSteal_loads, if_pos drained]
  simp only [finishSteal, State.setThief, Function.update_self, next, thiefStep, Option.map_some,
    Option.bind_some, Function.update_idem]

end

/-! ### Along the blocks -/

/-- The outcome of a `steal` at the front of the given bits. -/
def stealFront : List (BitVec 64) → Steal α
  | [] => .empty
  | bits :: _ => .success (fromBits bits)

omit [InlineValue α] [DecidableEq ι] in
theorem live_nil_before {inner : Inner} {before : List Nat}
    (drained : ∀ blk ∈ before, (inner.blocks blk).committed ≤ (inner.blocks blk).stolen) :
    (before.flatMap fun blk => (inner.blocks blk).live .resting) = [] := by
  rw [List.flatMap_eq_nil_iff]
  exact fun blk member => Block.live_nil_of_drained (drained blk member)

/-- A cursor with nothing behind it finds the oldest value. -/
theorem finishSteal_front (shape : Shape) (thief : ι) {state : State ι α} {order : List Nat}
    {cursor : Nat} (linked : Linked state.inner order)
    (outside : ∀ blk, blk ∉ order →
      (state.inner.blocks blk).committed ≤ (state.inner.blocks blk).stolen)
    (behind : Behind state.inner order cursor) :
    ∃ fuel, finishSteal shape thief fuel
        (state.setThief thief cursor (.scanning cursor .loadStolen)) =
      some (stealFront (order.flatMap fun blk => (state.inner.blocks blk).live .resting)) := by
  generalize distance : state.inner.allocated - cursor = left
  induction left using Nat.strong_induction_on generalizing cursor with
  | _ left ih =>
      by_cases stocked : (state.inner.blocks cursor).stolen < (state.inner.blocks cursor).committed
      · refine ⟨5, ?_⟩
        have member : cursor ∈ order := by
          by_contra absent
          have drained := outside cursor absent
          omega
        obtain ⟨before, after, rfl⟩ := List.append_of_mem member
        have earlier : ∀ blk ∈ before,
            (state.inner.blocks blk).committed ≤ (state.inner.blocks blk).stolen := by
          intro blk blkMember
          by_contra notDrained
          have atOrBefore := (behind blk (List.mem_append_left _ blkMember) (by omega)).2
          have sorted := linked.sorted
          rw [List.pairwise_append] at sorted
          have past := sorted.2.2 blk blkMember cursor List.mem_cons_self
          omega
        obtain ⟨rest, front⟩ := Block.live_cons stocked
        rw [finishSteal_stocked stocked, List.flatMap_append, live_nil_before earlier,
          List.nil_append, List.flatMap_cons, front]
        rfl
      · have drained := Nat.le_of_not_lt stocked
        cases link : state.inner.next cursor with
        | none =>
            refine ⟨4, ?_⟩
            have nothing : ∀ blk ∈ order,
                (state.inner.blocks blk).committed ≤ (state.inner.blocks blk).stolen := by
              intro blk member
              by_contra notDrained
              obtain ⟨cursorMember, atOrBefore⟩ := behind blk member (by omega)
              have before : cursor < blk := by
                refine Nat.lt_of_le_of_ne atOrBefore ?_
                rintro rfl
                exact notDrained drained
              obtain ⟨successor, found, _rest⟩ := linked.successor cursorMember member before
              rw [link] at found
              cases found
            rw [finishSteal_next drained, link, live_nil_before nothing]
            simp only [afterNext, finishSteal, State.setThief, Function.update_self, stealFront]
        | some next =>
            obtain ⟨later, below⟩ := linked.forward cursor next link
            obtain ⟨fuel, finished⟩ := ih (state.inner.allocated - next) (by omega)
              (linked.behind_next behind link drained) rfl
            refine ⟨fuel + 3, ?_⟩
            rw [finishSteal_next drained, link]
            exact finished

/-! ### Stealing after a run -/

/-- Every handle steals the oldest value put and not yet returned. -/
def StealsOldest (shape : Shape) (labels : List (Label ι α)) (state : State ι α) : Prop :=
  ∃ source, Matching accepted handedOut labels source ∧
    ∀ thief, (state.thief thief).present = true →
      ∃ enough, ∀ fuel, enough ≤ fuel → callSteal shape thief fuel state =
        some (match outstanding accepted handedOut labels source with
          | [] => .empty
          | oldest :: _ => .success oldest.2)

omit [InlineValue α] [DecidableEq ι] in
theorem State.Quiescent.idle_of_present {state : State ι α} (quiet : state.Quiescent) {thief : ι}
    (present : (state.thief thief).present = true) : state.thief thief = .idle := by
  rcases quiet.2 thief with rests | gone
  · exact rests
  · rw [gone] at present
    cases present

/-- Every handle of a quiescent queue steals the oldest value, as long as none
was left behind. -/
theorem steals_of_keeps [Fintype ι] {shape : Shape} {labels : List (Label ι α)}
    {state : State ι α} (reached : ((system ι α shape).restrict Keeps).Reaches labels state)
    (quiet : state.Quiescent) : StealsOldest shape labels state := by
  obtain ⟨older, follows⟩ := follows_of_keeps reached
  obtain ⟨source, matched, items⟩ := follows.account.tracked.outstanding quiet.free
  refine ⟨source, matched, fun thief present => ?_⟩
  have idle := quiet.idle_of_present present
  obtain ⟨enough, finished⟩ := finishSteal_front shape thief follows.linked
    follows.account.sound.drained (follows.ahead rfl thief present)
  refine ⟨enough, fun fuel more => ?_⟩
  have called : callSteal shape thief fuel state =
      finishSteal shape thief fuel (state.setThief thief (state.cursor thief)
        (.scanning (state.cursor thief) .loadStolen)) := by
    simp only [callSteal, next, idle, Option.bind_some]
  rw [called, finishSteal_mono more finished, ← State.bits_of_idle quiet.1]
  congr 1
  cases front : (state.chain older).bits with
  | nil =>
      rw [front, List.map_nil, eq_comm, List.map_eq_nil_iff] at items
      rw [items]
      rfl
  | cons oldest rest =>
      rw [front, List.map_cons] at items
      obtain ⟨entry, later, outstands, same, _rest⟩ := List.map_eq_cons_iff.mp items.symm
      rw [outstands]
      exact congrArg Steal.success same.symm

/-- Two blocks of one slot are filled and emptied by the thief, the owner steps
back, and a third value goes into a block that the thief cannot reach. -/
def leftBehind : List (Choice (Fin 1) (BitVec 64)) :=
  let only : Fin 1 := ⟨0, Nat.one_pos⟩
  [.putCall 1, .owner, .owner, .owner, .ownerReturn,
    .putCall 2, .owner, .owner, .owner, .owner, .ownerReturn,
    .newStealer only,
    .stealCall only, .thief only, .thief only, .thief only, .thief only, .stealReturn only,
    .stealCall only, .thief only, .thief only, .thief only, .thief only, .thief only, .thief only, .thief only,
    .stealReturn only,
    .popCall, .owner, .owner, .owner, .owner, .ownerReturn,
    .putCall 3, .owner, .owner, .owner, .owner, .ownerReturn]

theorem steals_of_keeps_throughBothBlocks :
    ∃ labels state,
      ((system (Fin 1) (BitVec 64) oneSlot).restrict Keeps).Reaches labels state ∧
      state.cursor 0 = 1 ∧ callSteal oneSlot 0 20 state = some .empty ∧
      StealsOldest oneSlot labels state := by
  have reached : ((system (Fin 1) (BitVec 64) oneSlot).restrict Keeps).Reaches _ _ :=
    ⟨_, rfl, TransitionSystem.execute_restrict_run (leftBehind.take 27) rfl⟩
  exact ⟨_, _, reached, rfl, rfl,
    steals_of_keeps reached ⟨rfl, Fin.forall_fin_one.mpr (Or.inl rfl)⟩⟩

/-- The third value of `leftBehind` is in the queue, and the handle returns `Empty`. -/
theorem not_steals_after_leftBehind :
    ¬ ∀ (labels : List (Label (Fin 1) (BitVec 64))) (state : State (Fin 1) (BitVec 64)),
      (system (Fin 1) (BitVec 64) oneSlot).Reaches labels state → state.Quiescent →
        StealsOldest oneSlot labels state := by
  intro claim
  obtain ⟨labels, state, run, puts, gives, quiet, present, nothing⟩ :=
    TransitionSystem.execute_finds (next oneSlot) (withBlockSize (Fin 1) (BitVec 64)) leftBehind
      (fun labels state => (occurrences accepted labels).length = 3 ∧
        (occurrences handedOut labels).length = 2 ∧ state.Quiescent ∧
        (state.thief 0).present = true ∧ callSteal oneSlot 0 20 state = some .empty)
      (by decide +kernel)
  obtain ⟨source, _matched, steals⟩ := claim labels state ⟨_, rfl, run⟩ quiet
  obtain ⟨enough, finds⟩ := steals 0 present
  have found := callSteal_mono (le_max_right enough 20) nothing
  rw [finds _ (le_max_left enough 20), Option.some.injEq] at found
  have remains := length_le_outstanding accepted handedOut labels source
  cases out : outstanding accepted handedOut labels source with
  | nil =>
      rw [out, puts, gives] at remains
      exact absurd remains (by decide)
  | cons oldest rest =>
      rw [out] at found
      cases found

end WsDeque.Bwos.Unbounded
