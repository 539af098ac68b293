import WsDeque.Linked.Runs

/-
What the walks of a handle cost over its whole life: it goes over each node once,
however many steals it makes.
-/

namespace WsDeque.Linked

variable {ι α : Type*}

/-! ### One access -/

/-- The accesses that a steal still makes besides those to `next`. -/
def ThiefPc.due : ThiefPc α → Nat
  | .loadHead => 4
  | .loadTail _ => 3
  | .loadNext _ | .loadCell _ => 2
  | .maxHead _ _ => 1
  | .absent | .idle | .returned _ _ | .panicked => 0

section

variable {inner after : Inner α} {tailNode : Nat} {tasks : List α} {cursor cursor' : Cursor}
  {access : Access α} {pc pc' : ThiefPc α}

theorem walkFrom_due (head base : Nat) : (walkFrom head base : ThiefPc α).due ≤ 2 := by
  unfold walkFrom
  split
  · exact Nat.le_refl 2
  · split
    · exact Nat.zero_le 2
    · exact Nat.le_refl 2

theorem walkFrom_ne_absent (head base : Nat) : (walkFrom head base : ThiefPc α) ≠ .absent := by
  intro absent
  unfold walkFrom at absent
  split at absent
  · cases absent
  · split at absent <;> cases absent

theorem thiefStep_ne_absent
    (moved : thiefStep inner cursor pc = some (access, after, cursor', pc')) :
    pc' ≠ .absent := by
  cases pc with
  | absent | idle | returned head result | panicked => cases moved
  | loadHead | maxHead head task =>
      cases moved
      intro absent
      cases absent
  | loadTail head =>
      cases moved
      split
      · intro absent
        cases absent
      · exact walkFrom_ne_absent head cursor.base
  | loadNext head =>
      simp only [thiefStep] at moved
      split at moved <;> cases moved
      · intro absent
        cases absent
      · exact walkFrom_ne_absent head _
  | loadCell head =>
      cases moved
      intro absent
      split at absent <;> cases absent

/-- An access was due, or moves the cursor to the next node. -/
theorem Nodes.thief_due (nodes : Nodes inner tailNode tasks)
    (cursorMeets : cursor.Meets inner tailNode) (meets : pc.Meets inner cursor)
    (moved : thiefStep inner cursor pc = some (access, after, cursor', pc')) :
    1 + pc'.due + cursor.node ≤ pc.due + cursor'.node := by
  cases pc with
  | absent | idle | returned head result | panicked => cases moved
  | loadHead =>
      cases moved
      exact Nat.le_refl _
  | loadTail head =>
      have walks := walkFrom_due (α := α) head cursor.base
      cases moved
      apply Nat.add_le_add_right
      change _ ≤ 3
      split
      · exact Nat.le_add_left 1 2
      · omega
  | loadNext head =>
      obtain ⟨_upTo, next⟩ := nodes.next_of_meets cursorMeets meets
      have walks := walkFrom_due (α := α) head (cursor.base + nodeSize)
      simp only [thiefStep, next] at moved
      cases moved
      change 1 + (walkFrom head (cursor.base + nodeSize)).due + cursor.node ≤
        2 + (cursor.node + 1)
      omega
  | loadCell head =>
      cases moved
      apply Nat.add_le_add_right
      change _ ≤ 2
      split
      · exact Nat.le_add_left 1 1
      · exact Nat.le_refl 2
  | maxHead head task =>
      cases moved
      exact Nat.le_refl _

/-- A thief inside a steal can always make its next access. -/
theorem exists_thiefStep (meets : pc.Meets inner cursor) :
    pc = .absent ∨ pc = .idle ∨ (∃ head result, pc = .returned head result) ∨
      ∃ access after cursor' pc',
        thiefStep inner cursor pc = some (access, after, cursor', pc') := by
  cases pc with
  | absent => exact .inl rfl
  | idle => exact .inr (.inl rfl)
  | returned head result => exact .inr (.inr (.inl ⟨head, result, rfl⟩))
  | panicked => exact meets.elim
  | loadNext head =>
      refine .inr (.inr (.inr ?_))
      simp only [thiefStep]
      split <;> exact ⟨_, _, _, _, rfl⟩
  | _ => exact .inr (.inr (.inr ⟨_, _, _, _, rfl⟩))

end

/-! ### Whole runs -/

variable [DecidableEq ι]

def Label.accesses (thief : ι) : Label ι α → Bool
  | .thief other _ => decide (other = thief)
  | _ => false

def Label.calls (thief : ι) : Label ι α → Bool
  | .stealCall other => decide (other = thief)
  | _ => false

/-- A handle has paid for its accesses by its calls and by the nodes behind its cursor. -/
structure State.Walked (thief : ι) (labels : List (Label ι α)) (state : State ι α) : Prop where
  paid : labels.countP (Label.accesses thief) + (state.thief thief).due ≤
    4 * labels.countP (Label.calls thief) + (state.cursor thief).node
  fresh : state.thief thief = .absent → (state.cursor thief).node = 0

variable {tasks : List α} {thief : ι} {labels : List (Label ι α)} {label : Label ι α}
  {state after : State ι α}

omit [DecidableEq ι] in
theorem countP_label (counted : Label ι α → Bool) (label : Label ι α) :
    [label].countP counted = (counted label).toNat := by
  rw [List.countP_singleton]
  cases counted label <;> rfl

theorem setThief_aside {other : ι} (different : other ≠ thief) (inner : Inner α)
    (cursor : Cursor) (pc : ThiefPc α) :
    ({ state with inner := inner }.setThief other cursor pc).thief thief = state.thief thief ∧
      ({ state with inner := inner }.setThief other cursor pc).cursor thief =
        state.cursor thief :=
  ⟨Function.update_of_ne different.symm _ _, Function.update_of_ne different.symm _ _⟩

/-- A step of somebody else. -/
theorem State.Walked.aside (walked : state.Walked thief labels)
    (accesses : label.accesses thief = false) (calls : label.calls thief = false)
    (pc : after.thief thief = state.thief thief)
    (cursor : after.cursor thief = state.cursor thief) :
    after.Walked thief (labels ++ [label]) := by
  constructor
  · rw [List.countP_append, List.countP_append, countP_label, countP_label, accesses, calls, pc,
      cursor]
    exact walked.paid
  · rw [pc, cursor]
    exact walked.fresh

/-- A step of the handle itself. -/
theorem State.Walked.own (walked : state.Walked thief labels) (inner : Inner α) {cursor : Cursor}
    {pc : ThiefPc α} (present : pc ≠ .absent)
    (spent : (label.accesses thief).toNat + pc.due + (state.cursor thief).node ≤
      4 * (label.calls thief).toNat + (state.thief thief).due + cursor.node) :
    ({ state with inner := inner }.setThief thief cursor pc).Walked thief (labels ++ [label]) := by
  have paid := walked.paid
  constructor
  · rw [List.countP_append, List.countP_append, countP_label, countP_label]
    simp only [State.setThief, Function.update_self]
    omega
  · simp only [State.setThief, Function.update_self]
    exact fun absent => absurd absent present

theorem State.Walked.step (walked : state.Walked thief labels) (stored : Stored tasks state)
    (moves : NextMoves state label after) : after.Walked thief (labels ++ [label]) := by
  cases moves with
  | putCall task atPc | takeCall atPc | owner access inner tailNode tail pc stepped
  | ownerReturn result atPc => exact walked.aside rfl rfl rfl rfl
  | newStealer other atPc =>
      by_cases same : other = thief
      · subst same
        refine walked.own state.inner (by simp) ?_
        rw [walked.fresh atPc]
        exact Nat.zero_le _
      · obtain ⟨pc, cursor⟩ := setThief_aside same state.inner _ _
        exact walked.aside rfl rfl pc cursor
  | stealCall other atPc =>
      by_cases same : other = thief
      · subst same
        refine walked.own state.inner (by simp) ?_
        simp [Label.accesses, Label.calls, atPc, ThiefPc.due]
      · obtain ⟨pc, cursor⟩ := setThief_aside same state.inner _ _
        exact walked.aside rfl (decide_eq_false same) pc cursor
  | thief other access inner cursor pc stepped =>
      by_cases same : other = thief
      · subst same
        refine walked.own inner (thiefStep_ne_absent stepped) ?_
        have due :=
        stored.stocked.nodes.thief_due (stored.cursor other) (stored.thief other) stepped
        simp only [Label.accesses, Label.calls, decide_true, Bool.toNat_true, Bool.toNat_false]
        omega
      · obtain ⟨pc, cursor⟩ := setThief_aside same inner _ _
        exact walked.aside (decide_eq_false same) rfl pc cursor
  | stealReturn other head result atPc =>
      by_cases same : other = thief
      · subst same
        refine walked.own state.inner (by simp) ?_
        simp [Label.accesses, Label.calls, atPc, ThiefPc.due]
      · obtain ⟨pc, cursor⟩ := setThief_aside same state.inner _ _
        exact walked.aside rfl rfl pc cursor

theorem walked_of_reaches (reached : (system ι α).Reaches labels state) (thief : ι) :
    state.Walked thief labels := by
  apply reached.induction
  · rintro start rfl
    exact ⟨Nat.le_refl _, fun _absent => rfl⟩
  · rintro labels before label after earlier walked ⟨choice, taken⟩
    exact walked.step (follows_of_reaches earlier).stored (next_moves taken)

omit [DecidableEq ι] in
/-- The nodes before the owner's are full. -/
theorem Stored.full (stored : Stored tasks state) :
    state.tailNode * nodeSize ≤ tasks.length := by
  have meets := stored.stocked.owner
  cases atPc : state.owner with
  | putStoreTail offset =>
      rw [atPc] at meets
      obtain ⟨atTail, _last, _within, ends⟩ := meets
      have below := Nat.le_add_right (state.tailNode * nodeSize) (offset + 1)
      exact below.trans_eq (ends.symm.trans atTail.symm)
  | putStoreNext fresh =>
      rw [atPc] at meets
      obtain ⟨atTail, _stored, _fresh, _last, ends, _new⟩ := meets
      have below := Nat.mul_le_mul_right nodeSize (Nat.le_succ state.tailNode)
      exact below.trans_eq (ends.symm.trans atTail.symm)
  | slotLoadNext head node | slotLoadCell head node =>
      rw [atPc] at meets
      exact meets.1.above.trans_eq meets.1.atTail.symm
  | panicked | nullNode =>
      rw [atPc] at meets
      exact meets.elim
  | _ =>
      rw [atPc] at meets
      exact meets.above.trans_eq meets.atTail.symm

/-- Over its whole life a handle makes at most four accesses for each of its steals, and
one more for every 64 tasks put; and inside a steal it can always make the next one. -/
theorem steals_amortized (reached : (system ι α).Reaches labels state) (thief : ι) :
    labels.countP (Label.accesses thief) ≤
        4 * labels.countP (Label.calls thief) + (puts labels).length / nodeSize ∧
      (state.thief thief = .absent ∨ state.thief thief = .idle ∨
        (∃ head result, state.thief thief = .returned head result) ∨
          ∃ access after, (system ι α).step state (.thief thief access) after) := by
  have stored := (follows_of_reaches reached).stored
  constructor
  · have paid := (walked_of_reaches reached thief).paid
    have behind : (state.cursor thief).node ≤ (puts labels).length / nodeSize := by
      rw [Nat.le_div_iff_mul_le (by decide)]
      exact (Nat.mul_le_mul_right _ (stored.cursor thief).upTo).trans stored.full
    calc labels.countP (Label.accesses thief)
      _ ≤ labels.countP (Label.accesses thief) + (state.thief thief).due := Nat.le_add_right _ _
      _ ≤ 4 * labels.countP (Label.calls thief) + (state.cursor thief).node := paid
      _ ≤ _ := Nat.add_le_add_left behind _
  · rcases exists_thiefStep (stored.thief thief) with
      absent | idle | returned | ⟨access, inner, cursor, pc, stepped⟩
    · exact .inl absent
    · exact .inr (.inl idle)
    · exact .inr (.inr (.inl returned))
    · have taken : next state (.thief thief) =
          some (.thief thief access, { state with inner := inner }.setThief thief cursor pc) := by
        simp only [next, stepped, Option.map_some]
      exact .inr (.inr (.inr ⟨access, _, .thief thief, taken⟩))

theorem steals_amortized_secondNode :
    ∃ labels state, (system Bool Nat).Reaches labels state ∧
      labels.countP (Label.calls true) = 1 ∧ (puts labels).length = 65 ∧
      labels.countP (Label.accesses true) = 5 ∧
      labels.countP (Label.accesses true) ≤
        4 * labels.countP (Label.calls true) + (puts labels).length / nodeSize := by
  obtain ⟨labels, state, run, calls, stocked, accesses⟩ :=
    TransitionSystem.execute_finds next (new Bool Nat) walkToSecondNode
      (fun labels _state => labels.countP (Label.calls true) = 1 ∧ (puts labels).length = 65 ∧
        labels.countP (Label.accesses true) = 5)
      (by decide +kernel)
  exact ⟨labels, state, ⟨_, rfl, run⟩, calls, stocked, accesses,
    (steals_amortized ⟨_, rfl, run⟩ true).1⟩

end WsDeque.Linked
