import WsDeque.Multiplicity.Coverage
import WsDeque.Multiplicity.Order

/-
Exclusive parties claim a position before they take it: none is handed out to
two of them, and a claimed position does not stop the index for good.
-/

namespace WsDeque.Multiplicity

variable {Party Item : Type*}

/-- The party has claimed the position and not yet handed it out. -/
def Keeps (kind : Party → Kind) (state : State Party Item) (party : Party) (index : Nat) : Prop :=
  kind party = .exclusive ∧ (state.phase party).held false = some index

def HandedOut (kind : Party → Kind) (state : State Party Item) (index : Nat) : Prop :=
  ∃ delivery ∈ state.delivered, kind delivery.party = .exclusive ∧ delivery.position = index

structure Claims (kind : Party → Kind) (state : State Party Item) : Prop where
  kept : ∀ party index, Keeps kind state party index → state.claimed index = true
  handed : ∀ index, HandedOut kind state index → state.claimed index = true
  alone : ∀ left right index, Keeps kind state left index → Keeps kind state right index →
    left = right
  apart : ∀ party index, Keeps kind state party index → ¬HandedOut kind state index
  once : state.delivered.Pairwise fun earlier later =>
    kind earlier.party = .exclusive → kind later.party = .exclusive →
      earlier.position ≠ later.position

variable {kind : Party → Kind} {state before after base : State Party Item} {party : Party}
  {phase : Phase Item} [DecidableEq Party]

theorem keeps_setPhase {other : Party} {index : Nat} :
    Keeps kind (state.setPhase party phase) other index →
      Keeps kind state other index ∨
        other = party ∧ kind party = .exclusive ∧ phase.held false = some index := by
  rintro ⟨exclusive, held⟩
  by_cases same : other = party
  · subst same
    rw [State.setPhase_self] at held
    exact .inr ⟨rfl, exclusive, held⟩
  · rw [State.setPhase_other _ _ same] at held
    exact .inl ⟨exclusive, held⟩

/-- A party that moves on holds nothing new. -/
theorem Claims.setPhase (claims : Claims kind state)
    (nothing : kind party = .exclusive → ∀ index, phase.held false = some index →
      (state.phase party).held false = some index) :
    Claims kind (state.setPhase party phase) := by
  have less : ∀ other index, Keeps kind (state.setPhase party phase) other index →
      Keeps kind state other index := by
    intro other index keeps
    rcases keeps_setPhase keeps with before | ⟨rfl, exclusive, held⟩
    · exact before
    · exact ⟨exclusive, nothing exclusive index held⟩
  constructor
  · exact fun other index keeps => claims.kept other index (less other index keeps)
  · exact claims.handed
  · exact fun left right index leftKeeps rightKeeps =>
      claims.alone left right index (less left index leftKeeps) (less right index rightKeeps)
  · exact fun other index keeps => claims.apart other index (less other index keeps)
  · exact claims.once

/-- A position that nobody has claimed is claimed. -/
theorem Claims.claim (claims : Claims kind state) {index : Nat} {item : Item}
    (unclaimed : state.claimed index = false) :
    Claims kind
      ({ state with claimed := Function.update state.claimed index true }.setPhase party
        (.holding index item)) := by
  have marked : ∀ other, state.claimed other = true →
      Function.update state.claimed index true other = true := by
    intro other already
    by_cases same : other = index
    · subst same
      exact Function.update_self ..
    · rw [Function.update_of_ne same]
      exact already
  have free : ∀ other, ¬Keeps kind state other index := by
    intro other keeps
    have already := claims.kept other index keeps
    rw [unclaimed] at already
    cases already
  have new : ∀ other position, Keeps kind
      ({ state with claimed := Function.update state.claimed index true }.setPhase party
        (.holding index item)) other position →
      Keeps kind state other position ∨ other = party ∧ position = index := by
    intro other position keeps
    rcases keeps_setPhase keeps with before | ⟨same, _exclusive, held⟩
    · exact .inl before
    · cases held
      exact .inr ⟨same, rfl⟩
  constructor
  · intro other position keeps
    rcases new other position keeps with before | ⟨_same, rfl⟩
    · exact marked position (claims.kept other position before)
    · exact Function.update_self ..
  · exact fun position handed => marked position (claims.handed position handed)
  · intro left right position leftKeeps rightKeeps
    rcases new left position leftKeeps with leftBefore | ⟨leftSame, rfl⟩
    · rcases new right position rightKeeps with rightBefore | ⟨_rightSame, rfl⟩
      · exact claims.alone left right position leftBefore rightBefore
      · exact absurd leftBefore (free left)
    · rcases new right position rightKeeps with rightBefore | ⟨rightSame, _position⟩
      · exact absurd rightBefore (free right)
      · exact leftSame.trans rightSame.symm
  · intro other position keeps handed
    rcases new other position keeps with before | ⟨_same, rfl⟩
    · exact claims.apart other position before handed
    · have already := claims.handed position handed
      rw [unclaimed] at already
      cases already
  · exact claims.once

theorem Claims.deliver (claims : Claims kind state) {index : Nat} {item : Item}
    (holds : state.phase party = .returning index item) :
    Claims kind
      ((state.handOut { party := party, position := index, item := item }).setPhase party
        .away) := by
  have held : (state.phase party).held false = some index := by
    rw [holds]
    rfl
  have before : ∀ other position, Keeps kind
      ((state.handOut { party := party, position := index, item := item }).setPhase party
        .away) other position → Keeps kind state other position ∧ other ≠ party := by
    rintro other position ⟨exclusive, otherHeld⟩
    by_cases same : other = party
    · subst same
      rw [State.setPhase_self] at otherHeld
      cases otherHeld
    · rw [State.setPhase_other _ _ same] at otherHeld
      exact ⟨⟨exclusive, otherHeld⟩, same⟩
  have handed : ∀ position, HandedOut kind
      ((state.handOut { party := party, position := index, item := item }).setPhase party
        .away) position → HandedOut kind state position ∨
          kind party = .exclusive ∧ position = index := by
    rintro position ⟨delivery, member, exclusive, rfl⟩
    rcases List.mem_append.mp member with old | new
    · exact .inl ⟨delivery, old, exclusive, rfl⟩
    · rw [List.mem_singleton.mp new] at exclusive ⊢
      exact .inr ⟨exclusive, rfl⟩
  constructor
  · exact fun other position keeps => claims.kept other position (before other position keeps).1
  · intro position given
    rcases handed position given with old | ⟨exclusive, rfl⟩
    · exact claims.handed position old
    · exact claims.kept party position ⟨exclusive, held⟩
  · exact fun left right position leftKeeps rightKeeps =>
      claims.alone left right position (before left position leftKeeps).1
        (before right position rightKeeps).1
  · intro other position keeps given
    obtain ⟨keptBefore, different⟩ := before other position keeps
    rcases handed position given with old | ⟨exclusive, rfl⟩
    · exact claims.apart other position keptBefore old
    · exact different (claims.alone other party position keptBefore ⟨exclusive, held⟩)
  · apply List.pairwise_append.mpr
    refine ⟨claims.once, List.pairwise_singleton _ _, ?_⟩
    intro earlier earlierMember last lastMember earlierExclusive lastExclusive same
    rw [List.mem_singleton.mp lastMember] at lastExclusive same
    exact claims.apart party index ⟨lastExclusive, held⟩
      ⟨earlier, earlierMember, earlierExclusive, same⟩

theorem Claims.step (claims : Claims kind before) (step : Step kind before after) :
    Claims kind after := by
  have same : ∀ {changed : State Party Item}, changed.phase = before.phase →
      changed.delivered = before.delivered → changed.claimed = before.claimed →
      Claims kind changed := by
    rintro ⟨head, items, delivered, register, claimed, phase⟩ rfl rfl rfl
    exact ⟨claims.kept, claims.handed, claims.alone, claims.apart, claims.once⟩
  cases step with
  | publish item => exact same rfl rfl rfl
  | see party reads away =>
      apply claims.setPhase
      exact fun _exclusive _index held => nomatch held
  | seeRanged party reads away =>
      apply (same rfl rfl rfl : Claims kind (before.setRegister party _)).setPhase
      exact fun _exclusive _index held => nomatch held
  | leave party index saw =>
      apply claims.setPhase
      exact fun _exclusive _index held => nomatch held
  | hold party index item free saw there =>
      apply claims.setPhase
      exact fun exclusive => absurd exclusive free
  | claim party index item claimsIt saw there unclaimed => exact claims.claim unclaimed
  | refuse party index claimsIt saw taken =>
      apply claims.setPhase
      exact fun _exclusive _index held => nomatch held
  | nudge party index claimsIt refused =>
      apply (same rfl rfl rfl : Claims kind
        { before with head := max before.head (index + 1) }).setPhase
      exact fun _exclusive _index held => nomatch held
  | raise party index item raises holds =>
      apply (same rfl rfl rfl : Claims kind
        { before with head := max before.head (index + 1) }).setPhase
      intro _exclusive other held
      change (before.phase party).held false = _
      rw [holds]
      exact held
  | remember party index item stores holds =>
      apply (same rfl rfl rfl : Claims kind (before.setRegister party _)).setPhase
      intro exclusive
      rw [stores] at exclusive
      cases exclusive
  | store party index item stores holds =>
      apply (same rfl rfl rfl : Claims kind { before with head := index + 1 }).setPhase
      intro exclusive
      rw [stores] at exclusive
      cases exclusive
  | deliver party index item holds => exact claims.deliver holds

theorem claims_of_reachable {monotone : Bool} (reachable : Reachable kind monotone state) :
    Claims kind state := by
  apply reachable.induction
  · constructor
    · exact fun _party _index keeps => nomatch keeps.2
    · exact fun _index ⟨_delivery, member, _⟩ => nomatch member
    · exact fun _left _right _index keeps => nomatch keeps.2
    · exact fun _party _index keeps => nomatch keeps.2
    · exact .nil
  · exact fun before after step _kept claims => claims.step step

/-! ### Progress past claimed positions -/

/-- A claimed position is behind the index, or its claimant still has to move it. -/
def ClaimsPassed (state : State Party Item) : Prop :=
  ∀ index, state.claimed index = true →
    index < state.head ∨ ∃ party item, state.phase party = .holding index item

/-- A step after which nothing but the phase of one party is new. -/
theorem ClaimsPassed.move (passed : ClaimsPassed state) (base : State Party Item)
    (claimed : base.claimed = state.claimed) (phases : base.phase = state.phase)
    (head : state.head ≤ base.head)
    (here : ∀ index item, state.phase party = .holding index item → index < base.head) :
    ClaimsPassed (base.setPhase party phase) := by
  intro index isClaimed
  change base.claimed index = true at isClaimed
  rw [claimed] at isClaimed
  rcases passed index isClaimed with behind | ⟨other, item, holds⟩
  · exact .inl (Nat.lt_of_lt_of_le behind head)
  · by_cases same : other = party
    · subst same
      exact .inl (here index item holds)
    · apply Or.inr
      use other, item
      rw [State.setPhase_other _ _ same, phases]
      exact holds

theorem ClaimsPassed.claim (passed : ClaimsPassed state) {index : Nat} {item : Item}
    (saw : state.phase party = .saw index) :
    ClaimsPassed
      ({ state with claimed := Function.update state.claimed index true }.setPhase party
        (.holding index item)) := by
  intro position isClaimed
  by_cases same : position = index
  · subst same
    exact .inr ⟨party, item, State.setPhase_self ..⟩
  · change Function.update state.claimed index true position = true at isClaimed
    rw [Function.update_of_ne same] at isClaimed
    rcases passed position isClaimed with behind | ⟨other, old, holds⟩
    · exact .inl behind
    · have different : other ≠ party := by
        rintro rfl
        rw [saw] at holds
        cases holds
      apply Or.inr
      use other, old
      rw [State.setPhase_other _ _ different]
      exact holds

theorem ClaimsPassed.step (passed : ClaimsPassed before) (step : Step kind before after)
    (noWeak : ∀ party, kind party ≠ .weak) : ClaimsPassed after := by
  cases step with
  | publish item => exact passed
  | see party reads away =>
      apply passed.move before rfl rfl (Nat.le_refl _)
      rw [away]
      exact fun _index _item impossible => nomatch impossible
  | seeRanged party reads away => exact absurd reads (noWeak party)
  | leave party index saw =>
      apply passed.move before rfl rfl (Nat.le_refl _)
      rw [saw]
      exact fun _index _item impossible => nomatch impossible
  | hold party index item free saw there =>
      apply passed.move before rfl rfl (Nat.le_refl _)
      rw [saw]
      exact fun _index _item impossible => nomatch impossible
  | claim party index item claims saw there unclaimed => exact passed.claim saw
  | refuse party index claims saw taken =>
      apply passed.move before rfl rfl (Nat.le_refl _)
      rw [saw]
      exact fun _index _item impossible => nomatch impossible
  | nudge party index claims refused =>
      apply passed.move { before with head := max before.head (index + 1) } rfl rfl
        (Nat.le_max_left _ _)
      rw [refused]
      exact fun _index _item impossible => nomatch impossible
  | raise party index item raises holds =>
      apply passed.move { before with head := max before.head (index + 1) } rfl rfl
        (Nat.le_max_left _ _)
      rw [holds]
      rintro _index _item ⟨⟩
      exact Nat.le_max_right _ _
  | remember party index item stores holds => exact absurd stores (noWeak party)
  | store party index item stores holds => exact absurd stores (noWeak party)
  | deliver party index item holds =>
      apply passed.move (before.handOut _) rfl rfl (Nat.le_refl _)
      rw [holds]
      exact fun _index _item impossible => nomatch impossible

theorem claimsPassed_of_reachable {monotone : Bool} (noWeak : ∀ party, kind party ≠ .weak)
    (reachable : Reachable kind monotone state) : ClaimsPassed state := by
  apply reachable.induction
  · exact fun _index impossible => nomatch impossible
  · exact fun before after step _kept passed => passed.step step noWeak

/-! ### How often a position is handed out -/

omit [DecidableEq Party] in
/-- No two of the parties that claim are handed a position. -/
theorem Claims.claimants (claims : Claims kind state) (position : Nat) :
    (state.receivers position).Pairwise fun earlier later =>
      kind earlier = .exclusive → kind later ≠ .exclusive := by
  unfold State.receivers
  rw [List.pairwise_map]
  apply (claims.once.filter _).imp_of_mem
  intro earlier later earlierMember laterMember apart earlierClaims laterClaims
  have earlierHere := of_decide_eq_true (List.mem_filter.mp earlierMember).2
  have laterHere := of_decide_eq_true (List.mem_filter.mp laterMember).2
  exact apart earlierClaims laterClaims (earlierHere.trans laterHere.symm)

omit [DecidableEq Party] in
/-- At most once to the one party that does not claim, and to one that does. -/
theorem Claims.receivers_le_two (claims : Claims kind state)
    (increasing : Increasing kind (fun _party => True) state) {single : Party}
    (exclusive : ∀ party, party ≠ single → kind party = .exclusive) (position : Nat) :
    (state.receivers position).length ≤ 2 := by
  have nodup := increasing.receivers_nodup position
  have claimants := claims.claimants position
  generalize state.receivers position = receivers at nodup claimants
  -- Of three receivers at least two are not the single one.
  match receivers with
  | [] | [_] | [_, _] => simp
  | first :: second :: third :: rest =>
      exfalso
      simp only [List.nodup_cons, List.mem_cons, not_or, List.pairwise_cons, forall_eq_or_imp]
        at nodup claimants
      by_cases firstSingle : first = single
      · have secondOther : second ≠ single := fun same => nodup.1.1 (firstSingle.trans same.symm)
        have thirdOther : third ≠ single := fun same => nodup.1.2.1 (firstSingle.trans same.symm)
        exact claimants.2.1.1 (exclusive second secondOther) (exclusive third thirdOther)
      · by_cases secondSingle : second = single
        · have thirdOther : third ≠ single :=
            fun same => nodup.2.1.1 (secondSingle.trans same.symm)
          exact claimants.1.2.1 (exclusive first firstSingle) (exclusive third thirdOther)
        · exact claimants.1.1 (exclusive first firstSingle) (exclusive second secondSingle)

end WsDeque.Multiplicity
