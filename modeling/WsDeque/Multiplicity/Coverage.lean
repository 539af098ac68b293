import WsDeque.Multiplicity.Protocol

/-
No position is lost: everything the index, a private maximum or a party at work
has gone past was handed out, or somebody is about to hand it out.
-/

namespace WsDeque.Multiplicity

variable {Party Item : Type*}

/-- The position a party is about to hand out: from its read on, or only once
the index has been moved for it. -/
def Phase.held (settled : Bool) : Phase Item → Option Nat
  | .holding index _ | .storing index _ => if settled then none else some index
  | .returning index _ => some index
  | _ => none

/-- What a party knows the index to have reached. -/
def Phase.bound : Phase Item → Nat
  | .away => 0
  | .saw index | .holding index _ | .storing index _ | .refused index | .returning index _ => index

def WasDelivered (state : State Party Item) (position : Nat) : Prop :=
  ∃ delivery ∈ state.delivered, delivery.position = position

def Covered (settled : Bool) (state : State Party Item) (position : Nat) : Prop :=
  WasDelivered state position ∨ ∃ party, (state.phase party).held settled = some position

def CoveredBelow (settled : Bool) (state : State Party Item) (bound : Nat) : Prop :=
  ∀ position, position < bound → Covered settled state position

structure Covering (settled : Bool) (state : State Party Item) : Prop where
  head : CoveredBelow settled state state.head
  registers : ∀ party, CoveredBelow settled state (state.register party)
  phases : ∀ party, CoveredBelow settled state (state.phase party).bound
  refused : ∀ party index, state.phase party = .refused index → Covered settled state index
  claimed : ∀ index, state.claimed index = true → Covered settled state index

variable {settled : Bool} {state : State Party Item} {party : Party} {phase : Phase Item}

theorem CoveredBelow.zero (settled : Bool) (state : State Party Item) :
    CoveredBelow settled state 0 :=
  fun _position impossible => absurd impossible (Nat.not_lt_zero _)

theorem CoveredBelow.succ {bound : Nat} (below : CoveredBelow settled state bound)
    (here : Covered settled state bound) : CoveredBelow settled state (bound + 1) := by
  intro position before
  rcases Nat.lt_succ_iff_lt_or_eq.mp before with earlier | rfl
  · exact below position earlier
  · exact here

theorem CoveredBelow.max {left right : Nat} (leftBelow : CoveredBelow settled state left)
    (rightBelow : CoveredBelow settled state right) :
    CoveredBelow settled state (max left right) := by
  intro position before
  have either : position < left ∨ position < right := by omega
  rcases either with first | second
  · exact leftBelow position first
  · exact rightBelow position second

/-! ### The parts of a step -/

theorem Covering.head_of (covering : Covering settled state) {head : Nat}
    (below : CoveredBelow settled state head) :
    Covering settled { state with head := head } :=
  { covering with head := below }

theorem Covering.claim_of (covering : Covering settled state) {index : Nat}
    (here : Covered settled state index) :
    Covering settled { state with claimed := Function.update state.claimed index true } := by
  refine { covering with claimed := ?_ }
  intro other claims
  by_cases same : other = index
  · subst same
    exact here
  · simp only [Function.update_of_ne same] at claims
    exact covering.claimed other claims

theorem Covering.publish (covering : Covering settled state) (items : List Item) :
    Covering settled { state with items := items } :=
  { covering with }

theorem Covering.handOut (covering : Covering settled state) (delivery : Delivery Party Item) :
    Covering settled (state.handOut delivery) := by
  have more : ∀ position, Covered settled state position →
      Covered settled (state.handOut delivery) position := by
    intro position covered
    rcases covered with ⟨earlier, member, there⟩ | held
    · exact .inl ⟨earlier, List.mem_append_left _ member, there⟩
    · exact .inr held
  constructor
  · exact fun position before => more position (covering.head position before)
  · exact fun party position before => more position (covering.registers party position before)
  · exact fun party position before => more position (covering.phases party position before)
  · exact fun party index refused => more index (covering.refused party index refused)
  · exact fun index claimed => more index (covering.claimed index claimed)

variable [DecidableEq Party]

theorem Covering.register_of (covering : Covering settled state) {value : Nat}
    (below : CoveredBelow settled state value) :
    Covering settled (state.setRegister party value) := by
  refine { covering with registers := ?_ }
  intro other
  by_cases same : other = party
  · subst same
    simp only [State.setRegister, Function.update_self]
    exact below
  · simp only [State.setRegister, Function.update_of_ne same]
    exact covering.registers other

/-- A party that moves on keeps what it is about to hand out, or has just done so. -/
theorem Covering.setPhase (covering : Covering settled state)
    (kept : ∀ position, (state.phase party).held settled = some position →
      phase.held settled = some position ∨ WasDelivered state position)
    (bound : CoveredBelow settled state phase.bound)
    (refused : ∀ index, phase = .refused index → Covered settled state index) :
    Covering settled (state.setPhase party phase) := by
  have more : ∀ position, Covered settled state position →
      Covered settled (state.setPhase party phase) position := by
    intro position covered
    rcases covered with delivered | ⟨other, held⟩
    · exact .inl delivered
    · by_cases same : other = party
      · subst same
        rcases kept position held with holds | delivered
        · apply Or.inr
          use other
          rw [State.setPhase_self]
          exact holds
        · exact .inl delivered
      · apply Or.inr
        use other
        rw [State.setPhase_other _ _ same]
        exact held
  have below : ∀ bound, CoveredBelow settled state bound →
      CoveredBelow settled (state.setPhase party phase) bound :=
    fun bound covered position before => more position (covered position before)
  constructor
  · exact below _ covering.head
  · exact fun other => below _ (covering.registers other)
  · exact State.forall_setPhase
      (fun _party phase => CoveredBelow settled (state.setPhase party _) phase.bound)
      (below _ bound) fun other _different => below _ (covering.phases other)
  · intro other index
    by_cases same : other = party
    · subst same
      rw [State.setPhase_self]
      exact fun now => more index (refused index now)
    · rw [State.setPhase_other _ _ same]
      exact fun now => more index (covering.refused other index now)
  · exact fun index claimed => more index (covering.claimed index claimed)

theorem covered_setPhase {index : Nat} (held : phase.held settled = some index) :
    Covered settled (state.setPhase party phase) index := by
  apply Or.inr
  use party
  rw [State.setPhase_self]
  exact held

/-! ### Whole runs -/

theorem Covering.step {kind : Party → Kind} {before after : State Party Item}
    (covering : Covering settled before) (step : Step kind before after)
    (strong : settled = true → ∀ party, kind party = .strong) : Covering settled after := by
  have loose : ∀ party, kind party ≠ .strong → settled = false := by
    intro party other
    cases settled with
    | false => rfl
    | true => exact absurd (strong rfl party) other
  cases step with
  | publish item => exact covering.publish _
  | see party reads away =>
      apply covering.setPhase
      · rw [away]
        exact fun _position held => nomatch held
      · exact covering.head
      · exact fun _index impossible => nomatch impossible
  | seeRanged party reads away =>
      have reached := covering.head.max (covering.registers party)
      apply (covering.register_of reached).setPhase
      · change ∀ position, (before.phase party).held settled = some position → _
        rw [away]
        exact fun _position held => nomatch held
      · exact reached
      · exact fun _index impossible => nomatch impossible
  | leave party index saw =>
      apply covering.setPhase
      · rw [saw]
        exact fun _position held => nomatch held
      · exact .zero settled before
      · exact fun _index impossible => nomatch impossible
  | hold party index item free saw there =>
      have bound := covering.phases party
      rw [saw] at bound
      apply covering.setPhase
      · rw [saw]
        exact fun _position held => nomatch held
      · exact bound
      · exact fun _index impossible => nomatch impossible
  | claim party index item claims saw there unclaimed =>
      have bound := covering.phases party
      rw [saw] at bound
      have holds : Covering settled (before.setPhase party (.holding index item)) := by
        apply covering.setPhase
        · rw [saw]
          exact fun _position held => nomatch held
        · exact bound
        · exact fun _index impossible => nomatch impossible
      apply holds.claim_of
      apply covered_setPhase
      rw [loose party (by rw [claims]; decide)]
      rfl
  | refuse party index claims saw taken =>
      have bound := covering.phases party
      rw [saw] at bound
      apply covering.setPhase
      · rw [saw]
        exact fun _position held => nomatch held
      · exact bound
      · rintro other ⟨⟩
        exact covering.claimed index taken
  | nudge party index claims refused =>
      have bound := covering.phases party
      rw [refused] at bound
      have moved :=
        covering.head_of (covering.head.max (bound.succ (covering.refused party index refused)))
      apply moved.setPhase
      · change ∀ position, (before.phase party).held settled = some position → _
        rw [refused]
        exact fun _position held => nomatch held
      · exact .zero settled _
      · exact fun _index impossible => nomatch impossible
  | raise party index item raises holds =>
      have bound := covering.phases party
      rw [holds] at bound
      have returns : Covering settled (before.setPhase party (.returning index item)) := by
        apply covering.setPhase
        · rw [holds]
          intro position held
          apply Or.inl
          cases settled with
          | false => exact held
          | true => cases held
        · exact bound
        · exact fun _index impossible => nomatch impossible
      have below := returns.phases party
      rw [State.setPhase_self] at below
      exact returns.head_of (returns.head.max (below.succ (covered_setPhase rfl)))
  | remember party index item stores holds =>
      have bound := covering.phases party
      rw [holds] at bound
      have tentative : settled = false := loose party (by rw [stores]; decide)
      subst tentative
      have heldNext : Phase.held false (if max before.head (before.register party) < index + 1
          then .storing index item else .returning index item) = some index := by
        split <;> rfl
      have boundNext : (if max before.head (before.register party) < index + 1
          then Phase.storing index item else .returning index item).bound = index := by
        split <;> rfl
      have notRefused : ∀ other, (if max before.head (before.register party) < index + 1
          then Phase.storing index item else .returning index item) ≠ .refused other := by
        intro other
        split <;> exact nofun
      generalize (if max before.head (before.register party) < index + 1
        then Phase.storing index item else .returning index item) = next at *
      have moved : Covering false (before.setPhase party next) := by
        apply covering.setPhase
        · rw [holds, heldNext]
          exact fun _position held => .inl held
        · rw [boundNext]
          exact bound
        · exact fun other refused => absurd refused (notRefused other)
      have below := moved.phases party
      rw [State.setPhase_self, boundNext] at below
      have reached := below.succ (covered_setPhase heldNext)
      exact moved.register_of ((moved.head.max (moved.registers party)).max reached)
  | store party index item stores holds =>
      have bound := covering.phases party
      rw [holds] at bound
      have tentative : settled = false := loose party (by rw [stores]; decide)
      subst tentative
      have returns : Covering false (before.setPhase party (.returning index item)) := by
        apply covering.setPhase
        · rw [holds]
          exact fun _position held => .inl held
        · exact bound
        · exact fun _index impossible => nomatch impossible
      have below := returns.phases party
      rw [State.setPhase_self] at below
      exact returns.head_of (below.succ (covered_setPhase rfl))
  | deliver party index item holds =>
      apply (covering.handOut _).setPhase
      · change ∀ position, (before.phase party).held settled = some position → _
        rw [holds]
        rintro position ⟨⟩
        apply Or.inr
        exact ⟨_, List.mem_append_right _ (List.mem_singleton_self _), rfl⟩
      · exact .zero settled _
      · exact fun _index impossible => nomatch impossible

theorem covering_of_reachable {kind : Party → Kind} {monotone : Bool}
    (strong : settled = true → ∀ party, kind party = .strong)
    (reachable : Reachable kind monotone state) : Covering settled state := by
  apply reachable.induction
  · constructor
    · exact .zero settled _
    · exact fun _party => .zero settled _
    · exact fun _party => .zero settled _
    · exact fun _party _index impossible => nomatch impossible
    · exact fun _index impossible => nomatch impossible
  · exact fun before after step _kept covering => covering.step step strong

omit [DecidableEq Party] in
/-- Only published positions can have been gone past. -/
theorem CoveredBelow.le_length {bound : Nat} (below : CoveredBelow settled state bound)
    (genuine : Genuine state) : bound ≤ state.items.length := by
  cases bound with
  | zero => exact Nat.zero_le _
  | succ last =>
      rcases below last (Nat.lt_succ_self last) with ⟨delivery, member, rfl⟩ | ⟨party, held⟩
      · exact (List.getElem?_eq_some_iff.mp (genuine.delivered delivery member)).1
      · have there : ∃ item, (last, item) ∈ (state.phase party).item := by
          generalize state.phase party = phase at held
          cases phase with
          | returning index item =>
              cases held
              exact ⟨item, rfl⟩
          | holding index item =>
              cases settled <;> cases held
              exact ⟨item, rfl⟩
          | storing index item =>
              cases settled <;> cases held
              exact ⟨item, rfl⟩
          | _ => cases held
        obtain ⟨item, isItem⟩ := there
        exact (List.getElem?_eq_some_iff.mp (genuine.held party _ isItem)).1

end WsDeque.Multiplicity
