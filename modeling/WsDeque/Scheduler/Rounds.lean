import WsDeque.Scheduler.Probing

/-
Whom repeated rounds of stealing reach: since every call of `try_steal` draws
the same numbers again, a worker never probes anybody its first round leaves out.
-/

namespace WsDeque.Scheduler

namespace Config

variable (config : Config)

/-- What this many calls of `try_steal` in a row probe when none of them steals. -/
def probed (me rounds : Nat) : List Nat :=
  (List.replicate rounds (config.victims me)).flatten

/-- Every worker comes to probe every other one. -/
def ReachesAll : Prop :=
  ∀ me < config.workers, ∀ victim < config.workers, victim ≠ me →
    ∃ rounds, victim ∈ config.probed me rounds

theorem probed_iff {me victim : Nat} :
    (∃ rounds, victim ∈ config.probed me rounds) ↔ victim ∈ config.victims me := by
  constructor
  · rintro ⟨rounds, member⟩
    obtain ⟨round, isRound, inRound⟩ := List.mem_flatten.mp member
    rwa [List.eq_of_mem_replicate isRound] at inRound
  · intro member
    exact ⟨1, List.mem_flatten.mpr ⟨_, List.mem_replicate.mpr ⟨Nat.one_ne_zero, rfl⟩, member⟩⟩

end Config

/-! ### A round as a set of bits -/

def mark (mask victim : Nat) : Nat :=
  mask ||| 1 <<< victim

theorem testBit_mark (mask victim other : Nat) :
    (mark mask victim).testBit other = true ↔ mask.testBit other = true ∨ other = victim := by
  unfold mark
  rw [Nat.testBit_or, Nat.shiftLeft_eq, Nat.one_mul, Nat.testBit_two_pow, Bool.or_eq_true,
    decide_eq_true_eq]
  exact or_congr_right eq_comm

/-- The draws of a round, the first `half` of them reduced to the group. -/
def markDraws (n lo span half : Nat) : Nat → Nat → List Nat → Nat
  | mask, _, [] => mask
  | mask, k, draw :: rest =>
      markDraws n lo span half
        (mark mask (bif Nat.blt k half then Nat.add lo (Nat.mod draw span) else Nat.mod draw n))
        (Nat.succ k) rest

/-- Whom a round of the worker probes, and the worker itself. -/
def marked (n groupSize me : Nat) : Nat :=
  let lo := me / groupSize * groupSize
  let span := min (lo + groupSize) n - lo
  let half := bif Nat.blt 1 groupSize && Nat.blt 1 span then (probes n + 1) / 2 else 0
  markDraws n lo span half ((hypercubeNeighbours me n).foldl mark (1 <<< me)) 0
    (draws (probes n) (seedRng me))

def complete (n groupSize me : Nat) : Bool :=
  Nat.beq (marked n groupSize me) (2 ^ n - 1)

theorem testBit_foldl_mark (victims : List Nat) (mask other : Nat) :
    (victims.foldl mark mask).testBit other = true ↔
      mask.testBit other = true ∨ other ∈ victims := by
  induction victims generalizing mask with
  | nil => simp
  | cons victim rest ih =>
      rw [List.foldl_cons, ih, testBit_mark, List.mem_cons, or_assoc]

namespace Config

variable (config : Config)

theorem testBit_markDraws {half : Nat} (me : Nat)
    (reduces : ∀ k draw, config.reduce me k draw =
      if k < half then config.groupLo me + draw % config.groupSpan me else draw % config.workers)
    (draws : List Nat) (mask k other : Nat) :
    (markDraws config.workers (config.groupLo me) (config.groupSpan me) half mask k
        draws).testBit other = true ↔
      mask.testBit other = true ∨ other ∈ config.reduced me k draws := by
  induction draws generalizing mask k with
  | nil => simp [markDraws, reduced]
  | cons draw rest ih =>
      have same : (bif Nat.blt k half then
          Nat.add (config.groupLo me) (Nat.mod draw (config.groupSpan me))
          else Nat.mod draw config.workers) = config.reduce me k draw := by
        rw [reduces]
        by_cases early : k < half
        · rw [if_pos early, Nat.blt_eq.mpr early]
          rfl
        · rw [if_neg early, Bool.eq_false_iff.mpr fun late => early (Nat.blt_eq.mp late)]
          rfl
      unfold markDraws reduced
      rw [same, ih, testBit_mark, List.mem_cons, or_assoc]

theorem mem_victims (several : 2 ≤ config.workers) {me victim : Nat} :
    victim ∈ config.victims me ↔
      victim ∈ config.drawn me ∧ victim ≠ me ∨ victim ∈ hypercubeNeighbours me config.workers := by
  unfold victims
  rw [if_neg (by omega), List.mem_append, randomVictims_eq, List.mem_filter]
  simp only [decide_eq_true_eq]
  rfl

theorem testBit_marked (several : 2 ≤ config.workers) (me other : Nat) :
    (marked config.workers config.groupSize me).testBit other = true ↔
      other = me ∨ other ∈ config.victims me := by
  let half := bif Nat.blt 1 config.groupSize && Nat.blt 1 (config.groupSpan me) then
    (probes config.workers + 1) / 2 else 0
  have reduces : ∀ k draw, config.reduce me k draw =
      if k < half then config.groupLo me + draw % config.groupSpan me
      else draw % config.workers := by
    intro k draw
    unfold reduce
    by_cases biased : config.groupSize > 1 ∧ config.groupSpan me > 1
    · have early : half = (probes config.workers + 1) / 2 := by
        unfold half
        rw [Nat.blt_eq.mpr biased.1, Nat.blt_eq.mpr biased.2]
        rfl
      rw [early]
      simp only [biased, true_and]
    · have never : half = 0 := by
        have unset : (Nat.blt 1 config.groupSize && Nat.blt 1 (config.groupSpan me)) = false := by
          refine Bool.eq_false_iff.mpr fun both => ?_
          obtain ⟨grouped, wide⟩ := Bool.and_eq_true_iff.mp both
          exact biased ⟨Nat.blt_eq.mp grouped, Nat.blt_eq.mp wide⟩
        unfold half
        rw [unset]
        rfl
      have unbiased : ¬ (config.groupSize > 1 ∧ config.groupSpan me > 1 ∧
          k < (probes config.workers + 1) / 2) := fun all => biased ⟨all.1, all.2.1⟩
      rw [never, if_neg unbiased, if_neg (Nat.not_lt_zero k)]
  have first : (1 <<< me).testBit other = true ↔ other = me := by
    rw [Nat.shiftLeft_eq, Nat.one_mul, Nat.testBit_two_pow, decide_eq_true_eq, eq_comm]
  refine (config.testBit_markDraws me reduces _ _ 0 other).trans ?_
  rw [testBit_foldl_mark, first, config.mem_victims several]
  change (_ ∨ other ∈ config.drawn me) ↔ _
  by_cases same : other = me
  · simp only [same, true_or]
  · simp only [same, false_or, ne_eq, not_false_eq_true, and_true]
    exact or_comm

theorem complete_iff (several : 2 ≤ config.workers) {me : Nat} (inside : me < config.workers) :
    complete config.workers config.groupSize me = true ↔
      ∀ victim < config.workers, victim ≠ me → victim ∈ config.victims me := by
  unfold complete
  rw [Nat.beq_eq]
  constructor
  · intro whole victim below other
    have set : (marked config.workers config.groupSize me).testBit victim = true := by
      rw [whole, Nat.testBit_two_pow_sub_one, decide_eq_true_eq]
      exact below
    exact ((config.testBit_marked several me victim).mp set).resolve_left other
  · intro reaches
    apply Nat.eq_of_testBit_eq
    intro victim
    rw [Nat.testBit_two_pow_sub_one, Bool.eq_iff_iff, config.testBit_marked several me victim,
      decide_eq_true_eq]
    constructor
    · rintro (rfl | member)
      · exact inside
      · exact (config.victims_valid member).1
    · intro below
      by_cases same : victim = me
      · exact Or.inl same
      · exact Or.inr (reaches victim below same)

end Config

/-! ### The configurations that reach everybody -/

/-- Up to five workers, up to nine without a bias, and two more. -/
def Compact (n groupSize : Nat) : Prop :=
  n ≤ 5 ∨ n ≤ 9 ∧ (groupSize = 1 ∨ groupSize = n) ∨ n = 6 ∧ groupSize = 5 ∨
    n = 8 ∧ groupSize = 7

instance (n groupSize : Nat) : Decidable (Compact n groupSize) :=
  inferInstanceAs (Decidable (_ ∨ _ ∨ _ ∨ _))

theorem complete_of_compact :
    (List.range 10).all (fun n => (List.range (n + 1)).all fun groupSize =>
      decide (groupSize = 0) || decide (¬ Compact n groupSize) ||
        (List.range n).all (complete n groupSize)) = true := by
  decide +kernel

theorem incomplete_of_not_compact :
    (List.range 46).all (fun n => (List.range (n + 1)).all fun groupSize =>
      decide (groupSize = 0) || decide (Compact n groupSize) ||
        [7, 4, 0, 2, 3].any fun me => Nat.blt me n && !complete n groupSize me) = true := by
  decide +kernel

theorem six_le_two_pow {bit : Nat} (large : 6 ≤ bit) : 2 * bit + 35 < 2 ^ bit := by
  induction bit, large using Nat.le_induction with
  | base => decide
  | succ bit large ih =>
      rw [Nat.pow_succ]
      omega

/-- From 46 workers on, a round has fewer victims than there are other workers. -/
theorem log2_lt {n : Nat} (large : 46 ≤ n) : 2 * n.log2 + 35 < n := by
  have some : n ≠ 0 := by omega
  have below := Nat.log2_self_le some
  by_cases high : 6 ≤ n.log2
  · have power := six_le_two_pow high
    omega
  · have low : n < 2 ^ 6 := (Nat.log2_lt some).mp (Nat.lt_of_not_le high)
    omega

theorem probes_le {n : Nat} (some : n ≠ 0) : probes n ≤ 33 + n.log2 := by
  by_cases small : n < UInt32.size
  · exact Nat.le_of_eq (probes_eq some small)
  · have high : 32 ≤ n.log2 := (Nat.le_log2 some).mpr (Nat.le_of_not_lt small)
    unfold probes
    omega

namespace Config

variable (config : Config)

theorem reachesAll_iff :
    config.ReachesAll ↔ ∀ me < config.workers, ∀ victim < config.workers, victim ≠ me →
      victim ∈ config.victims me := by
  unfold ReachesAll
  simp only [probed_iff]

theorem not_reachesAll_of_large (large : 46 ≤ config.workers) : ¬ config.ReachesAll := by
  rw [reachesAll_iff]
  intro reaches
  have others : (List.range' 1 (config.workers - 1)).length ≤ (config.victims 0).length := by
    apply (List.nodup_range' 1 Nat.one_pos).length_le_of_subset
    intro victim member
    obtain ⟨low, high⟩ := List.mem_range'_1.mp member
    exact reaches 0 (by omega) victim (by omega) (by omega)
  rw [List.length_range', config.victims_length (by omega)] at others
  have drawn := config.randomVictims_length 0
  have count := probes_le (by omega : config.workers ≠ 0)
  have buddies := hypercubeNeighbours_length 0 config.workers
  have fewer := log2_lt large
  omega

theorem reachesAll_of_compact (several : 2 ≤ config.workers)
    (compact : Compact config.workers config.groupSize) : config.ReachesAll := by
  have few : config.workers < 10 := by
    unfold Compact at compact
    omega
  obtain ⟨grouped, within⟩ := config.grouped
  have sizes := List.all_eq_true.mp complete_of_compact _ (List.mem_range.mpr few)
  have whole := List.all_eq_true.mp sizes config.groupSize (List.mem_range.mpr (by omega))
  have notZero : decide (config.groupSize = 0) = false := decide_eq_false (by omega)
  have notLoose : decide (¬ Compact config.workers config.groupSize) = false :=
    decide_eq_false (not_not.mpr compact)
  rw [notZero, notLoose, Bool.false_or, Bool.false_or] at whole
  rw [reachesAll_iff]
  intro me inside
  exact (config.complete_iff several inside).mp
    (List.all_eq_true.mp whole me (List.mem_range.mpr inside))

theorem compact_of_reachesAll (several : 2 ≤ config.workers) (reaches : config.ReachesAll) :
    Compact config.workers config.groupSize := by
  by_contra loose
  have few : config.workers < 46 := by
    by_contra large
    exact config.not_reachesAll_of_large (Nat.le_of_not_lt large) reaches
  obtain ⟨grouped, within⟩ := config.grouped
  have sizes := List.all_eq_true.mp incomplete_of_not_compact _ (List.mem_range.mpr few)
  have missing := List.all_eq_true.mp sizes config.groupSize (List.mem_range.mpr (by omega))
  have notZero : decide (config.groupSize = 0) = false := decide_eq_false (by omega)
  rw [notZero, decide_eq_false loose, Bool.false_or, Bool.false_or] at missing
  obtain ⟨me, _listed, leaves⟩ := List.any_eq_true.mp missing
  obtain ⟨inside, incomplete⟩ := Bool.and_eq_true_iff.mp leaves
  have isWorker : me < config.workers := Nat.blt_eq.mp inside
  have whole := (config.complete_iff several isWorker).mpr
    (config.reachesAll_iff.mp reaches me isWorker)
  rw [whole] at incomplete
  cases incomplete

/-- Repeated rounds reach everybody in a few small configurations only. -/
theorem rounds_reach_iff : config.ReachesAll ↔ Compact config.workers config.groupSize := by
  by_cases several : 2 ≤ config.workers
  · exact ⟨config.compact_of_reachesAll several, config.reachesAll_of_compact several⟩
  · constructor
    · intro _reaches
      exact Or.inl (by omega)
    · intro _compact me inside victim below other
      omega

end Config

/-- Thirty-two workers without a bias. -/
theorem not_reachesAll : ¬ (Config.clamp 32 1 1).ReachesAll := by
  rw [Config.reachesAll_iff]
  intro reaches
  have missed : 7 ∉ (Config.clamp 32 1 1).victims 31 := by decide +kernel
  exact missed (reaches 31 (by decide) 7 (by decide) (by decide))

end WsDeque.Scheduler
