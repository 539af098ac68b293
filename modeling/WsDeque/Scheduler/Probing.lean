import Mathlib.Data.List.Nodup
import Mathlib.Data.Nat.Basic
import WsDeque.Scheduler.Lifelines

/-
What the calls of `try_steal` probe. The generator starts afresh in every call,
so all the rounds of a worker probe the same victims; and the number of draws
is taken from the leading zeros of a 32-bit word as if it had 64 bits.
-/

namespace WsDeque.Scheduler

/-- What the generator yields in one call. -/
def draws : Nat → UInt64 → List Nat
  | 0, _ => []
  | left + 1, rng =>
      let rng := xorshift rng
      rng.toNat :: draws left rng

theorem draws_length (left : Nat) (rng : UInt64) : (draws left rng).length = left := by
  induction left generalizing rng with
  | zero => rfl
  | succ left ih => simp only [draws, List.length_cons, ih]

namespace Config

variable (config : Config)

/-- A draw, reduced to a worker: the first half of the draws stay in the group. -/
def reduce (me k draw : Nat) : Nat :=
  if config.groupSize > 1 ∧ config.groupSpan me > 1 ∧ k < (probes config.workers + 1) / 2 then
    config.groupLo me + draw % config.groupSpan me
  else draw % config.workers

/-- The draws from the `k`-th on, each reduced to a worker. -/
def reduced (me : Nat) : Nat → List Nat → List Nat
  | _, [] => []
  | k, draw :: rest => config.reduce me k draw :: reduced me (k + 1) rest

theorem reduced_length (me k : Nat) (draws : List Nat) :
    (config.reduced me k draws).length = draws.length := by
  induction draws generalizing k with
  | nil => rfl
  | cons draw rest ih => simp only [reduced, List.length_cons, ih]

/-- The random probes are the draws that do not hit the worker itself. -/
theorem randomVictims_eq (me left k : Nat) (rng : UInt64) :
    config.randomVictims me left k rng =
      (config.reduced me k (draws left rng)).filter (· ≠ me) := by
  induction left generalizing k rng with
  | zero => rfl
  | succ left ih =>
      have same : config.randomVictim me k (xorshift rng) =
          config.reduce me k (xorshift rng).toNat := rfl
      simp only [randomVictims, draws, reduced, same, List.filter_cons, decide_eq_true_eq, ih]

/-- The reduced draws of one call. -/
def drawn (me : Nat) : List Nat :=
  config.reduced me 0 (draws (probes config.workers) (seedRng me))

/-- The draws that hit the worker itself, which probe nobody. -/
def selfDraws (me : Nat) : Nat :=
  (config.drawn me).count me

theorem drawn_length (me : Nat) : (config.drawn me).length = probes config.workers := by
  unfold drawn
  rw [reduced_length, draws_length]

theorem randomVictims_length (me : Nat) :
    (config.randomVictims me (probes config.workers) 0 (seedRng me)).length +
      config.selfDraws me = probes config.workers := by
  have probed : (config.randomVictims me (probes config.workers) 0 (seedRng me)).length =
      (config.drawn me).countP fun victim => decide (victim ≠ me) := by
    rw [randomVictims_eq]
    exact List.countP_eq_length_filter.symm
  have missed : config.selfDraws me =
      (config.drawn me).countP fun victim => decide (¬ decide (victim ≠ me) = true) := by
    unfold selfDraws List.count
    congr 1
    funext victim
    by_cases same : victim = me <;> simp [same]
  have parts := List.length_eq_countP_add_countP (fun victim => decide (victim ≠ me))
    (l := config.drawn me)
  have total := config.drawn_length me
  omega

end Config

/-! ### How many probes -/

/-- The word is taken to have 64 bits. -/
theorem probes_eq {n : Nat} (some : n ≠ 0) (small : n < UInt32.size) :
    probes n = 33 + n.log2 := by
  have bound : n.log2 < 32 := (Nat.log2_lt some).mpr small
  unfold probes leadingZeros32
  rw [Nat.mod_eq_of_lt small, if_neg some]
  omega

theorem clog_le_log2 (n : Nat) : Nat.clog 2 n ≤ n.log2 + 1 :=
  (Nat.clog_le_iff_le_pow Nat.one_lt_two).mpr (Nat.le_of_lt Nat.lt_log2_self)

theorem hypercubeNeighbours_length (id n : Nat) :
    (hypercubeNeighbours id n).length ≤ n.log2 + 1 :=
  Nat.le_trans (hypercubeFrom_length : (hypercubeFrom id n 64 (2 ^ 0)).length ≤ _)
    (clog_le_log2 n)

namespace Config

variable (config : Config)

/-- A round that steals nothing makes logarithmically many probes, all valid. -/
structure LogarithmicRound (me : Nat) : Prop where
  random : (config.randomVictims me (probes config.workers) 0 (seedRng me)).length ≤
    config.workers.log2 + 1
  total : (config.victims me).length ≤ 2 * config.workers.log2 + 2
  valid : ∀ victim ∈ config.victims me, victim < config.workers ∧ victim ≠ me

theorem victims_length (several : 2 ≤ config.workers) (me : Nat) :
    (config.victims me).length =
      (config.randomVictims me (probes config.workers) 0 (seedRng me)).length +
        (hypercubeNeighbours me config.workers).length := by
  unfold victims
  rw [if_neg (by omega), List.length_append]

/-- A round is short exactly when 32 of its draws hit the worker itself. -/
theorem logarithmicRound_iff (several : 2 ≤ config.workers)
    (small : config.workers < UInt32.size) (me : Nat) :
    config.LogarithmicRound me ↔ 32 ≤ config.selfDraws me := by
  have drawn := config.randomVictims_length me
  have count := probes_eq (by omega : config.workers ≠ 0) small
  have buddies := hypercubeNeighbours_length me config.workers
  have sum := config.victims_length several me
  constructor
  · intro short
    have random := short.random
    omega
  · intro missed
    exact ⟨by omega, by omega, fun victim member => config.victims_valid member⟩

end Config

theorem logarithmicRound_iff_clamp :
    (Config.clamp 2 1 1).LogarithmicRound 0 ↔ 32 ≤ (Config.clamp 2 1 1).selfDraws 0 :=
  (Config.clamp 2 1 1).logarithmicRound_iff (Nat.le_refl 2) (by decide) 0

theorem not_logarithmicRound : ¬ (Config.clamp 2 1 1).LogarithmicRound 0 := by
  intro short
  have random := short.random
  revert random
  decide +kernel

end WsDeque.Scheduler
