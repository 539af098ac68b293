import Mathlib.Data.List.Basic
import WsDeque.Xorshift

/-
Whom a worker of the lifeline scheduler tries to steal from, and in which order.
-/

namespace WsDeque.Scheduler

/-- The arguments of `run_with_config` as it clamps them. -/
structure Config where
  workers : Nat
  groupSize : Nat
  heartbeatInterval : Nat
  someWorker : 1 ≤ workers
  grouped : 1 ≤ groupSize ∧ groupSize ≤ workers
  beats : 1 ≤ heartbeatInterval

/-- `workers.max(1)`, `group_size.clamp(1, workers)` and `heartbeat_interval.max(1)`. -/
def Config.clamp (workers groupSize heartbeatInterval : Nat) : Config :=
  { workers := max workers 1
    groupSize := max 1 (min groupSize (max workers 1))
    heartbeatInterval := max heartbeatInterval 1
    someWorker := Nat.le_max_right _ _
    grouped :=
      ⟨Nat.le_max_left _ _, Nat.max_le.mpr ⟨Nat.le_max_right _ _, Nat.min_le_right _ _⟩⟩
    beats := Nat.le_max_right _ _ }

/-! ### Lifelines -/

/-- The loop of `hypercube_neighbours` over the bits of a word. -/
def hypercubeFrom (id n : Nat) : Nat → Nat → List Nat
  | 0, _ => []
  | fuel + 1, bit =>
      if bit < n then
        let neighbour := id ^^^ bit
        if neighbour < n ∧ neighbour ≠ id then
          neighbour :: hypercubeFrom id n fuel (bit <<< 1)
        else hypercubeFrom id n fuel (bit <<< 1)
      else []

def hypercubeNeighbours (id n : Nat) : List Nat :=
  hypercubeFrom id n 64 1

theorem hypercubeFrom_valid {id n fuel bit neighbour : Nat}
    (member : neighbour ∈ hypercubeFrom id n fuel bit) : neighbour < n ∧ neighbour ≠ id := by
  induction fuel generalizing bit with
  | zero => cases member
  | succ fuel ih =>
      simp only [hypercubeFrom] at member
      split at member
      · split at member
        · rename_i valid
          rcases List.mem_cons.mp member with here | further
          · rw [here]
            exact valid
          · exact ih further
        · exact ih member
      · cases member

/-! ### Random victims -/

/-- `u32::leading_zeros`. -/
def leadingZeros32 (x : Nat) : Nat :=
  if x = 0 then 32 else 31 - x.log2

/-- The number `w` of random probes. -/
def probes (n : Nat) : Nat :=
  max (64 - leadingZeros32 (n % UInt32.size)) 1

namespace Config

variable (config : Config)

def groupLo (me : Nat) : Nat :=
  me / config.groupSize * config.groupSize

def groupHi (me : Nat) : Nat :=
  min (config.groupLo me + config.groupSize) config.workers

def groupSpan (me : Nat) : Nat :=
  config.groupHi me - config.groupLo me

/-- The first half of the probes stay in the worker's own group. -/
def randomVictim (me k : Nat) (rng : UInt64) : Nat :=
  if config.groupSize > 1 ∧ config.groupSpan me > 1 ∧ k < (probes config.workers + 1) / 2 then
    config.groupLo me + rng.toNat % config.groupSpan me
  else rng.toNat % config.workers

/-- The first loop of `try_steal`, with the probes still to make. -/
def randomVictims (config : Config) (me : Nat) : Nat → Nat → UInt64 → List Nat
  | 0, _, _ => []
  | left + 1, k, rng =>
      let rng := xorshift rng
      let victim := config.randomVictim me k rng
      if victim ≠ me then victim :: randomVictims config me left (k + 1) rng
      else randomVictims config me left (k + 1) rng

theorem randomVictim_lt (me k : Nat) (rng : UInt64) :
    config.randomVictim me k rng < config.workers := by
  unfold randomVictim
  split
  · rename_i biased
    have inSpan : rng.toNat % config.groupSpan me < config.groupSpan me :=
      Nat.mod_lt _ (by omega)
    have upper : config.groupHi me ≤ config.workers := Nat.min_le_right _ _
    unfold groupSpan at inSpan ⊢
    omega
  · exact Nat.mod_lt _ config.someWorker

theorem randomVictims_valid {me left k : Nat} {rng : UInt64} {victim : Nat}
    (member : victim ∈ config.randomVictims me left k rng) :
    victim < config.workers ∧ victim ≠ me := by
  induction left generalizing k rng with
  | zero => cases member
  | succ left ih =>
      simp only [randomVictims] at member
      split at member
      · rename_i other
        rcases List.mem_cons.mp member with here | further
        · rw [here]
          exact ⟨config.randomVictim_lt me k _, other⟩
        · exact ih further
      · exact ih member

/-- The victims of one `try_steal`: the generator starts afresh in every call. -/
def victims (me : Nat) : List Nat :=
  if config.workers ≤ 1 then []
  else
    config.randomVictims me (probes config.workers) 0 (seedRng me) ++
      hypercubeNeighbours me config.workers

theorem victims_valid {me victim : Nat} (member : victim ∈ config.victims me) :
    victim < config.workers ∧ victim ≠ me := by
  unfold victims at member
  split at member
  · cases member
  · rcases List.mem_append.mp member with random | lifeline
    · exact config.randomVictims_valid random
    · exact hypercubeFrom_valid lifeline

end Config

end WsDeque.Scheduler
