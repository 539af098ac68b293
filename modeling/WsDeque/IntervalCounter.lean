import Mathlib.Algebra.BigOperators.Ring.Finset
import Mathlib.Algebra.Order.BigOperators.Group.Finset
import Mathlib.Data.List.Basic

/-
A counter that says yes once in every interval and starts over when it does.
-/

namespace WsDeque.IntervalCounter

/-- The answer to one question and the count after it. -/
def tick (interval count : Nat) : Bool × Nat :=
  if count + 1 ≥ interval then (true, 0) else (false, count + 1)

/-- How many of the first questions had the answer yes. -/
def granted (answers : List Bool) (asked : Nat) : Nat :=
  (answers.take asked).count true

/-- Whatever number of questions was asked, one in every interval was granted. -/
structure Paced (interval : Nat) (answers : List Bool) (count : Nat) : Prop where
  granted : ∀ asked ≤ answers.length, granted answers asked = asked / interval
  count : count = answers.length % interval

variable {interval count : Nat} {answers : List Bool}

theorem Paced.nil (interval : Nat) : Paced interval [] 0 := by
  constructor
  · intro asked within
    obtain rfl : asked = 0 := Nat.le_zero.mp within
    rw [Nat.zero_div]
    rfl
  · rw [List.length_nil, Nat.zero_mod]

theorem Paced.below (paced : Paced interval answers count) (some : 1 ≤ interval) :
    count < interval := by
  rw [paced.count]
  exact Nat.mod_lt _ some

theorem Paced.total (paced : Paced interval answers count) :
    answers.count true = answers.length / interval := by
  have whole := paced.granted answers.length (Nat.le_refl _)
  unfold IntervalCounter.granted at whole
  rwa [List.take_length] at whole

/-- The division and the remainder after one more question. -/
theorem tick_eq (some : 1 ≤ interval) (asked : Nat) :
    (tick interval (asked % interval)).2 = (asked + 1) % interval ∧
      (asked + 1) / interval =
        asked / interval + if (tick interval (asked % interval)).1 then 1 else 0 := by
  have whole := Nat.div_add_mod asked interval
  have below := Nat.mod_lt asked some
  unfold tick
  by_cases due : asked % interval + 1 ≥ interval
  · have next : asked + 1 = interval * (asked / interval + 1) := by
      rw [Nat.mul_succ]
      omega
    rw [if_pos due, next, Nat.mul_mod_right, Nat.mul_div_cancel_left _ some]
    exact ⟨rfl, rfl⟩
  · have next : asked + 1 = (asked % interval + 1) + interval * (asked / interval) := by omega
    have early : asked % interval + 1 < interval := Nat.lt_of_not_le due
    rw [if_neg due]
    constructor
    · conv_rhs => rw [next, Nat.add_mul_mod_self_left, Nat.mod_eq_of_lt early]
    · conv_lhs => rw [next, Nat.add_mul_div_left _ _ some, Nat.div_eq_of_lt early, Nat.zero_add]
      rfl

theorem Paced.tick (paced : Paced interval answers count) (some : 1 ≤ interval) :
    Paced interval (answers ++ [(tick interval count).1]) (tick interval count).2 := by
  obtain ⟨remainder, quotient⟩ := tick_eq some answers.length
  rw [← paced.count] at remainder quotient
  constructor
  · intro asked within
    rw [List.length_append, List.length_singleton] at within
    rcases Nat.lt_or_eq_of_le within with earlier | now
    · have before : asked ≤ answers.length := Nat.le_of_lt_succ earlier
      rw [← paced.granted asked before]
      unfold IntervalCounter.granted
      rw [List.take_append_of_le_length before]
    · have all : (answers ++ [(IntervalCounter.tick interval count).1]).length = asked := by
        rw [List.length_append, List.length_singleton, now]
      unfold IntervalCounter.granted
      rw [now, ← List.length_singleton (a := (IntervalCounter.tick interval count).1),
        ← List.length_append, List.take_length, List.length_append, List.length_singleton,
        quotient, ← paced.total, List.count_append]
      cases (IntervalCounter.tick interval count).1 <;> rfl
  · rw [List.length_append, List.length_singleton, remainder]

/-- Over several counters of one interval the answer yes stays within its share. -/
theorem sum_granted_le {Party : Type*} [Fintype Party] {answers : Party → List Bool}
    {count : Party → Nat} (paced : ∀ party, Paced interval (answers party) (count party)) :
    interval * ∑ party, (answers party).count true ≤ ∑ party, (answers party).length := by
  rw [Finset.mul_sum]
  apply Finset.sum_le_sum
  intro party _member
  rw [(paced party).total]
  exact Nat.mul_div_le _ _

end WsDeque.IntervalCounter
