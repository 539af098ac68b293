import WsDeque.ChaseLev.Wraparound

/-
The two batch steals with no other call in progress: the older half moves, in
order, behind what the destination holds.
-/

namespace WsDeque.ChaseLev.Deque

open MachineWord

variable {α : Type*} {victim dest : Deque α} {owner thief : Bool} {xs ys : List α}

/-! ### The loops -/

/-- Each round of either loop moves the oldest element. -/
theorem moveOne {first : α} {rest : List α} (victimIs : Represents owner victim (first :: rest))
    (destIs : Represents thief dest ys) (room : ys.length + 1 < 2 ^ 62) :
    ∃ victim' dest', victim.stealFrom = some (.success first, victim') ∧
      dest.push first = some dest' ∧ Represents owner victim' rest ∧
      Represents thief dest' (ys ++ [first]) := by
  obtain ⟨victim', stolen, fewer⟩ := stealFrom_cons victimIs
  obtain ⟨dest', pushed, more⟩ := push_represents destIs room first
  exact ⟨victim', dest', stolen, pushed, fewer, more⟩

section

variable {first : α} {middle after : Deque α} {rounds moved : Nat}

theorem restLoop_succ (stolen : victim.stealFrom = some (.success first, middle))
    (pushed : dest.push first = some after) :
    restLoop (rounds + 1) victim dest = restLoop rounds middle after := by
  rw [restLoop, stolen, Option.bind_some]
  dsimp only
  rw [pushed, Option.bind_some]

theorem batchLoop_succ (stolen : victim.stealFrom = some (.success first, middle))
    (pushed : dest.push first = some after) (counted : moved + 1 < 2 ^ 64) :
    batchLoop (rounds + 1) moved victim dest = batchLoop rounds (moved + 1) middle after := by
  rw [batchLoop, stolen, Option.bind_some]
  dsimp only
  rw [pushed, Option.bind_some, checkedUsize_of_lt counted, Option.bind_some]

end

theorem restLoop_moves {rounds : Nat} (victimIs : Represents owner victim xs)
    (destIs : Represents thief dest ys) (enough : rounds ≤ xs.length)
    (room : ys.length + rounds < 2 ^ 62) :
    ∃ victim' dest', restLoop rounds victim dest = some (victim', dest') ∧
      Represents owner victim' (xs.drop rounds) ∧
      Represents thief dest' (ys ++ xs.take rounds) := by
  induction rounds generalizing victim dest xs ys with
  | zero =>
      rw [List.drop_zero, List.take_zero, List.append_nil]
      exact ⟨victim, dest, rfl, victimIs, destIs⟩
  | succ rounds ih =>
      cases xs with
      | nil => exact absurd enough (Nat.not_succ_le_zero rounds)
      | cons first rest =>
          have one : ys.length + 1 < 2 ^ 62 := by omega
          obtain ⟨middle, after, stolen, pushed, fewer, more⟩ := moveOne victimIs destIs one
          have left : (ys ++ [first]).length + rounds < 2 ^ 62 := by
            rw [List.length_append, List.length_singleton]
            omega
          obtain ⟨victim', dest', runs, leaves, holds⟩ :=
            ih fewer more (Nat.le_of_succ_le_succ enough) left
          refine ⟨victim', dest', ?_, leaves, ?_⟩
          · rw [restLoop_succ stolen pushed]
            exact runs
          · rw [List.take_succ_cons, ← List.singleton_append, ← List.append_assoc]
            exact holds

/-- The result depends only on whether anything has been moved. -/
theorem batchLoop_moves {rounds moved : Nat} (victimIs : Represents owner victim xs)
    (destIs : Represents thief dest ys) (enough : rounds ≤ xs.length)
    (room : ys.length + rounds < 2 ^ 62) (counted : moved + rounds < 2 ^ 64)
    (some' : 0 < moved + rounds) :
    ∃ victim' dest', batchLoop rounds moved victim dest = some (.success (), victim', dest') ∧
      Represents owner victim' (xs.drop rounds) ∧
      Represents thief dest' (ys ++ xs.take rounds) := by
  induction rounds generalizing moved victim dest xs ys with
  | zero =>
      rw [List.drop_zero, List.take_zero, List.append_nil]
      have moves : moved ≠ 0 := Nat.ne_of_gt some'
      refine ⟨victim, dest, ?_, victimIs, destIs⟩
      unfold batchLoop
      rw [if_neg moves]
  | succ rounds ih =>
      cases xs with
      | nil => exact absurd enough (Nat.not_succ_le_zero rounds)
      | cons first rest =>
          have one : ys.length + 1 < 2 ^ 62 := by omega
          obtain ⟨middle, after, stolen, pushed, fewer, more⟩ := moveOne victimIs destIs one
          have left : (ys ++ [first]).length + rounds < 2 ^ 62 := by
            rw [List.length_append, List.length_singleton]
            omega
          have counts : moved + 1 + rounds < 2 ^ 64 := by omega
          obtain ⟨victim', dest', runs, leaves, holds⟩ :=
            ih fewer more (Nat.le_of_succ_le_succ enough) left counts (by omega)
          refine ⟨victim', dest', ?_, leaves, ?_⟩
          · rw [batchLoop_succ stolen pushed (by omega)]
            exact runs
          · rw [List.take_succ_cons, ← List.singleton_append, ← List.append_assoc]
            exact holds

/-! ### The calls -/

/-- The older half, the middle element included. -/
def half (xs : List α) : Nat :=
  (xs.length + 1) / 2

theorem half_le (xs : List α) : half xs ≤ xs.length := by
  unfold half
  omega

theorem Represents.shown (represents : Represents owner victim xs) :
    wrappingSub victim.bottom victim.top = xs.length := by
  obtain ⟨_mode, exponent, low, cached, spans⟩ := represents
  exact spans.size

theorem Represents.length_lt (represents : Represents owner victim xs) : xs.length < 2 ^ 62 := by
  obtain ⟨_mode, exponent, low, cached, spans⟩ := represents
  exact spans.length_lt

/-- Both calls count the same half from the indices they read. -/
theorem wanted_half (small : xs.length < 2 ^ 62) : wanted xs.length = some (half xs) := by
  unfold wanted half
  rw [checkedIsize_of_range (by omega) (by omega), Option.map_some]
  congr 1
  have halved : ((xs.length : Int) + 1).tdiv 2 = (((xs.length + 1) / 2 : Nat) : Int) := by
    rw [Int.tdiv_eq_ediv_of_nonneg (by omega)]
    omega
  rw [halved]
  unfold asUsize
  omega

theorem stealBatch_nil (victimIs : Represents owner victim ([] : List α)) (dest : Deque α) :
    stealBatch victim dest = some (.empty, victim, dest) :=
  if_pos (Int.le_of_eq victimIs.shown)

theorem stealBatchAndPop_nil (victimIs : Represents owner victim ([] : List α)) (dest : Deque α) :
    stealBatchAndPop victim dest = some (.empty, victim, dest) :=
  if_pos (Int.le_of_eq victimIs.shown)

variable {first : α} {rest : List α}

theorem stealBatch_cons (victimIs : Represents owner victim (first :: rest))
    (destIs : Represents thief dest ys) (room : ys.length + half (first :: rest) < 2 ^ 62) :
    ∃ victim' dest', stealBatch victim dest = some (.success (), victim', dest') ∧
      Represents owner victim' ((first :: rest).drop (half (first :: rest))) ∧
      Represents thief dest' (ys ++ (first :: rest).take (half (first :: rest))) := by
  have positive : 0 < half (first :: rest) := by
    unfold half
    rw [List.length_cons]
    omega
  have counted : 0 + half (first :: rest) < 2 ^ 64 := by omega
  obtain ⟨victim', dest', runs, leaves, holds⟩ :=
    batchLoop_moves victimIs destIs (half_le _) room counted (by omega)
  refine ⟨victim', dest', ?_, leaves, holds⟩
  have more : ¬ wrappingSub victim.bottom victim.top ≤ 0 := by
    rw [victimIs.shown, List.length_cons]
    omega
  unfold stealBatch
  simp only [if_neg more]
  rw [victimIs.shown, wanted_half victimIs.length_lt]
  exact runs

theorem stealBatchAndPop_cons (victimIs : Represents owner victim (first :: rest))
    (destIs : Represents thief dest ys) (room : ys.length + half (first :: rest) < 2 ^ 62) :
    ∃ victim' dest', stealBatchAndPop victim dest = some (.success first, victim', dest') ∧
      Represents owner victim' ((first :: rest).drop (half (first :: rest))) ∧
      Represents thief dest' (ys ++ ((first :: rest).take (half (first :: rest))).tail) := by
  obtain ⟨others, count⟩ : ∃ others, half (first :: rest) = others + 1 := by
    refine ⟨half (first :: rest) - 1, ?_⟩
    unfold half
    rw [List.length_cons]
    omega
  have within := half_le (first :: rest)
  rw [count, List.length_cons] at within
  obtain ⟨middle, stolen, fewer⟩ := stealFrom_cons victimIs
  obtain ⟨victim', dest', runs, leaves, holds⟩ := restLoop_moves fewer destIs
    (Nat.le_of_succ_le_succ within) (by omega)
  refine ⟨victim', dest', ?_, ?_, ?_⟩
  · have more : ¬ wrappingSub victim.bottom victim.top ≤ 0 := by
      rw [victimIs.shown, List.length_cons]
      omega
    unfold stealBatchAndPop
    simp only [if_neg more]
    rw [victimIs.shown, wanted_half victimIs.length_lt, count]
    simp only [Option.bind_some, stolen, Nat.add_sub_cancel, runs, Option.map_some]
  · rw [count, List.drop_succ_cons]
    exact leaves
  · rw [count, List.take_succ_cons, List.tail_cons]
    exact holds

/-- Whatever the capacities and indices of the two deques. The cells that the
destination needs must be countable in a word. -/
theorem batches_move_half (victimIs : Represents owner victim xs)
    (destIs : Represents thief dest ys) (room : ys.length + half xs < 2 ^ 62) :
    (∀ first rest, xs = first :: rest → ∃ victim' dest',
      stealBatchAndPop victim dest = some (.success first, victim', dest') ∧
        Represents owner victim' (xs.drop (half xs)) ∧
        Represents thief dest' (ys ++ (xs.take (half xs)).tail)) ∧
    (xs ≠ [] → ∃ victim' dest',
      stealBatch victim dest = some (.success (), victim', dest') ∧
        Represents owner victim' (xs.drop (half xs)) ∧
        Represents thief dest' (ys ++ xs.take (half xs))) ∧
    ((∃ after, stealBatchAndPop victim dest = some (.empty, after)) ↔ xs = []) ∧
    ((∃ after, stealBatch victim dest = some (.empty, after)) ↔ xs = []) ∧
    (xs = [] → stealBatchAndPop victim dest = some (.empty, victim, dest) ∧
      stealBatch victim dest = some (.empty, victim, dest)) ∧
    ∀ after, stealBatchAndPop victim dest ≠ some (.retry, after) ∧
      stealBatch victim dest ≠ some (.retry, after) := by
  cases xs with
  | nil =>
      have popped := stealBatchAndPop_nil victimIs dest
      have moved := stealBatch_nil victimIs dest
      refine ⟨?_, fun some' => absurd rfl some', ⟨fun _ => rfl, fun _ => ⟨_, popped⟩⟩,
        ⟨fun _ => rfl, fun _ => ⟨_, moved⟩⟩, fun _ => ⟨popped, moved⟩, ?_⟩
      · intro first rest different
        cases different
      · intro after
        rw [popped, moved]
        constructor <;> intro impossible <;> cases impossible
  | cons first rest =>
      have popped := stealBatchAndPop_cons victimIs destIs room
      have moved := stealBatch_cons victimIs destIs room
      refine ⟨?_, fun _ => moved, ?_, ?_, fun none' => absurd none' (List.cons_ne_nil _ _), ?_⟩
      · intro first' rest' same
        cases same
        exact popped
      · obtain ⟨victim', dest', runs, _contents⟩ := popped
        rw [runs]
        constructor
        · rintro ⟨after, impossible⟩
          cases impossible
        · intro impossible
          cases impossible
      · obtain ⟨victim', dest', runs, _contents⟩ := moved
        rw [runs]
        constructor
        · rintro ⟨after, impossible⟩
          cases impossible
        · intro impossible
          cases impossible
      · intro after
        obtain ⟨victim', dest', runs, _contents⟩ := popped
        obtain ⟨victim'', dest'', runs', _contents'⟩ := moved
        rw [runs, runs']
        constructor <;> intro impossible <;> cases impossible

/-- Three elements in four cells, on both sides of the largest index. -/
def acrossTheEnd : Deque Nat :=
  { bottom := -2 ^ 63 + 1
    top := 2 ^ 63 - 2
    buffer :=
      { cells := fun cell => [some 30, none, some 10, some 20][cell]?.join
        cap := 4 }
    fifo := false
    cachedTop := 2 ^ 63 - 2 }

theorem acrossTheEnd_represents : Represents false acrossTheEnd [10, 20, 30] := by
  refine ⟨rfl, 2, 2 ^ 63 - 2, 2 ^ 63 - 2, ?_⟩
  constructor
  case holds => rfl
  all_goals decide

theorem batches_move_half_acrossTheEnd :
    ∃ dest, withStartIndex Nat true 0 7 = some dest ∧ ∃ victim' dest',
      stealBatchAndPop acrossTheEnd dest = some (.success 10, victim', dest') ∧
        Represents false victim' [30] ∧ Represents true dest' [20] := by
  obtain ⟨dest, created, represents⟩ :=
    withStartIndex_represents (α := Nat) true (by decide : 0 < 62) (by decide : -2 ^ 63 ≤ 7)
      (by decide)
  use dest, created
  exact (batches_move_half acrossTheEnd_represents represents (by decide)).1 10 [20, 30] rfl

end WsDeque.ChaseLev.Deque
