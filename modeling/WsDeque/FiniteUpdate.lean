import Mathlib.Algebra.BigOperators.Group.Finset.Basic
import Mathlib.Algebra.BigOperators.Group.Finset.Piecewise
import Mathlib.Data.Fintype.Basic
import Mathlib.Tactic.Abel

/-
Sums over finitely many parties when one party changes, and totals that shares
leave and join.
-/

namespace WsDeque

variable {Party Local Total : Type*} [Fintype Party] [DecidableEq Party] [AddCommMonoid Total]

/-- The old share moves to the other side, so that no subtraction is needed. -/
theorem sum_update_add_at (share : Party → Local → Total) (assignment : Party → Local)
    (party : Party) (value : Local) :
    (∑ other, share other (Function.update assignment party value other)) +
        share party (assignment party) =
      (∑ other, share other (assignment other)) + share party value := by
  rw [← Finset.add_sum_erase Finset.univ (fun other => share other (assignment other))
      (Finset.mem_univ party),
    ← Finset.add_sum_erase Finset.univ
      (fun other => share other (Function.update assignment party value other))
      (Finset.mem_univ party)]
  have rest : ∀ other ∈ Finset.univ.erase party,
      share other (Function.update assignment party value other) =
        share other (assignment other) := by
    intro other member
    rw [Function.update_of_ne (Finset.ne_of_mem_erase member)]
  rw [Finset.sum_congr rfl rest, Function.update_self]
  ac_rfl

theorem sum_update_add (share : Local → Total) (assignment : Party → Local) (party : Party)
    (value : Local) :
    (∑ other, share (Function.update assignment party value other)) + share (assignment party) =
      (∑ other, share (assignment other)) + share value :=
  sum_update_add_at (fun _ => share) assignment party value

/-- One party gives something up, and nobody else takes it. -/
theorem sum_add_le {before after : Party → Nat} {gone : Nat} (party : Party)
    (here : after party + gone ≤ before party)
    (others : ∀ other, other ≠ party → after other = before other) :
    (∑ other, after other) + gone ≤ ∑ other, before other := by
  have rest : ∑ other ∈ Finset.univ.erase party, after other =
      ∑ other ∈ Finset.univ.erase party, before other :=
    Finset.sum_congr rfl fun other member => others other (Finset.ne_of_mem_erase member)
  have was := Finset.add_sum_erase Finset.univ before (Finset.mem_univ party)
  have becomes := Finset.add_sum_erase Finset.univ after (Finset.mem_univ party)
  omega

/-! ### What leaves and what joins a total -/

/-- From `before` to `after` the share `gone` leaves and the share `come` joins. -/
def Shifts (before gone come after : Total) : Prop :=
  after + gone = before + come

theorem sum_update_shifts_at (share : Party → Local → Total) (assignment : Party → Local)
    (party : Party) (value : Local) :
    Shifts (∑ other, share other (assignment other)) (share party (assignment party))
      (share party value) (∑ other, share other (Function.update assignment party value other)) :=
  sum_update_add_at share assignment party value

theorem sum_update_shifts (share : Local → Total) (assignment : Party → Local) (party : Party)
    (value : Local) :
    Shifts (∑ other, share (assignment other)) (share (assignment party)) (share value)
      (∑ other, share (Function.update assignment party value other)) :=
  sum_update_add share assignment party value

section

variable {Total : Type*} [AddCancelCommMonoid Total] {before gone come middle after : Total}

theorem Shifts.refl (total : Total) : Shifts total 0 0 total := rfl

theorem Shifts.of_eq (same : after = before) : Shifts before 0 0 after :=
  congrArg (· + 0) same

theorem Shifts.trans {gone' come' : Total} (first : Shifts before gone come middle)
    (second : Shifts middle gone' come' after) :
    Shifts before (gone + gone') (come + come') after := by
  unfold Shifts at *
  calc after + (gone + gone') = after + gone' + gone := by abel
    _ = middle + gone + come' := by rw [second]; abel
    _ = before + (come + come') := by rw [first]; abel

theorem Shifts.add_right (shifts : Shifts before gone come after) (rest : Total) :
    Shifts (before + rest) gone come (after + rest) := by
  unfold Shifts at *
  calc after + rest + gone = after + gone + rest := by abel
    _ = before + rest + come := by rw [shifts]; abel

theorem Shifts.add_left (shifts : Shifts before gone come after) (rest : Total) :
    Shifts (rest + before) gone come (rest + after) := by
  unfold Shifts at *
  rw [add_assoc, shifts, add_assoc]

theorem Shifts.same (shifts : Shifts before gone come after) (balanced : gone = come) :
    after = before := by
  subst balanced
  exact add_right_cancel shifts

theorem Shifts.gains (shifts : Shifts before gone come after) {gain : Total}
    (balanced : come = gone + gain) : after = before + gain := by
  subst balanced
  apply add_right_cancel (b := gone)
  rw [shifts]
  abel

theorem Shifts.loses (shifts : Shifts before gone come after) {loss : Total}
    (balanced : gone = come + loss) : after + loss = before := by
  subst balanced
  apply add_right_cancel (b := come)
  rw [← shifts]
  abel

end

/-- A balance of four flows and a stock, when each gains what one step brings. -/
theorem balance_step {Total : Type*} [AddCancelCommMonoid Total]
    {out handed inside pushed joined enters gone leaves stock stock' was is' : Total}
    (balance : out + joined = inside + gone + stock) (moved : stock' + was = stock + is')
    (step : handed + enters + was = pushed + leaves + is') :
    out + handed + (joined + enters) = inside + pushed + (gone + leaves) + stock' := by
  apply add_right_cancel (b := was)
  calc out + handed + (joined + enters) + was
      = (out + joined) + (handed + enters + was) := by abel
    _ = (inside + gone + stock) + (pushed + leaves + is') := by rw [balance, step]
    _ = inside + pushed + (gone + leaves) + (stock + is') := by abel
    _ = inside + pushed + (gone + leaves) + stock' + was := by rw [← moved]; abel

/-! ### Lists as multisets -/

section

variable {Task : Type*}

theorem coe_cons (task : Task) (rest : List Task) :
    ((task :: rest : List Task) : Multiset Task) = rest + {task} := by
  rw [← Multiset.cons_coe, ← Multiset.singleton_add, add_comm]

theorem coe_snoc (rest : List Task) (task : Task) :
    ((rest ++ [task] : List Task) : Multiset Task) = rest + {task} :=
  (Multiset.coe_add rest [task]).symm

/-- Dealing out a list loses nothing. -/
theorem sum_dealt {hands : Nat} (some : 0 < hands) (cards : List (Task × Nat)) :
    ∑ hand : Fin hands,
        (((cards.filter fun card => card.2 % hands = hand).map Prod.fst : List Task) :
          Multiset Task) =
      (cards.map Prod.fst : List Task) := by
  induction cards with
  | nil => simp
  | cons card rest ih =>
      have dealt : ∀ hand : Fin hands,
          ((((card :: rest).filter fun card => card.2 % hands = hand).map Prod.fst : List Task) :
            Multiset Task) =
          ((rest.filter fun card => card.2 % hands = hand).map Prod.fst : List Task) +
            if (⟨card.2 % hands, Nat.mod_lt _ some⟩ : Fin hands) = hand then {card.1} else 0 := by
        intro hand
        by_cases here : card.2 % hands = hand
        · have same : (⟨card.2 % hands, Nat.mod_lt _ some⟩ : Fin hands) = hand := Fin.ext here
          rw [List.filter_cons_of_pos (by simpa using here), List.map_cons, coe_cons, if_pos same]
        · have different : (⟨card.2 % hands, Nat.mod_lt _ some⟩ : Fin hands) ≠ hand :=
            fun same => here (congrArg Fin.val same)
          rw [List.filter_cons_of_neg (by simpa using here), if_neg different, add_zero]
      rw [Finset.sum_congr rfl fun hand _member => dealt hand, Finset.sum_add_distrib, ih,
        Fintype.sum_ite_eq, List.map_cons, coe_cons]

end

/-! ### One distinguished party -/

/-- The assignment of the owner together with those of the thieves. -/
def byParty {Thief : Type*} (owner : Local) (thief : Thief → Local) : Option Thief → Local
  | none => owner
  | some party => thief party

section

variable {Thief : Type*} [DecidableEq Thief] (owner value : Local) (thief : Thief → Local)

theorem byParty_update_owner :
    Function.update (byParty owner thief) none value = byParty value thief := by
  funext party
  cases party <;> simp [byParty]

theorem byParty_update_thief (party : Thief) :
    Function.update (byParty owner thief) (some party) value =
      byParty owner (Function.update thief party value) := by
  funext other
  cases other with
  | none => simp [byParty]
  | some other =>
      by_cases same : other = party
      · subst same
        simp [byParty]
      · rw [Function.update_of_ne (by simpa using same)]
        simp [byParty, Function.update_of_ne same]

end

end WsDeque
