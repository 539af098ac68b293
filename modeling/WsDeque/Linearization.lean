import Mathlib.Data.List.Basic
import Mathlib.Data.List.Perm.Basic

/-
Linear orders of one collection of events that keep a precedence: wherever the
precedence compares all events under watch, the orders agree on them, and where it
does not compare two events, some order has them side by side.
-/

namespace WsDeque

variable {Event : Type*}

structure Linearizes (precedes : Event → Event → Prop) (events order : List Event) : Prop where
  perm : order.Perm events
  keeps : order.Pairwise fun earlier later => ¬precedes later earlier

variable {precedes : Event → Event → Prop} {events first second order : List Event}

theorem Linearizes.filter_eq (firstLinear : Linearizes precedes events first)
    (secondLinear : Linearizes precedes events second) (watched : Event → Bool)
    (total : ∀ left ∈ events, ∀ right ∈ events, watched left = true → watched right = true →
      left ≠ right → precedes left right ∨ precedes right left) :
    first.filter watched = second.filter watched := by
  have same : ∀ left right, left ∈ first.filter watched → right ∈ second.filter watched →
      ¬precedes right left → ¬precedes left right → left = right := by
    intro left right leftMember rightMember notAfter notBefore
    rw [List.mem_filter] at leftMember rightMember
    by_contra distinct
    rcases total left (firstLinear.perm.mem_iff.mp leftMember.1) right
      (secondLinear.perm.mem_iff.mp rightMember.1) leftMember.2 rightMember.2 distinct with
      before | after
    · exact notBefore before
    · exact notAfter after
  exact List.Perm.eq_of_pairwise same (firstLinear.keeps.filter watched)
    (secondLinear.keeps.filter watched)
    ((firstLinear.perm.trans secondLinear.perm.symm).filter watched)

/-! ### Two events side by side -/

/-- Two neighbours may change places unless the first has to come first. -/
theorem Linearizes.swap {earlier later : List Event} {left right : Event}
    (linear : Linearizes precedes events (earlier ++ left :: right :: later))
    (notBefore : ¬precedes left right) :
    Linearizes precedes events (earlier ++ right :: left :: later) := by
  constructor
  · exact ((List.Perm.swap left right later).append_left earlier).trans linear.perm
  · have keeps := linear.keeps
    simp only [List.pairwise_append, List.pairwise_cons, List.forall_mem_cons] at keeps ⊢
    obtain ⟨before, ⟨⟨_apart, leftLater⟩, rightLater, behind⟩, across⟩ := keeps
    refine ⟨before, ⟨⟨notBefore, rightLater⟩, leftLater, behind⟩, ?_⟩
    intro event member
    obtain ⟨eventLeft, eventRight, eventLater⟩ := across event member
    exact ⟨eventRight, eventLeft, eventLater⟩

/-- Events that the precedence does not compare can come one right after the other,
either way round: first what precedes one of them, last all the rest. -/
theorem Linearizes.side_by_side [DecidableRel precedes] [DecidableEq Event]
    (linear : Linearizes precedes events order)
    (transitive : ∀ first ∈ events, ∀ second ∈ events, ∀ third ∈ events,
      precedes first second → precedes second third → precedes first third)
    (irreflexive : ∀ event ∈ events, ¬precedes event event) {left right : Event}
    (leftMember : left ∈ events) (rightMember : right ∈ events) (distinct : left ≠ right)
    (notBefore : ¬precedes left right) (notAfter : ¬precedes right left) :
    ∃ earlier later, Linearizes precedes events (earlier ++ left :: right :: later) ∧
      Linearizes precedes events (earlier ++ right :: left :: later) := by
  let needed := fun event => decide (precedes event left ∨ precedes event right)
  let others := order.filter fun event => !needed event
  let later := (others.erase left).erase right
  have inEvents : ∀ event ∈ order, event ∈ events := fun event => linear.perm.mem_iff.mp
  have leftOther : left ∈ others := by
    apply List.mem_filter.mpr
    simpa [needed, irreflexive left leftMember, notBefore] using linear.perm.mem_iff.mpr leftMember
  have rightOther : right ∈ others := by
    apply List.mem_filter.mpr
    simpa [needed, irreflexive right rightMember, notAfter] using
      linear.perm.mem_iff.mpr rightMember
  have unneeded : ∀ event ∈ later, event ∈ events ∧ ¬precedes event left ∧
      ¬precedes event right := by
    intro event member
    have other := List.mem_filter.mp (List.mem_of_mem_erase (List.mem_of_mem_erase member))
    refine ⟨inEvents event other.1, ?_⟩
    simpa [needed] using other.2
  have drawn : Linearizes precedes events (order.filter needed ++ left :: right :: later) := by
    constructor
    · have split : others.Perm (left :: right :: later) :=
        (List.perm_cons_erase leftOther).trans
          ((List.perm_cons_erase ((List.mem_erase_of_ne distinct.symm).mpr rightOther)).cons left)
      exact ((split.symm.append_left _).trans (List.filter_append_perm needed order)).trans
        linear.perm
    · have kept : later.Sublist order :=
        (List.erase_sublist.trans List.erase_sublist).trans List.filter_sublist
      simp only [List.pairwise_append, List.pairwise_cons, List.forall_mem_cons]
      refine ⟨linear.keeps.filter needed,
        ⟨⟨notAfter, fun event member => (unneeded event member).2.1⟩,
          fun event member => (unneeded event member).2.2, linear.keeps.sublist kept⟩, ?_⟩
      intro event member
      obtain ⟨inOrder, before⟩ := List.mem_filter.mp member
      have eventMember := inEvents event inOrder
      have early : precedes event left ∨ precedes event right := of_decide_eq_true before
      refine ⟨fun after => ?_, fun after => ?_, fun other otherMember after => ?_⟩
      · rcases early with beforeLeft | beforeRight
        · exact irreflexive left leftMember
            (transitive left leftMember event eventMember left leftMember after beforeLeft)
        · exact notBefore
            (transitive left leftMember event eventMember right rightMember after beforeRight)
      · rcases early with beforeLeft | beforeRight
        · exact notAfter
            (transitive right rightMember event eventMember left leftMember after beforeLeft)
        · exact irreflexive right rightMember
            (transitive right rightMember event eventMember right rightMember after beforeRight)
      · obtain ⟨otherEvent, notLeft, notRight⟩ := unneeded other otherMember
        rcases early with beforeLeft | beforeRight
        · exact notLeft
            (transitive other otherEvent event eventMember left leftMember after beforeLeft)
        · exact notRight
            (transitive other otherEvent event eventMember right rightMember after beforeRight)
  exact ⟨order.filter needed, later, drawn, drawn.swap notBefore⟩

variable [DecidableEq Event]

/-- The events ahead of one of them. -/
def ahead (event : Event) (order : List Event) : List Event :=
  order.takeWhile fun other => decide (other ≠ event)

theorem ahead_append {event : Event} {earlier : List Event} (later : List Event)
    (fresh : event ∉ earlier) : ahead event (earlier ++ event :: later) = earlier := by
  induction earlier with
  | nil => simp [ahead]
  | cons first rest ih =>
      rw [List.mem_cons, not_or] at fresh
      have different : decide (first ≠ event) = true := decide_eq_true (Ne.symm fresh.1)
      simp only [ahead, List.cons_append, List.takeWhile_cons, different, if_true]
      exact congrArg (first :: ·) (ih fresh.2)

/-- What is ahead of an event is what precedes it. -/
theorem Linearizes.filter_ahead [DecidableRel precedes] (linear : Linearizes precedes events order)
    (nodup : events.Nodup) (watched : Event → Bool) {event : Event} (member : event ∈ events)
    (unwatched : watched event = false)
    (compared : ∀ other ∈ events, watched other = true →
      precedes other event ∨ precedes event other) :
    (ahead event order).filter watched =
      (order.filter watched).filter fun other => decide (precedes other event) := by
  obtain ⟨earlier, later, rfl⟩ := List.append_of_mem (linear.perm.mem_iff.mpr member)
  have fresh : event ∉ earlier := by
    have distinct := linear.perm.nodup_iff.mpr nodup
    exact fun again => List.nodup_append.mp distinct |>.2.2 event again event
      List.mem_cons_self rfl
  have keeps := List.pairwise_append.mp linear.keeps
  have allEarlier : (earlier.filter watched).filter (fun other => decide (precedes other event)) =
      earlier.filter watched := by
    rw [List.filter_eq_self]
    intro other otherMember
    rw [List.mem_filter] at otherMember
    have inEvents := linear.perm.mem_iff.mp (List.mem_append_left _ otherMember.1)
    have notAfter := keeps.2.2 other otherMember.1 event List.mem_cons_self
    exact decide_eq_true ((compared other inEvents otherMember.2).resolve_right notAfter)
  have noneLater : (later.filter watched).filter (fun other => decide (precedes other event)) =
      [] := by
    rw [List.filter_eq_nil_iff]
    intro other otherMember precedesEvent
    rw [List.mem_filter] at otherMember
    exact (List.pairwise_cons.mp keeps.2.1).1 other otherMember.1 (of_decide_eq_true precedesEvent)
  rw [ahead_append later fresh, List.filter_append, List.filter_append, allEarlier,
    List.filter_cons_of_neg (by simp [unwatched]), noneLater, List.append_nil]

end WsDeque
