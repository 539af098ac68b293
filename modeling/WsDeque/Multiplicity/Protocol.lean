import Mathlib.Data.List.Basic
import Mathlib.Logic.Function.Basic
import Mathlib.Logic.Relation

/-
Work-stealing with multiplicity in the abstract: parties hand out the positions
of a growing list in the order of a shared index, without agreeing on who gets
which one.
-/

namespace WsDeque.Multiplicity

/-- How a party moves the index past the position it takes: by a maximum, after
a claim on the position and by a maximum, or by a plain store and with a maximum
of its own. -/
inductive Kind
  | strong
  | exclusive
  | weak
  deriving DecidableEq

inductive Phase (Item : Type*)
  | away
  | saw (index : Nat)
  /-- The item is read and will be handed out. -/
  | holding (index : Nat) (item : Item)
  | storing (index : Nat) (item : Item)
  /-- Somebody else claimed the position. -/
  | refused (index : Nat)
  | returning (index : Nat) (item : Item)

structure Delivery (Party Item : Type*) where
  party : Party
  position : Nat
  item : Item

structure State (Party Item : Type*) where
  head : Nat
  items : List Item
  delivered : List (Delivery Party Item)
  register : Party → Nat
  claimed : Nat → Bool
  phase : Party → Phase Item

variable {Party Item : Type*}

def State.start (Party Item : Type*) : State Party Item :=
  { head := 0
    items := []
    delivered := []
    register := fun _ => 0
    claimed := fun _ => false
    phase := fun _ => .away }

def State.handOut (state : State Party Item) (delivery : Delivery Party Item) :
    State Party Item :=
  { state with delivered := state.delivered ++ [delivery] }

variable [DecidableEq Party]

def State.setPhase (state : State Party Item) (party : Party) (phase : Phase Item) :
    State Party Item :=
  { state with phase := Function.update state.phase party phase }

def State.setRegister (state : State Party Item) (party : Party) (value : Nat) :
    State Party Item :=
  { state with register := Function.update state.register party value }

inductive Step (kind : Party → Kind) : State Party Item → State Party Item → Prop
  | publish {state : State Party Item} (item : Item) :
      Step kind state { state with items := state.items ++ [item] }
  | see {state : State Party Item} (party : Party) (reads : kind party ≠ .weak)
      (away : state.phase party = .away) :
      Step kind state (state.setPhase party (.saw state.head))
  /-- A weak party reads the larger of the index and its own maximum. -/
  | seeRanged {state : State Party Item} (party : Party) (reads : kind party = .weak)
      (away : state.phase party = .away) :
      Step kind state
        ((state.setRegister party (max state.head (state.register party))).setPhase party
          (.saw (max state.head (state.register party))))
  | leave {state : State Party Item} (party : Party) (index : Nat)
      (saw : state.phase party = .saw index) : Step kind state (state.setPhase party .away)
  | hold {state : State Party Item} (party : Party) (index : Nat) (item : Item)
      (free : kind party ≠ .exclusive) (saw : state.phase party = .saw index)
      (there : state.items[index]? = some item) :
      Step kind state (state.setPhase party (.holding index item))
  | claim {state : State Party Item} (party : Party) (index : Nat) (item : Item)
      (claims : kind party = .exclusive) (saw : state.phase party = .saw index)
      (there : state.items[index]? = some item) (unclaimed : state.claimed index = false) :
      Step kind state
        ({ state with claimed := Function.update state.claimed index true }.setPhase party
          (.holding index item))
  | refuse {state : State Party Item} (party : Party) (index : Nat)
      (claims : kind party = .exclusive) (saw : state.phase party = .saw index)
      (taken : state.claimed index = true) :
      Step kind state (state.setPhase party (.refused index))
  /-- After a refusal the index is moved for the party that won. -/
  | nudge {state : State Party Item} (party : Party) (index : Nat)
      (claims : kind party = .exclusive) (refused : state.phase party = .refused index) :
      Step kind state
        ({ state with head := max state.head (index + 1) }.setPhase party .away)
  | raise {state : State Party Item} (party : Party) (index : Nat) (item : Item)
      (raises : kind party ≠ .weak) (holds : state.phase party = .holding index item) :
      Step kind state
        ({ state with head := max state.head (index + 1) }.setPhase party
          (.returning index item))
  /-- The first half of a weak write: only a new maximum is stored. -/
  | remember {state : State Party Item} (party : Party) (index : Nat) (item : Item)
      (stores : kind party = .weak) (holds : state.phase party = .holding index item) :
      Step kind state
        ((state.setRegister party
            (max (max state.head (state.register party)) (index + 1))).setPhase party
          (if max state.head (state.register party) < index + 1 then .storing index item
            else .returning index item))
  | store {state : State Party Item} (party : Party) (index : Nat) (item : Item)
      (stores : kind party = .weak) (holds : state.phase party = .storing index item) :
      Step kind state ({ state with head := index + 1 }.setPhase party (.returning index item))
  | deliver {state : State Party Item} (party : Party) (index : Nat) (item : Item)
      (holds : state.phase party = .returning index item) :
      Step kind state
        ((state.handOut { party := party, position := index, item := item }).setPhase party .away)

/-- What a run of the protocol reaches; in a monotone one no step lowers the index. -/
def Reachable (kind : Party → Kind) (monotone : Bool) (state : State Party Item) : Prop :=
  Relation.ReflTransGen
    (fun before after => Step kind before after ∧ (monotone = true → before.head ≤ after.head))
    (State.start Party Item) state

/-- What a run reaches in which the index was lowered at most so many times. -/
inductive ReachableIn (kind : Party → Kind) : Nat → State Party Item → Prop
  | start (drops : Nat) : ReachableIn kind drops (State.start Party Item)
  | keep {drops : Nat} {before after : State Party Item}
      (prior : ReachableIn kind drops before) (step : Step kind before after)
      (kept : before.head ≤ after.head) : ReachableIn kind drops after
  | lower {drops : Nat} {before after : State Party Item}
      (prior : ReachableIn kind drops before) (step : Step kind before after) :
      ReachableIn kind (drops + 1) after

theorem ReachableIn.reachable {kind : Party → Kind} {drops : Nat} {state : State Party Item}
    (counted : ReachableIn kind drops state) : Reachable kind false state := by
  induction counted with
  | start drops => exact .refl
  | keep prior step kept ih => exact Relation.ReflTransGen.tail ih ⟨step, nofun⟩
  | lower prior step ih => exact Relation.ReflTransGen.tail ih ⟨step, nofun⟩

theorem ReachableIn.more {kind : Party → Kind} {drops : Nat} {state : State Party Item}
    (counted : ReachableIn kind drops state) : ReachableIn kind (drops + 1) state := by
  induction counted with
  | start drops => exact .start (drops + 1)
  | keep prior step kept ih => exact ih.keep step kept
  | lower prior step ih => exact ih.lower step

/-- Only a plain store can lower the index. -/
theorem Step.head_le {kind : Party → Kind} {before after : State Party Item}
    (step : Step kind before after) (noWeak : ∀ party, kind party ≠ .weak) :
    before.head ≤ after.head := by
  cases step with
  | nudge party index claims refused => exact Nat.le_max_left _ _
  | raise party index item raises holds => exact Nat.le_max_left _ _
  | store party index item stores holds => exact absurd stores (noWeak party)
  | _ => exact Nat.le_refl _

theorem Reachable.induction {kind : Party → Kind} {monotone : Bool}
    {Holds : State Party Item → Prop} (atStart : Holds (State.start Party Item))
    (preserved : ∀ before after, Step kind before after →
      (monotone = true → before.head ≤ after.head) → Holds before → Holds after)
    {state : State Party Item} (reachable : Reachable kind monotone state) : Holds state := by
  induction reachable with
  | refl => exact atStart
  | tail _prior last ih => exact preserved _ _ last.1 last.2 ih

/-- At most one step. -/
def Moves (kind : Party → Kind) (before after : State Party Item) : Prop :=
  after = before ∨ Step kind before after

theorem ReachableIn.moves {kind : Party → Kind} {drops : Nat} {before after : State Party Item}
    (counted : ReachableIn kind drops before) (moves : Moves kind before after)
    (kept : before.head ≤ after.head) : ReachableIn kind drops after := by
  rcases moves with rfl | step
  · exact counted
  · exact counted.keep step kept

theorem Reachable.monotone {kind : Party → Kind} (noWeak : ∀ party, kind party ≠ .weak)
    {kept : Bool} {state : State Party Item} (reachable : Reachable kind kept state) :
    Reachable kind true state := by
  apply reachable.induction
  · exact .refl
  · intro before after step _kept soFar
    exact Relation.ReflTransGen.tail soFar ⟨step, fun _monotone => step.head_le noWeak⟩

/-! ### One party moves -/

theorem State.setPhase_self (state : State Party Item) (party : Party) (phase : Phase Item) :
    (state.setPhase party phase).phase party = phase :=
  Function.update_self ..

theorem State.setPhase_other (state : State Party Item) {party other : Party}
    (phase : Phase Item) (different : other ≠ party) :
    (state.setPhase party phase).phase other = state.phase other :=
  Function.update_of_ne different ..

/-- A property of every party's phase after one of them moved. -/
theorem State.forall_setPhase (Holds : Party → Phase Item → Prop) {state : State Party Item}
    {party : Party} {phase : Phase Item} (here : Holds party phase)
    (others : ∀ other, other ≠ party → Holds other (state.phase other)) :
    ∀ other, Holds other ((state.setPhase party phase).phase other) := by
  intro other
  by_cases same : other = party
  · subst same
    rw [State.setPhase_self]
    exact here
  · rw [State.setPhase_other _ _ same]
    exact others other same

/-! ### One owner among the parties -/

section

variable {Value : Type*}

def withOwner (owner : Value) (others : Party → Value) : Option Party → Value
  | none => owner
  | some party => others party

theorem withOwner_owner (owner changed : Value) (others : Party → Value) :
    withOwner changed others = Function.update (withOwner owner others) none changed := by
  funext party
  cases party with
  | none => exact (Function.update_self none changed (withOwner owner others)).symm
  | some other => exact (Function.update_of_ne (Option.some_ne_none other) _ _).symm

theorem withOwner_other (owner changed : Value) (others : Party → Value) (party : Party) :
    withOwner owner (Function.update others party changed) =
      Function.update (withOwner owner others) (some party) changed := by
  funext either
  cases either with
  | none => exact (Function.update_of_ne (Option.some_ne_none party).symm _ _).symm
  | some other =>
      by_cases same : other = party
      · subst same
        rw [Function.update_self]
        exact Function.update_self ..
      · rw [Function.update_of_ne fun equal => same (Option.some.inj equal)]
        exact Function.update_of_ne same ..

end

/-! ### The items that are read -/

/-- The item that a party is going to hand out. -/
def Phase.item : Phase Item → Option (Nat × Item)
  | .holding index item | .storing index item | .returning index item => some (index, item)
  | _ => none

/-- Every item read is the one published at its position. -/
structure Genuine (state : State Party Item) : Prop where
  held : ∀ party, ∀ entry ∈ (state.phase party).item, state.items[entry.1]? = some entry.2
  delivered : ∀ delivery ∈ state.delivered,
    state.items[delivery.position]? = some delivery.item

theorem Genuine.setPhase {state : State Party Item} (genuine : Genuine state) {party : Party}
    {phase : Phase Item} (here : ∀ entry ∈ phase.item, state.items[entry.1]? = some entry.2) :
    Genuine (state.setPhase party phase) :=
  { held := State.forall_setPhase
      (fun _party phase => ∀ entry ∈ phase.item, state.items[entry.1]? = some entry.2)
      here fun other _different => genuine.held other
    delivered := genuine.delivered }

theorem Genuine.step {kind : Party → Kind} {before after : State Party Item}
    (genuine : Genuine before) (step : Step kind before after) : Genuine after := by
  cases step with
  | publish item =>
      have grows : ∀ (index : Nat) (old : Item), before.items[index]? = some old →
          (before.items ++ [item])[index]? = some old := by
        intro index old there
        rw [List.getElem?_append_left (List.getElem?_eq_some_iff.mp there).1]
        exact there
      constructor
      · exact fun party entry member => grows _ _ (genuine.held party entry member)
      · exact fun delivery member => grows _ _ (genuine.delivered delivery member)
  | see party reads away => exact genuine.setPhase fun _entry member => nomatch member
  | seeRanged party reads away =>
      have kept : Genuine (before.setRegister party (max before.head (before.register party))) :=
        ⟨genuine.held, genuine.delivered⟩
      exact kept.setPhase fun _entry member => nomatch member
  | leave party index saw => exact genuine.setPhase fun _entry member => nomatch member
  | hold party index item free saw there =>
      apply genuine.setPhase
      rintro entry ⟨⟩
      exact there
  | claim party index item claims saw there unclaimed =>
      have kept : Genuine
          { before with claimed := Function.update before.claimed index true } :=
        ⟨genuine.held, genuine.delivered⟩
      apply kept.setPhase
      rintro entry ⟨⟩
      exact there
  | refuse party index claims saw taken =>
      exact genuine.setPhase fun _entry member => nomatch member
  | nudge party index claims refused =>
      have kept : Genuine { before with head := max before.head (index + 1) } :=
        ⟨genuine.held, genuine.delivered⟩
      exact kept.setPhase fun _entry member => nomatch member
  | raise party index item raises holds =>
      have kept : Genuine { before with head := max before.head (index + 1) } :=
        ⟨genuine.held, genuine.delivered⟩
      apply kept.setPhase
      rintro entry ⟨⟩
      exact genuine.held party _ (by rw [holds]; rfl)
  | remember party index item stores holds =>
      have there : before.items[index]? = some item :=
        genuine.held party (index, item) (by rw [holds]; rfl)
      have kept : Genuine (before.setRegister party
          (max (max before.head (before.register party)) (index + 1))) :=
        ⟨genuine.held, genuine.delivered⟩
      apply kept.setPhase
      intro entry member
      split at member <;> cases member <;> exact there
  | store party index item stores holds =>
      have kept : Genuine { before with head := index + 1 } :=
        ⟨genuine.held, genuine.delivered⟩
      apply kept.setPhase
      rintro entry ⟨⟩
      exact genuine.held party _ (by rw [holds]; rfl)
  | deliver party index item holds =>
      have there : before.items[index]? = some item :=
        genuine.held party (index, item) (by rw [holds]; rfl)
      have kept : Genuine (before.handOut { party := party, position := index, item := item }) := by
        constructor
        · exact genuine.held
        · intro delivery member
          rcases List.mem_append.mp member with old | new
          · exact genuine.delivered delivery old
          · rw [List.mem_singleton.mp new]
            exact there
      exact kept.setPhase fun _entry member => nomatch member

theorem genuine_of_reachable {kind : Party → Kind} {monotone : Bool} {state : State Party Item}
    (reachable : Reachable kind monotone state) : Genuine state := by
  apply reachable.induction
  · constructor
    · exact fun _party _entry member => nomatch member
    · exact fun _delivery member => nomatch member
  · exact fun before after step _kept genuine => genuine.step step

end WsDeque.Multiplicity
