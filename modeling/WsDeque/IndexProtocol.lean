import Mathlib.Logic.Function.Basic
import WsDeque.IndexWindow

/-
One owner at the high end of an interval of indices and any number of takers at
its low end. The owner lowers `bottom` before it reads `top` and contends only
for the last index; a taker reads `top`, then `bottom`, then the cell, and
claims by advancing `top` from the value it saw.

The protocol is stated on logical indices: how the cells are stored, and where
the indices start, is left to the structure that uses it.
-/

namespace WsDeque.IndexProtocol

variable {Party Cell : Type*}

inductive Owner
  | resting
  /-- `bottom` was lowered to the index and `top` is not yet read. -/
  | lowered (index : Int)
  /-- `top` was read equal to the index, which is the last one left. -/
  | contending (index : Int)
  /-- The index is gone; `bottom` still has to be put back above it. -/
  | settling (index : Int)

inductive Taker (Cell : Type*)
  | away
  | sawTop (seen : Int)
  | entered (seen : Int)
  | holding (seen : Int) (item : Cell)

structure State (Party Cell : Type*) where
  top : Int
  bottom : Int
  cell : Int → Cell
  owner : Owner
  taker : Party → Taker Cell

/-- One past the last index that is still in the interval. -/
def Owner.back (bottom : Int) : Owner → Int
  | .resting => bottom
  | .lowered index => index + 1
  | .contending index => index + 1
  | .settling index => index + 1

def State.back (state : State Party Cell) : Int :=
  state.owner.back state.bottom

def State.live (state : State Party Cell) : List Cell :=
  window state.cell state.top state.back

/-! ### The invariant -/

def Owner.Meets (top bottom : Int) : Owner → Prop
  | .resting => True
  | .lowered index => bottom = index ∧ top ≤ index + 1
  | .contending index => bottom = index ∧ index ≤ top ∧ top ≤ index + 1
  | .settling index => bottom = index ∧ top = index + 1

/-- A taker that saw the current `top` knows that the index is still inside,
and one that read the cell knows what it holds. A taker that saw an older
`top` knows nothing, and its claim will fail. -/
def Taker.Meets (top back : Int) (cell : Int → Cell) : Taker Cell → Prop
  | .away => True
  | .sawTop seen => seen ≤ top
  | .entered seen => seen ≤ top ∧ (seen = top → top < back)
  | .holding seen item => seen ≤ top ∧ (seen = top → top < back ∧ item = cell top)

structure Invariant (state : State Party Cell) : Prop where
  owner : state.owner.Meets state.top state.bottom
  taker : ∀ party, (state.taker party).Meets state.top state.back state.cell

/-- Takers are indifferent to every change that keeps `top`, the presence of
the index `top` and its cell, or that moves `top` up. -/
theorem Taker.Meets.frame {taker : Taker Cell} {top top' back back' : Int}
    {cell cell' : Int → Cell} (met : taker.Meets top back cell)
    (forward : top ≤ top')
    (kept : top' = top → top < back → top < back' ∧ cell' top = cell top) :
    taker.Meets top' back' cell' := by
  cases taker with
  | away => trivial
  | sawTop seen => exact Int.le_trans met forward
  | entered seen =>
      obtain ⟨older, inside⟩ := met
      refine ⟨Int.le_trans older forward, fun current => ?_⟩
      have same : top' = top := by omega
      have present := (kept same (inside (by omega))).1
      omega
  | holding seen item =>
      obtain ⟨older, inside⟩ := met
      refine ⟨Int.le_trans older forward, fun current => ?_⟩
      have same : top' = top := by omega
      obtain ⟨below, read⟩ := inside (by omega)
      obtain ⟨present, cellSame⟩ := kept same below
      rw [same]
      exact ⟨present, read.trans cellSame.symm⟩

/-! ### Steps and their effect on the interval -/

inductive Effect (Cell : Type*)
  | silent
  | appended (item : Cell)
  | popped (item : Cell)
  | taken (item : Cell)

def Effect.Applies : Effect Cell → List Cell → List Cell → Prop
  | .silent, before, after => after = before
  | .appended item, before, after => after = before ++ [item]
  | .popped item, before, after => before = after ++ [item]
  | .taken item, before, after => before = item :: after

inductive Step [DecidableEq Party] (state : State Party Cell) :
    Effect Cell → State Party Cell → Prop
  /-- Cells outside the interval may change. -/
  | rewrite (cell : Int → Cell)
      (agree : ∀ index, state.top ≤ index → index < state.back →
        cell index = state.cell index) :
      Step state .silent { state with cell := cell }
  | raise (resting : state.owner = .resting) (level : state.top ≤ state.bottom) :
      Step state (.appended (state.cell state.bottom))
        { state with bottom := state.bottom + 1 }
  /-- Below `top` the owner only fills indices that nobody will ever claim. -/
  | raiseSunk (resting : state.owner = .resting) (sunk : state.bottom < state.top) :
      Step state .silent { state with bottom := state.bottom + 1 }
  | reset (index : Int) (resting : state.owner = .resting)
      (drained : state.bottom ≤ state.top) (low : index ≤ state.top) :
      Step state .silent { state with bottom := index }
  | lower (resting : state.owner = .resting) (level : state.top ≤ state.bottom) :
      Step state .silent
        { state with bottom := state.bottom - 1, owner := .lowered (state.bottom - 1) }
  | keep (index : Int) (held : state.owner = .lowered index) (below : state.top < index) :
      Step state (.popped (state.cell index)) { state with owner := .resting }
  | meet (index : Int) (held : state.owner = .lowered index) (same : state.top = index) :
      Step state .silent { state with owner := .contending index }
  | miss (index : Int) (held : state.owner = .lowered index) (above : index < state.top) :
      Step state .silent { state with owner := .settling index }
  | win (index : Int) (held : state.owner = .contending index) (same : state.top = index) :
      Step state (.taken (state.cell index))
        { state with top := index + 1, owner := .settling index }
  | lose (index : Int) (held : state.owner = .contending index) (moved : state.top ≠ index) :
      Step state .silent { state with owner := .settling index }
  | settle (index : Int) (held : state.owner = .settling index) :
      Step state .silent { state with bottom := index + 1, owner := .resting }
  | seeTop (party : Party) :
      Step state .silent
        { state with taker := Function.update state.taker party (.sawTop state.top) }
  | enter (party : Party) (seen : Int)
      (held : state.taker party = .sawTop seen) (below : seen < state.bottom) :
      Step state .silent
        { state with taker := Function.update state.taker party (.entered seen) }
  | leave (party : Party) :
      Step state .silent
        { state with taker := Function.update state.taker party .away }
  | read (party : Party) (seen : Int)
      (held : state.taker party = .entered seen) :
      Step state .silent
        { state with
          taker := Function.update state.taker party (.holding seen (state.cell seen)) }
  /-- Through an outdated `top` a taker may read anything. -/
  | readOld (party : Party) (seen : Int) (item : Cell)
      (held : state.taker party = .entered seen) (moved : state.top ≠ seen) :
      Step state .silent
        { state with taker := Function.update state.taker party (.holding seen item) }
  | take (party : Party) (seen : Int) (item : Cell)
      (held : state.taker party = .holding seen item) (same : state.top = seen) :
      Step state (.taken item)
        { state with
          top := seen + 1
          taker := Function.update state.taker party .away }

variable [DecidableEq Party]

theorem Step.stutter (state : State Party Cell) : Step state .silent state :=
  .rewrite state.cell fun _index _above _below => rfl

theorem Step.stay (state : State Party Cell) (party : Party) {taker : Taker Cell}
    (held : state.taker party = taker) :
    Step state .silent { state with taker := Function.update state.taker party taker } := by
  rw [← held, Function.update_eq_self]
  exact .stutter state

theorem Invariant.update_taker {state : State Party Cell}
    (invariant : Invariant state) (party : Party) {taker : Taker Cell}
    (met : taker.Meets state.top state.back state.cell) :
    Invariant { state with taker := Function.update state.taker party taker } := by
  refine ⟨invariant.owner, fun other => ?_⟩
  change (Function.update state.taker party taker other).Meets state.top state.back state.cell
  by_cases same : other = party
  · subst same
    rw [Function.update_self]
    exact met
  · rw [Function.update_of_ne same]
    exact invariant.taker other

theorem Step.invariant {state after : State Party Cell} {effect : Effect Cell}
    (taken : Step state effect after) (invariant : Invariant state) : Invariant after := by
  obtain ⟨ownerMeets, takerMeets⟩ := invariant
  cases taken with
  | rewrite cell agree =>
      exact ⟨ownerMeets, fun party => (takerMeets party).frame (Int.le_refl _)
        fun _same inside => ⟨inside, agree _ (Int.le_refl _) inside⟩⟩
  | raise resting level =>
      refine ⟨by simp only [resting, Owner.Meets], fun party =>
        (takerMeets party).frame (Int.le_refl _) fun _same inside => ⟨?_, rfl⟩⟩
      simp only [State.back, resting, Owner.back] at inside ⊢
      omega
  | raiseSunk resting sunk =>
      refine ⟨by simp only [resting, Owner.Meets], fun party =>
        (takerMeets party).frame (Int.le_refl _) fun _same inside => ⟨?_, rfl⟩⟩
      simp only [State.back, resting, Owner.back] at inside ⊢
      omega
  | reset index resting drained low =>
      refine ⟨by simp only [resting, Owner.Meets], fun party =>
        (takerMeets party).frame (Int.le_refl _) fun _same inside => ⟨?_, rfl⟩⟩
      simp only [State.back, resting, Owner.back] at inside
      omega
  | lower resting level =>
      refine ⟨⟨rfl, ?_⟩, fun party =>
        (takerMeets party).frame (Int.le_refl _) fun _same inside => ⟨?_, rfl⟩⟩
      · dsimp only
        omega
      · simp only [State.back, resting, Owner.back] at inside ⊢
        omega
  | keep index held below =>
      simp only [held, Owner.Meets] at ownerMeets
      refine ⟨trivial, fun party =>
        (takerMeets party).frame (Int.le_refl _) fun _same inside => ⟨?_, rfl⟩⟩
      simp only [State.back, Owner.back]
      omega
  | meet index held same =>
      simp only [held, Owner.Meets] at ownerMeets
      refine ⟨⟨ownerMeets.1, by dsimp only; omega, ownerMeets.2⟩, fun party =>
        (takerMeets party).frame (Int.le_refl _) fun _same inside => ⟨?_, rfl⟩⟩
      simpa only [State.back, held, Owner.back] using inside
  | miss index held above =>
      simp only [held, Owner.Meets] at ownerMeets
      refine ⟨⟨ownerMeets.1, by dsimp only; omega⟩, fun party =>
        (takerMeets party).frame (Int.le_refl _) fun _same inside => ⟨?_, rfl⟩⟩
      simpa only [State.back, held, Owner.back] using inside
  | win index held same =>
      simp only [held, Owner.Meets] at ownerMeets
      refine ⟨⟨ownerMeets.1, rfl⟩, fun party =>
        (takerMeets party).frame (by dsimp only; omega) fun moved _inside => ?_⟩
      dsimp only at moved
      omega
  | lose index held moved =>
      simp only [held, Owner.Meets] at ownerMeets
      refine ⟨⟨ownerMeets.1, by dsimp only; omega⟩, fun party =>
        (takerMeets party).frame (Int.le_refl _) fun _same inside => ⟨?_, rfl⟩⟩
      simpa only [State.back, held, Owner.back] using inside
  | settle index held =>
      refine ⟨trivial, fun party =>
        (takerMeets party).frame (Int.le_refl _) fun _same inside => ⟨?_, rfl⟩⟩
      simpa only [State.back, held, Owner.back] using inside
  | seeTop party =>
      exact Invariant.update_taker ⟨ownerMeets, takerMeets⟩ party (Int.le_refl _)
  | enter party seen held below =>
      have met := takerMeets party
      rw [held] at met
      refine Invariant.update_taker ⟨ownerMeets, takerMeets⟩ party ⟨met, fun current => ?_⟩
      -- `bottom ≤ back` in every phase, so an index below `bottom` is inside.
      cases owner : state.owner <;>
        simp only [owner, Owner.Meets] at ownerMeets <;>
        simp only [State.back, owner, Owner.back] <;> omega
  | leave party =>
      exact Invariant.update_taker ⟨ownerMeets, takerMeets⟩ party trivial
  | read party seen held =>
      have met := takerMeets party
      rw [held] at met
      refine Invariant.update_taker ⟨ownerMeets, takerMeets⟩ party
        ⟨met.1, fun current => ⟨met.2 current, ?_⟩⟩
      rw [current]
  | readOld party seen item held moved =>
      have met := takerMeets party
      rw [held] at met
      exact Invariant.update_taker ⟨ownerMeets, takerMeets⟩ party
        ⟨met.1, fun current => absurd current.symm moved⟩
  | take party seen item held same =>
      have met := takerMeets party
      rw [held] at met
      have inside := (met.2 same.symm).1
      have advanced : Invariant { state with top := seen + 1 } := by
        refine ⟨?_, fun other => (takerMeets other).frame (by dsimp only; omega)
          fun moved _inside => by dsimp only at moved; omega⟩
        cases owner : state.owner <;>
          simp only [owner, Owner.Meets] at ownerMeets ⊢ <;>
          simp only [State.back, owner, Owner.back] at inside <;> omega
      exact advanced.update_taker party trivial

theorem Step.applies {state after : State Party Cell} {effect : Effect Cell}
    (taken : Step state effect after) (invariant : Invariant state) :
    effect.Applies state.live after.live := by
  obtain ⟨ownerMeets, takerMeets⟩ := invariant
  cases taken with
  | rewrite cell agree => exact window_congr agree
  | raise resting level =>
      simp only [Effect.Applies, State.live, State.back, resting, Owner.back]
      exact window_snoc _ level
  | raiseSunk resting sunk =>
      simp only [Effect.Applies, State.live, State.back, resting, Owner.back]
      rw [window_empty _ (by omega), window_empty _ (by omega)]
  | reset index resting drained low =>
      simp only [Effect.Applies, State.live, State.back, resting, Owner.back]
      rw [window_empty _ low, window_empty _ drained]
  | lower resting level =>
      simp only [Effect.Applies, State.live, State.back, resting, Owner.back, Int.sub_add_cancel]
  | keep index held below =>
      simp only [held, Owner.Meets] at ownerMeets
      simp only [Effect.Applies, State.live, State.back, held, Owner.back, ownerMeets.1]
      exact window_snoc _ (by omega)
  | meet index held same => simp only [Effect.Applies, State.live, State.back, held, Owner.back]
  | miss index held above => simp only [Effect.Applies, State.live, State.back, held, Owner.back]
  | win index held same =>
      simp only [Effect.Applies, State.live, State.back, held, Owner.back, same]
      exact window_cons _ (by omega)
  | lose index held moved => simp only [Effect.Applies, State.live, State.back, held, Owner.back]
  | settle index held => simp only [Effect.Applies, State.live, State.back, held, Owner.back]
  | seeTop party => rfl
  | enter party seen held below => rfl
  | leave party => rfl
  | read party seen held => rfl
  | readOld party seen item held moved => rfl
  | take party seen item held same =>
      have met := takerMeets party
      rw [held] at met
      obtain ⟨inside, itemRead⟩ := met.2 same.symm
      simp only [Effect.Applies, State.live, State.back, itemRead, ← same]
      exact window_cons _ inside

omit [DecidableEq Party]

/-! ### When the interval is empty -/

theorem Invariant.live_nil_of_settling {state : State Party Cell} {index : Int}
    (invariant : Invariant state) (settling : state.owner = .settling index) :
    state.live = [] := by
  have met := invariant.owner
  simp only [settling, Owner.Meets] at met
  simp only [State.live, State.back, settling, Owner.back]
  exact window_empty _ (by omega)

theorem State.live_nil_of_resting {state : State Party Cell}
    (resting : state.owner = .resting) (drained : state.bottom ≤ state.top) :
    state.live = [] := by
  simp only [State.live, State.back, resting, Owner.back]
  exact window_empty _ drained

/-- Whoever finds `bottom` at or below a `top` it saw before finds the interval
empty, or holding one index that the owner has lowered `bottom` under. -/
theorem Invariant.live_of_drained {state : State Party Cell} {seen : Int}
    (invariant : Invariant state) (older : seen ≤ state.top) (drained : state.bottom ≤ seen) :
    state.live = [] ∨
      ∃ index, state.live = [state.cell index] ∧
        (state.owner = .lowered index ∨ state.owner = .contending index) := by
  have met := invariant.owner
  have single : ∀ index, state.back = index + 1 → index ≤ state.top →
      state.live = [] ∨ state.live = [state.cell index] := by
    intro index backEq low
    simp only [State.live, backEq]
    by_cases last : state.top = index
    · right
      rw [window_cons _ (by omega), window_empty _ (by omega), last]
    · left
      exact window_empty _ (by omega)
  cases owner : state.owner with
  | resting => exact Or.inl (state.live_nil_of_resting owner (by omega))
  | lowered index =>
      simp only [owner, Owner.Meets] at met
      rcases single index (by simp only [State.back, owner, Owner.back]) (by omega) with
        empty | one
      · exact Or.inl empty
      · exact Or.inr ⟨index, one, Or.inl rfl⟩
  | contending index =>
      simp only [owner, Owner.Meets] at met
      rcases single index (by simp only [State.back, owner, Owner.back]) (by omega) with
        empty | one
      · exact Or.inl empty
      · exact Or.inr ⟨index, one, Or.inr rfl⟩
  | settling index => exact Or.inl (invariant.live_nil_of_settling owner)

/-- A claim that finds `top` where it saw it takes the first cell. -/
theorem Invariant.top_lt_back_of_holding {state : State Party Cell} {party : Party}
    {seen : Int} {item : Cell} (invariant : Invariant state)
    (held : state.taker party = .holding seen item) (same : state.top = seen) :
    seen < state.back ∧ item = state.cell seen := by
  have met := invariant.taker party
  rw [held] at met
  have found := met.2 same.symm
  rwa [same] at found

end WsDeque.IndexProtocol
