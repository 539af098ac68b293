import WsDeque.Bwos.Chain
import WsDeque.TransitionSystem

/-
What a BWoS queue is for: a stack to its owner, from which a thief is given some
element. The machine takes the labels of the two queues, so that a refinement
also says at which access an operation takes effect.
-/

namespace WsDeque.Bwos.Stack

open InlineValue

variable {ι α : Type*}

inductive OwnerStatus (α : Type*)
  | idle
  | putting (value : α)
  | popping
  | done (result : OwnerResult α)

inductive ThiefStatus (α : Type*)
  | absent
  | idle
  | stealing
  | done (result : Steal α)

structure State (ι α : Type*) where
  items : List α
  owner : OwnerStatus α
  thief : ι → ThiefStatus α

/-- What a `put` may do besides adding its value at the end. -/
structure Kind where
  loses : Bool
  rejects : Bool

variable [DecidableEq ι]

def State.setThief (state : State ι α) (thief : ι) (status : ThiefStatus α) : State ι α :=
  { state with thief := Function.update state.thief thief status }

inductive Step (kind : Kind) (state : State ι α) : Label ι α → State ι α → Prop
  | putCall (value : α) (idle : state.owner = .idle) :
      Step kind state (.putCall value) { state with owner := .putting value }
  | putInternal (value : α) (access : Access α) (putting : state.owner = .putting value)
      (early : ∀ published, access ≠ .publish published) : Step kind state (.owner access) state
  | putAppend (value : α) (putting : state.owner = .putting value) :
      Step kind state (.owner (.publish value))
        { state with
          items := state.items ++ [value]
          owner := .done (.put true) }
  -- The owner is in a block that it has entered again, below what was stolen from it.
  | putLost (value : α) (putting : state.owner = .putting value) (loses : kind.loses = true) :
      Step kind state (.owner (.publish value)) { state with owner := .done (.put true) }
  | putReject (value : α) (putting : state.owner = .putting value) (rejects : kind.rejects = true) :
      Step kind state (.owner .loadCommitted) { state with owner := .done (.put false) }
  | popCall (idle : state.owner = .idle) :
      Step kind state .popCall { state with owner := .popping }
  | popInternal (access : Access α) (popping : state.owner = .popping) :
      Step kind state (.owner access) state
  | popBack (access : Access α) (rest : List α) (value : α) (popping : state.owner = .popping)
      (back : state.items = rest ++ [value]) :
      Step kind state (.owner access)
        { state with
          items := rest
          owner := .done (.popped (some value)) }
  | popEmpty (access : Access α) (popping : state.owner = .popping) (empty : state.items = []) :
      Step kind state (.owner access) { state with owner := .done (.popped none) }
  | ownerTail (access : Access α) (result : OwnerResult α) (done : state.owner = .done result) :
      Step kind state (.owner access) state
  | ownerReturn (result : OwnerResult α) (done : state.owner = .done result) :
      Step kind state (.ownerReturn result) { state with owner := .idle }
  | newStealer (thief : ι) (absent : state.thief thief = .absent) :
      Step kind state (.newStealer thief) (state.setThief thief .idle)
  | stealCall (thief : ι) (idle : state.thief thief = .idle) :
      Step kind state (.stealCall thief) (state.setThief thief .stealing)
  | stealInternal (thief : ι) (access : Access α) (stealing : state.thief thief = .stealing) :
      Step kind state (.thief thief access) state
  | stealOne (thief : ι) (access : Access α) (older newer : List α) (value : α)
      (stealing : state.thief thief = .stealing) (among : state.items = older ++ value :: newer) :
      Step kind state (.thief thief access)
        ({ state with items := older ++ newer }.setThief thief (.done (.success value)))
  | stealFail (thief : ι) (access : Access α) (result : Steal α)
      (stealing : state.thief thief = .stealing) (nothing : ∀ value, result ≠ .success value) :
      Step kind state (.thief thief access) (state.setThief thief (.done result))
  | stealReturn (thief : ι) (result : Steal α) (done : state.thief thief = .done result) :
      Step kind state (.stealReturn thief result) (state.setThief thief .idle)

def initial (ι α : Type*) : State ι α :=
  { items := []
    owner := .idle
    thief := fun _ => .absent }

def system (ι α : Type*) [DecidableEq ι] (kind : Kind) :
    TransitionSystem (State ι α) (Label ι α) :=
  { initial := fun state => state = initial ι α
    step := Step kind }

/-! ### The steps of both queues -/

variable [InlineValue α] {kind : Kind} {items items' : List (BitVec 64)} {owner : OwnerStatus α}
  {thief : ι → ThiefStatus α}

/-- A value that `pop` has removed from its block is as good as returned. -/
def popStatus : Option (BitVec 64) → OwnerStatus α
  | none => .popping
  | some bits => .done (.popped (some (fromBits bits)))

/-- A step of `pop` inside a block. -/
theorem Step.pop {held held' : Option (BitVec 64)} (access : Access α)
    (moved : items' = items ∧ held' = held ∨
      ∃ bits, items = items' ++ [bits] ∧ held = none ∧ held' = some bits) :
    Step kind
      { items := items.map fromBits
        owner := popStatus held
        thief := thief }
      (.owner access)
      { items := items'.map fromBits
        owner := popStatus held'
        thief := thief } := by
  rcases moved with ⟨rfl, rfl⟩ | ⟨bits, rfl, rfl, rfl⟩
  · cases held' with
    | none => exact .popInternal access rfl
    | some bits => exact .ownerTail access _ rfl
  · rw [List.map_append]
    exact .popBack access _ _ rfl rfl

/-- A publication appends, or its value is lost. -/
theorem Step.publish {value : α} {appended : Bool}
    (moved : items' = items ++ if appended then [toBits value] else [])
    (loses : appended = false → kind.loses = true) :
    Step kind
      { items := items.map fromBits
        owner := .putting value
        thief := thief }
      (.owner (.publish value))
      { items := items'.map fromBits
        owner := .done (.put true)
        thief := thief } := by
  subst moved
  cases appended with
  | true =>
      rw [if_pos rfl, List.map_append, List.map_singleton, fromBits_toBits]
      exact .putAppend value rfl
  | false =>
      rw [if_neg Bool.false_ne_true, List.append_nil]
      exact .putLost value rfl (loses rfl)

/-- A thief has taken from the sequence or left it as it was. -/
def stealStatus : StealOutcome → ThiefStatus α
  | .running _ | .drained => .stealing
  | .taken bits => .done (.success (fromBits bits))
  | .lost => .done .retry

theorem Step.steal {thief : ι} {status : ι → ThiefStatus α} {outcome : StealOutcome}
    (access : Access α) (stealing : status thief = .stealing)
    (moved : items' = items ∧ outcome.effect = .silent ∨
      ∃ bits before after, outcome = .taken bits ∧ items = before ++ bits :: after ∧
        items' = before ++ after) :
    Step kind
      { items := items.map fromBits
        owner := owner
        thief := status }
      (.thief thief access)
      { items := items'.map fromBits
        owner := owner
        thief := Function.update status thief (stealStatus outcome) } := by
  have still : Function.update status thief .stealing = status := by
    rw [← stealing, Function.update_eq_self]
  rcases moved with ⟨rfl, silent⟩ | ⟨bits, before, after, rfl, rfl, rfl⟩
  · cases outcome with
    | running pc =>
        simp only [stealStatus, still]
        exact .stealInternal thief access stealing
    | drained =>
        simp only [stealStatus, still]
        exact .stealInternal thief access stealing
    | taken bits => cases silent
    | lost => exact .stealFail thief access .retry stealing fun value same => by cases same
  · rw [List.map_append, List.map_append, List.map_cons]
    exact .stealOne thief access _ _ _ stealing rfl

end WsDeque.Bwos.Stack
