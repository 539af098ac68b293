import WsDeque.Idempotent.Runs

/-
Dropping the array queue: the walk over the active array frees every task that
was put, once, and no array is left or freed twice.
-/

namespace WsDeque.Idempotent

variable {ι α : Type*}

/-- What `Drop for Inner` frees, in order. -/
structure Freed (α : Type*) where
  tasks : List α
  arrays : List TasksPtr
  deriving DecidableEq

def Inner.drop (inner : Inner α) : Freed α :=
  let active := inner.arrays inner.tasks
  { tasks := (List.range active.len).filterMap active.cells
    arrays := inner.tasks :: inner.retired }

/-- Reading a list cell by cell. -/
theorem filterMap_getElem? (items : List α) (count : Nat) :
    ((List.range count).filterMap fun index => items[index]?) = items.take count := by
  induction count with
  | zero => rfl
  | succ count ih =>
      rw [List.range_succ, List.filterMap_append, ih, List.take_add_one]
      cases there : items[count]? <;> simp [there]

/-! ### The arrays so far -/

/-- Each array was retired for the next one. -/
def Inner.Chained (inner : Inner α) : OwnerPc α → Prop
  | .growLoad growth _ | .growStore growth _ _ | .growPublish growth =>
      growth.old = inner.tasks ∧ growth.bigger = inner.tasks + 1 ∧
        inner.allocated = inner.tasks + 2 ∧ inner.retired = (List.range inner.tasks).reverse
  | .retireLoad growth | .retireCas growth _ =>
      inner.tasks = growth.old + 1 ∧ inner.allocated = inner.tasks + 1 ∧
        inner.retired = (List.range growth.old).reverse
  | _ => inner.allocated = inner.tasks + 1 ∧ inner.retired = (List.range inner.tasks).reverse

variable {inner after : Inner α} {tail tail' : Nat} {spurious : Bool} {access : Access α}
  {pc pc' : OwnerPc α}

theorem Inner.Chained.growFrom {growth : Growth α} {i : Nat} (old : growth.old = inner.tasks)
    (bigger : growth.bigger = inner.tasks + 1) (allocated : inner.allocated = inner.tasks + 2)
    (retired : inner.retired = (List.range inner.tasks).reverse) :
    inner.Chained (growFrom inner growth i) := by
  unfold Idempotent.growFrom
  split <;> exact ⟨old, bigger, allocated, retired⟩

theorem Inner.Chained.step (chained : inner.Chained pc)
    (moved : ownerStep inner tail spurious pc = some (access, after, tail', pc')) :
    after.Chained pc' := by
  cases pc with
  | idle => cases moved
  | returned result => cases moved
  | panicked => cases moved
  | putLoadTasks task =>
      obtain ⟨allocated, retired⟩ := chained
      simp only [ownerStep] at moved
      split at moved
      · cases moved
        refine Inner.Chained.growFrom rfl allocated ?_ retired
        exact congrArg (· + 1) allocated
      · cases moved
        exact ⟨allocated, retired⟩
  | growLoad growth i =>
      cases moved
      exact chained
  | growStore growth i p =>
      obtain ⟨old, bigger, allocated, retired⟩ := chained
      cases moved
      unfold Idempotent.growFrom
      split <;> exact ⟨old, bigger, allocated, retired⟩
  | growPublish growth =>
      obtain ⟨old, bigger, allocated, retired⟩ := chained
      cases moved
      refine ⟨bigger.trans (by rw [old]), allocated.trans (by rw [bigger]), ?_⟩
      rw [old]
      exact retired
  | retireLoad growth =>
      cases moved
      exact chained
  | retireCas growth head =>
      obtain ⟨tasks, allocated, retired⟩ := chained
      simp only [ownerStep] at moved
      split at moved
      · rename_i wins
        cases moved
        refine ⟨allocated, ?_⟩
        change growth.old :: head = (List.range inner.tasks).reverse
        rw [← wins.2, retired, tasks, List.range_succ, List.reverse_append, List.reverse_singleton,
          List.singleton_append]
      · cases moved
        exact ⟨tasks, allocated, retired⟩
  | putStoreTask task arr =>
      simp only [ownerStep] at moved
      split at moved <;> cases moved <;> exact chained
  | putStoreNull arr =>
      simp only [ownerStep] at moved
      split at moved <;> cases moved <;> exact chained
  | takeLoadHead =>
      cases moved
      split <;> exact chained
  | takeLoadTasks head =>
      cases moved
      exact chained
  | takeLoadCell head arr =>
      simp only [ownerStep] at moved
      split at moved
      · cases moved
        split <;> exact chained
      · cases moved
        exact chained
  | takeMaxHead head task =>
      cases moved
      exact chained

/-- Thieves leave the arrays where they are. -/
theorem thiefStep_retired {how : Method} {r r' : Nat} {thiefPc thiefPc' : ThiefPc α}
    (moved : thiefStep how inner r thiefPc = some (access, after, r', thiefPc')) :
    after.retired = inner.retired := by
  cases thiefPc with
  | idle => cases moved
  | returned head result => cases moved
  | panicked => cases moved
  | loadHead => cases how <;> cases moved <;> rfl
  | claim head arr task =>
      simp only [thiefStep] at moved
      split at moved <;> cases moved <;> rfl
  | reloadHead head task =>
      simp only [thiefStep] at moved
      split at moved <;> cases moved <;> rfl
  | _ =>
      cases moved
      rfl

theorem Inner.Chained.same (chained : inner.Chained pc) (shelf : after.shelf = inner.shelf)
    (retired : after.retired = inner.retired) : after.Chained pc := by
  have tasks : after.tasks = inner.tasks := congrArg Shelf.tasks shelf
  have allocated : after.allocated = inner.allocated := congrArg Shelf.allocated shelf
  cases pc <;> simp only [Inner.Chained, tasks, allocated, retired] at chained ⊢ <;> exact chained

variable [DecidableEq ι] {shape : Shape} {method : ι → Method} {labels : List (Label ι α)}
  {state : State ι α}

theorem chained_of_reaches (reached : (system ι α shape method).Reaches labels state) :
    state.inner.Chained state.owner := by
  obtain ⟨start, isInitial, run⟩ := reached
  induction run with
  | refl =>
      obtain rfl : start = make ι α shape := isInitial
      exact ⟨rfl, rfl⟩
  | @snoc before _ _ _ _prior last ih =>
      obtain ⟨choice, taken⟩ := last
      cases next_moves taken with
      | owner spurious access inner tail pc stepped => exact ih.step stepped
      | thief thief access inner r pc stepped =>
          exact ih.same (thiefStep_shelf stepped) (thiefStep_retired stepped)
      | putCall task atPc =>
          rw [atPc] at ih
          change before.inner.Chained (if _ then _ else _)
          split <;> exact ih
      | takeCall atPc | ownerReturn result atPc =>
          rw [atPc] at ih
          exact ih
      | stealCall thief atPc | stealReturn thief head result atPc => exact ih

/-! ### What is freed -/

/-- The tasks put are freed once and in order, and so are the arrays; what a retired array
still points to is freed through the active one. -/
structure FreesAll (labels : List (Label ι α)) (inner : Inner α) : Prop where
  tasks : inner.drop.tasks = puts labels
  arrays : inner.drop.arrays = (List.range inner.allocated).reverse
  shared : ∀ arr ∈ inner.retired, ∀ index task, (inner.arrays arr).cells index = some task →
    (inner.arrays inner.tasks).cells index = some task

/-- After the last call nothing leaks, and nothing is freed twice. -/
theorem array_drop_frees_all (reached : (system ι α shape method).Reaches labels state)
    (ended : state.owner = .idle) : FreesAll labels state.inner := by
  have stocked := (follows_of_reaches reached).stored.stocked
  have holds := stocked.holds
  have atTail := stocked.owner
  rw [ended] at atTail
  change (puts labels).length = state.tail at atTail
  have active : ∀ index, (state.inner.arrays state.inner.tasks).cells index =
      (puts labels)[index]? := by
    intro index
    by_cases within : index < (puts labels).length
    · exact holds.full index within
    · cases there : (state.inner.arrays state.inner.tasks).cells index with
      | some task => exact (holds.sound state.inner.tasks index task there).symm
      | none => exact (List.getElem?_eq_none_iff.mpr (Nat.not_lt.mp within)).symm
  constructor
  · have room : (puts labels).length ≤ (state.inner.arrays state.inner.tasks).len := by
      have room := holds.room
      change state.tail + 1 ≤ (state.inner.arrays state.inner.tasks).len at room
      omega
    calc state.inner.drop.tasks
        = (List.range (state.inner.arrays state.inner.tasks).len).filterMap
            fun index => (puts labels)[index]? := by
          unfold Inner.drop
          exact congrArg (List.filterMap · _) (funext active)
      _ = puts labels := by
          rw [filterMap_getElem?, List.take_of_length_le room]
  · have chained := chained_of_reaches reached
    rw [ended] at chained
    obtain ⟨allocated, retired⟩ := chained
    unfold Inner.drop
    rw [allocated, retired, List.range_succ, List.reverse_append, List.reverse_singleton,
      List.singleton_append]
  · intro arr _retired index task there
    rw [active]
    exact holds.sound arr index task there

/-- The sixteenth task makes the first array grow, and a thief has taken one. -/
def growsOnce : List (Choice Bool Nat) :=
  (List.range 15).flatMap (fun task =>
      [.putCall task, .owner false, .owner false, .owner false, .ownerReturn]) ++
    [.stealCall true, .thief true, .thief true, .thief true, .thief true, .stealReturn true,
      .putCall 15] ++ List.replicate 38 (.owner false) ++ [.ownerReturn]

theorem array_drop_frees_all_growsOnce :
    ∃ labels state, (system Bool Nat .growable fun _ => .steal).Reaches labels state ∧
      state.inner.drop.arrays = [1, 0] ∧ FreesAll labels state.inner := by
  obtain ⟨labels, state, run, arrays, ended⟩ :=
    TransitionSystem.execute_finds (next .growable fun _ => .steal) (make Bool Nat .growable)
      growsOnce (fun _labels state => state.inner.drop.arrays = [1, 0] ∧ state.owner = .idle)
      (by decide +kernel)
  have reached : (system Bool Nat .growable fun _ => .steal).Reaches labels state := ⟨_, rfl, run⟩
  exact ⟨labels, state, reached, arrays, array_drop_frees_all reached ended⟩

end WsDeque.Idempotent
