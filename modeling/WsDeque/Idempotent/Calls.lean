import WsDeque.Idempotent.Runs
import WsDeque.RunAlone

/-
Calls of the queue with nobody else moving.
-/

namespace WsDeque.Idempotent

variable {ι α : Type*}

/-- The end of a `take`. -/
def State.took (state : State ι α) : Option (Take α × State ι α) :=
  match state.owner with
  | .returned (.took _head result) => some (result, { state with owner := .idle })
  | _ => none

variable [DecidableEq ι]

/-- The end of a steal. -/
def State.stole (thief : ι) (state : State ι α) : Option (Take α × State ι α) :=
  match state.thief thief with
  | .returned _head result => some (result, state.setThief thief (state.r thief) .idle)
  | _ => none

section

variable (shape : Shape) (method : ι → Method)

def ownerMoves (state : State ι α) : Option (State ι α) :=
  (next shape method state (.owner false)).map Prod.snd

def thiefMoves (thief : ι) (state : State ι α) : Option (State ι α) :=
  (next shape method state (.thief thief)).map Prod.snd

def callTake (fuel : Nat) (state : State ι α) : Option (Take α × State ι α) :=
  (next shape method state .takeCall).bind fun called =>
    runAlone State.took (ownerMoves shape method) fuel called.2

/-- `steal`, `steal_exclusive` or `steal_weak`, as the thief's handle has it. -/
def callSteal (thief : ι) (fuel : Nat) (state : State ι α) : Option (Take α × State ι α) :=
  (next shape method state (.stealCall thief)).bind fun called =>
    runAlone (State.stole thief) (thiefMoves shape method thief) fuel called.2

/-- Some call that nobody else runs beside returns `Empty`. -/
def State.FindsEmpty (state : State ι α) : Prop :=
  (∃ fuel after, callTake shape method fuel state = some (.empty, after)) ∨
    ∃ thief fuel after, callSteal shape method thief fuel state = some (.empty, after)

end

variable {shape : Shape} {method : ι → Method} {state : State ι α} {tasks : List α}
  {inner inner' : Inner α} {tail tail' : Nat} {thief : ι} {r r' fuel more : Nat}
  {pc pc' : OwnerPc α} {thiefPc thiefPc' : ThiefPc α} {access : Access α}
  {result : Take α} {after : State ι α}

/-- A call that found nothing finds nothing with more fuel. -/
theorem callTake_mono (enough : fuel ≤ more)
    (returned : callTake shape method fuel state = some (result, after)) :
    callTake shape method more state = some (result, after) := by
  simp only [callTake, Option.bind_eq_some_iff] at returned ⊢
  obtain ⟨called, started, ran⟩ := returned
  exact ⟨called, started, runAlone_mono enough ran⟩

theorem callSteal_mono (enough : fuel ≤ more)
    (returned : callSteal shape method thief fuel state = some (result, after)) :
    callSteal shape method thief more state = some (result, after) := by
  simp only [callSteal, Option.bind_eq_some_iff] at returned ⊢
  obtain ⟨called, started, ran⟩ := returned
  exact ⟨called, started, runAlone_mono enough ran⟩

theorem findsEmpty_of_callTake
    (nothing : (callTake shape method fuel state).map Prod.fst = some .empty) :
    state.FindsEmpty shape method := by
  obtain ⟨⟨result, after⟩, returned, rfl⟩ := Option.map_eq_some_iff.mp nothing
  exact .inl ⟨fuel, after, returned⟩

/-! ### One access -/

theorem runAlone_owner
    (moved : ownerStep inner tail false pc = some (access, inner', tail', pc')) :
    runAlone State.took (ownerMoves shape method) (fuel + 1)
        { state with inner := inner, tail := tail, owner := pc } =
      runAlone State.took (ownerMoves shape method) fuel
        { state with inner := inner', tail := tail', owner := pc' } := by
  apply runAlone_step
  · cases pc with
    | returned result => cases moved
    | _ => rfl
  · simp only [ownerMoves, next, moved, Option.map_some]

theorem runAlone_took (inner : Inner α) (tail head : Nat) (result : Take α) :
    runAlone State.took (ownerMoves shape method) (fuel + 1)
        { state with inner := inner, tail := tail, owner := .returned (.took head result) } =
      some (result, { state with inner := inner, tail := tail, owner := .idle }) :=
  runAlone_finished rfl

omit α in
theorem setThief_setThief {α : Type*} (state : State ι α) (thief : ι) (r r' : Nat)
    (pc pc' : ThiefPc α) :
    (state.setThief thief r pc).setThief thief r' pc' = state.setThief thief r' pc' := by
  simp only [State.setThief, Function.update_idem]

theorem runAlone_thief
    (moved : thiefStep (method thief) inner r thiefPc = some (access, inner', r', thiefPc')) :
    runAlone (State.stole thief) (thiefMoves shape method thief) (fuel + 1)
        ({ state with inner := inner }.setThief thief r thiefPc) =
      runAlone (State.stole thief) (thiefMoves shape method thief) fuel
        ({ state with inner := inner' }.setThief thief r' thiefPc') := by
  have here : ({ state with inner := inner }.setThief thief r thiefPc).thief thief = thiefPc :=
    Function.update_self ..
  have known : ({ state with inner := inner }.setThief thief r thiefPc).r thief = r :=
    Function.update_self ..
  apply runAlone_step
  · unfold State.stole
    rw [here]
    cases thiefPc with
    | returned head result => cases moved
    | _ => rfl
  · simp only [thiefMoves, next, here, known]
    change Option.map _ (Option.map _ (thiefStep (method thief) inner r thiefPc)) = _
    rw [moved]
    simp only [Option.map_some]
    congr 1
    exact setThief_setThief { state with inner := inner' } thief r r' thiefPc thiefPc'

theorem runAlone_stole (inner : Inner α) (head : Nat) (result : Take α) :
    runAlone (State.stole thief) (thiefMoves shape method thief) (fuel + 1)
        ({ state with inner := inner }.setThief thief r (.returned head result)) =
      some (result, { state with inner := inner }.setThief thief r .idle) := by
  apply runAlone_finished
  have here : ({ state with inner := inner }.setThief thief r (.returned head result)).thief
      thief = .returned head result := Function.update_self ..
  have known : ({ state with inner := inner }.setThief thief r (.returned head result)).r
      thief = r := Function.update_self ..
  unfold State.stole
  rw [here]
  simp only [known]
  rw [setThief_setThief]

/-! ### Whole calls -/

/-- What a call returns that reads the cell at a position. -/
def found (tasks : List α) (head : Nat) : Take α :=
  match tasks[head]? with
  | none => .empty
  | some task => .got task

omit [DecidableEq ι] in
theorem found_empty {head : Nat} (nothing : found tasks head = .empty) : tasks.length ≤ head := by
  unfold found at nothing
  split at nothing
  · rename_i beyond
    exact List.getElem?_eq_none_iff.mp beyond
  · cases nothing

omit [DecidableEq ι] in
theorem Shelf.Holds.read {shelf : Shelf α} (holds : shelf.Holds tasks tail) (head : Nat) :
    shelf.cells shelf.tasks head = tasks[head]? := by
  cases there : shelf.cells shelf.tasks head with
  | some task => exact (holds.sound _ _ _ there).symm
  | none =>
      rcases Nat.lt_or_ge head tasks.length with within | beyond
      · rw [← there]
        exact holds.full head within
      · exact (List.getElem?_eq_none_iff.mpr beyond).symm

/-- The shared index after a call that reads the cell there. -/
def Inner.past (inner : Inner α) (tasks : List α) : Inner α :=
  if inner.head < tasks.length then inner.maxHead (inner.head + 1) else inner

/-- `take` looks at the shared index and at the cell there. -/
theorem callTake_alone (method : ι → Method) (fuel : Nat)
    (stocked : Stocked shape tasks state.inner state.tail state.owner)
    (idle : state.owner = .idle) :
    callTake shape method (fuel + 5) state =
      some (found tasks state.inner.head,
        { state with
          inner := state.inner.past tasks
          owner := .idle }) := by
  have atTail : tasks.length = state.tail := by
    have meets := stocked.owner
    rw [idle] at meets
    exact meets
  have start : callTake shape method (fuel + 5) state =
      runAlone State.took (ownerMoves shape method) (fuel + 5)
        { state with inner := state.inner, tail := state.tail, owner := .takeLoadHead } := by
    simp only [callTake, next, idle, Option.bind_some]
  rw [start]
  rcases Nat.lt_or_ge state.inner.head state.tail with below | reached
  · have room := stocked.holds.room
    have inRange : state.inner.head < (state.inner.arrays state.inner.tasks).len := by
      change state.inner.head < state.inner.shelf.len state.inner.shelf.tasks
      omega
    obtain ⟨task, there⟩ : ∃ task, tasks[state.inner.head]? = some task :=
      ⟨_, List.getElem?_eq_getElem (atTail ▸ below)⟩
    have cell : (state.inner.arrays state.inner.tasks).cells state.inner.head = some task :=
      (stocked.holds.read _).trans there
    have loads : ownerStep state.inner state.tail false .takeLoadHead =
        some (.loadHead, state.inner, state.tail, .takeLoadTasks state.inner.head) := by
      simp only [ownerStep, if_neg (Nat.not_le.mpr below)]
    have reads : ownerStep state.inner state.tail false
        (.takeLoadCell state.inner.head state.inner.tasks) =
        some (.loadCell, state.inner, state.tail, .takeMaxHead state.inner.head task) := by
      simp only [ownerStep, if_pos inRange, cell]
    rw [runAlone_owner loads, runAlone_owner rfl, runAlone_owner reads,
      runAlone_owner rfl, runAlone_took]
    simp only [found, there, Inner.past, atTail, if_pos below]
  · have loads : ownerStep state.inner state.tail false .takeLoadHead =
        some (.loadHead, state.inner, state.tail,
          .returned (.took state.inner.head .empty)) := by
      simp only [ownerStep, if_pos reached]
    have beyond : tasks[state.inner.head]? = none :=
      List.getElem?_eq_none_iff.mpr (atTail ▸ reached)
    rw [runAlone_owner loads, runAlone_took]
    simp only [found, beyond, Inner.past, atTail, if_neg (Nat.not_lt.mpr reached)]

/-- The position that a steal goes for. -/
def State.known (method : ι → Method) (state : State ι α) (thief : ι) : Nat :=
  match method thief with
  | .stealWeak => refresh state.inner.head (state.r thief)
  | .steal | .stealExclusive => state.inner.head

theorem callSteal_alone (fuel : Nat) (stored : Stored shape method tasks state)
    (quiet : state.owner = .idle) (idle : state.thief thief = .idle)
    (allowed : method thief = .stealExclusive → shape.isBounded = true ∧
      (state.inner.arrays 0).claimed state.inner.head = false) :
    ∃ after, callSteal shape method thief (fuel + 6) state =
        some (found tasks (state.known method thief), after) ∧
      (method thief = .steal → after =
        { state with inner := state.inner.past tasks }.setThief thief (state.r thief) .idle) := by
  have holds := stored.stocked.holds
  have atTail : tasks.length = state.tail := by
    have meets := stored.stocked.owner
    rw [quiet] at meets
    exact meets
  have start : callSteal shape method thief (fuel + 6) state =
      runAlone (State.stole thief) (thiefMoves shape method thief) (fuel + 6)
        ({ state with inner := state.inner }.setThief thief (state.r thief) .loadHead) := by
    have permitted : ¬(method thief = .stealExclusive ∧ shape.isBounded = false) := by
      rintro ⟨exclusive, unbounded⟩
      rw [(allowed exclusive).1] at unbounded
      cases unbounded
    simp only [callSteal, next, idle, if_neg permitted, Option.bind_some]
  obtain ⟨r, loads, same⟩ : ∃ r, thiefStep (method thief) state.inner (state.r thief) .loadHead =
      some (.loadHead, state.inner, r, .loadTasks (state.known method thief)) ∧
        (method thief = .steal → r = state.r thief) := by
    unfold State.known
    cases method thief with
    | stealWeak => exact ⟨_, rfl, fun plain => by cases plain⟩
    | _ => exact ⟨_, rfl, fun _plain => rfl⟩
  have reads : thiefStep (method thief) state.inner r
      (.loadCell (state.known method thief) state.inner.tasks) =
      some (.loadCell, state.inner, r,
        tasks[state.known method thief]?.elim (.returned (state.known method thief) .empty)
          ((method thief).afterCell (state.known method thief) state.inner.tasks)) := by
    have cell : (state.inner.arrays state.inner.tasks).cells (state.known method thief) =
        tasks[state.known method thief]? := holds.read _
    simp only [thiefStep, cell]
    split
    · cases tasks[state.known method thief]? <;> rfl
    · rename_i beyond
      have room := holds.room
      change ¬state.known method thief < state.inner.shelf.len state.inner.shelf.tasks at beyond
      have nothing : tasks[state.known method thief]? = none :=
        List.getElem?_eq_none_iff.mpr (by omega)
      rw [nothing, Option.elim_none]
  rw [start, runAlone_thief loads, runAlone_thief rfl, runAlone_thief reads]
  cases there : tasks[state.known method thief]? with
  | none =>
      rw [Option.elim_none, runAlone_stole]
      simp only [found, there]
      refine ⟨_, rfl, ?_⟩
      intro plain
      have beyond := List.getElem?_eq_none_iff.mp there
      simp only [State.known, plain] at beyond
      rw [same plain, Inner.past, if_neg (Nat.not_lt.mpr beyond)]
  | some task =>
      rw [Option.elim_some]
      simp only [found, there]
      cases which : method thief with
      | steal =>
          have maxes : thiefStep (method thief) state.inner r
              (.maxHead (state.known method thief) task) =
              some (.maxHead, state.inner.maxHead (state.known method thief + 1), r,
                .returned (state.known method thief) (.got task)) := by
            rw [which]
            rfl
          have below := (List.getElem?_eq_some_iff.mp there).1
          have known : state.known method thief = state.inner.head := by
            simp only [State.known, which]
          rw [known] at below
          simp only [Method.afterCell]
          rw [runAlone_thief maxes, runAlone_stole, same which, known]
          refine ⟨_, rfl, ?_⟩
          intro _plain
          rw [Inner.past, if_pos below]
      | stealExclusive =>
          obtain ⟨bounded, unclaimed⟩ := allowed which
          have first : state.inner.tasks = 0 := (stored.stocked.single bounded).1
          have known : state.known method thief = state.inner.head := by
            simp only [State.known, which]
          have claims : thiefStep (method thief) state.inner r
              (.claim (state.known method thief) state.inner.tasks task) =
              some (.claim true, state.inner.claim state.inner.tasks (state.known method thief), r,
                .maxHead (state.known method thief) task) := by
            rw [known, first]
            simp only [thiefStep, unclaimed, if_true]
          simp only [Method.afterCell]
          rw [runAlone_thief claims, runAlone_thief rfl, runAlone_stole]
          exact ⟨_, rfl, fun plain => by cases plain⟩
      | stealWeak =>
          simp only [Method.afterCell]
          by_cases new : refresh state.inner.head r < state.known method thief + 1
          · have reloads : thiefStep (method thief) state.inner r
                (.reloadHead (state.known method thief) task) =
                some (.loadHead, state.inner, state.known method thief + 1,
                  .storeHead (state.known method thief) task) := by
              simp only [thiefStep, if_pos new]
            rw [runAlone_thief reloads, runAlone_thief rfl, runAlone_stole]
            exact ⟨_, rfl, fun plain => by cases plain⟩
          · have reloads : thiefStep (method thief) state.inner r
                (.reloadHead (state.known method thief) task) =
                some (.loadHead, state.inner, refresh state.inner.head r,
                  .returned (state.known method thief) (.got task)) := by
              simp only [thiefStep, if_neg new]
            rw [runAlone_thief reloads, runAlone_stole]
            exact ⟨_, rfl, fun plain => by cases plain⟩

end WsDeque.Idempotent
