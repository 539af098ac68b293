import WsDeque.Idempotent.Storage
import WsDeque.Multiplicity.Protocol

/-
The queue is an instance of work-stealing with multiplicity: every step of a
run is a step of the protocol or one that it does not see.
-/

namespace WsDeque.Idempotent

variable {ι α : Type*}

/-- A task that a call returned, with the position it was put at. -/
def delivery : Label ι α → Option (Multiplicity.Delivery (Option ι) α)
  | .ownerReturn (.took head (.got task)) =>
      some
        { party := none
          position := head
          item := task }
  | .stealReturn thief head (.got task) =>
      some
        { party := some thief
          position := head
          item := task }
  | _ => none

/-- The owner is `none`. -/
def deliveries (labels : List (Label ι α)) : List (Multiplicity.Delivery (Option ι) α) :=
  labels.filterMap delivery

theorem deliveries_snoc (labels : List (Label ι α)) (label : Label ι α) :
    deliveries (labels ++ [label]) = deliveries labels ++ (delivery label).toList := by
  unfold deliveries
  rw [List.filterMap_append]
  cases given : delivery label <;> simp [given]

/-- A plain store that lowers the head. -/
def lowers : Label ι α → Bool
  | .thief _ (.storeHead replaced value) => decide (value < replaced)
  | _ => false

def lowerings (labels : List (Label ι α)) : Nat :=
  labels.countP lowers

/-! ### The view of a state -/

def Method.kind : Method → Multiplicity.Kind
  | .steal => .strong
  | .stealExclusive => .exclusive
  | .stealWeak => .weak

def kind (method : ι → Method) : Option ι → Multiplicity.Kind
  | none => .strong
  | some thief => (method thief).kind

theorem kind_owner_not_weak (method : ι → Method) : kind method none ≠ .weak :=
  nofun

theorem kind_owner_not_exclusive (method : ι → Method) : kind method none ≠ .exclusive :=
  nofun

def OwnerPc.phase : OwnerPc α → Multiplicity.Phase α
  | .takeLoadTasks head | .takeLoadCell head _ => .saw head
  | .takeMaxHead head task => .holding head task
  | .returned (.took head (.got task)) => .returning head task
  | _ => .away

def ThiefPc.phase : ThiefPc α → Multiplicity.Phase α
  | .loadTasks head | .loadCell head _ | .claim head _ _ => .saw head
  | .maxHead head task | .reloadHead head task => .holding head task
  | .nudgeHead head => .refused head
  | .storeHead head task => .storing head task
  | .returned head (.got task) => .returning head task
  | _ => .away

/-- Only in the first array can a position be claimed. -/
def State.view (state : State ι α) (tasks : List α)
    (delivered : List (Multiplicity.Delivery (Option ι) α)) :
    Multiplicity.State (Option ι) α :=
  { head := state.inner.head
    items := tasks
    delivered := delivered
    register := Multiplicity.withOwner 0 state.r
    claimed := (state.inner.arrays 0).claimed
    phase := Multiplicity.withOwner state.owner.phase fun thief => (state.thief thief).phase }

variable {state : State ι α} {tasks : List α}
  {delivered : List (Multiplicity.Delivery (Option ι) α)} {inner : Inner α} {tail : Nat}
  {pc : OwnerPc α} {thief : ι} {r : Nat} {thiefPc : ThiefPc α} [DecidableEq ι]

theorem State.view_owner (state : State ι α) (inner : Inner α) (tail : Nat) (pc : OwnerPc α)
    (tasks : List α) (delivered : List (Multiplicity.Delivery (Option ι) α)) :
    State.view { state with inner := inner, tail := tail, owner := pc } tasks delivered =
      { head := inner.head
        items := tasks
        delivered := delivered
        register := (state.view tasks delivered).register
        claimed := (inner.arrays 0).claimed
        phase := Function.update (state.view tasks delivered).phase none pc.phase } := by
  unfold State.view
  rw [Multiplicity.withOwner_owner state.owner.phase pc.phase]

theorem State.view_thief (state : State ι α) (inner : Inner α) (thief : ι) (r : Nat)
    (pc : ThiefPc α) (tasks : List α)
    (delivered : List (Multiplicity.Delivery (Option ι) α)) :
    State.view ({ state with inner := inner }.setThief thief r pc) tasks delivered =
      { head := inner.head
        items := tasks
        delivered := delivered
        register := Function.update (state.view tasks delivered).register (some thief) r
        claimed := (inner.arrays 0).claimed
        phase := Function.update (state.view tasks delivered).phase (some thief) pc.phase } := by
  have phase : (fun other => (Function.update state.thief thief pc other).phase) =
      Function.update (fun other => (state.thief other).phase) thief pc.phase :=
    Function.comp_update ThiefPc.phase state.thief thief pc
  unfold State.view State.setThief
  simp only [phase, Multiplicity.withOwner_other]

/-- A thief that observes nothing for its private maximum. -/
theorem State.view_thief_same (state : State ι α) (inner : Inner α) (thief : ι)
    (pc : ThiefPc α) (tasks : List α)
    (delivered : List (Multiplicity.Delivery (Option ι) α)) :
    State.view ({ state with inner := inner }.setThief thief (state.r thief) pc) tasks delivered =
      { head := inner.head
        items := tasks
        delivered := delivered
        register := (state.view tasks delivered).register
        claimed := (inner.arrays 0).claimed
        phase := Function.update (state.view tasks delivered).phase (some thief) pc.phase } := by
  rw [State.view_thief]
  have same : Function.update (state.view tasks delivered).register (some thief)
      (state.r thief) = (state.view tasks delivered).register :=
    Function.update_eq_self (some thief) (state.view tasks delivered).register
  rw [same]

/-- A step of the owner that the protocol does not see. -/
theorem State.view_quiet (phase : pc.phase = state.owner.phase)
    (head : inner.head = state.inner.head)
    (claimed : (inner.arrays 0).claimed = (state.inner.arrays 0).claimed) :
    State.view { state with inner := inner, tail := tail, owner := pc } tasks delivered =
      state.view tasks delivered := by
  rw [State.view_owner, phase, head, claimed]
  have same : Function.update (state.view tasks delivered).phase none state.owner.phase =
      (state.view tasks delivered).phase :=
    Function.update_eq_self none (state.view tasks delivered).phase
  rw [same]
  rfl

theorem State.view_quiet_thief (phase : thiefPc.phase = (state.thief thief).phase)
    (head : inner.head = state.inner.head)
    (claimed : (inner.arrays 0).claimed = (state.inner.arrays 0).claimed) :
    State.view ({ state with inner := inner }.setThief thief (state.r thief) thiefPc) tasks
      delivered = state.view tasks delivered := by
  rw [State.view_thief_same, phase, head, claimed]
  have same : Function.update (state.view tasks delivered).phase (some thief)
      (state.thief thief).phase = (state.view tasks delivered).phase :=
    Function.update_eq_self (some thief) (state.view tasks delivered).phase
  rw [same]
  rfl

/-! ### The claim flags of the first array -/

theorem Inner.claimed_setCell (inner : Inner α) (arr other : TasksPtr) (index : Nat)
    (boxed : Option α) :
    ((inner.setCell arr index boxed).arrays other).claimed = (inner.arrays other).claimed := by
  by_cases same : other = arr
  · subst same
    simp only [Inner.setCell, Function.update_self]
  · simp only [Inner.setCell, Function.update_of_ne same]

variable {shape : Shape} {access : Access α} {spurious : Bool} {method : ι → Method}

omit [DecidableEq ι] in
theorem ownerStep_claimed (stocked : Stocked shape tasks state.inner state.tail state.owner)
    (moved : ownerStep state.inner state.tail spurious state.owner =
      some (access, inner, tail, pc)) :
    (inner.arrays 0).claimed = (state.inner.arrays 0).claimed := by
  cases atPc : state.owner with
  | putLoadTasks task =>
      rw [atPc] at moved
      have first : 0 ≠ state.inner.allocated :=
        (Nat.ne_of_gt (Nat.zero_lt_of_lt stocked.holds.active)).symm
      simp only [ownerStep] at moved
      split at moved
      · cases moved
        simp only [grow, Function.update_of_ne first]
      · cases moved
        rfl
  | growStore growth i p =>
      rw [atPc] at moved
      cases moved
      exact Inner.claimed_setCell ..
  | retireCas growth head =>
      rw [atPc] at moved
      simp only [ownerStep] at moved
      split at moved <;> cases moved <;> rfl
  | putStoreTask task arr =>
      rw [atPc] at moved
      simp only [ownerStep] at moved
      split at moved
      · cases moved
        exact Inner.claimed_setCell ..
      · cases moved
        rfl
  | putStoreNull arr =>
      rw [atPc] at moved
      simp only [ownerStep] at moved
      split at moved
      · cases moved
        exact Inner.claimed_setCell ..
      · cases moved
        rfl
  | takeLoadCell head arr =>
      rw [atPc] at moved
      simp only [ownerStep] at moved
      split at moved <;> cases moved <;> rfl
  | _ =>
      rw [atPc] at moved
      cases moved
      try rfl

/-! ### The steps of the protocol -/

open Multiplicity (Moves Step)

variable {tasks' : List α}
  {delivered' : List (Multiplicity.Delivery (Option ι) α)}

theorem State.owner_step {kinds : Option ι → Multiplicity.Kind}
    (step : Step kinds (state.view tasks delivered)
      { head := inner.head
        items := tasks'
        delivered := delivered'
        register := (state.view tasks delivered).register
        claimed := (inner.arrays 0).claimed
        phase := Function.update (state.view tasks delivered).phase none pc.phase }) :
    Moves kinds (state.view tasks delivered)
      (State.view { state with inner := inner, tail := tail, owner := pc } tasks' delivered') := by
  apply Or.inr
  rw [State.view_owner state inner tail pc tasks' delivered']
  exact step

theorem State.thief_step {kinds : Option ι → Multiplicity.Kind}
    (step : Step kinds (state.view tasks delivered)
      { head := inner.head
        items := tasks
        delivered := delivered'
        register := Function.update (state.view tasks delivered).register (some thief) r
        claimed := (inner.arrays 0).claimed
        phase := Function.update (state.view tasks delivered).phase (some thief)
          thiefPc.phase }) :
    Moves kinds (state.view tasks delivered)
      (State.view ({ state with inner := inner }.setThief thief r thiefPc) tasks delivered') := by
  apply Or.inr
  rw [State.view_thief state inner thief r thiefPc tasks delivered']
  exact step

theorem State.thief_step_same {kinds : Option ι → Multiplicity.Kind}
    (step : Step kinds (state.view tasks delivered)
      { head := inner.head
        items := tasks
        delivered := delivered'
        register := (state.view tasks delivered).register
        claimed := (inner.arrays 0).claimed
        phase := Function.update (state.view tasks delivered).phase (some thief)
          thiefPc.phase }) :
    Moves kinds (state.view tasks delivered)
      (State.view ({ state with inner := inner }.setThief thief (state.r thief) thiefPc) tasks
        delivered') := by
  apply Or.inr
  rw [State.view_thief_same state inner thief thiefPc tasks delivered']
  exact step

theorem growFrom_phase (inner : Inner α) (growth : Growth α) (i : Nat) :
    (growFrom inner growth i).phase = .away := by
  unfold growFrom
  split <;> rfl

theorem owner_moves (stocked : Stocked shape tasks state.inner state.tail state.owner)
    (moved : ownerStep state.inner state.tail spurious state.owner =
      some (access, inner, tail, pc)) :
    Moves (kind method) (state.view tasks delivered)
      (State.view { state with inner := inner, tail := tail, owner := pc }
        (tasks ++ access.task.toList) delivered) := by
  have claimed := ownerStep_claimed stocked moved
  have phase : (state.view tasks delivered).phase none = state.owner.phase := rfl
  cases atPc : state.owner with
  | idle =>
      rw [atPc] at moved
      cases moved
  | returned result =>
      rw [atPc] at moved
      cases moved
  | panicked =>
      rw [atPc] at moved
      cases moved
  | putLoadTasks task =>
      rw [atPc] at moved
      simp only [ownerStep] at moved
      split at moved
      · cases moved
        simp only [Access.task, Option.toList_none, List.append_nil]
        apply Or.inl
        exact State.view_quiet (by rw [atPc]; exact growFrom_phase ..) rfl claimed
      · cases moved
        simp only [Access.task, Option.toList_none, List.append_nil]
        apply Or.inl
        exact State.view_quiet (by rw [atPc]; rfl) rfl claimed
  | growStore growth i p =>
      rw [atPc] at moved
      cases moved
      simp only [Access.task, Option.toList_none, List.append_nil]
      apply Or.inl
      exact State.view_quiet (by rw [atPc]; exact growFrom_phase ..) rfl claimed
  | retireCas growth head =>
      rw [atPc] at moved
      simp only [ownerStep] at moved
      split at moved
      all_goals
        cases moved
        simp only [Access.task, Option.toList_none, List.append_nil]
        apply Or.inl
        exact State.view_quiet (by rw [atPc]; rfl) rfl claimed
  | putStoreTask task arr =>
      have meets := stocked.owner
      rw [atPc] at moved meets
      obtain ⟨atTail, rfl, room⟩ := meets
      have inRange : state.tail < (state.inner.arrays state.inner.shelf.tasks).len :=
        Nat.lt_of_succ_lt room
      simp only [ownerStep, if_pos inRange] at moved
      cases moved
      simp only [Access.task, Option.toList_some]
      rw [atPc] at phase
      change (state.view tasks delivered).phase none = .away at phase
      have same : Function.update (state.view tasks delivered).phase none .away =
          (state.view tasks delivered).phase := by
        rw [← phase]
        exact Function.update_eq_self ..
      apply State.owner_step
      rw [claimed]
      change Step _ _ { state.view (tasks ++ [task]) delivered with
        phase := Function.update (state.view tasks delivered).phase none .away }
      rw [same]
      exact .publish task
  | putStoreNull arr =>
      rw [atPc] at moved
      simp only [ownerStep] at moved
      split at moved
      all_goals
        cases moved
        simp only [Access.task, Option.toList_none, List.append_nil]
        apply Or.inl
        exact State.view_quiet (by rw [atPc]; rfl) rfl claimed
  | takeLoadHead =>
      rw [atPc] at moved phase
      cases moved
      simp only [Access.task, Option.toList_none, List.append_nil]
      split
      · apply Or.inl
        exact State.view_quiet (by rw [atPc]; rfl) rfl claimed
      · exact State.owner_step (.see none (kind_owner_not_weak method) phase)
  | takeLoadCell head arr =>
      have meets := stocked.owner
      rw [atPc] at moved phase meets
      have inRange : head < (state.inner.arrays arr).len := by
        obtain ⟨atTail, below, rfl⟩ := meets
        have room := stocked.holds.room
        change head < state.inner.shelf.len state.inner.shelf.tasks
        omega
      simp only [ownerStep, if_pos inRange] at moved
      cases moved
      simp only [Access.task, Option.toList_none, List.append_nil]
      split
      · exact State.owner_step (.leave none head phase)
      · rename_i task there
        have put := stocked.holds.sound arr head task there
        have free := kind_owner_not_exclusive method
        exact State.owner_step (.hold none head task free phase put)
  | takeMaxHead head task =>
      rw [atPc] at moved phase
      cases moved
      simp only [Access.task, Option.toList_none, List.append_nil]
      exact State.owner_step (.raise none head task (kind_owner_not_weak method) phase)
  | _ =>
      rw [atPc] at moved
      cases moved
      simp only [Access.task, Option.toList_none, List.append_nil]
      apply Or.inl
      exact State.view_quiet (by rw [atPc]; rfl) rfl claimed

theorem refresh_eq (shared r : Nat) : refresh shared r = max shared r := by
  unfold refresh
  split <;> omega

theorem thief_moves (stored : Stored shape method tasks state)
    (moved : thiefStep (method thief) state.inner (state.r thief) (state.thief thief) =
      some (access, inner, r, thiefPc)) :
    Moves (kind method) (state.view tasks delivered)
      (State.view ({ state with inner := inner }.setThief thief r thiefPc) tasks delivered) := by
  have phase : (state.view tasks delivered).phase (some thief) = (state.thief thief).phase := rfl
  have meets := stored.thief thief
  cases atPc : state.thief thief with
  | idle =>
      rw [atPc] at moved
      cases moved
  | returned head result =>
      rw [atPc] at moved
      cases moved
  | panicked =>
      rw [atPc] at moved
      cases moved
  | loadHead =>
      rw [atPc] at moved phase
      by_cases weak : method thief = .stealWeak
      · rw [weak] at moved
        simp only [thiefStep, refresh_eq] at moved
        cases moved
        apply State.thief_step
        exact .seeRanged (some thief) (congrArg Method.kind weak) phase
      · have strong : thiefStep (method thief) state.inner (state.r thief) .loadHead =
            some (.loadHead, state.inner, state.r thief, .loadTasks state.inner.head) := by
          cases which : method thief with
          | stealWeak => exact absurd which weak
          | _ => rfl
        rw [strong] at moved
        cases moved
        apply State.thief_step_same
        refine .see (some thief) ?_ phase
        intro isWeak
        change (method thief).kind = .weak at isWeak
        cases which : method thief with
        | stealWeak => exact weak which
        | _ =>
            rw [which] at isWeak
            cases isWeak
  | loadTasks head =>
      rw [atPc] at moved
      cases moved
      exact Or.inl (State.view_quiet_thief (by rw [atPc]; rfl) rfl rfl)
  | loadCell head arr =>
      rw [atPc] at moved phase
      cases moved
      split
      · split
        · exact State.thief_step_same (.leave (some thief) head phase)
        · rename_i task there
          have put := stored.stocked.holds.sound arr head task there
          cases which : method thief with
          | stealExclusive => exact Or.inl (State.view_quiet_thief (by rw [atPc]; rfl) rfl rfl)
          | _ =>
              apply State.thief_step_same
              refine .hold (some thief) head task ?_ phase put
              change (method thief).kind ≠ .exclusive
              rw [which]
              intro same
              cases same
      · exact State.thief_step_same (.leave (some thief) head phase)
  | claim head arr task =>
      rw [atPc] at moved phase meets
      obtain ⟨exclusive, _bounded, rfl, put⟩ := meets
      have claims : kind method (some thief) = .exclusive := congrArg Method.kind exclusive
      simp only [thiefStep] at moved
      split at moved
      · rename_i unclaimed
        cases moved
        apply State.thief_step_same
        have flags : ((state.inner.claim 0 head).arrays 0).claimed =
            Function.update (state.inner.arrays 0).claimed head true := by
          simp only [Inner.claim, Function.update_self]
        rw [flags]
        exact .claim (some thief) head task claims phase put unclaimed
      · rename_i taken
        cases moved
        exact State.thief_step_same
          (.refuse (some thief) head claims phase (Bool.eq_true_of_not_eq_false taken))
  | maxHead head task =>
      rw [atPc] at moved phase meets
      cases moved
      apply State.thief_step_same
      refine .raise (some thief) head task ?_ phase
      intro isWeak
      change (method thief).kind = .weak at isWeak
      cases which : method thief with
      | stealWeak => exact meets which
      | _ =>
          rw [which] at isWeak
          cases isWeak
  | nudgeHead head =>
      rw [atPc] at moved phase meets
      cases moved
      exact State.thief_step_same (.nudge (some thief) head (congrArg Method.kind meets) phase)
  | reloadHead head task =>
      rw [atPc] at moved phase meets
      simp only [thiefStep, refresh_eq] at moved
      have stores : kind method (some thief) = .weak := congrArg Method.kind meets
      have remembers := Step.remember (some thief) head task stores phase
      have known : max (state.view tasks delivered).head
          ((state.view tasks delivered).register (some thief)) =
          max state.inner.head (state.r thief) := rfl
      rw [known] at remembers
      split at moved
      · rename_i new
        have value : max (max state.inner.head (state.r thief)) (head + 1) = head + 1 := by omega
        rw [if_pos new, value] at remembers
        cases moved
        exact State.thief_step remembers
      · rename_i stale
        have value : max (max state.inner.head (state.r thief)) (head + 1) =
            max state.inner.head (state.r thief) := by omega
        rw [if_neg stale, value] at remembers
        cases moved
        exact State.thief_step remembers
  | storeHead head task =>
      rw [atPc] at moved phase meets
      cases moved
      exact State.thief_step_same
        (.store (some thief) head task (congrArg Method.kind meets) phase)

/-! ### Whole runs -/

variable {state' : State ι α} {choice : Choice ι α} {label : Label ι α}

theorem Stored.next_moves (stored : Stored shape method tasks state)
    (delivered : List (Multiplicity.Delivery (Option ι) α))
    (moved : next shape method state choice = some (label, state')) :
    Moves (kind method) (state.view tasks delivered)
      (state'.view (tasks ++ (published label).toList)
        (delivered ++ (delivery label).toList)) := by
  cases Idempotent.next_moves moved with
  | putCall task atPc =>
      simp only [published, delivery, Option.toList_none, List.append_nil]
      apply Or.inl
      apply State.view_quiet _ rfl rfl
      rw [atPc]
      split <;> rfl
  | takeCall atPc =>
      simp only [published, delivery, Option.toList_none, List.append_nil]
      exact Or.inl (State.view_quiet (by rw [atPc]; rfl) rfl rfl)
  | owner spurious access inner tail pc stepped =>
      simp only [published, delivery, Option.toList_none, List.append_nil]
      exact owner_moves stored.stocked stepped
  | ownerReturn result atPc =>
      have phase : (state.view tasks delivered).phase none = OwnerPc.phase (.returned result) :=
        congrArg OwnerPc.phase atPc
      rcases result with accepted | ⟨head, _ | task⟩
      · simp only [published, delivery, Option.toList_none, List.append_nil]
        exact Or.inl (State.view_quiet (by rw [atPc]; rfl) rfl rfl)
      · simp only [published, delivery, Option.toList_none, List.append_nil]
        exact Or.inl (State.view_quiet (by rw [atPc]; rfl) rfl rfl)
      · simp only [published, delivery, Option.toList_none, Option.toList_some,
          List.append_nil]
        exact State.owner_step (.deliver none head task phase)
  | stealCall thief atPc =>
      simp only [published, delivery, Option.toList_none, List.append_nil]
      apply Or.inl
      apply State.view_quiet_thief _ rfl rfl
      rw [atPc]
      split <;> rfl
  | thief thief access inner r pc stepped =>
      simp only [published, delivery, Option.toList_none, List.append_nil]
      exact thief_moves stored stepped
  | stealReturn thief head result atPc =>
      have phase : (state.view tasks delivered).phase (some thief) =
          ThiefPc.phase (.returned head result) := congrArg ThiefPc.phase atPc
      cases result with
      | empty =>
          simp only [published, delivery, Option.toList_none, List.append_nil]
          exact Or.inl (State.view_quiet_thief (by rw [atPc]; rfl) rfl rfl)
      | got task =>
          simp only [published, delivery, Option.toList_none, Option.toList_some,
            List.append_nil]
          exact State.thief_step_same (.deliver (some thief) head task phase)

/-! ### Where the head goes down -/

omit [DecidableEq ι] in
theorem ownerStep_head {inner after : Inner α} {tail tail' : Nat} {pc pc' : OwnerPc α}
    (moved : ownerStep inner tail spurious pc = some (access, after, tail', pc')) :
    inner.head ≤ after.head := by
  cases pc with
  | idle => cases moved
  | returned result => cases moved
  | panicked => cases moved
  | takeMaxHead head task =>
      cases moved
      exact Nat.le_max_left ..
  | putLoadTasks task =>
      simp only [ownerStep] at moved
      split at moved <;> cases moved <;> exact Nat.le_refl _
  | retireCas growth head =>
      simp only [ownerStep] at moved
      split at moved <;> cases moved <;> exact Nat.le_refl _
  | putStoreTask task arr =>
      simp only [ownerStep] at moved
      split at moved <;> cases moved <;> exact Nat.le_refl _
  | putStoreNull arr =>
      simp only [ownerStep] at moved
      split at moved <;> cases moved <;> exact Nat.le_refl _
  | takeLoadCell head arr =>
      simp only [ownerStep] at moved
      split at moved <;> cases moved <;> exact Nat.le_refl _
  | _ =>
      cases moved
      exact Nat.le_refl _

omit [DecidableEq ι] in
theorem thiefStep_head {how : Method} {inner after : Inner α} {r r' : Nat}
    {pc pc' : ThiefPc α}
    (moved : thiefStep how inner r pc = some (access, after, r', pc'))
    (kept : lowers (.thief thief access : Label ι α) = false) : inner.head ≤ after.head := by
  cases pc with
  | idle => cases moved
  | returned head result => cases moved
  | panicked => cases moved
  | loadHead => cases how <;> cases moved <;> exact Nat.le_refl _
  | claim head arr task =>
      simp only [thiefStep] at moved
      split at moved <;> cases moved <;> exact Nat.le_refl _
  | reloadHead head task =>
      simp only [thiefStep] at moved
      split at moved <;> cases moved <;> exact Nat.le_refl _
  | maxHead head task =>
      cases moved
      exact Nat.le_max_left ..
  | nudgeHead head =>
      cases moved
      exact Nat.le_max_left ..
  | storeHead head task =>
      cases moved
      exact Nat.le_of_not_lt (of_decide_eq_false kept)
  | _ =>
      cases moved
      exact Nat.le_refl _

theorem head_le_of_next (moved : next shape method state choice = some (label, state'))
    (kept : lowers label = false) : state.inner.head ≤ state'.inner.head := by
  cases next_moves moved with
  | owner spurious access inner tail pc stepped => exact ownerStep_head stepped
  | thief thief access inner r pc stepped => exact thiefStep_head stepped kept
  | _ => exact Nat.le_refl _

/-- The arrays and the protocol at the end of a run. -/
structure Follows (shape : Shape) (method : ι → Method) (labels : List (Label ι α))
    (state : State ι α) : Prop where
  stored : Stored shape method (puts labels) state
  counted : Multiplicity.ReachableIn (kind method) (lowerings labels)
    (state.view (puts labels) (deliveries labels))

omit [DecidableEq ι] in
theorem view_make (shape : Shape) :
    (make ι α shape).view [] [] = Multiplicity.State.start (Option ι) α := by
  unfold State.view make
  have phases : Multiplicity.withOwner (OwnerPc.phase (.idle : OwnerPc α))
      (fun _thief : ι => ThiefPc.phase (.idle : ThiefPc α)) = fun _ => .away := by
    funext party
    cases party <;> rfl
  have registers : Multiplicity.withOwner 0 (fun _thief : ι => 0) = fun _ => 0 := by
    funext party
    cases party <;> rfl
  simp only [phases, registers]
  rfl

theorem follows_of_reaches {labels : List (Label ι α)}
    (reached : (system ι α shape method).Reaches labels state) :
    Follows shape method labels state := by
  apply reached.induction
  · rintro start rfl
    constructor
    · exact stored_make shape method
    · change Multiplicity.ReachableIn _ 0 ((make ι α shape).view [] [])
      rw [view_make]
      exact .start 0
  · rintro labels before label after _reached follows ⟨choice, moved⟩
    have moves := follows.stored.next_moves (deliveries labels) moved
    constructor
    · rw [puts_snoc]
      exact follows.stored.step moved
    · rw [puts_snoc, deliveries_snoc]
      unfold lowerings
      rw [List.countP_append, List.countP_singleton]
      cases falls : lowers label with
      | false => exact follows.counted.moves moves (head_le_of_next moved falls)
      | true =>
          rcases moves with same | step
          · rw [same]
            exact follows.counted.more
          · exact follows.counted.lower step

theorem Follows.reachable {labels : List (Label ι α)}
    (follows : Follows shape method labels state) :
    Multiplicity.Reachable (kind method) false
      (state.view (puts labels) (deliveries labels)) :=
  follows.counted.reachable

end WsDeque.Idempotent
