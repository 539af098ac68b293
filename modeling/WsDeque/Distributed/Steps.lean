import WsDeque.Distributed.Model

/-
What one step of a node can be.
-/

namespace WsDeque.Distributed

variable {Task : Type*} {nodes : Nat} {me : Id nodes} {before after : State (Id nodes) Task}
  {event : Event (Id nodes) Task} {act : Act (Id nodes) Task}

inductive Moves (nodes : Nat) (me : Id nodes) (before : State (Id nodes) Task) :
    Event (Id nodes) Task → State (Id nodes) Task → Prop
  | takesRequest (sender thief : Id nodes) (rest : List (Message (Id nodes) Task))
      (kept batch : List Task) (atPc : before.node me = .drainMailbox)
      (channel : before.channel (sender, me) = .stealRequest thief :: rest)
      (split : before.pool me = kept ++ batch)
      (half : batch.length = give (before.pool me).length) :
      Moves nodes me before (.takesRequest thief)
        (((before.setChannel (sender, me) rest).setPool me kept).goto me
          (.replying thief batch))
  | absorbs (sender : Id nodes) (batch : List Task) (rest : List (Message (Id nodes) Task))
      (atPc : before.node me = .drainMailbox)
      (channel : before.channel (sender, me) = .work batch :: rest) :
      Moves nodes me before (.absorbs batch)
        ((((before.setChannel (sender, me) rest).setPool me (before.pool me ++ batch)).setPending
          me false).goto me .drainMailbox)
  | starts (task : Task) (rest : List Task) (atPc : before.node me = .drainMailbox)
      (pool : before.pool me = rest ++ [task]) :
      Moves nodes me before (.started task) ((before.setPool me rest).goto me (.running task))
  | starves (atPc : before.node me = .drainMailbox) (empty : before.pool me = []) :
      Moves nodes me before .internal (before.goto me .loadOutstanding)
  | answers (thief : Id nodes) (batch : List Task) (atPc : before.node me = .replying thief batch)
      (reachable : (before.node thief).receives = true) :
      Moves nodes me before (.answers thief)
        ((before.post (me, thief) (.work batch)).goto me (.migrating batch.length))
  | drops (thief : Id nodes) (batch : List Task) (atPc : before.node me = .replying thief batch)
      (dropped : (before.node thief).receives = false) :
      Moves nodes me before (.drops batch) (before.goto me .drainMailbox)
  | migrates (count : Nat) (atPc : before.node me = .migrating count) :
      Moves nodes me before .internal
        ({ before with migrated := before.migrated + count }.goto me .drainMailbox)
  | spawns (task child : Task) (atPc : before.node me = .running task) :
      Moves nodes me before (.announced child)
        ({ before with outstanding := before.outstanding + 1 }.goto me (.spawnPush task child))
  | pushes (task child : Task) (atPc : before.node me = .spawnPush task child) :
      Moves nodes me before .internal
        ((before.setPool me (before.pool me ++ [child])).goto me (.running task))
  | finishes (task : Task) (atPc : before.node me = .running task) :
      Moves nodes me before (.finished task)
        ({ before with outstanding := before.outstanding - 1 }.goto me .drainMailbox)
  | panics (task : Task) (atPc : before.node me = .running task) :
      Moves nodes me before .panics (before.goto me (.unwinding task))
  | unwinds (task : Task) (atPc : before.node me = .unwinding task) :
      Moves nodes me before .internal (before.goto me (.unwound task))
  | finds (atPc : before.node me = .loadOutstanding) (zero : before.outstanding = 0) :
      Moves nodes me before .returns (before.goto me .returning)
  | waits (atPc : before.node me = .loadOutstanding) (rng : UInt64) :
      Moves nodes me before .internal ((before.setRng me rng).goto me .drainMailbox)
  | chooses (victim : Id nodes) (rng : UInt64) (atPc : before.node me = .loadOutstanding)
      (idle : before.pendingRequest me = false) (other : victim ≠ me) :
      Moves nodes me before .internal
        ((before.setRng me rng).goto me (.countRequest victim))
  | counts (victim : Id nodes) (atPc : before.node me = .countRequest victim) :
      Moves nodes me before .internal
        ({ before with stealMsgs := before.stealMsgs + 1 }.goto me (.requesting victim))
  | requests (victim : Id nodes) (atPc : before.node me = .requesting victim)
      (reachable : (before.node victim).receives = true) :
      Moves nodes me before (.requests victim)
        (((before.post (me, victim) (.stealRequest me)).setPending me true).goto me
          .drainMailbox)
  | missesVictim (victim : Id nodes) (atPc : before.node me = .requesting victim)
      (dropped : (before.node victim).receives = false) :
      Moves nodes me before .internal (before.goto me .drainMailbox)
  | leaves (atPc : before.node me = .returning) :
      Moves nodes me before .internal (before.goto me .exited)

theorem give_le (surplus : Nat) : give surplus ≤ surplus := by
  unfold give
  omega

theorem receiveStep_moves {sender : Id nodes} (atPc : before.node me = .drainMailbox)
    (taken : receiveStep nodes me before (sender, me) = some (event, after)) :
    Moves nodes me before event after := by
  unfold receiveStep at taken
  split at taken
  · cases taken
  · rename_i thief rest channel
    cases taken
    refine .takesRequest sender thief rest _ _ atPc channel (List.take_append_drop _ _).symm ?_
    rw [List.length_drop]
    have bound := give_le (before.pool me).length
    omega
  · rename_i batch rest channel
    cases taken
    exact .absorbs sender batch rest atPc channel

theorem step_moves (taken : step nodes me before act = some (event, after)) :
    Moves nodes me before event after := by
  unfold step at taken
  split at taken
  case h_1 sender atPc => exact receiveStep_moves atPc taken
  case h_2 atPc =>
    split at taken
    · rename_i task last
      cases taken
      have split : before.pool me = (before.pool me).dropLast ++ [task] :=
        (List.dropLast_append_getLast? task last).symm
      exact .starts task _ atPc split
    · rename_i empty
      cases taken
      exact .starves atPc (List.getLast?_eq_none_iff.mp empty)
  case h_3 thief batch atPc =>
    split at taken <;> cases taken
    · rename_i reachable
      exact .answers thief batch atPc reachable
    · rename_i dropped
      exact .drops thief batch atPc (Bool.not_eq_true _ ▸ dropped)
  case h_4 count atPc =>
    cases taken
    exact .migrates count atPc
  case h_5 task child atPc =>
    cases taken
    exact .spawns task child atPc
  case h_6 task child atPc =>
    cases taken
    exact .pushes task child atPc
  case h_7 task atPc =>
    cases taken
    exact .finishes task atPc
  case h_8 task atPc =>
    cases taken
    exact .panics task atPc
  case h_9 task atPc =>
    cases taken
    exact .unwinds task atPc
  case h_10 atPc =>
    split at taken
    · rename_i zero
      cases taken
      exact .finds atPc zero
    · split at taken
      · rename_i starving
        simp only at taken
        split at taken <;> cases taken
        · exact .waits atPc _
        · rename_i other
          exact .chooses _ _ atPc starving.1 other
      · cases taken
        have unchanged : before.setRng me (before.rng me) = before := by
          unfold State.setRng
          rw [Function.update_eq_self]
        have moved := Moves.waits atPc (before.rng me)
        rwa [unchanged] at moved
  case h_11 victim atPc =>
    cases taken
    exact .counts victim atPc
  case h_12 victim atPc =>
    split at taken <;> cases taken
    · rename_i reachable
      exact .requests victim atPc reachable
    · rename_i dropped
      exact .missesVictim victim atPc (Bool.not_eq_true _ ▸ dropped)
  case h_13 atPc =>
    cases taken
    exact .leaves atPc
  case h_14 => cases taken

theorem next_moves {choice : Id nodes × Act (Id nodes) Task} {label : Label (Id nodes) Task}
    (taken : next nodes before choice = some (label, after)) :
    Moves nodes label.node before label.event after := by
  obtain ⟨moved, stepped, same⟩ := Option.map_eq_some_iff.mp taken
  cases same
  exact step_moves stepped

/-! ### Who moves -/

section

variable {shifted : State (Id nodes) Task} {other : Id nodes}

theorem goto_other {pc : NodePc (Id nodes) Task} (different : other ≠ me) :
    (shifted.goto me pc).node other = shifted.node other :=
  Function.update_of_ne different ..

theorem goto_self {pc : NodePc (Id nodes) Task} : (shifted.goto me pc).node me = pc :=
  Function.update_self ..

theorem Moves.others (moved : Moves nodes me before event after) (different : other ≠ me) :
    after.node other = before.node other := by
  cases moved <;> exact goto_other different

end

end WsDeque.Distributed
