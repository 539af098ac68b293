import WsDeque.ChaseLev.Model

/-
What one step of the deque can be.
-/

namespace WsDeque.ChaseLev

variable {ι α : Type*} [Fintype ι] [DecidableEq ι] {before after : State ι α} {label : Label ι α}

inductive Moves (before : State ι α) : Label ι α → State ι α → Prop
  | pushCall (value : α) (atPc : before.owner = .idle) :
      Moves before (.pushCall value) { before with owner := .pushLoadBottom value }
  | popCall (atPc : before.owner = .idle) :
      Moves before .popCall
        { before with
          owner := if before.worker.fifo then .popFifo .loadTop else .popLoadBottom }
  | owner (spurious : Bool) (access : Access) (worker : Worker) (inner : Inner α) (pc : OwnerPc α)
      (stepped : ownerStep before.worker before.inner spurious before.owner =
        some (access, worker, inner, pc)) :
      Moves before (.owner access)
        { before with
          worker := worker
          inner := inner
          owner := pc }
  | ownerReturn (result : OwnerResult α) (atPc : before.owner = .returned result) :
      Moves before (.ownerReturn result) { before with owner := .idle }
  | stealCall (thief : ι) (atPc : before.thief thief = .idle) :
      Moves before (.stealCall thief) (before.setThief thief (.stealing .loadTop))
  | thief (thief : ι) (pc : StealPc α) (atPc : before.thief thief = .stealing pc) :
      Moves before (.thief thief (stealFrom before.inner pc).1)
        ({ before with inner := (stealFrom before.inner pc).2.1 }.setThief thief
          (ThiefPc.afterOutcome (stealFrom before.inner pc).2.2))
  | stealReturn (thief : ι) (result : Steal α) (atPc : before.thief thief = .returned result) :
      Moves before (.stealReturn thief result) (before.setThief thief .idle)
  | newStealer (thief : ι) (atPc : before.thief thief = .absent) (shared : before.shared = true) :
      Moves before (.newStealer thief) (before.setThief thief .idle)
  | dropStealer (thief : ι) (atPc : before.thief thief = .idle) :
      Moves before (.dropStealer thief) (before.setThief thief .absent).release
  | dropWorker (atPc : before.owner = .idle) :
      Moves before .dropWorker { before with owner := .dropped }.release

theorem next_moves {choice : Choice ι α} (taken : next before choice = some (label, after)) :
    Moves before label after := by
  cases choice with
  | pushCall value =>
      simp only [next] at taken
      split at taken <;> cases taken
      rename_i atPc
      exact .pushCall value atPc
  | popCall =>
      simp only [next] at taken
      split at taken <;> cases taken
      rename_i atPc
      exact .popCall atPc
  | owner spurious =>
      obtain ⟨moved, stepped, same⟩ := Option.map_eq_some_iff.mp taken
      cases same
      exact .owner spurious _ _ _ _ stepped
  | ownerReturn =>
      simp only [next] at taken
      split at taken <;> cases taken
      rename_i result atPc
      exact .ownerReturn result atPc
  | stealCall thief =>
      simp only [next] at taken
      split at taken <;> cases taken
      rename_i atPc
      exact .stealCall thief atPc
  | thief thief =>
      simp only [next] at taken
      split at taken <;> cases taken
      rename_i pc atPc
      exact .thief thief pc atPc
  | stealReturn thief =>
      simp only [next] at taken
      split at taken <;> cases taken
      rename_i result atPc
      exact .stealReturn thief result atPc
  | newStealer thief =>
      simp only [next] at taken
      split at taken
      · rename_i atPc
        split at taken <;> cases taken
        rename_i shared
        exact .newStealer thief atPc shared
      · cases taken
  | dropStealer thief =>
      simp only [next] at taken
      split at taken <;> cases taken
      rename_i atPc
      exact .dropStealer thief atPc
  | dropWorker =>
      simp only [next] at taken
      split at taken <;> cases taken
      rename_i atPc
      exact .dropWorker atPc

/-- Whose step a choice is. -/
inductive Yields : Choice ι α → Label ι α → Prop
  | pushCall (value : α) : Yields (.pushCall value) (.pushCall value)
  | popCall : Yields .popCall .popCall
  | owner (spurious : Bool) (access : Access) : Yields (.owner spurious) (.owner access)
  | ownerReturn (result : OwnerResult α) : Yields .ownerReturn (.ownerReturn result)
  | stealCall (thief : ι) : Yields (.stealCall thief) (.stealCall thief)
  | thief (thief : ι) (access : Access) : Yields (.thief thief) (.thief thief access)
  | stealReturn (thief : ι) (result : Steal α) :
      Yields (.stealReturn thief) (.stealReturn thief result)
  | newStealer (thief : ι) : Yields (.newStealer thief) (.newStealer thief)
  | dropStealer (thief : ι) : Yields (.dropStealer thief) (.dropStealer thief)
  | dropWorker : Yields .dropWorker .dropWorker

theorem next_yields {choice : Choice ι α} (taken : next before choice = some (label, after)) :
    Yields choice label := by
  cases choice with
  | owner spurious =>
      obtain ⟨moved, _stepped, same⟩ := Option.map_eq_some_iff.mp taken
      cases same
      exact .owner spurious _
  | newStealer thief =>
      simp only [next] at taken
      split at taken
      · split at taken <;> cases taken
        exact .newStealer thief
      · cases taken
  | _ =>
      simp only [next] at taken
      split at taken <;> cases taken
      constructor

end WsDeque.ChaseLev
