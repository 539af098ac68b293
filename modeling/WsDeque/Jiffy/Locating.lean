import WsDeque.Jiffy.Consumer

/-
How long an enqueue can look for its slot: every iteration of the loop leaves
the tail one buffer further on, whoever moves it, and the walk from the head
follows links that are there.
-/

namespace WsDeque.Jiffy

variable {ι α : Type*} {size : Nat} {inner after : Inner α} {chain chain' : List BufferPtr}
  {buf : BufferPtr} {idx i : Nat} {value : α}

/-! ### Budgets -/

def LinkFor.iterations (size base : Nat) : LinkFor α → Nat
  | .locate _ idx => (idx - base) / size
  | .finish => 0

def LinkFor.remaining (size base : Nat) : LinkFor α → Nat
  | .locate _ idx => 5 * ((idx - base) / size) + idx / size + 3
  | .finish => 0

def LinkFor.Behind (base tailBase : Nat) : LinkFor α → Prop
  | .locate _ _ => base ≤ tailBase
  | .finish => True

/-- How many iterations of the loop of `locate_tail_buffer` can still begin. -/
def ProducerPc.iterations (size : Nat) (inner : Inner α) : ProducerPc α → Nat
  | .loadTailBuf _ idx => (idx - inner.tailBase) / size + 1
  | .linkLoad caller buf | .linkCas caller buf _ => caller.iterations size (inner.heap buf).base
  | .loadNext _ idx buf | .advance _ idx buf _ => (idx - (inner.heap buf).base) / size
  | _ => 0

/-- How many accesses of `enqueue` can still come. -/
def ProducerPc.remaining (size : Nat) (inner : Inner α) : ProducerPc α → Nat
  | .loadTailBuf _ idx => 5 * ((idx - inner.tailBase) / size) + idx / size + 6
  | .linkLoad caller buf => caller.remaining size (inner.heap buf).base + 2
  | .linkCas caller buf _ => caller.remaining size (inner.heap buf).base + 1
  | .loadNext _ idx buf => 5 * ((idx - (inner.heap buf).base) / size) + idx / size + 3
  | .advance _ idx buf _ => 5 * ((idx - (inner.heap buf).base) / size) + idx / size + 2
  | .loadHeadBuf _ idx => idx / size + 5
  | .walkNext _ idx buf => (idx - (inner.heap buf).base) / size + 4
  | .writeValue _ _ _ _ => 4
  | .storeSet _ _ _ _ => 3
  | _ => 0

/-- The buffer that an iteration works on is the tail or before it. -/
def ProducerPc.Behind (inner : Inner α) : ProducerPc α → Prop
  | .linkLoad caller buf | .linkCas caller buf _ =>
      caller.Behind (inner.heap buf).base inner.tailBase
  | .loadNext _ _ buf | .advance _ _ buf _ => (inner.heap buf).base ≤ inner.tailBase
  | _ => True

/-- An access that begins an iteration. -/
def Access.begins : Access α → Bool
  | .loadTailBuf => true
  | _ => false

/-- A buffer keeps its base, and the tail only moves on. -/
structure Grown (inner after : Inner α) (chain : List BufferPtr) : Prop where
  base : ∀ buf ∈ chain, (after.heap buf).base = (inner.heap buf).base
  tailBase : inner.tailBase ≤ after.tailBase

theorem Chained.grown (chained : Chained size inner chain) (chained' : Chained size after chain')
    (grows : chain <+: chain') (tailBase : inner.tailBase ≤ after.tailBase) :
    Grown inner after chain where
  base := by
    intro buf member
    obtain ⟨i, there⟩ := List.getElem?_of_mem member
    rw [chained.base i buf there, chained'.base i buf (getElem?_of_grows grows there)]
  tailBase := tailBase

theorem div_sub_le {low high : Nat} (size idx : Nat) (further : low ≤ high) :
    (idx - high) / size ≤ (idx - low) / size :=
  Nat.div_le_div_right (Nat.sub_le_sub_left further idx)

theorem LinkFor.Behind.mono {caller : LinkFor α} {base tailBase later : Nat}
    (behind : caller.Behind base tailBase) (further : tailBase ≤ later) :
    caller.Behind base later := by
  cases caller with
  | locate value idx => exact Nat.le_trans behind further
  | finish => trivial

/-- What the others do leaves no more to do. -/
theorem Grown.spares (grown : Grown inner after chain) {pc : ProducerPc α}
    (meets : pc.Meets size chain) (behind : pc.Behind inner) :
    pc.iterations size after ≤ pc.iterations size inner ∧
      pc.remaining size after ≤ pc.remaining size inner ∧ pc.Behind after := by
  have later := grown.tailBase
  cases pc with
  | loadTailBuf value idx =>
      have fewer := div_sub_le size idx later
      simp only [ProducerPc.iterations, ProducerPc.remaining]
      exact ⟨by omega, by omega, trivial⟩
  | linkLoad caller buf =>
      obtain ⟨i, there, _bound⟩ := meets
      have base := grown.base buf (List.mem_of_getElem? there)
      simp only [ProducerPc.iterations, ProducerPc.remaining, ProducerPc.Behind, base]
      exact ⟨Nat.le_refl _, Nat.le_refl _, LinkFor.Behind.mono behind later⟩
  | linkCas caller buf fresh =>
      obtain ⟨i, there, _bound⟩ := meets
      have base := grown.base buf (List.mem_of_getElem? there)
      simp only [ProducerPc.iterations, ProducerPc.remaining, ProducerPc.Behind, base]
      exact ⟨Nat.le_refl _, Nat.le_refl _, LinkFor.Behind.mono behind later⟩
  | loadNext value idx buf =>
      obtain ⟨i, there, _rest⟩ := meets
      have base := grown.base buf (List.mem_of_getElem? there)
      simp only [ProducerPc.iterations, ProducerPc.remaining, ProducerPc.Behind, base]
      exact ⟨Nat.le_refl _, Nat.le_refl _, Nat.le_trans behind later⟩
  | advance value idx buf next =>
      obtain ⟨i, there, _rest⟩ := meets
      have base := grown.base buf (List.mem_of_getElem? there)
      simp only [ProducerPc.iterations, ProducerPc.remaining, ProducerPc.Behind, base]
      exact ⟨Nat.le_refl _, Nat.le_refl _, Nat.le_trans behind later⟩
  | walkNext value idx buf =>
      obtain ⟨i, there, _rest⟩ := meets
      have base := grown.base buf (List.mem_of_getElem? there)
      simp only [ProducerPc.iterations, ProducerPc.remaining, base]
      exact ⟨Nat.le_refl _, Nat.le_refl _, trivial⟩
  | _ => exact ⟨Nat.le_refl _, Nat.le_refl _, trivial⟩

/-! ### One access of its own -/

/-- An access of the producer itself has used up some of what it had. -/
structure Spends (size : Nat) (inner : Inner α) (pc : ProducerPc α) (begins : Bool)
    (after : Inner α) (pc' : ProducerPc α) : Prop where
  iterations : pc'.iterations size after + begins.toNat ≤ pc.iterations size inner
  remaining : pc'.remaining size after < pc.remaining size inner
  behind : pc'.Behind after
  claimed : pc'.claimed = pc.claimed ∨ pc'.claimed = none

theorem div_sub_lt (positive : 0 < size) {low high : Nat} (apart : low + size ≤ high)
    (beyond : low + size ≤ idx) : (idx - high) / size + 1 ≤ (idx - low) / size := by
  have fewer := div_sub_le size idx apart
  have whole : idx - low = idx - (low + size) + size := by omega
  rw [whole, Nat.add_div_right _ positive]
  exact Nat.succ_le_succ fewer

theorem locateIn_spends (chained : Chained size inner chain)
    (there : chain[i]? = some inner.tailBuf) (value : α) (idx : Nat) :
    Spends size inner (.loadTailBuf value idx) true inner
      (locateIn size inner value idx inner.tailBuf) := by
  unfold locateIn
  rw [chained.deref chained.tailBuf]
  simp only [chained.base i _ there]
  have base : inner.tailBase = i * size := chained.base i _ there
  split
  · constructor
    · exact Nat.succ_le_succ (Nat.zero_le _)
    · simp only [ProducerPc.remaining]
      omega
    · trivial
    · exact .inl rfl
  · rename_i above
    split
    · rename_i below
      rw [(located_spec chained there (Nat.le_of_not_lt above) below value).1]
      constructor
      · exact Nat.succ_le_succ (Nat.zero_le _)
      · exact Nat.lt_of_lt_of_le (by decide : 4 < 6) (Nat.le_add_left ..)
      · trivial
      · exact .inl rfl
    · constructor
      · exact Nat.le_refl _
      · exact Nat.lt_succ_self _
      · exact Nat.le_refl _
      · exact .inl rfl

theorem walkFrom_spends (chained : Chained size inner chain) (there : chain[i]? = some buf)
    (above : i * size ≤ idx) (value : α) :
    (walkFrom size inner value idx buf).iterations size inner = 0 ∧
      (walkFrom size inner value idx buf).remaining size inner ≤ (idx - i * size) / size + 4 ∧
        (walkFrom size inner value idx buf).Behind inner ∧
          (walkFrom size inner value idx buf).claimed = some (idx, value) := by
  unfold walkFrom
  rw [chained.deref (List.mem_of_getElem? there)]
  simp only [chained.base i buf there]
  split
  · rename_i below
    rw [(located_spec chained there above below value).1]
    exact ⟨rfl, Nat.le_add_left .., trivial, rfl⟩
  · refine ⟨rfl, ?_, trivial, rfl⟩
    simp only [ProducerPc.remaining, chained.base i buf there]
    exact Nat.le_refl _

section

variable [DecidableEq ι] {state final : State ι α} {producer : ι} {pc pc' : ProducerPc α}
  {values taken : List α} {caller : LinkFor α} {access : Access α} {next : BufferPtr}

omit [DecidableEq ι] in
/-- A tail that is not the one read has been moved on by somebody else. -/
theorem Sound.overtaken (sound : Sound size values taken chain state)
    (there : chain[i]? = some buf) (moved : state.inner.tailBuf ≠ buf)
    (behind : i * size ≤ state.inner.tailBase) : i * size + size ≤ state.inner.tailBase := by
  obtain ⟨j, here⟩ := List.getElem?_of_mem sound.chained.tailBuf
  have base : state.inner.tailBase = j * size := sound.chained.base j _ here
  have apart : i ≠ j := by
    rintro rfl
    exact moved (Option.some.inj (here.symm.trans there))
  rw [base] at behind ⊢
  rw [← Nat.succ_mul]
  rcases Nat.lt_or_gt_of_ne apart with less | more
  · exact Nat.mul_le_mul_right size less
  · have most := Nat.mul_le_mul_right size (Nat.succ_le_of_lt more)
    rw [Nat.succ_mul] at most
    obtain rfl : size = 0 := by omega
    exact Nat.le_refl _

omit [DecidableEq ι] in
/-- Whatever becomes of the compare-exchange, the next iteration begins further
on. -/
theorem Sound.advance_spends (positive : 0 < size) (sound : Sound size values taken chain state)
    (atPc : state.producer producer = .advance value idx buf next)
    (behind : (state.inner.heap buf).base ≤ state.inner.tailBase)
    (stepped : Jiffy.producerStep size state.inner (.advance value idx buf next) =
      some (access, after, pc')) :
    Spends size state.inner (.advance value idx buf next) access.begins after pc' := by
  have meets := sound.producers producer
  rw [atPc] at meets
  obtain ⟨i, there, beyond, linked⟩ := meets
  have base := sound.chained.base i buf there
  rw [base] at behind
  rw [Nat.succ_mul] at beyond
  have further : ∀ after : Inner α, i * size + size ≤ after.tailBase →
      Spends size state.inner (.advance value idx buf next) false after
        (.loadTailBuf value idx) := by
    intro after apart
    have fewer := div_sub_lt positive apart beyond
    constructor
    · simp only [ProducerPc.iterations, base]
      exact fewer
    · simp only [ProducerPc.remaining, base]
      omega
    · trivial
    · exact .inl rfl
  simp only [Jiffy.producerStep] at stepped
  split at stepped
  · cases stepped
    apply further
    have follows := sound.chained.base (i + 1) next linked
    rw [Nat.succ_mul] at follows
    exact Nat.le_of_eq follows.symm
  · rename_i moved
    cases stepped
    exact further _ (sound.overtaken there moved behind)

omit [DecidableEq ι] in
/-- Inside `link_next_buffer` and where it returns. -/
theorem Grown.link_spends (size : Nat) (grown : Grown inner after chain) (member : buf ∈ chain)
    (behind : caller.Behind (inner.heap buf).base inner.tailBase) (fresh : BufferPtr) :
    Spends size inner (.linkLoad caller buf) false after (.linkCas caller buf fresh) ∧
      Spends size inner (.linkLoad caller buf) false after (caller.resume buf) ∧
        Spends size inner (.linkCas caller buf fresh) false after (caller.resume buf) := by
  have base := grown.base buf member
  have kept := behind.mono grown.tailBase
  rw [← base] at kept
  have resumes : (caller.resume buf).iterations size after =
        caller.iterations size (inner.heap buf).base ∧
      (caller.resume buf).remaining size after = caller.remaining size (inner.heap buf).base ∧
        (caller.resume buf).claimed = caller.claimed ∧ (caller.resume buf).Behind after := by
    rw [← base]
    cases caller with
    | locate value idx => exact ⟨rfl, rfl, rfl, kept⟩
    | finish => exact ⟨rfl, rfl, rfl, kept⟩
  obtain ⟨iterations, remaining, claimed, kept'⟩ := resumes
  refine ⟨⟨?_, ?_, kept, .inl rfl⟩, ⟨Nat.le_of_eq iterations, ?_, kept', .inl claimed⟩,
    ⟨Nat.le_of_eq iterations, ?_, kept', .inl claimed⟩⟩
  · simp only [ProducerPc.iterations, base]
    exact Nat.le_refl _
  · simp only [ProducerPc.remaining, base]
    exact Nat.lt_succ_self _
  · rw [remaining]
    exact Nat.lt_add_of_pos_right Nat.two_pos
  · rw [remaining]
    exact Nat.lt_succ_self _

/-- An access to a buffer of the chain. -/
theorem Sound.buffer_spends (positive : 0 < size) (sound : Sound size values taken chain state)
    (atPc : state.producer producer = pc) (uses : pc.uses = some buf)
    (behind : pc.Behind state.inner)
    (stepped : Jiffy.bufferStep size state.inner buf (state.inner.heap buf) pc =
      some (access, after, pc')) :
    Spends size state.inner pc access.begins after pc' := by
  obtain ⟨_unclaimed, chain', grows, sound', tailBase⟩ := sound.bufferStep atPc uses stepped
  have grown : Grown state.inner after chain := sound.chained.grown sound'.chained grows tailBase
  have meets := sound.producers producer
  rw [atPc] at meets
  cases pc with
  | linkLoad caller tail =>
      cases uses
      obtain ⟨i, there, bound⟩ := meets
      obtain ⟨allocates, resumes, _⟩ :=
        grown.link_spends size (List.mem_of_getElem? there) behind state.inner.allocated
      simp only [Jiffy.bufferStep] at stepped
      split at stepped
      · cases stepped
        exact resumes
      · cases stepped
        exact allocates
  | linkCas caller tail fresh =>
      cases uses
      obtain ⟨i, there, bound⟩ := meets
      obtain ⟨_, _, resumes⟩ :=
        grown.link_spends size (List.mem_of_getElem? there) behind fresh
      obtain ⟨_linked, below, _unlinked, live, _isNew⟩ :=
        sound.owned.holds producer buf fresh (congrArg ProducerPc.held atPc)
      have present : (state.inner.deref fresh).isSome = true := by
        rw [Inner.deref, if_pos ⟨below, live⟩]
        rfl
      simp only [Jiffy.bufferStep, if_pos present] at stepped
      split at stepped
      · cases stepped
        exact resumes
      · cases stepped
        exact resumes
  | loadNext value idx tail =>
      cases uses
      obtain ⟨i, there, beyond, inside⟩ := meets
      have follows := sound.chained.next i buf there
      rw [List.getElem?_eq_getElem inside] at follows
      simp only [Jiffy.bufferStep, follows] at stepped
      cases stepped
      exact ⟨Nat.le_refl _, Nat.lt_succ_self _, behind, .inl rfl⟩
  | walkNext value idx tail =>
      cases uses
      obtain ⟨i, there, beyond, within⟩ := meets
      have inside : i + 1 < chain.length :=
        Nat.lt_of_mul_lt_mul_right (Nat.lt_of_le_of_lt beyond within)
      have follows := sound.chained.next i buf there
      rw [List.getElem?_eq_getElem inside] at follows
      simp only [Jiffy.bufferStep, follows] at stepped
      cases stepped
      obtain ⟨iterations, remaining, kept, claimed⟩ :=
        walkFrom_spends sound.chained (List.getElem?_eq_getElem inside) beyond value
      rw [Nat.succ_mul] at beyond
      have fewer := div_sub_lt positive (Nat.le_refl _) beyond
      refine ⟨Nat.le_of_eq iterations, ?_, kept, .inl claimed⟩
      rw [Nat.succ_mul] at remaining
      change _ < (idx - (state.inner.heap buf).base) / size + 4
      rw [sound.chained.base i buf there]
      exact Nat.lt_of_le_of_lt remaining (Nat.add_lt_add_right fewer 4)
  | writeValue value idx tail offset =>
      cases uses
      cases stepped
      exact ⟨Nat.le_refl _, Nat.lt_succ_self 3, trivial, .inl rfl⟩
  | storeSet value idx tail offset =>
      cases uses
      cases stepped
      split
      · exact ⟨Nat.le_refl _, Nat.lt_succ_self 2, trivial, .inr rfl⟩
      · exact ⟨Nat.le_refl _, Nat.succ_pos 2, trivial, .inr rfl⟩
  | _ => cases uses

/-- Whatever the producer does after its claim. -/
theorem Sound.spends (positive : 0 < size) (sound : Sound size values taken chain state)
    (behind : (state.producer producer).Behind state.inner) (unclaimed : access.claimed = [])
    (stepped : Jiffy.producerStep size state.inner (state.producer producer) =
      some (access, after, pc')) :
    Spends size state.inner (state.producer producer) access.begins after pc' := by
  have meets := sound.producers producer
  cases atPc : state.producer producer with
  | claim value =>
      rw [atPc] at stepped
      cases stepped
      cases unclaimed
  | loadTailBuf value idx =>
      rw [atPc] at stepped
      cases stepped
      obtain ⟨i, there⟩ := List.getElem?_of_mem sound.chained.tailBuf
      exact locateIn_spends sound.chained there value idx
  | advance value idx buf next =>
      rw [atPc] at stepped behind
      exact sound.advance_spends positive atPc behind stepped
  | loadHeadBuf value idx =>
      rw [atPc] at stepped
      cases stepped
      obtain ⟨i, there, before⟩ := sound.headBuf_before (congrArg ProducerPc.claimed atPc)
      obtain ⟨iterations, remaining, kept, claimed⟩ :=
        walkFrom_spends sound.chained there before value
      have fewer : (idx - i * size) / size ≤ idx / size :=
        Nat.div_le_div_right (Nat.sub_le idx (i * size))
      refine ⟨Nat.le_of_eq iterations, ?_, kept, .inl claimed⟩
      change _ < idx / size + 5
      exact Nat.lt_of_le_of_lt remaining (Nat.add_lt_add_of_le_of_lt fewer (Nat.lt_succ_self 4))
  | linkLoad caller buf | linkCas caller buf fresh | loadNext value idx buf
  | walkNext value idx buf | writeValue value idx buf offset | storeSet value idx buf offset =>
      rw [atPc] at stepped meets behind
      rw [producerStep_of_uses sound.chained rfl (meets.uses rfl)] at stepped
      exact sound.buffer_spends positive atPc rfl behind stepped
  | _ =>
      rw [atPc] at stepped
      cases stepped

end

/-! ### One enqueue among the others -/

def Label.begins [DecidableEq ι] (producer : ι) : Label ι α → Bool
  | .producer other access => decide (other = producer) && access.begins
  | _ => false

/-- An access of this producer. -/
def Label.accesses [DecidableEq ι] (producer : ι) : Label ι α → Bool
  | .producer other _ => decide (other = producer)
  | _ => false

/-- What one step of the system leaves a producer that claims nothing. -/
structure Searches [DecidableEq ι] (size : Nat) (producer : ι) (before : State ι α)
    (begun accesses : Nat) (after : State ι α) : Prop where
  iterations : (after.producer producer).iterations size after.inner + begun ≤
    (before.producer producer).iterations size before.inner
  remaining : (after.producer producer).remaining size after.inner + accesses ≤
    (before.producer producer).remaining size before.inner
  behind : (after.producer producer).Behind after.inner
  claimed : ∀ claim, after.claimed producer = some claim → before.claimed producer = some claim

section

variable [DecidableEq ι] {state final : State ι α} {producer : ι} {choice : Choice ι α}
  {label : Label ι α} {values more taken taken' : List α} {pc pc' : ProducerPc α}

/-- A step that is not the producer's. -/
theorem Sound.searches_aside (sound : Sound size values taken chain state)
    (behind : (state.producer producer).Behind state.inner)
    (advances : Advances size more taken' chain state final)
    (same : final.producer producer = state.producer producer) :
    Searches size producer state 0 0 final := by
  obtain ⟨chain', grows, sound', tailBase⟩ := advances
  have grown := sound.chained.grown sound'.chained grows tailBase
  obtain ⟨iterations, remaining, kept⟩ := grown.spares (sound.producers producer) behind
  rw [← same] at kept
  constructor
  · rw [same]
    exact iterations
  · rw [same]
    exact remaining
  · exact kept
  · intro claim claimed
    rw [State.claimed, same] at claimed
    exact claimed

/-- A call or a return of the producer itself. -/
theorem searches_call {pc : ProducerPc α} (spent : ∀ inner : Inner α, pc.iterations size inner = 0 ∧
      pc.remaining size inner = 0 ∧ pc.Behind inner ∧ pc.claimed = none) :
    Searches size producer state 0 0 (state.setProducer producer pc) := by
  obtain ⟨iterations, remaining, behind, claimed⟩ := spent state.inner
  have at' : (state.setProducer producer pc).producer producer = pc := Function.update_self ..
  have unchanged : (state.setProducer producer pc).inner = state.inner := rfl
  constructor
  · rw [at', unchanged, iterations]
    exact Nat.zero_le _
  · rw [at', unchanged, remaining]
    exact Nat.zero_le _
  · rw [at', unchanged]
    exact behind
  · intro claim given
    rw [State.claimed, at', claimed] at given
    cases given

/-- One step of anybody, unless it is a claim of this producer. -/
theorem Sound.searches (positive : 0 < size) (sound : Sound size values taken chain state)
    (behind : (state.producer producer).Behind state.inner)
    (moved : Moves size state label final)
    (unclaimed : ∀ idx value, label ≠ .producer producer (.claim idx value)) :
    Searches size producer state (label.begins producer).toNat (label.accesses producer).toNat
      final := by
  have advances := (sound.step positive moved).2
  cases moved with
  | producer other access after next stepped =>
      by_cases own : other = producer
      · subst own
        have none : access.claimed = [] := by
          cases access with
          | claim idx value => exact absurd rfl (unclaimed idx value)
          | _ => rfl
        obtain ⟨iterations, remaining, kept, claimed⟩ :=
          sound.spends positive behind none stepped
        have at' : (({ state with inner := after }).setProducer other next).producer other = next :=
          Function.update_self ..
        have begins : (Label.producer other access : Label ι α).begins other = access.begins := by
          simp only [Label.begins, decide_true, Bool.true_and]
        have accesses : (Label.producer other access : Label ι α).accesses other = true := by
          simp only [Label.accesses, decide_true]
        rw [begins, accesses]
        constructor
        · rw [at']
          exact iterations
        · rw [at']
          exact remaining
        · rw [at']
          exact kept
        · intro claim given
          rw [State.claimed, at'] at given
          rcases claimed with same | gone
          · exact same.symm.trans given
          · rw [gone] at given
            cases given
      · have begins : (Label.producer other access : Label ι α).begins producer = false := by
          simp only [Label.begins, decide_eq_false own, Bool.false_and]
        have accesses : (Label.producer other access : Label ι α).accesses producer = false :=
          decide_eq_false own
        rw [begins, accesses]
        exact sound.searches_aside behind advances (Function.update_of_ne (Ne.symm own) ..)
  | enqueueCall other value | enqueueReturn other =>
      by_cases own : other = producer
      · subst own
        exact searches_call fun _inner => ⟨rfl, rfl, trivial, rfl⟩
      · exact sound.searches_aside behind advances (Function.update_of_ne (Ne.symm own) ..)
  | dequeueCall | consumer | dequeueReturn =>
      exact sound.searches_aside behind advances rfl

/-- What a run leaves of the budgets, as long as the producer claims nothing new. -/
theorem Sound.searches_run (positive : 0 < size) (sound : Sound size values taken chain state)
    (behind : (state.producer producer).Behind state.inner) {later : List (Label ι α)}
    (run : (system ι α size).Run state later final)
    (unclaimed : ∀ idx value, Label.producer producer (.claim idx value) ∉ later) :
    Searches size producer state (later.countP (Label.begins producer))
        (later.countP (Label.accesses producer)) final ∧
      ∃ values taken chain, Sound size values taken chain final := by
  induction run with
  | refl =>
      exact ⟨⟨Nat.le_refl _, Nat.le_refl _, behind, fun _claim given => given⟩, _, _, _, sound⟩
  | @snoc middle final later label prior last ih =>
      have before : ∀ idx value, Label.producer producer (.claim idx value) ∉ later :=
        fun idx value member => unclaimed idx value (List.mem_append_left _ member)
      have other : ∀ idx value, label ≠ .producer producer (.claim idx value) := by
        rintro idx value rfl
        exact unclaimed idx value (List.mem_append_right _ (List.mem_singleton.mpr rfl))
      obtain ⟨searches, _, _, _, soundMiddle⟩ := ih before
      obtain ⟨_choice, moved⟩ := last
      have moves := next_moves moved
      obtain ⟨_chain', _grows, sound', _later⟩ := (soundMiddle.step positive moves).2
      have step := soundMiddle.searches positive searches.behind moves other
      have iterations := step.iterations
      have remaining := step.remaining
      have iterations' := searches.iterations
      have remaining' := searches.remaining
      rw [List.countP_append, List.countP_append, List.countP_singleton, List.countP_singleton]
      refine ⟨⟨?_, ?_, step.behind, ?_⟩, _, _, _, sound'⟩
      · cases begun : label.begins producer
        all_goals
          rw [begun] at iterations
          simp only [Bool.toNat_false, Bool.toNat_true] at iterations
          simp only [Bool.false_eq_true, if_false, if_true]
          omega
      · cases own : label.accesses producer
        all_goals
          rw [own] at remaining
          simp only [Bool.toNat_false, Bool.toNat_true] at remaining
          simp only [Bool.false_eq_true, if_false, if_true]
          omega
      · intro claim given
        exact searches.claimed claim (step.claimed claim given)

/-- What the search for the slot of this index can rely on at any moment. -/
structure Finds (size idx : Nat) (inner : Inner α) (pc : ProducerPc α) : Prop where
  safe : pc ≠ .panicked ∧ pc ≠ .nullBuffer ∧ pc ≠ .dangling
  goesOn : pc = .idle ∨ pc = .returned ∨ (producerStep size inner pc).isSome
  fromHead : ∀ value other, pc = .loadHeadBuf value other →
    other = idx ∧ ∃ buffer, inner.deref inner.headBuf = some buffer ∧ buffer.base ≤ idx
  linked : ∀ value other buf, pc = .walkNext value other buf →
    other = idx ∧ ∃ buffer, inner.deref buf = some buffer ∧ buffer.next.isSome
  slot : ∀ value other buf offset, pc = .writeValue value other buf offset →
    other = idx ∧ ∃ buffer, inner.deref buf = some buffer ∧ buffer.base ≤ idx ∧
      idx < buffer.base + size ∧ offset = idx - buffer.base

omit [DecidableEq ι] in
theorem Sound.goesOn (sound : Sound size values taken chain state) :
    state.producer producer = .idle ∨ state.producer producer = .returned ∨
      (Jiffy.producerStep size state.inner (state.producer producer)).isSome := by
  have meets := sound.producers producer
  cases atPc : state.producer producer with
  | idle => exact .inl rfl
  | returned => exact .inr (.inl rfl)
  | claim value => exact .inr (.inr rfl)
  | loadTailBuf value idx => exact .inr (.inr rfl)
  | loadHeadBuf value idx => exact .inr (.inr rfl)
  | advance value idx buf next =>
      refine .inr (.inr ?_)
      simp only [Jiffy.producerStep]
      split <;> rfl
  | linkLoad caller buf | linkCas caller buf fresh | loadNext value idx buf
  | walkNext value idx buf =>
      rw [atPc] at meets
      refine .inr (.inr ?_)
      rw [producerStep_of_uses sound.chained rfl (meets.uses rfl)]
      simp only [Jiffy.bufferStep]
      split <;> rfl
  | writeValue value idx buf offset | storeSet value idx buf offset =>
      rw [atPc] at meets
      refine .inr (.inr ?_)
      rw [producerStep_of_uses sound.chained rfl (meets.uses rfl)]
      rfl
  | panicked | nullBuffer | dangling =>
      rw [atPc] at meets
      exact meets.elim

omit [DecidableEq ι] in
theorem Sound.finds (positive : 0 < size) (sound : Sound size values taken chain state)
    (claimed : ∀ claim, state.claimed producer = some claim → claim.1 = idx) :
    Finds size idx state.inner (state.producer producer) := by
  have meets := sound.producers producer
  constructor
  · refine ⟨?_, ?_, ?_⟩
    all_goals
      intro atPc
      rw [atPc] at meets
      exact meets
  · exact sound.goesOn
  · intro value other atPc
    have claim : state.claimed producer = some (other, value) := congrArg ProducerPc.claimed atPc
    obtain rfl := claimed _ claim
    obtain ⟨i, there, before⟩ := sound.headBuf_before claim
    refine ⟨rfl, _, sound.chained.deref (List.mem_of_getElem? there), ?_⟩
    rw [sound.chained.base i _ there]
    exact before
  · intro value other buf atPc
    obtain rfl := claimed _ (congrArg ProducerPc.claimed atPc)
    rw [atPc] at meets
    obtain ⟨i, there, beyond, within⟩ := meets
    have inside : i + 1 < chain.length :=
      Nat.lt_of_mul_lt_mul_right (Nat.lt_of_le_of_lt beyond within)
    refine ⟨rfl, _, sound.chained.deref (List.mem_of_getElem? there), ?_⟩
    rw [sound.chained.next i buf there, List.getElem?_eq_getElem inside]
    rfl
  · intro value other buf offset atPc
    obtain rfl := claimed _ (congrArg ProducerPc.claimed atPc)
    rw [atPc] at meets
    obtain ⟨there, rfl⟩ := meets
    have whole := Nat.div_add_mod other size
    have rest := Nat.mod_lt other positive
    refine ⟨rfl, _, sound.chained.deref (List.mem_of_getElem? there), ?_⟩
    rw [sound.chained.base _ buf there]
    rw [Nat.mul_comm] at whole
    exact ⟨by omega, by omega, by omega⟩

omit [DecidableEq ι] in
/-- Only a `fetch_add` claims, and then the loop begins. -/
theorem producerStep_claim (stepped : producerStep size inner pc =
    some (.claim idx value, after, pc')) : pc' = .loadTailBuf value idx := by
  cases pc with
  | claim value' =>
      cases stepped
      rfl
  | advance value' idx' buf next =>
      simp only [producerStep] at stepped
      split at stepped <;> cases stepped
  | linkLoad caller buf | linkCas caller buf fresh | loadNext value' idx' buf
  | walkNext value' idx' buf | writeValue value' idx' buf offset
  | storeSet value' idx' buf offset =>
      simp only [producerStep, ProducerPc.uses, Option.bind_some] at stepped
      split at stepped
      · cases stepped
      · simp only [bufferStep] at stepped
        try split at stepped
        all_goals cases stepped
  | _ => cases stepped

theorem claim_spec (moved : Moves size state (.producer producer (.claim idx value)) final) :
    final.producer producer = .loadTailBuf value idx := by
  cases moved with
  | producer _producer _access after next stepped =>
      exact (Function.update_self ..).trans (producerStep_claim stepped)

/-- Every enqueue finds its slot, in a number of steps that depends on how far
the tail was behind and on nobody's luck. -/
theorem finds_slot (positive : 0 < size) {labels later : List (Label ι α)} {claimed : State ι α}
    (reached : (system ι α size).Reaches (labels ++ [.producer producer (.claim idx value)]) claimed)
    (run : (system ι α size).Run claimed later final)
    (unclaimed : ∀ idx value, Label.producer producer (.claim idx value) ∉ later) :
    later.countP (Label.begins producer) ≤ (idx - claimed.inner.tailBase) / size + 1 ∧
      later.countP (Label.accesses producer) ≤
        5 * ((idx - claimed.inner.tailBase) / size) + idx / size + 6 ∧
      Finds size idx final.inner (final.producer producer) := by
  obtain ⟨_indices, chain, sound⟩ := tracked_of_reaches positive reached
  obtain ⟨start, _isInitial, whole⟩ := reached
  obtain ⟨middle, _prior, choice, moved⟩ := whole.last rfl
  have atPc := claim_spec (next_moves moved)
  have behind : (claimed.producer producer).Behind claimed.inner := by
    rw [atPc]
    trivial
  obtain ⟨searches, _, _, _, sound'⟩ := sound.searches_run positive behind run unclaimed
  have iterations := searches.iterations
  have remaining := searches.remaining
  rw [atPc] at iterations remaining
  simp only [ProducerPc.iterations, ProducerPc.remaining] at iterations remaining
  refine ⟨by omega, by omega, sound'.finds positive ?_⟩
  intro claim given
  have own := searches.claimed claim given
  rw [State.claimed, atPc] at own
  cases own
  rfl

end

/-- Two slots to a buffer: the third of three producers is one buffer ahead. -/
def claimTwo : List (Choice (Fin 3) Nat) :=
  [.enqueueCall 0 10, .producer 0, .enqueueCall 1 11, .producer 1, .enqueueCall 2 12]

theorem finds_slot_ahead :
    ∃ labels later claimed final,
      (system (Fin 3) Nat 2).Reaches (labels ++ [.producer 2 (.claim 2 12)]) claimed ∧
      (system (Fin 3) Nat 2).Run claimed later final ∧
      later.countP (Label.begins 2) = 2 ∧ final.producer 2 = .writeValue 12 2 1 0 ∧
      later.countP (Label.begins 2) ≤ (2 - claimed.inner.tailBase) / 2 + 1 ∧
      later.countP (Label.accesses 2) ≤ 5 * ((2 - claimed.inner.tailBase) / 2) + 2 / 2 + 6 ∧
      Finds 2 2 final.inner (final.producer 2) := by
  have soFar : (system (Fin 3) Nat 2).Reaches _ _ :=
    ⟨_, rfl, TransitionSystem.execute_run claimTwo rfl⟩
  have reached := soFar.snoc ⟨.producer 2, rfl⟩
  let six : List (Choice (Fin 3) Nat) := List.replicate 6 (.producer 2)
  exact ⟨_, _, _, _, reached, TransitionSystem.execute_run six rfl, rfl, rfl,
    finds_slot (by decide) reached (TransitionSystem.execute_run six rfl) fun idx value => by simp⟩

end WsDeque.Jiffy
