import WsDeque.ChaseLev.Sequential
import WsDeque.SerialCalls

/-
The deque is a list, one call at a time, wherever its indices stand and however
often they wrap.

The words of a deque stand for a window of unbounded indices; a capacity is a
power of two, so that an index and its word share a cell.
-/

namespace WsDeque.ChaseLev

open MachineWord

variable {α : Type*} {buffer other : Buffer α} {exponent : Nat} {low high index : Int}

/-! ### The ring -/

namespace Buffer

/-- The cell of an unbounded index. -/
def at' (buffer : Buffer α) (index : Int) : Option α :=
  buffer.read (wrap index)

theorem cell_wrap (cap : buffer.cap = 2 ^ exponent) (small : exponent ≤ 63) (index : Int) :
    buffer.cell (wrap index) = (index % (2 ^ exponent : Nat)).toNat := by
  unfold cell mask
  rw [cap, asUsize_and_mask _ small, wrap_emod_two_pow _ (by omega)]

/-- Two indices less than a turn apart have different cells. -/
theorem cell_injective (cap : buffer.cap = 2 ^ exponent) (small : exponent ≤ 63)
    {left right : Int} (above : right - left < 2 ^ exponent) (below : left - right < 2 ^ exponent)
    (same : buffer.cell (wrap left) = buffer.cell (wrap right)) : left = right := by
  rw [cell_wrap cap small, cell_wrap cap small] at same
  exact eq_of_toNat_emod_eq same (Nat.two_pow_pos exponent) (by exact_mod_cast above)
    (by exact_mod_cast below)

theorem at_write_self (buffer : Buffer α) (index : Int) (boxed : Option α) :
    (buffer.write (wrap index) boxed).at' index = boxed :=
  Function.update_self ..

theorem at_write_of_ne (cap : buffer.cap = 2 ^ exponent) (small : exponent ≤ 63)
    {left right : Int} (above : right - left < 2 ^ exponent) (below : left - right < 2 ^ exponent)
    (different : left ≠ right) (boxed : Option α) :
    (buffer.write (wrap right) boxed).at' left = buffer.at' left :=
  Function.update_of_ne (fun same => different (cell_injective cap small above below same)) ..

theorem copyTo_cap (buffer : Buffer α) (top : Int) (other : Buffer α) (count : Nat) :
    (buffer.copyTo top other count).cap = other.cap := by
  induction count with
  | zero => rfl
  | succ count ih => exact ih

/-- Each index of the range is copied, into whatever cell it has there. -/
theorem at_copyTo (cap : other.cap = 2 ^ exponent) (small : exponent ≤ 63) {count : Nat}
    (fits : count ≤ 2 ^ exponent) (low : Int) {offset : Nat} (inside : offset < count) :
    (buffer.copyTo (wrap low) other count).at' (low + offset) = buffer.at' (low + offset) := by
  induction count with
  | zero => omega
  | succ count ih =>
      have capacity := (buffer.copyTo_cap (wrap low) other count).trans cap
      have power : ((2 ^ exponent : Nat) : Int) = 2 ^ exponent := by push_cast; rfl
      unfold copyTo
      rw [wrappingAdd_wrap]
      rcases Nat.lt_succ_iff_lt_or_eq.mp inside with earlier | rfl
      · rw [at_write_of_ne capacity small (by omega) (by omega) (by omega)]
        exact ih (by omega) earlier
      · exact at_write_self ..

end Buffer

/-- The elements from one index to another are in their cells. -/
def Buffer.Holds (buffer : Buffer α) (low : Int) (items : List α) : Prop :=
  window buffer.at' low (low + items.length) = items.map some

variable {items : List α} {value : α}

theorem Buffer.Holds.getElem (holds : buffer.Holds low items) {offset : Nat}
    (inside : offset < items.length) : buffer.at' (low + offset) = some items[offset] := by
  have cells := congrArg (fun cells => cells[offset]?) holds
  simp only [window, List.getElem?_map] at cells
  rw [List.getElem?_range (by omega), List.getElem?_eq_getElem inside] at cells
  exact Option.some.inj cells

theorem Buffer.Holds.of_getElem
    (each : ∀ (offset : Nat) (inside : offset < items.length),
      buffer.at' (low + offset) = some items[offset]) : buffer.Holds low items := by
  unfold Holds window
  apply List.ext_getElem
  · rw [List.length_map, List.length_range, List.length_map]
    omega
  · intro offset left right
    rw [List.length_map] at right
    simp only [List.getElem_map, List.getElem_range]
    exact each offset right

theorem Buffer.Holds.push (holds : buffer.Holds low items) (cap : buffer.cap = 2 ^ exponent)
    (small : exponent ≤ 63) (room : items.length < 2 ^ exponent) (value : α) :
    (buffer.write (wrap (low + items.length)) (some value)).Holds low (items ++ [value]) := by
  have power : ((2 ^ exponent : Nat) : Int) = 2 ^ exponent := by push_cast; rfl
  apply Buffer.Holds.of_getElem
  intro offset inside
  rw [List.length_append, List.length_singleton] at inside
  rcases Nat.lt_succ_iff_lt_or_eq.mp inside with earlier | rfl
  · rw [at_write_of_ne cap small (by omega) (by omega) (by omega), holds.getElem earlier,
      List.getElem_append_left earlier]
  · rw [at_write_self, List.getElem_append_right (Nat.le_refl _)]
    simp only [Nat.sub_self, List.getElem_singleton]

theorem Buffer.Holds.dropLast (holds : buffer.Holds low (items ++ [value])) :
    buffer.Holds low items ∧ buffer.at' (low + items.length) = some value := by
  constructor
  · apply Buffer.Holds.of_getElem
    intro offset inside
    rw [holds.getElem (by rw [List.length_append]; omega), List.getElem_append_left inside]
  · rw [holds.getElem (by rw [List.length_append, List.length_singleton]; omega),
      List.getElem_append_right (Nat.le_refl _)]
    simp only [Nat.sub_self, List.getElem_singleton]

theorem Buffer.Holds.tail (holds : buffer.Holds low (value :: items)) :
    buffer.Holds (low + 1) items ∧ buffer.at' low = some value := by
  constructor
  · apply Buffer.Holds.of_getElem
    intro offset inside
    have here := holds.getElem (Nat.succ_lt_succ inside : offset + 1 < (value :: items).length)
    rw [List.getElem_cons_succ] at here
    rw [← here]
    congr 1
    omega
  · have here := holds.getElem (Nat.succ_pos _ : 0 < (value :: items).length)
    simpa using here

/-- `resized` copies the window whole, whichever of the two is larger. -/
theorem Buffer.Holds.resized (holds : buffer.Holds low items) (small : exponent ≤ 63)
    (fits : items.length ≤ 2 ^ exponent - 1) :
    ∃ after, buffer.resized (2 ^ exponent) (wrap (low + items.length)) (wrap low) = some after ∧
      after.cap = 2 ^ exponent ∧ after.Holds low items := by
  have bound : 2 ^ exponent ≤ 2 ^ 63 := Nat.pow_le_pow_right (by decide) small
  have positive : 0 < 2 ^ exponent := Nat.two_pow_pos exponent
  have count : wrappingSub (wrap (low + items.length)) (wrap low) = items.length := by
    rw [wrappingSub_wrap] <;> omega
  unfold Buffer.resized
  simp only [count]
  rw [if_pos ⟨Int.natCast_nonneg _, fits⟩]
  refine ⟨_, rfl, copyTo_cap .., ?_⟩
  apply Buffer.Holds.of_getElem
  intro offset inside
  rw [Int.toNat_natCast, at_copyTo rfl small (by omega) low inside]
  exact holds.getElem inside


/-! ### The indices -/

namespace Deque

/-- These unbounded indices stand for the words of the deque, which is not full. -/
structure Spans (deque : Deque α) (exponent : Nat) (low cached : Int) (items : List α) : Prop where
  top : deque.top = wrap low
  bottom : deque.bottom = wrap (low + items.length)
  cachedTop : deque.cachedTop = wrap cached
  cap : deque.buffer.cap = 2 ^ exponent
  small : exponent ≤ 62
  fits : items.length ≤ 2 ^ exponent - 1
  behind : cached ≤ low
  near : low + items.length - cached < 2 ^ 62
  holds : deque.buffer.Holds low items

/-- The elements of a deque of this mode, oldest first. -/
def Represents (fifo : Bool) (deque : Deque α) (items : List α) : Prop :=
  deque.fifo = fifo ∧ ∃ exponent low cached, deque.Spans exponent low cached items

namespace Spans

variable {deque : Deque α} {cached : Int} {items : List α} {value : α}

theorem length_lt (spans : deque.Spans exponent low cached items) : items.length < 2 ^ 62 := by
  have behind := spans.behind
  have near := spans.near
  omega

/-- The signed difference of the indices is the number of elements. -/
theorem size (spans : deque.Spans exponent low cached items) :
    wrappingSub deque.bottom deque.top = items.length := by
  have below := spans.length_lt
  rw [spans.bottom, spans.top, wrappingSub_wrap] <;> omega

/-- The owner's lower bound of `top` shows at least as many. -/
theorem shown (spans : deque.Spans exponent low cached items) :
    wrappingSub deque.bottom deque.cachedTop = low + items.length - cached := by
  have behind := spans.behind
  have near := spans.near
  rw [spans.bottom, spans.cachedTop, wrappingSub_wrap] <;> omega

theorem limit (spans : deque.Spans exponent low cached items) :
    checkedIsize (asIsize deque.buffer.cap - 1) =
      some (((2 ^ exponent : Nat) : Int) - 1) := by
  have bound : 2 ^ exponent ≤ 2 ^ 62 := Nat.pow_le_pow_right (by decide) spans.small
  have positive : 0 < 2 ^ exponent := Nat.two_pow_pos exponent
  have cast : asIsize (2 ^ exponent) = (2 ^ exponent : Nat) :=
    wrap_of_range (by omega) (by omega)
  rw [spans.cap, cast]
  exact checkedIsize_of_range (by omega) (by omega)

theorem refresh (spans : deque.Spans exponent low cached items) :
    Spans { deque with cachedTop := deque.top } exponent low low items :=
  { spans with
    cachedTop := spans.top
    behind := Int.le_refl low
    near := by
      have below := spans.length_lt
      omega }

/-- Growing or shrinking to a power of two that is large enough. -/
theorem resized (spans : deque.Spans exponent low cached items) {other : Nat} (small : other ≤ 62)
    (fits : items.length ≤ 2 ^ other - 1) :
    ∃ after, deque.buffer.resized (2 ^ other) deque.bottom deque.top = some after ∧
      Spans { deque with buffer := after } other low cached items := by
  have word : other ≤ 63 := Nat.le_succ_of_le small
  obtain ⟨after, copied, cap, holds⟩ := spans.holds.resized word fits
  refine ⟨after, ?_, ?_⟩
  · rw [spans.bottom, spans.top]
    exact copied
  · exact { spans with
      cap := cap
      small := small
      fits := fits
      holds := holds }

theorem store (spans : deque.Spans exponent low cached items)
    (room : items.length + 1 ≤ 2 ^ exponent - 1)
    (near : low + items.length + 1 - cached < 2 ^ 62) (value : α) :
    (deque.store value).Spans exponent low cached (items ++ [value]) where
  top := spans.top
  bottom := by
    change wrappingAdd deque.bottom 1 = _
    rw [spans.bottom, wrappingAdd_wrap, List.length_append, List.length_singleton, Nat.cast_add,
      Nat.cast_one, Int.add_assoc]
  cachedTop := spans.cachedTop
  cap := spans.cap
  small := spans.small
  fits := by
    rw [List.length_append, List.length_singleton]
    exact room
  behind := spans.behind
  near := by
    rw [List.length_append, List.length_singleton, Nat.cast_add, Nat.cast_one]
    omega
  holds := by
    have small := spans.small
    change (deque.buffer.write deque.bottom (some value)).Holds low (items ++ [value])
    rw [spans.bottom]
    exact spans.holds.push spans.cap (by omega) (by omega) value

end Spans

variable {deque : Deque α} {fifo : Bool}

/-- A push appends, and grows first where the elements fill all cells but one. -/
theorem push_represents (represents : Represents fifo deque items)
    (room : items.length + 1 < 2 ^ 62) (value : α) :
    ∃ after, deque.push value = some after ∧ Represents fifo after (items ++ [value]) := by
  obtain ⟨mode, exponent, low, cached, spans⟩ := represents
  have bound : 2 ^ exponent ≤ 2 ^ 62 := Nat.pow_le_pow_right (by decide) spans.small
  have positive : 0 < 2 ^ exponent := Nat.two_pow_pos exponent
  have behind := spans.behind
  unfold push
  rw [spans.limit]
  simp only [Option.bind_some]
  by_cases shown : wrappingSub deque.bottom deque.cachedTop ≥ ((2 ^ exponent : Nat) : Int) - 1
  · rw [if_pos shown]
    have fresh := spans.refresh
    by_cases full : wrappingSub deque.bottom deque.top ≥ ((2 ^ exponent : Nat) : Int) - 1
    · rw [if_pos full]
      rw [spans.size] at full
      have below : exponent < 62 := by
        rcases Nat.lt_or_eq_of_le spans.small with below | rfl
        · exact below
        · omega
      have twice : deque.buffer.cap * 2 = 2 ^ (exponent + 1) := by
        rw [spans.cap, Nat.pow_succ]
      have wider : 2 ^ (exponent + 1) ≤ 2 ^ 62 := Nat.pow_le_pow_right (by decide) below
      have fits := spans.fits
      have wide : items.length ≤ 2 ^ (exponent + 1) - 1 := by
        rw [Nat.pow_succ]
        omega
      obtain ⟨after, copied, larger⟩ := fresh.resized below wide
      have grown : deque.buffer.grow deque.bottom deque.top = some after := by
        unfold Buffer.grow
        rw [twice, checkedUsize_of_lt (by omega)]
        exact copied
      rw [grown, Option.map_some]
      have stored := larger.store (by rw [Nat.pow_succ]; omega) (by omega) value
      exact ⟨_, rfl, mode, exponent + 1, low, low, stored⟩
    · rw [if_neg full]
      rw [spans.size] at full
      exact ⟨_, rfl, mode, exponent, low, low, fresh.store (by omega) (by omega) value⟩
  · rw [if_neg shown, if_neg shown]
    rw [spans.shown] at shown
    exact ⟨_, rfl, mode, exponent, low, cached, spans.store (by omega) (by omega) value⟩

theorem len_represents (represents : Represents fifo deque items) : deque.len = items.length := by
  obtain ⟨_mode, exponent, low, cached, spans⟩ := represents
  unfold len
  rw [spans.size]
  omega

/-! ### Taking -/

theorem stealFrom_nil (represents : Represents fifo deque ([] : List α)) :
    deque.stealFrom = some (.empty, deque) := by
  obtain ⟨_mode, exponent, low, cached, spans⟩ := represents
  unfold stealFrom
  have none : wrappingSub deque.bottom deque.top ≤ 0 := Int.le_of_eq spans.size
  exact if_pos none

theorem stealFrom_cons (represents : Represents fifo deque (value :: items)) :
    ∃ after, deque.stealFrom = some (.success value, after) ∧ Represents fifo after items := by
  obtain ⟨mode, exponent, low, cached, spans⟩ := represents
  obtain ⟨rest, first⟩ := spans.holds.tail
  have length : (value :: items).length = items.length + 1 := rfl
  have some' : ¬ wrappingSub deque.bottom deque.top ≤ 0 := by
    rw [spans.size]
    omega
  have boxed : deque.buffer.read deque.top = some value := by
    rw [spans.top]
    exact first
  unfold stealFrom
  rw [if_neg some', if_pos rfl, boxed]
  refine ⟨_, rfl, mode, exponent, low + 1, cached, ?_⟩
  have fits := spans.fits
  have behind := spans.behind
  have near := spans.near
  constructor
  · change wrappingAdd deque.top 1 = _
    rw [spans.top, wrappingAdd_wrap]
  · change deque.bottom = _
    rw [spans.bottom]
    congr 1
    omega
  · exact spans.cachedTop
  · exact spans.cap
  · exact spans.small
  · omega
  · omega
  · omega
  · exact rest

/-- Halving a large buffer that is less than a third full leaves a power of two. -/
theorem perhapsShrink_represents (represents : Represents fifo deque items) :
    ∃ after, deque.perhapsShrink deque.bottom deque.top = some after ∧
      Represents fifo after items := by
  obtain ⟨mode, exponent, low, cached, spans⟩ := represents
  have count : (max (wrappingSub deque.bottom deque.top) 0).toNat = items.length := by
    rw [spans.size]
    omega
  unfold perhapsShrink
  simp only [count]
  split
  · rename_i sparse
    obtain ⟨large, few⟩ := sparse
    have cap := spans.cap
    have small := spans.small
    unfold minCapacity at large ⊢
    unfold shrinkFactor at few
    cases exponent with
    | zero => omega
    | succ half =>
        rw [cap, Nat.pow_succ] at large few
        have halved : max (deque.buffer.cap / 2) 16 = 2 ^ half := by
          have sixteen : 8 < 2 ^ half := by omega
          have atLeast : 2 ^ 4 ≤ 2 ^ half := by
            apply Nat.pow_le_pow_right (by decide)
            by_contra less
            have bound : 2 ^ half ≤ 2 ^ 3 := Nat.pow_le_pow_right (by decide) (by omega)
            omega
          rw [cap, Nat.pow_succ]
          omega
        have narrow : items.length ≤ 2 ^ half - 1 := by omega
        obtain ⟨after, copied, spans'⟩ := spans.resized (Nat.le_of_succ_le small) narrow
        rw [halved, copied]
        exact ⟨_, rfl, mode, half, low, cached, spans'⟩
  · exact ⟨_, rfl, mode, exponent, low, cached, spans⟩

theorem popLifo_nil (represents : Represents fifo deque ([] : List α)) :
    ∃ after, deque.popLifo = some (none, after) ∧ Represents fifo after ([] : List α) := by
  obtain ⟨mode, exponent, low, cached, spans⟩ := represents
  have bottom : deque.bottom = wrap low := by simpa using spans.bottom
  have negative : wrappingSub (wrappingSub deque.bottom 1) deque.top < 0 := by
    rw [bottom, spans.top, wrappingSub_wrap_one, wrappingSub_wrap] <;> omega
  unfold popLifo
  simp only [negative, if_true]
  refine ⟨_, rfl, mode, exponent, low, cached, ?_⟩
  exact { spans with
    bottom := by
      change deque.top = _
      rw [spans.top]
      simp }

theorem popLifo_snoc (represents : Represents fifo deque (items ++ [value])) :
    ∃ after, deque.popLifo = some (some value, after) ∧ Represents fifo after items := by
  obtain ⟨mode, exponent, low, cached, spans⟩ := represents
  obtain ⟨rest, last⟩ := spans.holds.dropLast
  have length : (items ++ [value]).length = items.length + 1 := by simp
  have fits := spans.fits
  have behind := spans.behind
  have near := spans.near
  have small := spans.length_lt
  have lower : wrappingSub deque.bottom 1 = wrap (low + items.length) := by
    rw [spans.bottom, length, wrappingSub_wrap_one]
    congr 1
    omega
  have size : wrappingSub (wrap (low + items.length)) deque.top = items.length := by
    rw [spans.top, wrappingSub_wrap] <;> omega
  have boxed : deque.buffer.read (wrap (low + items.length)) = some value := last
  have lowered : Spans { deque with bottom := wrap (low + items.length) } exponent low cached
      items :=
    { spans with
      bottom := rfl
      fits := by omega
      near := by omega
      holds := rest }
  unfold popLifo
  simp only [lower, size, boxed]
  rw [if_neg (by omega)]
  by_cases more : (items.length : Int) > 0
  · rw [if_pos more]
    have shrinks : Represents fifo { deque with bottom := wrap (low + items.length) } items :=
      ⟨mode, exponent, low, cached, lowered⟩
    obtain ⟨after, shrunk, represents⟩ := perhapsShrink_represents shrinks
    exact ⟨after, by rw [shrunk]; rfl, represents⟩
  · rw [if_neg more]
    obtain rfl : items = [] := List.length_eq_zero_iff.mp (by omega)
    have next : wrappingAdd deque.top 1 = wrap (low + 1) := by
      rw [spans.top, wrappingAdd_wrap]
    simp only [if_true, next, Option.map_some]
    refine ⟨_, rfl, mode, exponent, low + 1, cached, ?_⟩
    exact { spans with
      top := rfl
      bottom := by simp
      fits := Nat.zero_le _
      behind := by omega
      near := by
        have none : (([] : List α).length : Int) = 0 := rfl
        omega
      holds := .of_getElem fun offset inside => absurd inside (Nat.not_lt_zero offset) }

/-! ### Sequences of calls -/

theorem withStartIndex_represents (fifo : Bool) {logInitialCap : Nat} (small : logInitialCap < 62)
    {start : Int} (low : -2 ^ 63 ≤ start) (high : start < 2 ^ 63) :
    ∃ deque, withStartIndex α fifo logInitialCap start = some deque ∧
      Represents fifo deque ([] : List α) := by
  unfold withStartIndex
  rw [if_pos (by omega)]
  refine ⟨_, rfl, rfl, logInitialCap, start, start, ?_⟩
  have word : wrap start = start := wrap_of_range low high
  exact
    { top := word.symm
      bottom := by
        change start = _
        simp [word]
      cachedTop := word.symm
      cap := rfl
      small := by omega
      fits := Nat.zero_le _
      behind := Int.le_refl start
      near := by simp
      holds := .of_getElem fun offset inside => absurd inside (Nat.not_lt_zero offset) }

end Deque

inductive SerialCall (α : Type*)
  | push (value : α)
  | pop
  | steal
  | len
deriving DecidableEq

inductive SerialReply (α : Type*)
  | done
  | popped (value : Option α)
  | stolen (taken : Steal α)
  | length (count : Nat)
deriving DecidableEq

namespace SerialCall

def perform (fuel : Nat) (call : SerialCall α) (deque : Deque α) :
    Option (SerialReply α × Deque α) :=
  match call with
  | push value => (deque.push value).map fun after => (.done, after)
  | pop => (deque.pop fuel).map fun popped => (.popped popped.1, popped.2)
  | steal => deque.stealFrom.map fun taken => (.stolen taken.1, taken.2)
  | len => some (.length deque.len, deque)

/-- What a plain list with its oldest element first replies. -/
def answer (fifo : Bool) (call : SerialCall α) (items : List α) : SerialReply α × List α :=
  match call with
  | push value => (.done, items ++ [value])
  | pop =>
      if fifo then (.popped items.head?, items.tail) else (.popped items.getLast?, items.dropLast)
  | steal =>
      match items with
      | [] => (.stolen .empty, [])
      | first :: rest => (.stolen (.success first), rest)
  | len => (.length items.length, items)

/-- Fewer than `2 ^ 62` elements are alive after the call. -/
def Fits (call : SerialCall α) (items : List α) : Prop :=
  match call with
  | push _ => items.length + 1 < 2 ^ 62
  | pop | steal | len => True

instance (call : SerialCall α) (items : List α) : Decidable (call.Fits items) := by
  cases call <;> unfold Fits <;> infer_instance

end SerialCall

open SerialCalls (Admitted Refines replies serially serially_refines)

theorem popFifo_mono {fuel more : Nat} {deque : Deque α} {result : Option α × Deque α}
    (enough : fuel ≤ more) (returned : deque.popFifo fuel = some result) :
    deque.popFifo more = some result := by
  induction fuel generalizing more deque with
  | zero => cases returned
  | succ fuel ih =>
      cases more with
      | zero => omega
      | succ more =>
          obtain ⟨taken, stolen, rest⟩ := Option.bind_eq_some_iff.mp returned
          refine Option.bind_eq_some_iff.mpr ⟨taken, stolen, ?_⟩
          cases outcome : taken.1 with
          | success value => simpa only [outcome] using rest
          | empty => simpa only [outcome] using rest
          | retry =>
              simp only [outcome] at rest ⊢
              exact ih (Nat.le_of_succ_le_succ enough) rest

theorem perform_fuelOnly : SerialCalls.FuelOnly (@SerialCall.perform α) := by
  intro fuel more call deque result enough returned
  cases call with
  | push value => exact returned
  | steal => exact returned
  | len => exact returned
  | pop =>
      obtain ⟨popped, took, same⟩ := Option.map_eq_some_iff.mp returned
      refine Option.map_eq_some_iff.mpr ⟨popped, ?_, same⟩
      unfold Deque.pop at took ⊢
      split
      · rename_i oldest
        rw [if_pos oldest] at took
        exact popFifo_mono enough took
      · rename_i newest
        rw [if_neg newest] at took
        exact took

/-- One call does to the deque what the list answers. -/
theorem perform_refines (fifo : Bool) :
    Refines (SerialCall.answer fifo) (@SerialCall.perform α) SerialCall.Fits
      (Deque.Represents fifo) := by
  intro call deque items represents fits
  cases call with
  | push value =>
      obtain ⟨after, pushed, represents⟩ := Deque.push_represents represents fits value
      refine ⟨0, after, ?_, represents⟩
      simp only [SerialCall.perform, pushed, Option.map_some, SerialCall.answer]
  | len =>
      refine ⟨0, deque, ?_, represents⟩
      simp only [SerialCall.perform, SerialCall.answer, Deque.len_represents represents]
  | steal =>
      cases items with
      | nil =>
          refine ⟨0, deque, ?_, represents⟩
          simp only [SerialCall.perform, Deque.stealFrom_nil represents, Option.map_some,
            SerialCall.answer]
      | cons first rest =>
          obtain ⟨after, stolen, represents⟩ := Deque.stealFrom_cons represents
          refine ⟨0, after, ?_, represents⟩
          simp only [SerialCall.perform, stolen, Option.map_some, SerialCall.answer]
  | pop =>
      have mode := represents.1
      cases fifo with
      | true =>
          cases items with
          | nil =>
              refine ⟨1, deque, ?_, represents⟩
              simp [SerialCall.perform, Deque.pop, mode, Deque.popFifo,
                Deque.stealFrom_nil represents, SerialCall.answer]
          | cons first rest =>
              obtain ⟨after, stolen, represents⟩ := Deque.stealFrom_cons represents
              refine ⟨1, after, ?_, represents⟩
              simp [SerialCall.perform, Deque.pop, mode, Deque.popFifo, stolen, SerialCall.answer]
      | false =>
          rcases List.eq_nil_or_concat' items with rfl | ⟨rest, last, rfl⟩
          · obtain ⟨after, popped, represents⟩ := Deque.popLifo_nil represents
            refine ⟨0, after, ?_, represents⟩
            simp [SerialCall.perform, Deque.pop, mode, popped, SerialCall.answer]
          · obtain ⟨after, popped, represents⟩ := Deque.popLifo_snoc represents
            refine ⟨0, after, ?_, ?_⟩
            · simp [SerialCall.perform, Deque.pop, mode, popped, SerialCall.answer]
            · simpa [SerialCall.answer] using represents

/-- Whatever index the deque starts at, it replies as a list does and no
arithmetic overflows. -/
theorem serial_calls_agree (fifo : Bool) {logInitialCap : Nat} (small : logInitialCap < 62)
    {start : Int} (low : -2 ^ 63 ≤ start) (high : start < 2 ^ 63) (calls : List (SerialCall α))
    (fits : Admitted (SerialCall.answer fifo) SerialCall.Fits calls []) :
    ∃ deque, Deque.withStartIndex α fifo logInitialCap start = some deque ∧
      ∃ enough, ∀ fuel ≥ enough, ∃ after,
        serially SerialCall.perform fuel calls deque =
          some (replies (SerialCall.answer fifo) calls [], after) := by
  obtain ⟨deque, created, represents⟩ :=
    Deque.withStartIndex_represents (α := α) fifo small low high
  refine ⟨deque, created, ?_⟩
  exact serially_refines perform_fuelOnly (perform_refines fifo) calls represents fits

theorem serial_calls_agree_last :
    ∃ deque, Deque.withStartIndex Nat true 0 (2 ^ 63 - 1) = some deque ∧
      ∃ enough, ∀ fuel ≥ enough, ∃ after,
        serially SerialCall.perform fuel [.push 3, .push 5, .push 8, .len, .steal, .pop, .pop, .pop]
            deque =
          some ([.done, .done, .done, .length 3, .stolen (.success 3), .popped (some 5),
            .popped (some 8), .popped none], after) :=
  serial_calls_agree true (by decide) (by decide) (by decide) _
    ⟨by decide, by decide, by decide, trivial, trivial, trivial, trivial, trivial, trivial⟩

end WsDeque.ChaseLev
