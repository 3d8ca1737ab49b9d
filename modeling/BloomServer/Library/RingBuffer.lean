import Mathlib.Data.List.Basic
import Mathlib.Logic.Function.Basic
import Mathlib.Tactic.Common

/-! A queue in an array of fixed size, between two indexes that wrap around. One slot stays free, so
that equal indexes mean an empty queue. -/
namespace RingBuffer

variable {α : Type*} {n i j k : ℕ} {x : α}

/-- The slot behind another one. -/
def next (n i : ℕ) : ℕ := if i + 1 = n then 0 else i + 1

/-- The number of slots from one on up to another. -/
def gap (n i j : ℕ) : ℕ := if i ≤ j then j - i else j + n - i

/-- So many slots from one on. -/
def walk (n : ℕ) : ℕ → ℕ → List ℕ
  | 0, _ => []
  | k + 1, i => i :: walk n k (next n i)

structure Ring (α : Type*) (n : ℕ) where
  slot : ℕ → α
  iput : ℕ
  iget : ℕ
  iput_lt : iput < n
  iget_lt : iget < n

theorem next_lt (low : i < n) : next n i < n := by
  unfold next
  split_ifs <;> omega

theorem gap_eq_zero (low : i < n) : gap n i j = 0 ↔ i = j := by
  unfold gap
  split_ifs <;> omega

theorem gap_next_left (low : i < n) (low' : j < n) (other : i ≠ j) :
    gap n i j = gap n (next n i) j + 1 := by
  unfold gap next
  split_ifs <;> omega

theorem gap_next_right (low : i < n) (room : next n j ≠ i) : gap n i (next n j) = gap n i j + 1 := by
  unfold gap next at *
  split_ifs at * <;> omega

theorem length_walk (n k i : ℕ) : (walk n k i).length = k := by
  induction k generalizing i with
  | zero => rfl
  | succ k ih => rw [walk, List.length_cons, ih]

/-- The slot at the end of a walk comes next. -/
theorem walk_succ (low : i < n) (low' : j < n) (far : gap n i j = k) :
    walk n (k + 1) i = walk n k i ++ [j] := by
  induction k generalizing i with
  | zero =>
      rw [(gap_eq_zero low).mp far]
      rfl
  | succ k ih =>
      have other : i ≠ j := by
        intro same
        rw [(gap_eq_zero low).mpr same] at far
        cases far
      rw [gap_next_left low low' other] at far
      have rest := ih (next_lt low) (Nat.succ.inj far)
      rw [walk, rest]
      rfl

/-- The slot at the end of a walk is not one of it. -/
theorem not_mem_walk (low : i < n) (low' : j < n) (far : gap n i j = k) : j ∉ walk n k i := by
  induction k generalizing i with
  | zero => exact List.not_mem_nil
  | succ k ih =>
      have other : i ≠ j := by
        intro same
        rw [(gap_eq_zero low).mpr same] at far
        cases far
      rw [gap_next_left low low' other] at far
      intro mem
      rcases List.mem_cons.mp mem with same | later
      · exact other same.symm
      · exact ih (next_lt low) (Nat.succ.inj far) later

namespace Ring

variable {r r' : Ring α n}

/-- The slots in use, from the front of the queue on. -/
def slots (r : Ring α n) : List ℕ := walk n (gap n r.iget r.iput) r.iget

def waiting (r : Ring α n) : List α := r.slots.map r.slot

def enqueue (r : Ring α n) (x : α) : Option (Ring α n) :=
  if next n r.iput = r.iget then none
  else some { r with
    slot := Function.update r.slot r.iput x
    iput := next n r.iput
    iput_lt := next_lt r.iput_lt }

def dequeue (r : Ring α n) : Option (α × Ring α n) :=
  if r.iget = r.iput then none
  else some (r.slot r.iget, { r with iget := next n r.iget, iget_lt := next_lt r.iget_lt })

/-- An array with nothing in it. -/
def empty (slot : ℕ → α) (some : 0 < n) : Ring α n := ⟨slot, 0, 0, some, some⟩

@[simp] theorem waiting_empty (slot : ℕ → α) (some : 0 < n) : (empty slot some).waiting = [] := rfl

@[simp] theorem length_waiting (r : Ring α n) : r.waiting.length = gap n r.iget r.iput := by
  rw [waiting, List.length_map, slots, length_walk]

theorem iput_not_mem (r : Ring α n) : r.iput ∉ r.slots := not_mem_walk r.iget_lt r.iput_lt rfl

/-- An entry goes into a slot that is not in use. -/
theorem slot_enqueue (h : r.enqueue x = some r') (mem : i ∈ r.slots) : r'.slot i = r.slot i := by
  unfold enqueue at h
  split_ifs at h
  cases h
  apply Function.update_of_ne
  intro same
  rw [same] at mem
  exact r.iput_not_mem mem

theorem slots_enqueue (h : r.enqueue x = some r') : r'.slots = r.slots ++ [r.iput] := by
  unfold enqueue at h
  split_ifs at h with full
  cases h
  have far : gap n r.iget (next n r.iput) = gap n r.iget r.iput + 1 := gap_next_right r.iget_lt full
  have ends := walk_succ r.iget_lt r.iput_lt rfl
  rw [← far] at ends
  exact ends

theorem waiting_enqueue (h : r.enqueue x = some r') : r'.waiting = r.waiting ++ [x] := by
  have put : r'.slot r.iput = x := by
    unfold enqueue at h
    split_ifs at h
    cases h
    exact Function.update_self ..
  have kept : r.slots.map r'.slot = r.slots.map r.slot := by
    apply List.map_congr_left
    intro i mem
    exact slot_enqueue h mem
  rw [waiting, slots_enqueue h, List.map_append, kept, List.map_singleton, put, waiting]

/-- The slot an entry comes from is in use. -/
theorem slots_dequeue (h : r.dequeue = some (x, r')) : r.slots = r.iget :: r'.slots := by
  unfold dequeue at h
  split_ifs at h with same
  cases h
  have far : gap n r.iget r.iput = gap n (next n r.iget) r.iput + 1 := gap_next_left r.iget_lt r.iput_lt same
  unfold slots
  rw [far]
  rfl

theorem waiting_dequeue (h : r.dequeue = some (x, r')) : r.waiting = x :: r'.waiting := by
  have slots := slots_dequeue h
  unfold dequeue at h
  split_ifs at h
  cases h
  rw [waiting, slots]
  rfl

/-- The array is full when one slot is left. -/
theorem enqueue_eq_none : r.enqueue x = none ↔ r.waiting.length + 1 = n := by
  have low := r.iget_lt
  have low' := r.iput_lt
  rw [length_waiting]
  unfold enqueue
  rw [ite_eq_left_iff]
  constructor
  · intro h
    have full : next n r.iput = r.iget := by
      by_contra other
      cases h other
    unfold gap
    unfold next at full
    split_ifs at * <;> omega
  · intro long other
    exfalso
    apply other
    unfold gap at long
    unfold next
    split_ifs at * <;> omega

end Ring
end RingBuffer
