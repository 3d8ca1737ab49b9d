import Mathlib.Data.List.Basic
import Mathlib.Data.List.TakeWhile

/-! Memory as a list: bytes are read and written inside it only, and a text ends at a terminator. -/
namespace CharBuffer

variable {α : Type*}

/-- Some elements, all of them inside. -/
def get (mem : List α) (place n : ℕ) : Option (List α) :=
  if place + n ≤ mem.length then some ((mem.drop place).take n) else none

/-- Writing some elements, all of them inside. -/
def put (mem : List α) (place : ℕ) (new : List α) : Option (List α) :=
  if place + new.length ≤ mem.length then
    some (mem.take place ++ new ++ mem.drop (place + new.length))
  else none

/-- Copying between two ranges, which may overlap. -/
def move (mem : List α) (target source n : ℕ) : Option (List α) := (get mem source n).bind (put mem target)

/-- The text at a place: what comes before its terminator, which has to be there. -/
def textAt [DecidableEq α] (z : α) (mem : List α) (place : ℕ) : Option (List α) :=
  if z ∈ mem.drop place then some ((mem.drop place).takeWhile (· ≠ z)) else none

theorem get_append (front new rest : List α) :
    get (front ++ (new ++ rest)) front.length new.length = some new := by
  have inside : front.length + new.length ≤ (front ++ (new ++ rest)).length := by
    simp only [List.length_append]
    omega
  rw [get, if_pos inside, List.drop_left, List.take_left]

/-- Writing behind some elements takes the place of as many as are written. -/
theorem put_append (front new : List α) {rest : List α} (fits : new.length ≤ rest.length) :
    put (front ++ rest) front.length new = some (front ++ (new ++ rest.drop new.length)) := by
  have inside : front.length + new.length ≤ (front ++ rest).length := by
    rw [List.length_append]
    exact Nat.add_le_add_left fits _
  rw [put, if_pos inside, List.take_left, ← List.drop_drop, List.drop_left, List.append_assoc]

/-- Two ranges side by side, written the second first. -/
theorem put_before {mem mid new tail : List α} {place : ℕ}
    (write : put mem (place + new.length) tail = some mid) :
    put mid place new =
      some (mem.take place ++ (new ++ (tail ++ mem.drop (place + new.length + tail.length)))) := by
  unfold put at write
  split_ifs at write with inside
  cases write
  have lead : (mem.take (place + new.length)).length = place + new.length := by
    rw [List.length_take]
    omega
  have before : (mem.take (place + new.length) ++ tail ++ mem.drop (place + new.length + tail.length)).take
      place = mem.take place := by
    rw [List.append_assoc, List.take_append_of_le_length (by omega), List.take_take,
      Nat.min_eq_left (by omega)]
  have behind : (mem.take (place + new.length) ++ tail ++ mem.drop (place + new.length + tail.length)).drop
      (place + new.length) = tail ++ mem.drop (place + new.length + tail.length) := by
    rw [List.append_assoc]
    exact List.drop_left' lead
  rw [put, if_pos (by simp only [List.length_append, lead]; omega), before, behind, List.append_assoc]

theorem length_of_put {mem after new : List α} {place : ℕ} (write : put mem place new = some after) :
    after.length = mem.length := by
  unfold put at write
  split_ifs at write with inside
  cases write
  simp only [List.length_append, List.length_take, List.length_drop]
  omega

theorem textAt_append [DecidableEq α] {z : α} {text : List α} (away : z ∉ text) (front rest : List α) :
    textAt z (front ++ (text ++ z :: rest)) front.length = some text := by
  have kept : ∀ b ∈ text, decide (b ≠ z) = true := fun b mem =>
    decide_eq_true fun same => away (same ▸ mem)
  rw [textAt, List.drop_left, if_pos (List.mem_append_right _ List.mem_cons_self),
    List.takeWhile_append_of_pos kept, List.takeWhile_cons_of_neg (by simp), List.append_nil]

theorem textAt_zero [DecidableEq α] {z : α} {text : List α} (away : z ∉ text) (rest : List α) :
    textAt z (text ++ z :: rest) 0 = some text := textAt_append away [] rest

/-- A text that has terminators of its own is read up to the first. -/
theorem textAt_cut [DecidableEq α] (z : α) (text rest : List α) :
    textAt z (text ++ z :: rest) 0 = some (text.takeWhile (· ≠ z)) := by
  have cut : (text ++ z :: rest).takeWhile (· ≠ z) = text.takeWhile (· ≠ z) := by
    induction text with
    | nil => exact List.takeWhile_cons_of_neg (by simp)
    | cons b text ih =>
        rw [List.cons_append, List.takeWhile_cons, List.takeWhile_cons, ih]
  rw [textAt, List.drop_zero, if_pos (List.mem_append_right _ List.mem_cons_self), cut]

end CharBuffer
