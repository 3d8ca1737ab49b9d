import Mathlib.Order.Lattice
import Mathlib.Order.Nat
import Mathlib.Tactic.Common

/-! Files of bytes that are read and written at offsets. -/

/-- The bytes of a file; those from `size` on do not belong to it. -/
structure ByteFile where
  bytes : ℕ → UInt8
  size : ℕ

namespace ByteFile

/-- Up to `n` bytes from an offset on, as many as the file has. -/
def pread (f : ByteFile) (n offset : ℕ) : List UInt8 :=
  (List.range (min n (f.size - offset))).map fun i => f.bytes (offset + i)

/-- Writing past the end makes the file longer. -/
def pwrite (f : ByteFile) (data : List UInt8) (offset : ℕ) : ByteFile where
  bytes i := if offset ≤ i then data[i - offset]?.getD (f.bytes i) else f.bytes i
  size := if data = [] then f.size else max f.size (offset + data.length)

/-- The bytes that stand in a file at an offset. -/
structure At (f : ByteFile) (offset : ℕ) (data : List UInt8) : Prop where
  inside : offset + data.length ≤ f.size
  bytes : ∀ i b, data[i]? = some b → f.bytes (offset + i) = b

variable {f : ByteFile} {offset offset' : ℕ} {data data' : List UInt8}

theorem At.pread (h : At f offset data) : f.pread data.length offset = data := by
  have whole : min data.length (f.size - offset) = data.length := by
    have inside := h.inside
    omega
  apply List.ext_getElem?
  intro i
  rw [ByteFile.pread, whole, List.getElem?_map]
  by_cases inside : i < data.length
  · rw [List.getElem?_range inside, List.getElem?_eq_getElem inside, Option.map_some,
      h.bytes i _ (List.getElem?_eq_getElem inside)]
  · rw [List.getElem?_eq_none (by rw [List.length_range]; omega),
      List.getElem?_eq_none (Nat.le_of_not_lt inside), Option.map_none]

theorem at_append : At f offset (data ++ data') ↔
    At f offset data ∧ At f (offset + data.length) data' := by
  constructor
  · intro h
    have inside := h.inside
    rw [List.length_append] at inside
    constructor
    · refine ⟨by omega, fun i b place => h.bytes i b ?_⟩
      rw [List.getElem?_append_left (List.getElem?_eq_some_iff.mp place).1]
      exact place
    · refine ⟨by omega, fun i b place => ?_⟩
      rw [Nat.add_assoc]
      apply h.bytes
      rw [List.getElem?_append_right (Nat.le_add_right _ _), Nat.add_sub_cancel_left]
      exact place
  · intro h
    obtain ⟨front, back⟩ := h
    constructor
    · rw [List.length_append, ← Nat.add_assoc]
      exact back.inside
    · intro i b place
      by_cases inside : i < data.length
      · rw [List.getElem?_append_left inside] at place
        exact front.bytes i b place
      · rw [List.getElem?_append_right (Nat.le_of_not_lt inside)] at place
        have there := back.bytes _ b place
        rw [Nat.add_assoc, Nat.add_sub_cancel' (Nat.le_of_not_lt inside)] at there
        exact there

/-- What was written stands in the file. -/
theorem at_pwrite (f : ByteFile) (within : data = [] → offset ≤ f.size) :
    At (f.pwrite data offset) offset data := by
  constructor
  · rw [pwrite]
    dsimp only
    split_ifs with empty
    · rw [empty]
      exact within empty
    · exact Nat.le_max_right _ _
  · intro i b place
    rw [pwrite]
    dsimp only
    rw [if_pos (Nat.le_add_right _ _), Nat.add_sub_cancel_left, place, Option.getD_some]

/-- The bytes elsewhere stay. -/
theorem bytes_pwrite {i : ℕ} (outside : i < offset ∨ offset + data.length ≤ i) :
    (f.pwrite data offset).bytes i = f.bytes i := by
  rw [pwrite]
  dsimp only
  split_ifs with after
  · rw [List.getElem?_eq_none (by omega), Option.getD_none]
  · rfl

/-- What stands elsewhere stays. -/
theorem At.pwrite (h : At f offset data)
    (apart : offset + data.length ≤ offset' ∨ offset' + data'.length ≤ offset) :
    At (f.pwrite data' offset') offset data := by
  constructor
  · rw [ByteFile.pwrite]
    dsimp only
    have inside := h.inside
    split_ifs
    · exact inside
    · omega
  · intro i b place
    have before := (List.getElem?_eq_some_iff.mp place).1
    have same := h.bytes i b place
    rw [ByteFile.pwrite]
    dsimp only
    split_ifs with after
    · rw [List.getElem?_eq_none (by omega), Option.getD_none, same]
    · exact same

theorem size_le_pwrite : f.size ≤ (f.pwrite data offset).size := by
  rw [pwrite]
  dsimp only
  split_ifs
  · exact Nat.le_refl _
  · exact Nat.le_max_left _ _

theorem size_pwrite_inside (within : offset + data.length ≤ f.size) :
    (f.pwrite data offset).size = f.size := by
  rw [pwrite]
  dsimp only
  split_ifs
  · rfl
  · exact max_eq_left within

theorem size_pwrite_end : (f.pwrite data f.size).size = f.size + data.length := by
  rw [pwrite]
  dsimp only
  split_ifs with empty
  · rw [empty]
    rfl
  · exact max_eq_right (Nat.le_add_right _ _)

end ByteFile
