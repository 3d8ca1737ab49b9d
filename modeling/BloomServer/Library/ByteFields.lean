import BloomServer.Library.ByteCodec
import BloomServer.Library.ByteFile

/-! Records as blocks of bytes: numbers of a fixed width at fixed offsets, and NUL-terminated
texts. -/
namespace ByteFile
open ByteCodec

/-- A number of `width` bytes written at an offset. -/
def put (f : ByteFile) (offset width value : ℕ) : ByteFile := f.pwrite (toBytes width value) offset

/-- The number of `width` bytes at an offset. -/
@[irreducible] def number (f : ByteFile) (offset width : ℕ) : ℕ := ofBytes (f.pread width offset)

/-- The bytes from the start of the block up to the first NUL. -/
def text (f : ByteFile) : List UInt8 := (f.pread f.size 0).takeWhile (· ≠ 0)

variable {f : ByteFile} {offset offset' width width' value value' : ℕ} {data data' : List UInt8}

theorem toBytes_ofBytes (data : List UInt8) : toBytes data.length (ofBytes data) = data := by
  induction data with
  | nil => rfl
  | cons b data ih =>
      have low : UInt8.ofNat (b.toNat + 256 * ofBytes data) = b := by
        apply UInt8.toNat_inj.mp
        have small := b.toNat_lt
        rw [UInt8.toNat_ofNat']
        omega
      have high : (b.toNat + 256 * ofBytes data) / 256 = ofBytes data := by
        have small := b.toNat_lt
        omega
      rw [List.length_cons, ofBytes, toBytes, low, high, ih]

theorem ofBytes_lt (data : List UInt8) : ofBytes data < 256 ^ data.length := by
  induction data with
  | nil => exact Nat.one_pos
  | cons b data ih =>
      have small := b.toNat_lt
      rw [ofBytes, List.length_cons, Nat.pow_succ]
      omega

/-- A block with enough bytes has the bytes that are read from it. -/
theorem at_pread (inside : offset + width ≤ f.size) : At f offset (f.pread width offset) := by
  have whole : min width (f.size - offset) = width := by omega
  constructor
  · rw [pread, List.length_map, List.length_range, whole]
    exact inside
  · intro i b place
    rw [pread, whole, List.getElem?_map] at place
    obtain ⟨j, there, rfl⟩ := Option.map_eq_some_iff.mp place
    obtain ⟨inside', same⟩ := List.getElem?_eq_some_iff.mp there
    rw [List.getElem_range] at same
    rw [same]

theorem length_pread (inside : offset + width ≤ f.size) : (f.pread width offset).length = width := by
  rw [pread, List.length_map, List.length_range]
  omega

/-- A number stands at an offset exactly if its bytes do. -/
theorem number_eq_iff (inside : offset + width ≤ f.size) (small : value < 256 ^ width) :
    f.number offset width = value ↔ At f offset (toBytes width value) := by
  constructor
  · intro same
    have back := toBytes_ofBytes (f.pread width offset)
    rw [length_pread inside] at back
    rw [← same, number, back]
    exact at_pread inside
  · intro there
    have read := there.pread
    rw [length_toBytes] at read
    rw [number, read, ofBytes_toBytes small]

theorem number_lt (f : ByteFile) (offset width : ℕ) : f.number offset width < 256 ^ width := by
  have short : (f.pread width offset).length ≤ width := by
    rw [pread, List.length_map, List.length_range]
    exact Nat.min_le_left _ _
  rw [number]
  exact (ofBytes_lt _).trans_le (Nat.pow_le_pow_right (by decide) short)

theorem at_put (positive : 0 < width) : At (f.put offset width value) offset (toBytes width value) := by
  have some : toBytes width value ≠ [] := by
    rw [← List.length_pos_iff, length_toBytes]
    exact positive
  refine ⟨?_, fun i b place => ?_⟩
  · rw [put, pwrite]
    dsimp only
    rw [if_neg some]
    exact Nat.le_max_right _ _
  · rw [put, pwrite]
    dsimp only
    rw [if_pos (Nat.le_add_right _ _), Nat.add_sub_cancel_left, place, Option.getD_some]

/-- The number that was written is read back. -/
theorem number_put (positive : 0 < width) (small : value < 256 ^ width) :
    (f.put offset width value).number offset width = value := by
  have there : At (f.put offset width value) offset (toBytes width value) := at_put positive
  have inside := there.inside
  rw [length_toBytes] at inside
  exact (number_eq_iff inside small).mpr there

/-- A number written elsewhere leaves what stands at an offset. -/
theorem At.put (h : At f offset data)
    (apart : offset + data.length ≤ offset' ∨ offset' + width ≤ offset) :
    At (f.put offset' width value) offset data := by
  apply h.pwrite
  rw [length_toBytes]
  exact apart

/-- Two fields, each an offset and its bytes, do not meet. -/
def Apart (x y : ℕ × List UInt8) : Prop := x.1 + x.2.length ≤ y.1 ∨ y.1 + y.2.length ≤ x.1

/-- Write fields one after another. -/
def fill (f : ByteFile) (fields : List (ℕ × List UInt8)) : ByteFile :=
  fields.foldl (fun f x => f.pwrite x.2 x.1) f

theorem At.fill {fields : List (ℕ × List UInt8)} (h : At f offset data)
    (apart : ∀ x ∈ fields, Apart (offset, data) x) : At (f.fill fields) offset data := by
  induction fields generalizing f with
  | nil => exact h
  | cons x fields ih =>
      exact ih (h.pwrite (apart x List.mem_cons_self)) fun y mem => apart y (List.mem_cons_of_mem x mem)

theorem size_fill {fields : List (ℕ × List UInt8)}
    (inside : ∀ x ∈ fields, x.1 + x.2.length ≤ f.size) : (f.fill fields).size = f.size := by
  induction fields generalizing f with
  | nil => rfl
  | cons x fields ih =>
      have first := size_pwrite_inside (inside x List.mem_cons_self)
      rw [← first]
      apply ih
      intro y mem
      rw [first]
      exact inside y (List.mem_cons_of_mem x mem)

/-- Fields that do not meet all stand in the block once they have been written. -/
theorem at_fill {fields : List (ℕ × List UInt8)} (apart : fields.Pairwise Apart)
    (inside : ∀ x ∈ fields, x.1 + x.2.length ≤ f.size) :
    ∀ x ∈ fields, At (f.fill fields) x.1 x.2 := by
  induction fields generalizing f with
  | nil => exact fun x mem => absurd mem List.not_mem_nil
  | cons y fields ih =>
      obtain ⟨first, rest⟩ := List.pairwise_cons.mp apart
      have within := inside y List.mem_cons_self
      intro x mem
      rcases List.mem_cons.mp mem with rfl | later
      · exact (at_pwrite f fun _ => (Nat.le_add_right _ _).trans within).fill first
      · refine ih rest (fun z mem => ?_) x later
        rw [size_pwrite_inside within]
        exact inside z (List.mem_cons_of_mem y mem)

/-- Writing over what stands at an offset leaves it if the bytes of both are the same where they
meet. -/
theorem At.pwrite_agree (h : At f offset data)
    (agree : ∀ i b c, data[i]? = some b → offset' ≤ offset + i →
      data'[offset + i - offset']? = some c → c = b) :
    At (f.pwrite data' offset') offset data := by
  refine ⟨h.inside.trans size_le_pwrite, fun i b place => ?_⟩
  have old := h.bytes i b place
  rw [ByteFile.pwrite]
  dsimp only
  split_ifs with after
  · cases new : data'[offset + i - offset']? with
    | none => exact old
    | some c => exact agree i b c place after new
  · exact old

/-- What stands there afterwards has the bytes of what was written. -/
theorem agree_of_at_pwrite (h : At (f.pwrite data' offset') offset data) {i : ℕ} {b c : UInt8}
    (place : data[i]? = some b) (after : offset' ≤ offset + i)
    (new : data'[offset + i - offset']? = some c) : c = b := by
  have byte := h.bytes i b place
  rw [pwrite] at byte
  dsimp only at byte
  rw [if_pos after, new, Option.getD_some] at byte
  exact byte

/-- A text is read up to its NUL, whatever stands behind it. -/
theorem text_of_at {text : List UInt8} (noNul : 0 ∉ text) (there : At f 0 (text ++ [0])) :
    f.text = text := by
  have inside := there.inside
  rw [Nat.zero_add] at inside
  have whole : At f 0 (f.pread f.size 0) := at_pread (Nat.zero_add _).le
  have split : f.pread f.size 0 = (text ++ [0]) ++ (f.pread f.size 0).drop (text ++ [0]).length := by
    have front : (f.pread f.size 0).take (text ++ [0]).length = text ++ [0] := by
      apply List.ext_getElem?
      intro i
      by_cases low : i < (text ++ [0]).length
      · rw [List.getElem?_take_of_lt low]
        have here : i < (f.pread f.size 0).length := by
          rw [length_pread (Nat.zero_add _).le]
          omega
        rw [List.getElem?_eq_getElem here, List.getElem?_eq_getElem low, Option.some.injEq,
          ← whole.bytes i _ (List.getElem?_eq_getElem here)]
        exact there.bytes i _ (List.getElem?_eq_getElem low)
      · rw [List.getElem?_take_eq_none (Nat.le_of_not_lt low),
          List.getElem?_eq_none (Nat.le_of_not_lt low)]
    have cut := List.take_append_drop (text ++ [0]).length (f.pread f.size 0)
    rw [front] at cut
    exact cut.symm
  rw [ByteFile.text, split, List.append_assoc, List.takeWhile_append_of_pos, List.singleton_append,
    List.takeWhile_cons_of_neg, List.append_nil]
  · decide
  · intro c mem
    apply decide_eq_true
    rintro rfl
    exact noNul mem

/-- If a text is read, the byte behind it is NUL. -/
theorem byte_of_text {text : List UInt8} (read : f.text = text) (short : text.length < f.size) :
    f.bytes text.length = 0 := by
  have whole : At f 0 (f.pread f.size 0) := at_pread (Nat.zero_add _).le
  have length : (f.pread f.size 0).length = f.size := length_pread (Nat.zero_add _).le
  have split := List.takeWhile_append_dropWhile (p := (· ≠ 0)) (l := f.pread f.size 0)
  have front : (f.pread f.size 0).takeWhile (· ≠ 0) = text := read
  rw [front] at split
  have rest : (f.pread f.size 0).dropWhile (· ≠ 0) ≠ [] := by
    intro none
    rw [none, List.append_nil] at split
    rw [split, length] at short
    exact Nat.lt_irrefl _ short
  obtain ⟨c, l, shape⟩ := List.exists_cons_of_ne_nil rest
  have stop := List.head_dropWhile_not (fun b : UInt8 => decide (b ≠ 0)) rest
  simp only [shape, List.head_cons] at stop
  have place : (f.pread f.size 0)[text.length]? = some c := by
    rw [← split, shape, List.getElem?_append_right (Nat.le_refl _), Nat.sub_self,
      List.getElem?_cons_zero]
  have byte := whole.bytes text.length c place
  rw [Nat.zero_add] at byte
  rw [byte]
  exact not_not.mp (of_decide_eq_false stop)

end ByteFile
