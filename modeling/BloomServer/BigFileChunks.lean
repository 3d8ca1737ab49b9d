import BloomServer.FetchedFile
import BloomServer.Library.LabelledRun
import Mathlib.Algebra.BigOperators.Group.List.Basic
import Mathlib.Data.List.GetD

/-! `FSBigFile`: one stream of bytes, in chunk files of a limited size. Every chunk file can be
opened and read here. -/
namespace BloomServer
open LabelledRun

def rcBfDiskFull : ℤ := -1001
def rcBfCannotCreateFile : ℤ := -1002
def rcBfCannotOpenFile : ℤ := -1003
def rcBfReadError : ℤ := -1005
def rcBfWriteError : ℤ := -1006
def rcBfInvalidParameter : ℤ := -1013

/-- `MAX_FILE_SIZE`. -/
def maxChunkSize : ℕ := 1024 * 1024 * 1024

/-- An open `FSBigFile`: the chunk files, what is remembered of their sizes, the position in the
current one, and how many of them the chunk list on the disk names. -/
structure FSBigFile where
  maxFileSize : ℕ
  file : List (List UInt8)
  fileSize : List ℕ
  fileNum : ℕ
  offset : ℕ
  listed : ℕ

inductive Whence
  | seekSet
  | seekCur
  | seekEnd
  deriving DecidableEq

namespace FSBigFile

def chunk (f : FSBigFile) (i : ℕ) : List UInt8 := f.file.getD i []

def size (f : FSBigFile) (i : ℕ) : ℕ := f.fileSize.getD i 0

def setCurrent (f : FSBigFile) (i offset : ℕ) : FSBigFile := { f with fileNum := i, offset }

/-- What is left of the current chunk, a `long` that is kept in an `int`. -/
def size1 (f : FSBigFile) : ℤ := Int.bmod (f.size f.fileNum - f.offset) (2 ^ 32)

/-- `READ_BUF` on the current chunk; besides the bytes that were read. -/
def readBuf (f : FSBigFile) (size : ℕ) : ℤ × List UInt8 × FSBigFile :=
  if size = 0 then (0, [], f)
  else
    let buf := ((f.chunk f.fileNum).drop f.offset).take size
    if buf = [] then (rcBfReadError, [], f)
    else (buf.length, buf, { f with offset := f.offset + buf.length })

def read (f : FSBigFile) (size : ℕ) : ℤ × List UInt8 × FSBigFile :=
  if f.maxFileSize < size then (rcBfBufferTooLong, [], f)
  else
    let last := f.fileNum = f.file.length - 1
    if f.size1 = 0 ∧ last then (rcBfEof, [], f)
    else if size ≤ f.size1 ∨ last then
      let (rc, buf, f) := f.readBuf size
      (if rc < 0 then rc else 0, buf, f)
    else
      let rest := size - f.size1
      let (rc, buf, f) := f.readBuf f.size1.toNat
      if rc < 0 then (rc, buf, f)
      else
        let (rc, buf', f) := (f.setCurrent (f.fileNum + 1) 0).readBuf rest.toNat
        if rc < 0 then (rc, buf, f) else (0, buf ++ buf', f)

/-- The loop at `seek_forward`: the chunk and the offset in it. -/
def seekForward : List ℕ → ℕ → ℤ → Option (ℕ × ℕ)
  | [], _, _ => none
  | size :: rest, i, pos =>
      if pos < size then some (i, pos.toNat) else seekForward rest (i + 1) (pos - size)

/-- The loop at `seek_backward`, over the chunks up to one, last first. -/
def seekBackward : List ℕ → ℤ → Option (ℕ × ℕ)
  | [], _ => none
  | size :: rest, pos =>
      if 0 ≤ pos + size then some (rest.length, (pos + size).toNat)
      else seekBackward rest (pos + size)

def landed (f : FSBigFile) : Option (ℕ × ℕ) → ℤ × FSBigFile
  | some (i, offset) => (0, f.setCurrent i offset)
  | none => (rcBfInvalidParameter, f)

def seek (f : FSBigFile) (pos : ℤ) : Whence → ℤ × FSBigFile
  | .seekSet => if pos < 0 then (rcBfInvalidParameter, f) else f.landed (seekForward f.fileSize 0 pos)
  | .seekEnd =>
      if 0 < pos then (rcBfInvalidParameter, f)
      else f.landed (seekBackward f.fileSize.reverse pos)
  | .seekCur =>
      if pos = 0 then (0, f)
      else if 0 < pos then
        if pos + f.offset < f.size f.fileNum then
          (0, { f with offset := (pos + f.offset).toNat })
        else
          f.landed (seekForward (f.fileSize.drop (f.fileNum + 1)) (f.fileNum + 1)
            (pos - (f.size f.fileNum - f.offset : ℕ)))
      else if 0 ≤ pos + f.offset then (0, { f with offset := (pos + f.offset).toNat })
      else f.landed (seekBackward (f.fileSize.take f.fileNum).reverse (pos + f.offset))

def tell (f : FSBigFile) : ℕ := f.offset + (f.fileSize.take f.fileNum).sum

/-- `chunk_manager::open` on the chunk files, with the sizes that `stat` gives. -/
def opened (maxFileSize : ℕ) (file : List (List UInt8)) (fileNum : ℕ) : FSBigFile :=
  ⟨maxFileSize, file, file.map List.length, fileNum, 0, file.length⟩

/-- `open` in mode `r`. -/
def openRead (maxFileSize : ℕ) (file : List (List UInt8)) : FSBigFile := opened maxFileSize file 0

end FSBigFile

/-! ### One stream with a position -/

structure Cursor where
  bytes : List UInt8
  pos : ℕ

inductive ReadEvent
  | read (size : ℕ) (rc : ℤ) (buf : List UInt8)
  | seek (pos : ℤ) (whence : Whence) (rc : ℤ)

namespace Cursor

def target (c : Cursor) (pos : ℤ) : Whence → ℤ
  | .seekSet => pos
  | .seekCur => c.pos + pos
  | .seekEnd => c.bytes.length + pos

/-- From the start and forward the end cannot be reached; backward, and from the end, it can. -/
def Allowed (c : Cursor) (pos : ℤ) : Whence → Prop
  | .seekSet => 0 ≤ pos ∧ pos < c.bytes.length
  | .seekEnd => pos ≤ 0 ∧ 0 ≤ c.bytes.length + pos
  | .seekCur => pos = 0 ∨ (0 < pos ∧ c.pos + pos < c.bytes.length) ∨ (pos < 0 ∧ 0 ≤ c.pos + pos)

/-- What a read or a seek does to a stream. A read may stop short, but not at nothing. -/
inductive Step (limit : ℕ) : Cursor → ReadEvent → Cursor → Prop
  | tooLong {c size} (long : limit < size) : Step limit c (.read size rcBfBufferTooLong []) c
  | eof {c size} (within : size ≤ limit) (done : c.pos = c.bytes.length) :
      Step limit c (.read size rcBfEof []) c
  | got {c size buf} (within : size ≤ limit) (inside : c.pos < c.bytes.length)
      (ahead : buf <+: c.bytes.drop c.pos) (most : buf.length ≤ size)
      (some : 0 < size → buf ≠ []) :
      Step limit c (.read size 0 buf) { c with pos := c.pos + buf.length }
  | moved {c pos whence} (allowed : c.Allowed pos whence) :
      Step limit c (.seek pos whence 0) { c with pos := (c.target pos whence).toNat }
  | refused {c pos whence} (not : ¬ c.Allowed pos whence) :
      Step limit c (.seek pos whence rcBfInvalidParameter) c

theorem Step.bytes {limit : ℕ} {c c' : Cursor} {ev : ReadEvent} (step : Step limit c ev c') :
    c'.bytes = c.bytes := by
  cases step <;> rfl

end Cursor

namespace FSBigFile

/-- Reading from the chunk files. The sum of a position and an offset is an `int64_t`. -/
inductive Step : FSBigFile → ReadEvent → FSBigFile → Prop
  | read {f size} : Step f (.read size (f.read size).1 (f.read size).2.1) (f.read size).2.2
  | seek {f : FSBigFile} {pos : ℤ} {whence} (fits : -2 ^ 63 ≤ pos ∧ pos + f.offset < 2 ^ 63) :
      Step f (.seek pos whence (f.seek pos whence).1) (f.seek pos whence).2

def cursor (f : FSBigFile) : Cursor := ⟨f.file.flatten, f.tell⟩

/-- The sizes are right and those of chunks, and the position is in the file. -/
structure Sized (f : FSBigFile) : Prop where
  sizes : f.fileSize = f.file.map List.length
  short : ∀ c ∈ f.file, c.length ≤ maxChunkSize
  inside : f.fileNum < f.file.length
  offset : f.offset ≤ (f.chunk f.fileNum).length

/-- Moreover no chunk but the first is empty. -/
structure Steady (f : FSBigFile) : Prop extends f.Sized where
  filled : ∀ i, 0 < i → i < f.file.length → f.chunk i ≠ []

variable {f : FSBigFile}

namespace Sized

theorem size_eq (sized : f.Sized) (i : ℕ) : f.size i = (f.chunk i).length := by
  rw [size, chunk, sized.sizes, List.getD_eq_getElem?_getD, List.getD_eq_getElem?_getD,
    List.getElem?_map]
  cases f.file[i]? <;> rfl

theorem size1_eq (sized : f.Sized) : f.size1 = ((f.size f.fileNum - f.offset : ℕ) : ℤ) := by
  have inside := sized.inside
  have offset := sized.offset
  have short := sized.short (f.chunk f.fileNum) (by
    rw [chunk, List.getD_eq_getElem _ _ inside]
    exact List.getElem_mem inside)
  unfold maxChunkSize at short
  rw [size1, sized.size_eq, Int.ofNat_sub offset, Int.bmod_eq_of_le] <;> omega

theorem take_sum (sized : f.Sized) (i : ℕ) :
    (f.fileSize.take i).sum = (f.file.take i).flatten.length := by
  rw [sized.sizes, ← List.map_take, List.length_flatten]

theorem split (sized : f.Sized) : f.file = f.file.take f.fileNum ++
    f.chunk f.fileNum :: f.file.drop (f.fileNum + 1) := by
  have inside := sized.inside
  have here : f.chunk f.fileNum = f.file[f.fileNum] := by
    rw [chunk, List.getD_eq_getElem?_getD, List.getElem?_eq_getElem inside]
    rfl
  rw [here, List.getElem_cons_drop, List.take_append_drop]

/-- The bytes from the position on. -/
theorem ahead (sized : f.Sized) : f.cursor.bytes.drop f.cursor.pos =
    (f.chunk f.fileNum).drop f.offset ++ (f.file.drop (f.fileNum + 1)).flatten := by
  have whole : f.cursor.bytes = (f.file.take f.fileNum).flatten ++
      (f.chunk f.fileNum ++ (f.file.drop (f.fileNum + 1)).flatten) := by
    change f.file.flatten = _
    conv_lhs => rw [sized.split]
    rw [List.flatten_append, List.flatten_cons]
  have place : f.cursor.pos = (f.file.take f.fileNum).flatten.length + f.offset := by
    change f.offset + _ = _
    rw [sized.take_sum, Nat.add_comm]
  rw [whole, place, ← List.drop_drop, List.drop_left, List.drop_append_of_le_length sized.offset]

theorem total (sized : f.Sized) : f.cursor.bytes.length = f.fileSize.sum := by
  rw [sized.sizes, cursor, List.length_flatten]

theorem last_of_drop (sized : f.Sized) :
    f.fileNum = f.file.length - 1 ↔ f.file.drop (f.fileNum + 1) = [] := by
  have inside := sized.inside
  rw [List.drop_eq_nil_iff]
  omega

theorem sum_next (sized : f.Sized) : (f.fileSize.take (f.fileNum + 1)).sum =
    (f.chunk f.fileNum).length + (f.fileSize.take f.fileNum).sum := by
  have inside := sized.inside
  have sizes : f.fileNum < f.fileSize.length := by
    rw [sized.sizes, List.length_map]
    exact inside
  have here : f.fileSize[f.fileNum] = (f.chunk f.fileNum).length := by
    rw [← sized.size_eq, size, List.getD_eq_getElem?_getD, List.getElem?_eq_getElem sizes]
    rfl
  rw [List.sum_take_succ _ _ sizes, here, Nat.add_comm]

theorem tell_next (sized : f.Sized) (offset : ℕ) :
    (f.setCurrent (f.fileNum + 1) offset).tell =
      offset + ((f.chunk f.fileNum).length + (f.fileSize.take f.fileNum).sum) :=
  congrArg (offset + ·) sized.sum_next

end Sized

namespace Steady

/-- Moving within the current chunk. -/
theorem move (steady : f.Steady) {offset : ℕ} (inside : offset ≤ (f.chunk f.fileNum).length) :
    Steady { f with offset } :=
  ⟨⟨steady.sizes, steady.short, steady.inside, inside⟩, steady.filled⟩

/-- Moving to another chunk. -/
theorem jump (steady : f.Steady) {i offset : ℕ} (there : i < f.file.length)
    (inside : offset ≤ (f.chunk i).length) : (f.setCurrent i offset).Steady :=
  ⟨⟨steady.sizes, steady.short, there, inside⟩, steady.filled⟩

end Steady

/-- What the current chunk has from the position on, up to so many bytes. -/
def peek (f : FSBigFile) (n : ℕ) : List UInt8 := ((f.chunk f.fileNum).drop f.offset).take n

theorem length_peek (f : FSBigFile) (n : ℕ) :
    (f.peek n).length = min n ((f.chunk f.fileNum).length - f.offset) := by
  rw [peek, List.length_take, List.length_drop]

theorem readBuf_eq {n : ℕ} (some : n = 0 ∨ f.offset < (f.chunk f.fileNum).length) :
    f.readBuf n = (((f.peek n).length : ℤ), f.peek n,
      { f with offset := f.offset + (f.peek n).length }) := by
  unfold readBuf
  by_cases zero : n = 0
  · subst zero
    rw [if_pos rfl, peek, List.take_zero]
    rfl
  · have size := f.length_peek n
    have nonempty : f.peek n ≠ [] := by
      apply List.ne_nil_of_length_pos
      omega
    rw [if_neg zero]
    exact if_neg nonempty

/-- A read of what the current chunk has, or of the last one. -/
theorem Sized.read_within (sized : f.Sized) {n : ℕ} (within : n ≤ f.maxFileSize)
    (more : ¬ (f.size f.fileNum - f.offset = 0 ∧ f.fileNum = f.file.length - 1))
    (here : n ≤ f.size f.fileNum - f.offset ∨ f.fileNum = f.file.length - 1) :
    f.read n = (0, f.peek n, { f with offset := f.offset + (f.peek n).length }) := by
  unfold read
  rw [if_neg (Nat.not_lt.mpr within), sized.size1_eq]
  dsimp only
  rw [if_neg (by omega), if_pos (by omega), readBuf_eq, if_neg (by omega)]
  rw [sized.size_eq] at more here
  omega

/-- A read across the end of a chunk. -/
theorem Sized.read_across (sized : f.Sized) {n : ℕ} (within : n ≤ f.maxFileSize)
    (more : f.size f.fileNum - f.offset < n) (next : f.fileNum + 1 < f.file.length)
    (filled : f.chunk (f.fileNum + 1) ≠ []) :
    f.read n = (0, (f.chunk f.fileNum).drop f.offset ++
        (f.chunk (f.fileNum + 1)).take (n - (f.size f.fileNum - f.offset)),
      f.setCurrent (f.fileNum + 1)
        ((f.chunk (f.fileNum + 1)).take (n - (f.size f.fileNum - f.offset))).length) := by
  have size := sized.size_eq f.fileNum
  have nonempty := List.length_pos_iff.mpr filled
  have whole : f.peek (f.size f.fileNum - f.offset) = (f.chunk f.fileNum).drop f.offset := by
    rw [peek, size, ← List.length_drop, List.take_length]
  have first : f.readBuf (f.size f.fileNum - f.offset) = _ := readBuf_eq (by omega)
  have second := readBuf_eq (f := f.setCurrent (f.fileNum + 1) 0)
    (n := n - (f.size f.fileNum - f.offset)) (Or.inr nonempty)
  rw [whole] at first
  unfold read
  rw [if_neg (Nat.not_lt.mpr within), sized.size1_eq]
  dsimp only
  rw [if_neg (by omega), if_neg (by omega), Int.toNat_natCast, first]
  dsimp only
  rw [if_neg (by omega), Int.toNat_sub]
  have moved : FSBigFile.setCurrent
      { f with offset := f.offset + ((f.chunk f.fileNum).drop f.offset).length }
      (f.fileNum + 1) 0 = f.setCurrent (f.fileNum + 1) 0 := rfl
  rw [moved, second]
  dsimp only
  rw [if_neg (by omega)]
  have start : (f.setCurrent (f.fileNum + 1) 0).peek (n - (f.size f.fileNum - f.offset)) =
      (f.chunk (f.fileNum + 1)).take (n - (f.size f.fileNum - f.offset)) := rfl
  rw [start]
  change _ = (0, _, FSBigFile.setCurrent f (f.fileNum + 1) _)
  unfold setCurrent
  dsimp only
  rw [Nat.zero_add]

theorem Steady.length_eq (steady : f.Steady) : f.cursor.bytes.length = f.cursor.pos +
    (((f.chunk f.fileNum).length - f.offset) + (f.file.drop (f.fileNum + 1)).flatten.length) := by
  have whole : f.cursor.bytes.length = ((f.file.take f.fileNum).flatten.length +
      ((f.chunk f.fileNum).length + (f.file.drop (f.fileNum + 1)).flatten.length)) := by
    change f.file.flatten.length = _
    conv_lhs => rw [steady.split]
    rw [List.flatten_append, List.flatten_cons, List.length_append, List.length_append]
  have place : f.cursor.pos = f.offset + (f.file.take f.fileNum).flatten.length := by
    rw [← steady.take_sum]
    rfl
  have offset := steady.offset
  omega

theorem Steady.next_pos (steady : f.Steady) (next : f.fileNum + 1 < f.file.length) :
    0 < (f.file.drop (f.fileNum + 1)).flatten.length := by
  have nonempty := List.length_pos_iff.mpr (steady.filled (f.fileNum + 1) (Nat.succ_pos _) next)
  have here : f.chunk (f.fileNum + 1) = f.file[f.fileNum + 1] := by
    rw [chunk, List.getD_eq_getElem?_getD, List.getElem?_eq_getElem next]
    rfl
  rw [List.drop_eq_getElem_cons next, List.flatten_cons, List.length_append, ← here]
  omega

theorem cursor_move (f : FSBigFile) (k : ℕ) :
    cursor { f with offset := f.offset + k } = { f.cursor with pos := f.cursor.pos + k } := by
  unfold cursor tell
  dsimp only
  rw [Nat.add_right_comm]

/-- A read does to the stream what a read may do. -/
theorem Steady.read_step (steady : f.Steady) (n : ℕ) :
    Cursor.Step f.maxFileSize f.cursor (.read n (f.read n).1 (f.read n).2.1)
      (f.read n).2.2.cursor ∧ (f.read n).2.2.Steady ∧
      (f.read n).2.2.maxFileSize = f.maxFileSize := by
  have offset := steady.offset
  have size := steady.size_eq f.fileNum
  have inside := steady.inside
  have length := steady.length_eq
  have rest := steady.ahead
  by_cases long : f.maxFileSize < n
  · have run : f.read n = (rcBfBufferTooLong, [], f) := if_pos long
    rw [run]
    exact ⟨.tooLong long, steady, rfl⟩
  have within := Nat.le_of_not_lt long
  by_cases done : f.size f.fileNum - f.offset = 0 ∧ f.fileNum = f.file.length - 1
  · have run : f.read n = (rcBfEof, [], f) := by
      unfold read
      rw [if_neg long, steady.size1_eq]
      exact if_pos ⟨congrArg Nat.cast done.1, done.2⟩
    rw [run]
    refine ⟨.eof within ?_, steady, rfl⟩
    rw [steady.last_of_drop.mp done.2, List.flatten_nil, List.length_nil] at length
    omega
  by_cases here : n ≤ f.size f.fileNum - f.offset ∨ f.fileNum = f.file.length - 1
  · have most := f.length_peek n
    rw [steady.read_within within done here]
    refine ⟨?_, steady.move (by omega), rfl⟩
    rw [cursor_move]
    refine .got within ?_ ?_ ?_ fun positive => List.ne_nil_of_length_pos ?_
    · by_cases last : f.fileNum = f.file.length - 1
      · omega
      · have more := steady.next_pos (by omega)
        omega
    · rw [rest]
      exact (List.take_prefix n _).trans (List.prefix_append _ _)
    · dsimp only
      omega
    · dsimp only
      omega
  · have next : f.fileNum + 1 < f.file.length := by omega
    have more := steady.next_pos next
    have filled := List.length_pos_iff.mpr (steady.filled (f.fileNum + 1) (Nat.succ_pos _) next)
    have head : f.chunk (f.fileNum + 1) <+: (f.file.drop (f.fileNum + 1)).flatten := by
      have this : f.chunk (f.fileNum + 1) = f.file[f.fileNum + 1] := by
        rw [chunk, List.getD_eq_getElem?_getD, List.getElem?_eq_getElem next]
        rfl
      rw [List.drop_eq_getElem_cons next, List.flatten_cons, this]
      exact List.prefix_append _ _
    rw [steady.read_across within (by omega) next (steady.filled _ (Nat.succ_pos _) next)]
    generalize part : (f.chunk (f.fileNum + 1)).take (n - (f.size f.fileNum - f.offset)) = buf
    have short : buf.length = min (n - (f.size f.fileNum - f.offset))
        (f.chunk (f.fileNum + 1)).length := by
      rw [← part, List.length_take]
    refine ⟨?_, steady.jump next (by omega), rfl⟩
    have moved : (f.setCurrent (f.fileNum + 1) buf.length).cursor = { f.cursor with
        pos := f.cursor.pos + ((f.chunk f.fileNum).drop f.offset ++ buf).length } := by
      have tell := steady.tell_next buf.length
      unfold cursor
      rw [tell, List.length_append, List.length_drop]
      congr 1
      unfold FSBigFile.tell
      dsimp only
      omega
    rw [moved]
    refine .got within (by omega) ?_ ?_ fun positive => List.ne_nil_of_length_pos ?_
    · rw [rest, List.prefix_append_right_inj, ← part]
      exact (List.take_prefix _ _).trans head
    · rw [List.length_append, List.length_drop]
      omega
    · rw [List.length_append]
      omega

/-! ### Seeking -/

/-- A place in a list of chunks: the bytes before it are counted from the first chunk. -/
structure Place (sizes : List ℕ) (pos : ℤ) (i offset : ℕ) : Prop where
  inside : i < sizes.length
  within : offset ≤ sizes.getD i 0
  before : pos = (sizes.take i).sum + offset

theorem seekForward_spec (sizes : List ℕ) (i : ℕ) (pos : ℤ) (positive : 0 ≤ pos) :
    (pos < sizes.sum ∧ ∃ k offset, seekForward sizes i pos = some (i + k, offset) ∧
      Place sizes pos k offset) ∨ (sizes.sum ≤ pos ∧ seekForward sizes i pos = none) := by
  induction sizes generalizing i pos with
  | nil => exact Or.inr ⟨positive, rfl⟩
  | cons size rest ih =>
      rw [seekForward, List.sum_cons]
      by_cases here : pos < size
      · rw [if_pos here]
        refine Or.inl ⟨by omega, 0, pos.toNat, rfl, ?_, ?_, ?_⟩
        · exact Nat.succ_pos _
        · change pos.toNat ≤ size
          omega
        · rw [List.take_zero, List.sum_nil]
          omega
      · rw [if_neg here]
        rcases ih (i + 1) (pos - size) (by omega) with
          ⟨inside, k, offset, run, place⟩ | ⟨past, run⟩
        · refine Or.inl ⟨by omega, k + 1, offset, ?_, ?_, place.within, ?_⟩
          · rw [run, Nat.add_assoc, Nat.add_comm 1]
          · exact Nat.succ_lt_succ place.inside
          · rw [List.take_succ_cons, List.sum_cons]
            have before := place.before
            omega
        · exact Or.inr ⟨by omega, run⟩

theorem seekBackward_spec (sizes : List ℕ) (pos : ℤ) (negative : pos ≤ 0) :
    (0 ≤ pos + sizes.sum → sizes ≠ [] → ∃ i offset, seekBackward sizes.reverse pos =
      some (i, offset) ∧ Place sizes (pos + sizes.sum) i offset) ∧
    (pos + sizes.sum < 0 → seekBackward sizes.reverse pos = none) := by
  induction sizes using List.reverseRecOn generalizing pos with
  | nil => exact ⟨fun _ none => absurd rfl none, fun _ => rfl⟩
  | append_singleton front size ih =>
      rw [List.reverse_append, List.reverse_singleton, List.singleton_append, seekBackward,
        List.sum_append, List.sum_singleton]
      by_cases here : 0 ≤ pos + size
      · rw [if_pos here]
        refine ⟨fun _ _ => ⟨_, _, rfl, ?_, ?_, ?_⟩, fun before => by omega⟩
        · rw [List.length_append, List.length_reverse]
          exact Nat.lt_succ_self _
        · rw [List.length_reverse, List.getD_append_right _ _ _ _ (Nat.le_refl _), Nat.sub_self]
          change (pos + size).toNat ≤ size
          omega
        · rw [List.length_reverse, List.take_left]
          omega
      · rw [if_neg here]
        obtain ⟨found, lost⟩ := ih (pos + size) (by omega)
        refine ⟨fun before _ => ?_, fun past => lost (by omega)⟩
        have some : front ≠ [] := by
          rintro rfl
          simp only [List.sum_nil] at before
          omega
        obtain ⟨i, offset, run, place⟩ := found (by omega) some
        refine ⟨i, offset, run, ?_, ?_, ?_⟩
        · rw [List.length_append]
          exact Nat.lt_add_right _ place.inside
        · rw [List.getD_append _ _ _ _ place.inside]
          exact place.within
        · rw [List.take_append_of_le_length place.inside.le, ← place.before]
          omega

/-- Landing at a place moves the position there. -/
theorem Steady.land (steady : f.Steady) {pos : ℤ} {i offset : ℕ}
    (place : Place f.fileSize pos i offset) : (f.setCurrent i offset).Steady ∧
      (f.setCurrent i offset).cursor = { f.cursor with pos := pos.toNat } := by
  obtain ⟨inside, within, before⟩ := place
  have size := steady.size_eq i
  rw [FSBigFile.size] at size
  rw [steady.sizes, List.length_map] at inside
  refine ⟨steady.jump inside (by omega), ?_⟩
  unfold cursor tell setCurrent
  dsimp only
  congr 1
  omega

theorem Place.of_drop {sizes : List ℕ} {pos : ℤ} {n k offset : ℕ}
    (place : Place (sizes.drop n) pos k offset) (inside : n ≤ sizes.length) :
    Place sizes (pos + (sizes.take n).sum) (n + k) offset := by
  obtain ⟨low, within, before⟩ := place
  rw [List.length_drop] at low
  refine ⟨by omega, ?_, ?_⟩
  · rw [List.getD_eq_getElem?_getD, ← List.getElem?_drop, ← List.getD_eq_getElem?_getD]
    exact within
  · rw [List.take_add, List.sum_append, before]
    omega

theorem Place.of_take {sizes : List ℕ} {pos : ℤ} {n k offset : ℕ}
    (place : Place (sizes.take n) pos k offset) : Place sizes pos k offset := by
  obtain ⟨low, within, before⟩ := place
  rw [List.length_take] at low
  refine ⟨by omega, ?_, ?_⟩
  · rw [List.getD_eq_getElem?_getD, List.getElem?_take_of_lt (by omega)] at within
    exact within
  · rw [before, List.take_take, Nat.min_eq_left (by omega)]

/-- A place in the current chunk. -/
theorem Steady.here (steady : f.Steady) {offset : ℕ}
    (inside : offset ≤ (f.chunk f.fileNum).length) :
    Place f.fileSize (((f.fileSize.take f.fileNum).sum + offset : ℕ) : ℤ) f.fileNum offset := by
  refine ⟨?_, ?_, Int.natCast_add _ _⟩
  · rw [steady.sizes, List.length_map]
    exact steady.inside
  · rw [← steady.size_eq, FSBigFile.size] at inside
    exact inside

/-- A seek does to the stream what a seek may do. -/
theorem Steady.seek_step (steady : f.Steady) (pos : ℤ) (whence : Whence) :
    Cursor.Step f.maxFileSize f.cursor (.seek pos whence (f.seek pos whence).1)
      (f.seek pos whence).2.cursor ∧ (f.seek pos whence).2.Steady ∧
      (f.seek pos whence).2.maxFileSize = f.maxFileSize := by
  have total := steady.total
  have refused : ¬ f.cursor.Allowed pos whence →
      f.seek pos whence = (rcBfInvalidParameter, f) →
      Cursor.Step f.maxFileSize f.cursor (.seek pos whence (f.seek pos whence).1)
        (f.seek pos whence).2.cursor ∧ (f.seek pos whence).2.Steady ∧
        (f.seek pos whence).2.maxFileSize = f.maxFileSize := by
    intro not run
    rw [run]
    exact ⟨.refused not, steady, rfl⟩
  have moved : ∀ i offset, f.cursor.Allowed pos whence →
      f.seek pos whence = (0, f.setCurrent i offset) →
      Place f.fileSize (f.cursor.target pos whence) i offset →
      Cursor.Step f.maxFileSize f.cursor (.seek pos whence (f.seek pos whence).1)
        (f.seek pos whence).2.cursor ∧ (f.seek pos whence).2.Steady ∧
        (f.seek pos whence).2.maxFileSize = f.maxFileSize := by
    intro i offset allowed run place
    obtain ⟨next, same⟩ := steady.land place
    rw [run]
    refine ⟨?_, next, rfl⟩
    rw [same]
    exact .moved allowed
  cases whence with
  | seekSet =>
      by_cases negative : pos < 0
      · exact refused (fun allowed => by have low := allowed.1; omega) (if_pos negative)
      · rcases seekForward_spec f.fileSize 0 pos (by omega) with
          ⟨inside, k, offset, run, place⟩ | ⟨past, run⟩
        · rw [Nat.zero_add] at run
          refine moved k offset ⟨by omega, by omega⟩ ?_ place
          exact (if_neg negative).trans (by rw [run]; rfl)
        · refine refused (fun allowed => by have high := allowed.2; omega) ?_
          exact (if_neg negative).trans (by rw [run]; rfl)
  | seekEnd =>
      by_cases positive : 0 < pos
      · exact refused (fun allowed => by have high := allowed.1; omega) (if_pos positive)
      · obtain ⟨found, lost⟩ := seekBackward_spec f.fileSize pos (by omega)
        have some : f.fileSize ≠ [] := by
          apply List.ne_nil_of_length_pos
          rw [steady.sizes, List.length_map]
          exact Nat.zero_lt_of_lt steady.inside
        by_cases before : 0 ≤ pos + f.fileSize.sum
        · obtain ⟨i, offset, run, place⟩ := found before some
          refine moved i offset ⟨by omega, by omega⟩ ?_ ?_
          · exact (if_neg positive).trans (by rw [run]; rfl)
          · change Place _ (f.cursor.bytes.length + pos) _ _
            rw [total, Int.add_comm]
            exact place
        · refine refused (fun allowed => by have low := allowed.2; omega) ?_
          exact (if_neg positive).trans (by rw [lost (by omega)]; rfl)
  | seekCur =>
      have place := steady.offset
      have size := steady.size_eq f.fileNum
      have next := steady.sum_next
      have cut : f.fileSize.sum = (f.fileSize.take (f.fileNum + 1)).sum +
          (f.fileSize.drop (f.fileNum + 1)).sum := by
        rw [← List.sum_append, List.take_append_drop]
      have tell : f.cursor.pos = f.offset + (f.fileSize.take f.fileNum).sum := rfl
      have within : ∀ offset : ℕ, (offset : ℤ) = pos + f.offset →
          offset ≤ (f.chunk f.fileNum).length →
          Place f.fileSize (f.cursor.target pos .seekCur) f.fileNum offset := by
        intro offset same inside
        have here := steady.here inside
        have target : f.cursor.target pos .seekCur =
            (((f.fileSize.take f.fileNum).sum + offset : ℕ) : ℤ) := by
          change (f.cursor.pos : ℤ) + pos = _
          omega
        rw [target]
        exact here
      rcases Int.lt_trichotomy pos 0 with negative | rfl | positive
      · by_cases near : 0 ≤ pos + f.offset
        · refine moved f.fileNum (pos + f.offset).toNat ?_ ?_ (within _ (by omega) (by omega))
          · exact Or.inr (Or.inr ⟨negative, by omega⟩)
          · exact (if_neg (by omega)).trans ((if_neg (by omega)).trans (if_pos near))
        · have run : f.seek pos .seekCur =
              f.landed (seekBackward (f.fileSize.take f.fileNum).reverse (pos + f.offset)) :=
            (if_neg (by omega)).trans ((if_neg (by omega)).trans (if_neg near))
          obtain ⟨found, lost⟩ :=
            seekBackward_spec (f.fileSize.take f.fileNum) (pos + f.offset) (by omega)
          by_cases before : 0 ≤ pos + f.offset + (f.fileSize.take f.fileNum).sum
          · have some : f.fileSize.take f.fileNum ≠ [] := by
              intro none
              rw [none, List.sum_nil] at before
              omega
            obtain ⟨i, offset, back, there⟩ := found before some
            refine moved i offset (Or.inr (Or.inr ⟨negative, by omega⟩)) ?_ ?_
            · rw [run, back]
              rfl
            · have target : f.cursor.target pos .seekCur =
                  pos + f.offset + (f.fileSize.take f.fileNum).sum := by
                change (f.cursor.pos : ℤ) + pos = _
                omega
              rw [target]
              exact there.of_take
          · refine refused ?_ ?_
            · rintro (zero | ⟨positive, _⟩ | ⟨_, low⟩) <;> omega
            · rw [run, lost (by omega)]
              rfl
      · have run : f.seek 0 .seekCur = (0, f) := rfl
        exact moved f.fileNum f.offset (Or.inl rfl) run (within _ (by omega) place)
      · by_cases near : pos + f.offset < f.size f.fileNum
        · refine moved f.fileNum (pos + f.offset).toNat ?_ ?_ (within _ (by omega) (by omega))
          · exact Or.inr (Or.inl ⟨positive, by omega⟩)
          · exact (if_neg (by omega)).trans ((if_pos positive).trans (if_pos near))
        · have run : f.seek pos .seekCur = f.landed (seekForward
              (f.fileSize.drop (f.fileNum + 1)) (f.fileNum + 1)
              (pos - (f.size f.fileNum - f.offset : ℕ))) :=
            (if_neg (by omega)).trans ((if_pos positive).trans (if_neg near))
          rcases seekForward_spec (f.fileSize.drop (f.fileNum + 1)) (f.fileNum + 1)
            (pos - (f.size f.fileNum - f.offset : ℕ)) (by omega) with
            ⟨inside, k, offset, forward, there⟩ | ⟨past, forward⟩
          · refine moved (f.fileNum + 1 + k) offset (Or.inr (Or.inl ⟨positive, by omega⟩)) ?_ ?_
            · rw [run, forward]
              rfl
            · have low : f.fileNum + 1 ≤ f.fileSize.length := by
                rw [steady.sizes, List.length_map]
                exact steady.inside
              have target : f.cursor.target pos .seekCur =
                  pos - (f.size f.fileNum - f.offset : ℕ) +
                    (f.fileSize.take (f.fileNum + 1)).sum := by
                change (f.cursor.pos : ℤ) + pos = _
                omega
              rw [target]
              exact there.of_drop low
          · refine refused ?_ ?_
            · rintro (zero | ⟨_, high⟩ | ⟨negative, _⟩) <;> omega
            · rw [run, forward]
              rfl

/-- A step of the chunk files is a step of the stream. -/
theorem Steady.step {g : FSBigFile} {ev : ReadEvent} (steady : f.Steady) (step : Step f ev g) :
    Cursor.Step f.maxFileSize f.cursor ev g.cursor ∧ g.Steady ∧
      g.maxFileSize = f.maxFileSize := by
  cases step with
  | read => exact steady.read_step _
  | seek fits => exact steady.seek_step _ _

theorem steady_openRead (limit : ℕ) {first : List UInt8} {more : List (List UInt8)}
    (short : ∀ c ∈ first :: more, c.length ≤ maxChunkSize) (filled : ∀ c ∈ more, c ≠ []) :
    (openRead limit (first :: more)).Steady := by
  refine ⟨⟨rfl, short, Nat.succ_pos _, Nat.zero_le _⟩, ?_⟩
  intro i positive inside
  obtain ⟨i, rfl⟩ := Nat.exists_eq_succ_of_ne_zero (by omega : i ≠ 0)
  have low : i < more.length := Nat.lt_of_succ_lt_succ inside
  change more.getD i [] ≠ []
  rw [List.getD_eq_getElem _ _ low]
  exact filled _ (List.getElem_mem low)

end FSBigFile

end BloomServer
