import BloomServer.BigFileChunks

/-! Appending to an `FSBigFile`, in any number of sessions, and reading back what was appended. -/
namespace BloomServer
open LabelledRun

/-- How the file system answers during a write: the code that `allocate` returns, whether a chunk
can be created, what a file of its name holds already, whether the chunk list can be written and a
chunk be opened, and how many bytes `fwrite` takes at most. -/
structure Disk where
  allocated : ℤ
  creates : Bool
  left : List UInt8
  lists : Bool
  opens : Bool
  taken : ℕ
  deriving DecidableEq

/-- A file is new, its name goes to the list, and `fwrite` takes a record whole or not at all. -/
structure Disk.Clean (d : Disk) (buf : List UInt8) : Prop where
  left : d.left = []
  lists : d.lists = true
  whole : d.taken = 0 ∨ buf.length ≤ d.taken

namespace FSBigFile

/-- `CREATE_FILE` cuts nothing off a file that is there, and the chunk stays in `file` when its name
cannot be written down. -/
def addChunk (f : FSBigFile) (d : Disk) : ℤ × FSBigFile :=
  if d.allocated < 0 then (d.allocated, f)
  else if d.creates = false then (rcBfCannotCreateFile, f)
  else
    let f := { f with file := f.file ++ [d.left], fileSize := f.fileSize ++ [0] }
    if d.lists = false then (rcBfWriteError, f) else (0, { f with listed := f.file.length })

/-- `WRITE_BUF` at the end of the current chunk, to which a short `fwrite` leaves a torn record. -/
def writeBuf (f : FSBigFile) (taken : ℕ) (buf : List UInt8) : ℤ × FSBigFile :=
  if buf = [] then (0, f)
  else
    let n := min taken buf.length
    (if n = 0 then rcBfWriteError else n,
      { f with file := f.file.set f.fileNum (f.chunk f.fileNum ++ buf.take n) })

def append (f : FSBigFile) (taken : ℕ) (buf : List UInt8) : ℤ × FSBigFile :=
  let (rc, f) := f.writeBuf taken buf
  if rc ≠ buf.length then (rc, f)
  else
    (0, { f with fileSize := f.fileSize.set f.fileNum (f.size f.fileNum + buf.length) })

/-- `write` in mode `a`. -/
def write (f : FSBigFile) (d : Disk) (buf : List UInt8) : ℤ × FSBigFile :=
  if f.maxFileSize < buf.length then (rcBfBufferTooLong, f)
  else
    let last := f.file.length - 1
    if f.fileNum ≠ last ∧ d.opens = false then (rcBfCannotOpenFile, f)
    else
      let f := { f with fileNum := last }
      if f.maxFileSize < f.size f.fileNum + buf.length then
        let (rc, f) := f.addChunk d
        if rc < 0 then (rc, f)
        else if d.opens = false then (rcBfCannotOpenFile, f)
        else FSBigFile.append { f with fileNum := f.fileNum + 1 } d.taken buf
      else f.append d.taken buf

/-- `open` in mode `a`, which makes the first chunk if there is none. -/
def openAppend (maxFileSize : ℕ) : List (List UInt8) → FSBigFile
  | [] => opened maxFileSize [[]] 0
  | first :: more => opened maxFileSize (first :: more) more.length

/-- The answers of a number of reads. -/
def readAll (f : FSBigFile) : List ℕ → List (ℤ × List UInt8)
  | [] => []
  | n :: rest => ((f.read n).1, (f.read n).2.1) :: (f.read n).2.2.readAll rest

inductive AppendEvent
  | write (d : Disk) (buf : List UInt8) (rc : ℤ)
  | reopen
  deriving DecidableEq

/-- A write, or a new session on the chunk files that the list names. -/
inductive AppendStep : FSBigFile → AppendEvent → FSBigFile → Prop
  | write {f d buf} : AppendStep f (.write d buf (f.write d buf).1) (f.write d buf).2
  | reopen {f} : AppendStep f .reopen (openAppend f.maxFileSize (f.file.take f.listed))

def AppendEvent.Clean : AppendEvent → Prop
  | .write d buf _ => d.Clean buf
  | .reopen => True

/-- What has been written without an error, first to last; the history is newest first. -/
def written : List AppendEvent → List (List UInt8)
  | [] => []
  | .write _ buf rc :: T => if rc = 0 ∧ buf ≠ [] then written T ++ [buf] else written T
  | .reopen :: T => written T

/-! ### What the chunks hold -/

/-- Each chunk holds some of the pieces that were written, all chunks but the last at least one. -/
structure Grouped (f : FSBigFile) (front : List (List (List UInt8))) (last : List (List UInt8)) :
    Prop where
  file : f.file = (front ++ [last]).map List.flatten
  sizes : f.fileSize = f.file.map List.length
  listed : f.listed = f.file.length
  inside : f.fileNum < f.file.length
  filled : ∀ g ∈ front, g ≠ []
  pieces : ∀ p ∈ (front ++ [last]).flatten, p ≠ [] ∧ p.length ≤ f.maxFileSize
  bounded : ∀ c ∈ f.file, c.length ≤ f.maxFileSize

variable {f : FSBigFile} {front : List (List (List UInt8))} {last : List (List UInt8)}

namespace Grouped

theorem length_file (grouped : f.Grouped front last) : f.file.length = front.length + 1 := by
  rw [grouped.file, List.length_map, List.length_append, List.length_singleton]

theorem chunk_last (grouped : f.Grouped front last) : f.chunk front.length = last.flatten := by
  rw [chunk, grouped.file, List.map_append, List.map_singleton, List.getD_append_right _ _ _ _
    (by rw [List.length_map]), List.length_map, Nat.sub_self]
  rfl

theorem size_last (grouped : f.Grouped front last) :
    f.size front.length = last.flatten.length := by
  have inside : front.length < f.file.length := by
    rw [grouped.length_file]
    exact Nat.lt_succ_self _
  have here := grouped.chunk_last
  rw [chunk, List.getD_eq_getElem _ _ inside] at here
  rw [size, grouped.sizes, List.getD_eq_getElem _ _ (by rw [List.length_map]; exact inside),
    List.getElem_map, here]

theorem to_last (grouped : f.Grouped front last) :
    Grouped { f with fileNum := f.file.length - 1 } front last := by
  refine ⟨grouped.file, grouped.sizes, grouped.listed, ?_, grouped.filled, grouped.pieces,
    grouped.bounded⟩
  have length := grouped.length_file
  change f.file.length - 1 < f.file.length
  omega

/-- A new chunk is only made when the last one holds something. -/
theorem push (grouped : f.Grouped front last) (some : last ≠ []) (i : ℕ)
    (inside : i ≤ f.file.length) :
    Grouped { f with
      file := f.file ++ [[]]
      fileSize := f.fileSize ++ [0]
      fileNum := i
      listed := (f.file ++ [[]]).length } (front ++ [last]) [] := by
  refine ⟨?_, ?_, rfl, ?_, ?_, ?_, ?_⟩
  · change f.file ++ [[]] = _
    rw [grouped.file, List.map_append, List.map_append, List.map_append]
    rfl
  · change f.fileSize ++ [0] = (f.file ++ [[]]).map List.length
    rw [List.map_append, grouped.sizes]
    rfl
  · change i < (f.file ++ [[]]).length
    rw [List.length_append, List.length_singleton]
    omega
  · intro g mem
    rcases List.mem_append.mp mem with old | new
    · exact grouped.filled g old
    · rw [List.mem_singleton.mp new]
      exact some
  · intro p mem
    rw [List.flatten_append, List.flatten_singleton, List.append_nil] at mem
    exact grouped.pieces p mem
  · intro c mem
    rcases List.mem_append.mp mem with old | new
    · exact grouped.bounded c old
    · rw [List.mem_singleton.mp new]
      exact Nat.zero_le _

/-- The bytes go to the end of the last chunk, or nowhere. -/
theorem append (grouped : f.Grouped front last) {taken : ℕ} {buf : List UInt8}
    (there : f.fileNum = front.length) (whole : taken = 0 ∨ buf.length ≤ taken)
    (room : last.flatten.length + buf.length ≤ f.maxFileSize) :
    (f.append taken buf).2.maxFileSize = f.maxFileSize ∧
      (((f.append taken buf).1 = 0 ∧ buf ≠ [] ∧
          (f.append taken buf).2.Grouped front (last ++ [buf])) ∨
        (¬ ((f.append taken buf).1 = 0 ∧ buf ≠ []) ∧
          (f.append taken buf).2.Grouped front last)) := by
  have here := grouped.chunk_last
  have size := grouped.size_last
  have length := grouped.length_file
  rw [← there] at here size
  by_cases empty : buf = []
  · subst empty
    have run : f.append taken [] = (0, { f with
        fileSize := f.fileSize.set f.fileNum (f.size f.fileNum) }) := rfl
    have same : f.fileSize.set f.fileNum (f.size f.fileNum) = f.fileSize := by
      rw [FSBigFile.size, List.getD_eq_getElem?_getD]
      apply List.ext_getElem?
      intro i
      rw [List.getElem?_set]
      split
      next eq =>
        subst eq
        have inside : f.fileNum < f.fileSize.length := by
          rw [grouped.sizes, List.length_map]
          exact grouped.inside
        rw [if_pos inside, List.getElem?_eq_getElem inside]
        rfl
      next => rfl
    rw [run, same]
    exact ⟨rfl, Or.inr ⟨fun added => added.2 rfl, grouped⟩⟩
  · have positive := List.length_pos_iff.mpr empty
    have buffer : f.writeBuf taken buf = _ := if_neg empty
    rcases whole with zero | all
    · subst zero
      rw [Nat.zero_min] at buffer
      dsimp only at buffer
      rw [if_pos rfl, List.take_zero, List.append_nil] at buffer
      have same : f.file.set f.fileNum (f.chunk f.fileNum) = f.file := by
        rw [FSBigFile.chunk, List.getD_eq_getElem _ _ grouped.inside]
        exact List.set_getElem_self grouped.inside
      rw [same] at buffer
      have negative : rcBfWriteError < 0 := by decide
      have run : f.append 0 buf = (rcBfWriteError, f) := by
        unfold FSBigFile.append
        rw [buffer]
        dsimp only
        rw [if_pos]
        omega
      rw [run]
      exact ⟨rfl, Or.inr ⟨fun added => absurd added.1 negative.ne, grouped⟩⟩
    · rw [Nat.min_eq_right all] at buffer
      dsimp only at buffer
      rw [if_neg (by omega), List.take_length] at buffer
      have run : f.append taken buf = (0, { f with
          file := f.file.set f.fileNum (f.chunk f.fileNum ++ buf)
          fileSize := f.fileSize.set f.fileNum (f.size f.fileNum + buf.length) }) := by
        unfold FSBigFile.append
        rw [buffer]
        exact if_neg fun differs => differs rfl
      rw [run]
      refine ⟨rfl, Or.inl ⟨rfl, empty, ?_, ?_, ?_, ?_, grouped.filled, ?_, ?_⟩⟩
      · change f.file.set f.fileNum _ = _
        rw [here, there, grouped.file, List.map_append, List.map_singleton, List.map_append,
          List.set_append_right _ _ (by rw [List.length_map]), List.length_map, Nat.sub_self,
          List.map_singleton, List.flatten_append, List.flatten_singleton]
        rfl
      · change f.fileSize.set f.fileNum _ = (f.file.set f.fileNum _).map List.length
        rw [List.map_set, ← grouped.sizes, List.length_append, here, size]
      · change f.listed = (f.file.set f.fileNum _).length
        rw [List.length_set]
        exact grouped.listed
      · change f.fileNum < (f.file.set f.fileNum _).length
        rw [List.length_set]
        exact grouped.inside
      · intro p mem
        rw [List.flatten_append, List.flatten_singleton, ← List.append_assoc] at mem
        rcases List.mem_append.mp mem with old | new
        · refine grouped.pieces p ?_
          rw [List.flatten_append, List.flatten_singleton]
          exact old
        · rw [List.mem_singleton.mp new]
          exact ⟨empty, by dsimp only; omega⟩
      · intro c mem
        rcases List.mem_or_eq_of_mem_set mem with old | new
        · exact grouped.bounded c old
        · rw [new, List.length_append, here]
          exact room

/-- A write adds its bytes as one more piece if it succeeds, and nothing otherwise. -/
theorem write (grouped : f.Grouped front last) {d : Disk} {buf : List UInt8} (clean : d.Clean buf) :
    (f.write d buf).2.maxFileSize = f.maxFileSize ∧ ∃ front' last',
      (f.write d buf).2.Grouped front' last' ∧
      (front' ++ [last']).flatten = (front ++ [last]).flatten ++
        (if (f.write d buf).1 = 0 ∧ buf ≠ [] then [buf] else []) := by
  have length := grouped.length_file
  have size := grouped.size_last
  have unchanged : ∀ (g : FSBigFile) front' last' rc, f.write d buf = (rc, g) → rc ≠ 0 →
      g.maxFileSize = f.maxFileSize → g.Grouped front' last' →
      (front' ++ [last']).flatten = (front ++ [last]).flatten →
      (f.write d buf).2.maxFileSize = f.maxFileSize ∧ ∃ front' last',
        (f.write d buf).2.Grouped front' last' ∧
        (front' ++ [last']).flatten = (front ++ [last]).flatten ++
          (if (f.write d buf).1 = 0 ∧ buf ≠ [] then [buf] else []) := by
    intro g front' last' rc run failed same kept pieces
    rw [run, if_neg fun added => failed added.1, List.append_nil]
    exact ⟨same, front', last', kept, pieces⟩
  have appended : ∀ (g : FSBigFile) front' last', f.write d buf = g.append d.taken buf →
      g.maxFileSize = f.maxFileSize → g.Grouped front' last' → g.fileNum = front'.length →
      last'.flatten.length + buf.length ≤ g.maxFileSize →
      (front' ++ [last']).flatten = (front ++ [last]).flatten →
      (f.write d buf).2.maxFileSize = f.maxFileSize ∧ ∃ front' last',
        (f.write d buf).2.Grouped front' last' ∧
        (front' ++ [last']).flatten = (front ++ [last]).flatten ++
          (if (f.write d buf).1 = 0 ∧ buf ≠ [] then [buf] else []) := by
    intro g front' last' run same kept there room pieces
    obtain ⟨limit, ⟨done, some, more⟩ | ⟨failed, more⟩⟩ := kept.append there clean.whole room
    · rw [run, if_pos ⟨done, some⟩]
      refine ⟨limit.trans same, front', _, more, ?_⟩
      rw [← pieces, List.flatten_append, List.flatten_append, List.flatten_singleton,
        List.flatten_singleton, List.append_assoc]
    · rw [run, if_neg failed, List.append_nil]
      exact ⟨limit.trans same, front', last', more, pieces⟩
  have start : f.write d buf = _ := rfl
  conv at start =>
    rhs
    unfold FSBigFile.write
  by_cases long : f.maxFileSize < buf.length
  · rw [if_pos long] at start
    exact unchanged _ _ _ _ start (by decide) rfl grouped rfl
  rw [if_neg long] at start
  dsimp only at start
  by_cases stuck : f.fileNum ≠ f.file.length - 1 ∧ d.opens = false
  · rw [if_pos stuck] at start
    exact unchanged _ _ _ _ start (by decide) rfl grouped rfl
  rw [if_neg stuck] at start
  have here : f.file.length - 1 = front.length := by omega
  have moved := grouped.to_last
  rw [here] at start moved
  by_cases full : f.maxFileSize < f.size front.length + buf.length
  · rw [if_pos (by exact full)] at start
    have some : last ≠ [] := by
      rintro rfl
      rw [size, List.flatten_nil, List.length_nil] at full
      omega
    have pieces : ((front ++ [last]) ++ [[]]).flatten = (front ++ [last]).flatten := by
      rw [List.flatten_append, List.flatten_singleton, List.append_nil]
    unfold FSBigFile.addChunk at start
    by_cases allocated : d.allocated < 0
    · rw [if_pos allocated] at start
      dsimp only at start
      rw [if_pos allocated] at start
      exact unchanged _ _ _ _ start (by omega) rfl moved rfl
    rw [if_neg allocated] at start
    by_cases creates : d.creates = false
    · rw [if_pos creates] at start
      dsimp only at start
      rw [if_pos (by decide)] at start
      exact unchanged _ _ _ _ start (by decide) rfl moved rfl
    rw [if_neg creates, clean.left, clean.lists] at start
    dsimp only at start
    rw [if_neg Bool.true_eq_false_eq_False] at start
    by_cases opens : d.opens = false
    · rw [if_pos opens] at start
      refine unchanged _ _ _ _ start (by decide) rfl (grouped.push some front.length ?_) pieces
      omega
    · rw [if_neg opens] at start
      refine appended _ _ _ start rfl (grouped.push some (front.length + 1) ?_) ?_ ?_ pieces
      · omega
      · change front.length + 1 = (front ++ [last]).length
        rw [List.length_append, List.length_singleton]
      · rw [List.flatten_nil, List.length_nil]
        change 0 + buf.length ≤ f.maxFileSize
        omega
  · rw [if_neg (by exact full)] at start
    refine appended _ _ _ start rfl moved rfl ?_ rfl
    change last.flatten.length + buf.length ≤ f.maxFileSize
    omega

/-- A new session finds the same pieces. -/
theorem reopen (grouped : f.Grouped front last) :
    (openAppend f.maxFileSize (f.file.take f.listed)).Grouped front last := by
  rw [grouped.listed, List.take_length]
  have length := grouped.length_file
  have run : ∃ i, i < f.file.length ∧
      openAppend f.maxFileSize f.file = opened f.maxFileSize f.file i := by
    rcases files : f.file with _ | ⟨first, more⟩
    · rw [files] at length
      exact absurd length (Nat.succ_ne_zero _).symm
    · exact ⟨more.length, Nat.lt_succ_self _, rfl⟩
  obtain ⟨i, inside, run⟩ := run
  rw [run]
  exact ⟨grouped.file, rfl, rfl, inside, grouped.filled, grouped.pieces, grouped.bounded⟩

end Grouped

theorem maxFileSize_openAppend (limit : ℕ) (file : List (List UInt8)) :
    (openAppend limit file).maxFileSize = limit := by
  cases file <;> rfl

theorem grouped_start (limit : ℕ) : (openAppend limit []).Grouped [] [] := by
  refine ⟨rfl, rfl, rfl, Nat.zero_lt_one, ?_, ?_, ?_⟩
  · intro g mem
    exact absurd mem List.not_mem_nil
  · intro p mem
    exact absurd mem List.not_mem_nil
  · intro c mem
    rw [List.mem_singleton.mp mem]
    exact Nat.zero_le _

/-- After any writes and sessions the chunks hold the pieces that were written. -/
theorem grouped_run {limit : ℕ} {T : List AppendEvent}
    (run : Run AppendStep (openAppend limit []) T f) (clean : ∀ ev ∈ T, ev.Clean) :
    f.maxFileSize = limit ∧
      ∃ front last, f.Grouped front last ∧ (front ++ [last]).flatten = written T := by
  induction run with
  | nil => exact ⟨rfl, [], [], grouped_start limit, rfl⟩
  | snoc _ step ih =>
      obtain ⟨same, front, last, grouped, pieces⟩ := ih fun ev mem =>
        clean ev (List.mem_cons_of_mem _ mem)
      cases step with
      | write =>
          obtain ⟨same', front', last', grouped', pieces'⟩ :=
            grouped.write (clean _ List.mem_cons_self)
          refine ⟨same'.trans same, front', last', grouped', ?_⟩
          rw [pieces', pieces, written]
          split
          next => rfl
          next => rw [List.append_nil]
      | reopen =>
          refine ⟨?_, front, last, grouped.reopen, pieces⟩
          rw [maxFileSize_openAppend]
          exact same

/-! ### Reading the pieces back -/

/-- A reader with whole pieces ahead of it, in its chunk and in the chunks after it. -/
structure Ahead (f : FSBigFile) (after : List (List UInt8)) (later : List (List (List UInt8))) :
    Prop where
  sized : f.Sized
  here : (f.chunk f.fileNum).drop f.offset = after.flatten
  next : f.file.drop (f.fileNum + 1) = later.map List.flatten
  filled : ∀ g ∈ later.dropLast, g ≠ []
  pieces : ∀ p ∈ after ++ later.flatten, p ≠ [] ∧ p.length ≤ f.maxFileSize

/-- Each piece is read whole, also where a new chunk starts. -/
theorem Ahead.readAll {after : List (List UInt8)} {later : List (List (List UInt8))}
    (ahead : f.Ahead after later) : f.readAll ((after ++ later.flatten).map List.length) =
      (after ++ later.flatten).map fun p => (0, p) := by
  generalize pieces : after ++ later.flatten = ps
  induction ps generalizing f after later with
  | nil => rfl
  | cons p ps ih =>
      obtain ⟨some, within⟩ := ahead.pieces p (by rw [pieces]; exact List.mem_cons_self)
      have positive := List.length_pos_iff.mpr some
      have size := ahead.sized.size_eq f.fileNum
      have here := ahead.here
      have rest := congrArg List.length here
      rw [List.length_drop] at rest
      rw [List.map_cons, List.map_cons, FSBigFile.readAll]
      rcases after with _ | ⟨first, after⟩
      · rcases later with _ | ⟨g, later⟩
        · cases pieces
        have next := ahead.next
        rw [List.map_cons] at next
        have inside : f.fileNum + 1 < f.file.length := by
          have length := congrArg List.length next
          rw [List.length_drop, List.length_cons] at length
          omega
        rw [List.drop_eq_getElem_cons inside] at next
        obtain ⟨chunk, more⟩ := List.cons.inj next
        have there : f.chunk (f.fileNum + 1) = g.flatten := by
          rw [FSBigFile.chunk, List.getD_eq_getElem _ _ inside]
          exact chunk
        rcases g with _ | ⟨head, g⟩
        · rcases later with _ | ⟨g, later⟩
          · cases pieces
          · exact absurd rfl (ahead.filled [] List.mem_cons_self)
        rw [List.nil_append, List.flatten_cons, List.cons_append] at pieces
        obtain ⟨rfl, same⟩ := List.cons.inj pieces
        rw [List.flatten_cons] at there
        have filled : f.chunk (f.fileNum + 1) ≠ [] := by
          rw [there]
          exact List.append_ne_nil_of_left_ne_nil some _
        have empty : f.size f.fileNum - f.offset = 0 := by
          rw [size]
          exact rest
        have run := ahead.sized.read_across within (by omega) inside filled
        rw [empty, Nat.sub_zero, here, there, List.take_left, List.flatten_nil,
          List.nil_append] at run
        rw [run]
        refine congrArg _ (ih ⟨?_, ?_, more, ?_, ?_⟩ same)
        · exact ⟨ahead.sized.sizes, ahead.sized.short, inside, by
            change head.length ≤ (f.chunk (f.fileNum + 1)).length
            rw [there, List.length_append]
            exact Nat.le_add_right _ _⟩
        · change (f.chunk (f.fileNum + 1)).drop head.length = g.flatten
          rw [there, List.drop_left]
        · intro g' mem
          refine ahead.filled g' ?_
          rcases later with _ | ⟨next, later⟩
          · cases mem
          · exact List.mem_cons_of_mem _ mem
        · intro q mem
          refine ahead.pieces q ?_
          rw [List.nil_append, List.flatten_cons, List.cons_append]
          exact List.mem_cons_of_mem _ mem
      · rw [List.cons_append] at pieces
        obtain ⟨rfl, same⟩ := List.cons.inj pieces
        rw [List.flatten_cons] at here rest
        rw [List.length_append] at rest
        have run := ahead.sized.read_within within (by omega) (Or.inl (by omega))
        have peek : f.peek first.length = first := by
          rw [FSBigFile.peek, here, List.take_left]
        rw [peek] at run
        rw [run]
        refine congrArg _ (ih ⟨?_, ?_, ahead.next, ahead.filled, ?_⟩ same)
        · exact ⟨ahead.sized.sizes, ahead.sized.short, ahead.sized.inside, by
            change f.offset + first.length ≤ (f.chunk f.fileNum).length
            omega⟩
        · change (f.chunk f.fileNum).drop (f.offset + first.length) = _
          rw [← List.drop_drop, here, List.drop_left]
        · intro q mem
          exact ahead.pieces q (List.mem_cons_of_mem _ mem)

/-- A reader of grouped pieces starts with all of them ahead. -/
theorem Grouped.ahead (grouped : f.Grouped front last) (limit : f.maxFileSize ≤ maxChunkSize) :
    ∃ after later,
    (openRead f.maxFileSize f.file).Ahead after later ∧
      after ++ later.flatten = (front ++ [last]).flatten := by
  have file := grouped.file
  have pieces := grouped.pieces
  have filled := grouped.filled
  have short : ∀ c ∈ f.file, c.length ≤ maxChunkSize := fun c mem =>
    (grouped.bounded c mem).trans limit
  have split : ∃ after later, front ++ [last] = after :: later ∧
      ∀ g ∈ later.dropLast, g ∈ front := by
    rcases front with _ | ⟨first, front⟩
    · exact ⟨last, [], rfl, fun g mem => absurd mem List.not_mem_nil⟩
    · refine ⟨first, front ++ [last], rfl, fun g mem => ?_⟩
      rw [List.dropLast_concat] at mem
      exact List.mem_cons_of_mem _ mem
  obtain ⟨after, later, cut, inner⟩ := split
  rw [cut] at file pieces ⊢
  rw [List.map_cons] at file
  rw [file] at short ⊢
  refine ⟨after, later, ⟨⟨rfl, short, Nat.succ_pos _, Nat.zero_le _⟩, rfl, rfl, ?_, pieces⟩, rfl⟩
  intro g mem
  exact filled g (inner g mem)

/-- A disk with room, and one on which no chunk can be allocated. -/
def roomyDisk : Disk := ⟨0, true, [], true, true, 9⟩
def fullDisk : Disk := ⟨rcBfDiskFull, true, [], true, true, 9⟩

end FSBigFile

end BloomServer
