import BloomServer.FetchedFile

/-! The log of the articles that have been read: `saveAlreadyRead` appends a line to it, and
`GetAlreadyRead` returns the keys of the lines behind the one that it came to last. Where that is stands
in a file of its own. -/
namespace BloomServer
open DecimalText

/-- What `strftime` makes of the time with `"%Y-%m-%d %H:%M:%S"`. -/
structure TimeText where
  text : List UInt8
  length : text.length = 19
  plain : ∀ b ∈ text, isDigit b ∨ b = 32 ∨ b = 45 ∨ b = 58

/-- A line of the log. -/
structure LogEntry where
  id : UInt64
  taskid : Int32
  time : TimeText

namespace LogEntry

/-- `"%llu/%d"`. -/
def key (e : LogEntry) : List UInt8 := decimal e.id.toNat ++ 47 :: printInt e.taskid.toInt

def line (e : LogEntry) : List UInt8 := e.key ++ 9 :: e.time.text

def bytes (e : LogEntry) : List UInt8 := e.line ++ [10]

end LogEntry

/-- The loop of `getlines`, with what the last `read` returned and the byte that it read. -/
def getlinesLoop : ℕ → ℤ → UInt8 → BigFile → List UInt8 × BigFile
  | 0, _, _, f => ([], f)
  | n + 1, eret, c, f =>
      if eret = 0 ∧ c ≠ 10 then
        let (eret, buf, f) := f.read 1
        let (rest, f) := getlinesLoop n eret (buf.headD c) f
        (c :: rest, f)
      else ([], f)

/-- The next line, without its end; none at the end of the file. -/
def getlines (f : BigFile) : Option (List UInt8) × BigFile :=
  let (eret, buf, f) := f.read 1
  if eret ≠ 0 then (none, f)
  else
    let (line, f) := getlinesLoop 100000 eret (buf.headD 0) f
    (some line, f)

/-- `%s` -/
def scanWord (text : List UInt8) : List UInt8 :=
  (text.dropWhile isBlank).takeWhile fun b => !isBlank b && b != 0

/-- `sscanf` with `"%llu/%s"`, into variables that are 0 and empty. -/
def scanPlace (text : List UInt8) : UInt64 × List UInt8 :=
  match scanInt none text with
  | none => (0, [])
  | some (pos, rest) =>
      (strtoull pos, if rest.head? = some 47 then scanWord rest.tail else [])

/-- The log, and the file with the place up to which it has been read. -/
structure ReadLog where
  queue : Option (List UInt8)
  place : Option (List UInt8)

namespace ReadLog

/-- The files after `start`. -/
def start : ReadLog := ⟨none, some (decimal 0)⟩

/-- The line is printed into 64 bytes. -/
def saveAlreadyRead (s : ReadLog) (e : LogEntry) : Option ReadLog :=
  if 64 ≤ e.bytes.length then none
  else
    let (_, bigfile) := (BigFile.opened (s.queue.getD [])).write e.bytes
    some { s with queue := some bigfile.bytes }

/-- The lines up to the end: their keys, and the text that says where the last of them stands. The line
is read into 1024 bytes, the key and the text into 64. -/
def readLines : ℕ → BigFile → List UInt8 → Option (List (List UInt8) × List UInt8)
  | 0, _, _ => none
  | n + 1, f, lastdeletekey =>
      match getlines f with
      | (none, _) => some ([], lastdeletekey)
      | (some str, f') => do
          let key := scanWord str
          let lastdeletekey := decimal f.pos ++ 47 :: key
          if 1024 ≤ str.length ∨ 64 ≤ key.length ∨ 64 ≤ lastdeletekey.length then none
          else
            let (keys, lastdeletekey) ← readLines n f' lastdeletekey
            return (key :: keys, lastdeletekey)

/-- The keys behind the place, and the new place: nothing is written to its file if there are
none. -/
def readBehind (bytes : List UInt8) (f : BigFile) (str lastdeletekey : List UInt8) :
    Option (List (List UInt8) × List UInt8) :=
  if lastdeletekey <:+: str.takeWhile (· ≠ 0) ∧ lastdeletekey ≠ [] then
    readLines (bytes.length + 1) f []
  else readLines (bytes.length + 1) f.rewound []

def getAlreadyRead (s : ReadLog) : Option (List (List UInt8) × ReadLog) :=
  match s.place, s.queue with
  | none, _ => some ([], s)
  | some text, queue =>
      let key := text.take 128
      if key = [] then some ([], s)
      else
        let (pos, lastdeletekey) := scanPlace (key ++ List.replicate (128 - key.length) 0)
        if 64 ≤ lastdeletekey.length then none
        else
          match queue with
          | none => some ([], s)
          | some bytes =>
              match (BigFile.opened bytes).seek pos.toNat with
              | none => some ([], s)
              | some bigfile =>
                  match getlines bigfile with
                  | (none, _) => some ([], s)
                  | (some str, bigfile) => do
                      if 1024 ≤ str.length then none
                      else
                        let (alreadyread, place) ← readBehind bytes bigfile str lastdeletekey
                        return (alreadyread, { s with place := some place })

end ReadLog

inductive LogCall
  | saveAlreadyRead (e : LogEntry)
  | getAlreadyRead

def LogCall.run : LogCall → ReadLog → Option (List (List UInt8) × ReadLog)
  | .saveAlreadyRead e, s => (s.saveAlreadyRead e).map ([], ·)
  | .getAlreadyRead, s => s.getAlreadyRead

/-- What the calls return together. -/
def runLog : List LogCall → ReadLog → Option (List (List UInt8) × ReadLog)
  | [], s => some ([], s)
  | call :: rest, s => (call.run s).bind fun read =>
      (runLog rest read.2).map fun later => (read.1 ++ later.1, later.2)

/-- The entries that are saved. -/
def savedEntries : List LogCall → List LogEntry
  | [] => []
  | .saveAlreadyRead e :: rest => e :: savedEntries rest
  | .getAlreadyRead :: rest => savedEntries rest

/-- What the calls return is a prefix of what has been saved, and all of it if the last of them is a
`GetAlreadyRead`. -/
def DeliversLog (calls : List LogCall) : Prop :=
  ∃ keys s, runLog calls .start = some (keys, s) ∧ keys <+: (savedEntries calls).map LogEntry.key ∧
    ∀ before, calls = before ++ [.getAlreadyRead] → keys = (savedEntries calls).map LogEntry.key

/-! ### Lines -/

namespace LogEntry

variable (e : LogEntry)

theorem plain_key {b : UInt8} (mem : b ∈ e.key) : isBlank b = false ∧ b ≠ 0 := by
  have digit {b : UInt8} (h : isDigit b = true) : isBlank b = false ∧ b ≠ 0 :=
    ⟨(isBlank_of_isDigit h).1, by rintro rfl; cases h⟩
  have int {z : ℤ} {b : UInt8} (mem : b ∈ printInt z) : isBlank b = false ∧ b ≠ 0 := by
    unfold printInt at mem
    split_ifs at mem
    · rcases List.mem_cons.mp mem with rfl | mem
      · decide
      · exact digit (isDigit_of_mem_decimal mem)
    · exact digit (isDigit_of_mem_decimal mem)
  rcases List.mem_append.mp mem with front | rest
  · exact digit (isDigit_of_mem_decimal front)
  · rcases List.mem_cons.mp rest with rfl | last
    · decide
    · exact int last

theorem key_ne_nil : e.key ≠ [] := List.append_ne_nil_of_left_ne_nil (decimal_ne_nil _) _

theorem length_key : e.key.length ≤ 32 := by
  have id : (decimal e.id.toNat).length ≤ 20 := by
    rw [length_decimal_le_iff (by decide)]
    exact e.id.toNat_lt.trans (by decide)
  have task : (printInt e.taskid.toInt).length ≤ 11 := by
    have low := e.taskid.le_toInt
    have high := e.taskid.toInt_lt
    have digits : (decimal e.taskid.toInt.natAbs).length ≤ 10 := by
      rw [length_decimal_le_iff (by decide)]
      omega
    unfold printInt
    split_ifs
    · exact Nat.succ_le_succ digits
    · exact Nat.le_succ_of_le digits
  rw [key, List.length_append, List.length_cons]
  omega

theorem length_line : e.line.length ≤ 52 := by
  have key := e.length_key
  have time := e.time.length
  rw [line, List.length_append, List.length_cons]
  omega

theorem plain_line {b : UInt8} (mem : b ∈ e.line) : b ≠ 0 ∧ b ≠ 10 := by
  rcases List.mem_append.mp mem with front | rest
  · obtain ⟨shown, there⟩ := e.plain_key front
    exact ⟨there, by rintro rfl; cases shown⟩
  · rcases List.mem_cons.mp rest with rfl | last
    · decide
    · rcases e.time.plain b last with shown | rfl | rfl | rfl
      · constructor
        · rintro rfl
          cases shown
        · rintro rfl
          cases shown
      · decide
      · decide
      · decide

/-- A key ends at a blank or at the end of the string. -/
theorem scanWord_key {c : UInt8} (stop : (!isBlank c && c != 0) = false) (rest : List UInt8) :
    scanWord (e.key ++ c :: rest) = e.key := by
  obtain ⟨b, inner, split⟩ := List.exists_cons_of_ne_nil e.key_ne_nil
  have shown := (e.plain_key (split ▸ List.mem_cons_self)).1
  have front : (e.key ++ c :: rest).dropWhile isBlank = e.key ++ c :: rest := by
    rw [split, List.cons_append, List.dropWhile_cons_of_neg (by simp [shown])]
  rw [scanWord, front, List.takeWhile_append_of_pos]
  · rw [List.takeWhile_cons, stop, if_neg Bool.false_ne_true, List.append_nil]
  · intro b mem
    obtain ⟨shown, there⟩ := e.plain_key mem
    simp [shown, there]

theorem scanWord_line : scanWord e.line = e.key := e.scanWord_key rfl e.time.text

end LogEntry

section Lines

variable {f : BigFile} {b c : UInt8} {line rest : List UInt8} {n : ℕ}

theorem BigFile.Ahead.read_byte (ahead : f.Ahead (b :: rest)) (room : 1 ≤ f.maxFileSize) :
    f.read 1 = (0, [b], f.skip 1) ∧ (f.skip 1).Ahead rest :=
  ⟨@BigFile.Ahead.read f [b] rest ahead (List.cons_ne_nil b rest) room,
    @BigFile.Ahead.advance f [b] rest ahead⟩

theorem getlinesLoop_end (n : ℕ) (f : BigFile) : getlinesLoop n 0 10 f = ([], f) := by
  cases n with
  | zero => rfl
  | succ n => exact if_neg fun more => more.2 rfl

theorem getlinesLoop_eq (ahead : f.Ahead (line ++ 10 :: rest)) (room : 1 ≤ f.maxFileSize)
    (first : c ≠ 10) (inner : 10 ∉ line) (short : line.length < n) :
    getlinesLoop n 0 c f = (c :: line, f.skip (line.length + 1)) := by
  induction line generalizing n c f with
  | nil =>
      obtain ⟨m, rfl⟩ := Nat.exists_eq_add_of_lt short
      obtain ⟨read, -⟩ := ahead.read_byte room
      rw [getlinesLoop, if_pos ⟨rfl, first⟩, read]
      dsimp only
      rw [List.headD_cons, getlinesLoop_end]
      rfl
  | cons d line ih =>
      obtain ⟨m, rfl⟩ := Nat.exists_eq_add_of_lt short
      obtain ⟨read, behind⟩ := ahead.read_byte room
      have enough : line.length < (d :: line).length + m := by
        rw [List.length_cons]
        omega
      have later := ih behind room (List.ne_of_not_mem_cons inner).symm
        (List.not_mem_of_not_mem_cons inner) enough
      rw [getlinesLoop, if_pos ⟨rfl, first⟩, read]
      dsimp only
      rw [List.headD_cons, later, BigFile.skip_skip, Nat.add_comm 1]
      rfl

theorem getlines_eq (ahead : f.Ahead (line ++ 10 :: rest)) (room : 1 ≤ f.maxFileSize)
    (inner : 10 ∉ line) (short : line.length < 100000) :
    getlines f = (some line, f.skip (line.length + 1)) := by
  cases line with
  | nil =>
      obtain ⟨read, -⟩ := ahead.read_byte room
      rw [getlines, read]
      rfl
  | cons b line =>
      obtain ⟨read, behind⟩ := ahead.read_byte room
      have loop := getlinesLoop_eq behind room (List.ne_of_not_mem_cons inner).symm
        (List.not_mem_of_not_mem_cons inner) (Nat.lt_of_succ_lt short)
      rw [getlines, read]
      dsimp only
      rw [if_neg (by decide), List.headD_cons, loop, BigFile.skip_skip, Nat.add_comm 1]
      rfl

theorem getlines_end (ahead : f.Ahead []) (room : 1 ≤ f.maxFileSize) : getlines f = (none, f) := by
  rw [getlines, ahead.read_end room]
  rfl

end Lines

/-! ### The log and the place in it -/

/-- `"%llu/%s"`: the place of a line, and its key. -/
def placeOf (done : List LogEntry) (e : LogEntry) : List UInt8 :=
  decimal (done.flatMap LogEntry.bytes).length ++ 47 :: e.key

theorem length_placeOf {done : List LogEntry} (e : LogEntry)
    (small : (done.flatMap LogEntry.bytes).length < 2 ^ 63) : (placeOf done e).length ≤ 52 := by
  have key := e.length_key
  have pos : (decimal (done.flatMap LogEntry.bytes).length).length ≤ 19 := by
    rw [length_decimal_le_iff (by decide)]
    exact small.trans (by decide)
  rw [placeOf, List.length_append, List.length_cons]
  omega

theorem scanPlace_placeOf {done : List LogEntry} (e : LogEntry) (zeros : ℕ)
    (small : (done.flatMap LogEntry.bytes).length < 2 ^ 63) :
    scanPlace (placeOf done e ++ List.replicate (zeros + 1) 0) =
      (UInt64.ofNat (done.flatMap LogEntry.bytes).length, e.key) := by
  have scanned := scanInt_printInt .none ((done.flatMap LogEntry.bytes).length : ℤ) (c := 47) rfl 0
    (e.key ++ List.replicate (zeros + 1) 0) (by simp)
  have text : printInt ((done.flatMap LogEntry.bytes).length : ℤ) =
      decimal (done.flatMap LogEntry.bytes).length := by
    rw [printInt, if_neg (by omega), Int.natAbs_natCast]
  rw [text, List.replicate_zero, List.nil_append] at scanned
  have word : scanWord (e.key ++ List.replicate (zeros + 1) 0) = e.key := e.scanWord_key rfl _
  have pos : strtoull ((done.flatMap LogEntry.bytes).length : ℤ) =
      UInt64.ofNat (done.flatMap LogEntry.bytes).length := by
    apply UInt64.toNat_inj.mp
    rw [toNat_strtoull (by omega), UInt64.toNat_ofNat']
    omega
  unfold scanPlace
  rw [placeOf, List.append_assoc, List.cons_append, scanned]
  dsimp only
  rw [List.head?_cons, if_pos rfl, pos, List.tail_cons, word]

namespace ReadLog

variable {s : ReadLog} {e : LogEntry} {done left : List LogEntry} {f : BigFile} {n : ℕ}
  {place : List UInt8}

/-- The lines up to the end are read as they were written. -/
theorem readLines_eq (ahead : f.Ahead (left.flatMap LogEntry.bytes)) (room : 1 ≤ f.maxFileSize)
    (start : f.pos = (done.flatMap LogEntry.bytes).length)
    (small : ((done ++ left).flatMap LogEntry.bytes).length < 2 ^ 63) (fuel : left.length < n) :
    readLines n f place = some (left.map LogEntry.key,
      (left.getLast?.map (placeOf (done ++ left.dropLast))).getD place) := by
  induction left generalizing n f done place with
  | nil =>
      obtain ⟨m, rfl⟩ := Nat.exists_eq_add_of_lt fuel
      rw [readLines, getlines_end ahead room]
      rfl
  | cons e left ih =>
      obtain ⟨m, rfl⟩ := Nat.exists_eq_add_of_lt fuel
      have short := e.length_line
      have split : (done ++ e :: left).flatMap LogEntry.bytes =
          done.flatMap LogEntry.bytes ++ (e.bytes ++ left.flatMap LogEntry.bytes) := by
        rw [List.flatMap_append, List.flatMap_cons]
      have front : (done.flatMap LogEntry.bytes).length < 2 ^ 63 := by
        rw [split, List.length_append] at small
        exact Nat.lt_of_add_right_lt small
      have placed : placeOf done e = decimal f.pos ++ 47 :: e.key := by rw [placeOf, start]
      have fits := length_placeOf e front
      rw [List.flatMap_cons, LogEntry.bytes, List.append_assoc, List.singleton_append] at ahead
      have read := getlines_eq ahead room (fun mem => (e.plain_line mem).2 rfl)
        (Nat.lt_of_le_of_lt short (by decide))
      have behind : (f.skip (e.line.length + 1)).Ahead (left.flatMap LogEntry.bytes) := by
        have := @BigFile.Ahead.advance f (e.line ++ [10]) _
          (by rwa [List.append_assoc, List.singleton_append])
        rwa [List.length_append, List.length_singleton] at this
      have next : (f.skip (e.line.length + 1)).pos =
          ((done ++ [e]).flatMap LogEntry.bytes).length := by
        rw [List.flatMap_append, List.flatMap_singleton, List.length_append, LogEntry.bytes,
          List.length_append, List.length_singleton, ← start]
        rfl
      have later := @ih _ _ ((e :: left).length + m) (placeOf done e) behind room next
        (by rwa [List.append_assoc, List.singleton_append]) (by rw [List.length_cons]; omega)
      have key := e.length_key
      rw [readLines, read]
      dsimp only
      rw [e.scanWord_line, ← placed, if_neg (by omega), later]
      rw [List.map_cons, Option.bind_eq_bind, Option.bind_some]
      cases left with
      | nil => rw [List.dropLast_singleton, List.append_nil]; rfl
      | cons e' left =>
          rw [List.dropLast_cons_cons, List.append_assoc, List.singleton_append]
          rfl

/-- Some of the entries have been returned, the others wait. -/
inductive Resumes (s : ReadLog) : List LogEntry → List LogEntry → Prop
  | fresh (left : List LogEntry) (place : s.place = some (decimal 0))
      (queue : s.queue.getD [] = left.flatMap LogEntry.bytes) : Resumes s [] left
  | behind (done : List LogEntry) (e : LogEntry) (left : List LogEntry)
      (place : s.place = some (placeOf done e))
      (queue : s.queue = some ((done ++ e :: left).flatMap LogEntry.bytes)) :
      Resumes s (done ++ [e]) left

/-- The file with the place is empty. -/
def Lost (s : ReadLog) : Prop := s.place = some []

theorem saveAlreadyRead_eq (s : ReadLog) (e : LogEntry) :
    s.saveAlreadyRead e = some { s with queue := some (s.queue.getD [] ++ e.bytes) } := by
  have length : e.bytes.length ≤ 53 := by
    rw [LogEntry.bytes, List.length_append, List.length_singleton]
    exact Nat.succ_le_succ e.length_line
  unfold saveAlreadyRead
  rw [if_neg (by omega), BigFile.write_eq]
  · rfl
  · exact length.trans (show 53 ≤ 1024 * 1024 * 1024 by decide)

theorem Resumes.saveAlreadyRead (h : s.Resumes done left) :
    Resumes { s with queue := some (s.queue.getD [] ++ e.bytes) } done (left ++ [e]) := by
  cases h with
  | fresh _ place queue =>
      refine .fresh _ place ?_
      rw [Option.getD_some, queue, List.flatMap_append, List.flatMap_singleton]
  | behind done e' _ place queue =>
      refine .behind done e' _ place ?_
      rw [queue, Option.getD_some, ← List.cons_append, ← List.append_assoc,
        @List.flatMap_append _ _ (done ++ e' :: left), List.flatMap_singleton]

theorem Lost.getAlreadyRead (lost : s.Lost) : s.getAlreadyRead = some ([], s) := by
  unfold ReadLog.getAlreadyRead
  rw [lost]
  rfl

/-- As long as nothing has been saved there is nothing to read. -/
theorem Resumes.getAlreadyRead_nothing (h : s.Resumes done left) (none : done ++ left = []) :
    s.getAlreadyRead = some ([], s) := by
  cases h with
  | behind done e left place queue => simp at none
  | fresh left place queue =>
      rw [List.nil_append] at none
      rw [none, List.flatMap_nil] at queue
      unfold ReadLog.getAlreadyRead
      rw [place]
      cases held : s.queue with
      | none => rfl
      | some bytes =>
          rw [held, Option.getD_some] at queue
          rw [queue]
          rfl

theorem length_le_bytes (l : List LogEntry) : l.length ≤ (l.flatMap LogEntry.bytes).length := by
  induction l with
  | nil => exact Nat.le_refl 0
  | cons e l ih =>
      rw [List.flatMap_cons, List.length_append, List.length_cons, LogEntry.bytes, List.length_append,
        List.length_singleton]
      omega

/-- The text of a place, and the line that stands there. -/
theorem getAlreadyRead_eq {text bytes lastdeletekey str : List UInt8} {pos : ℕ} {f : BigFile}
    (place : s.place = some text) (queue : s.queue = some bytes) (some : text ≠ [])
    (short : text.length < 128)
    (scanned : ∀ zeros, scanPlace (text ++ List.replicate (zeros + 1) 0) =
      (UInt64.ofNat pos, lastdeletekey))
    (within : pos < bytes.length) (small : bytes.length < 2 ^ 63) (key : lastdeletekey.length < 64)
    (line : getlines ((BigFile.opened bytes).skip pos) = (.some str, f)) (length : str.length < 1024) :
    s.getAlreadyRead = (readBehind bytes f str lastdeletekey).map fun read =>
      (read.1, { s with place := .some read.2 }) := by
  have whole : text.take 128 = text := List.take_of_length_le short.le
  obtain ⟨zeros, room⟩ := Nat.exists_eq_add_of_lt short
  have buffer : 128 - text.length = zeros + 1 := by omega
  have start : (UInt64.ofNat pos).toNat = pos := by
    rw [UInt64.toNat_ofNat']
    omega
  have seek : (BigFile.opened bytes).seek pos = .some ((BigFile.opened bytes).skip pos) := by
    rw [BigFile.seek, if_neg]
    · unfold BigFile.skip BigFile.opened
      rw [Nat.zero_add]
    · rw [BigFile.bytes_opened]
      omega
  unfold ReadLog.getAlreadyRead
  rw [place, queue]
  dsimp only
  rw [whole, if_neg some, buffer, scanned, if_neg (Nat.not_le.mpr key)]
  dsimp only
  rw [start, seek]
  dsimp only
  rw [line]
  dsimp only
  rw [if_neg (Nat.not_le.mpr length)]
  cases readBehind bytes f str lastdeletekey <;> rfl

theorem getlines_entry {f : BigFile} {e : LogEntry} {rest : List LogEntry}
    (ahead : f.Ahead ((e :: rest).flatMap LogEntry.bytes)) (room : 1 ≤ f.maxFileSize) :
    getlines f = (some e.line, f.skip e.bytes.length) ∧
      (f.skip e.bytes.length).Ahead (rest.flatMap LogEntry.bytes) := by
  rw [List.flatMap_cons] at ahead
  have behind := ahead.advance
  rw [LogEntry.bytes, List.append_assoc, List.singleton_append] at ahead
  have read := getlines_eq ahead room (fun mem => (e.plain_line mem).2 rfl)
    (Nat.lt_of_le_of_lt e.length_line (by decide))
  rw [LogEntry.bytes, List.length_append, List.length_singleton] at behind ⊢
  exact ⟨read, behind⟩

/-- What waits is returned. If nothing does, the place is lost. -/
theorem Resumes.getAlreadyRead (h : s.Resumes done left) (some : done ++ left ≠ [])
    (small : ((done ++ left).flatMap LogEntry.bytes).length < 2 ^ 63) :
    s.getAlreadyRead = .some (left.map LogEntry.key, { s with
      place := .some ((left.getLast?.map (placeOf (done ++ left.dropLast))).getD []) }) := by
  have limit : 1 ≤ 1024 * 1024 * 1024 := by decide
  cases h with
  | fresh left place queue =>
      obtain ⟨e, rest, rfl⟩ := List.exists_cons_of_ne_nil some
      have fuel := length_le_bytes (e :: rest)
      have queue : s.queue = .some ((e :: rest).flatMap LogEntry.bytes) := by
        cases held : s.queue with
        | some bytes =>
            rw [held, Option.getD_some] at queue
            rw [queue]
        | none =>
            rw [held, Option.getD_none] at queue
            rw [← queue] at fuel
            cases fuel
      have ahead := @BigFile.ahead_opened [] ((e :: rest).flatMap LogEntry.bytes)
      obtain ⟨line, -⟩ := getlines_entry ahead limit
      have read := @readLines_eq [] (e :: rest)
        ((BigFile.opened ((e :: rest).flatMap LogEntry.bytes)).skip e.bytes.length).rewound _ []
        ⟨Nat.zero_le _, rfl⟩ limit rfl small (Nat.lt_succ_of_le fuel)
      rw [getAlreadyRead_eq place queue (by decide) (by decide) (fun _ => rfl)
        (Nat.lt_of_lt_of_le (Nat.succ_pos _) fuel) small (by decide) line
        (Nat.lt_of_le_of_lt e.length_line (by decide)), readBehind, if_neg (fun same => same.2 rfl)]
      exact congrArg _ read
  | behind done e left place queue =>
      have split : (done ++ [e]) ++ left = done ++ e :: left := by
        rw [List.append_assoc, List.singleton_append]
      have bytes : (done ++ e :: left).flatMap LogEntry.bytes =
          done.flatMap LogEntry.bytes ++ (e :: left).flatMap LogEntry.bytes := List.flatMap_append
      have next : (done.flatMap LogEntry.bytes).length + e.bytes.length =
          ((done ++ [e]).flatMap LogEntry.bytes).length := by
        rw [List.flatMap_append, List.flatMap_singleton, List.length_append]
      have whole := small
      rw [split, bytes] at whole
      rw [bytes] at queue
      have front : (done.flatMap LogEntry.bytes).length < 2 ^ 63 := by
        rw [List.length_append] at whole
        exact Nat.lt_of_add_right_lt whole
      have fuel : left.length <
          (done.flatMap LogEntry.bytes ++ (e :: left).flatMap LogEntry.bytes).length + 1 := by
        have := length_le_bytes (e :: left)
        rw [List.length_append]
        rw [List.length_cons] at this
        omega
      have within : (done.flatMap LogEntry.bytes).length <
          (done.flatMap LogEntry.bytes ++ (e :: left).flatMap LogEntry.bytes).length := by
        have := length_le_bytes (e :: left)
        rw [List.length_append]
        rw [List.length_cons] at this
        omega
      have ahead := @BigFile.ahead_opened (done.flatMap LogEntry.bytes)
        ((e :: left).flatMap LogEntry.bytes)
      obtain ⟨line, behind⟩ := getlines_entry ahead limit
      have known : e.key <:+: e.line.takeWhile (· ≠ 0) ∧ e.key ≠ [] := by
        have whole : e.line.takeWhile (· ≠ 0) = e.line := by
          rw [List.takeWhile_eq_self_iff]
          intro b mem
          exact decide_eq_true (e.plain_line mem).1
        rw [whole]
        exact ⟨(List.prefix_append e.key _).isInfix, e.key_ne_nil⟩
      have read := @readLines_eq (done ++ [e]) _ _ _ [] behind limit
        ((Nat.add_assoc 0 _ _).trans ((Nat.zero_add _).trans next)) small fuel
      have text := length_placeOf e front
      rw [getAlreadyRead_eq place queue (List.append_ne_nil_of_left_ne_nil (decimal_ne_nil _) _)
        (by omega) (fun zeros => scanPlace_placeOf e zeros front) within whole
        (Nat.lt_of_le_of_lt e.length_key (by decide)) line
        (Nat.lt_of_le_of_lt e.length_line (by decide)), readBehind, if_pos known, read]
      rfl

end ReadLog

/-! ### Runs -/

section Runs

variable {calls a b : List LogCall} {s : ReadLog} {keys : List (List UInt8)}

theorem runLog_append (a b : List LogCall) (s : ReadLog) :
    runLog (a ++ b) s = (runLog a s).bind fun first =>
      (runLog b first.2).map fun second => (first.1 ++ second.1, second.2) := by
  induction a generalizing s with
  | nil =>
      rw [List.nil_append, runLog, Option.bind_some]
      cases runLog b s <;> rfl
  | cons call a ih =>
      rw [List.cons_append, runLog, runLog]
      cases call.run s with
      | none => rfl
      | some read =>
          rw [Option.bind_some, Option.bind_some, ih]
          cases runLog a read.2 with
          | none => rfl
          | some first =>
              rw [Option.bind_some, Option.map_some, Option.bind_some, Option.map_map]
              congr 1
              funext second
              exact congrArg (·, second.2) (List.append_assoc _ _ _).symm

theorem savedEntries_append (a b : List LogCall) :
    savedEntries (a ++ b) = savedEntries a ++ savedEntries b := by
  induction a with
  | nil => rfl
  | cons call a ih =>
      cases call with
      | saveAlreadyRead e => exact congrArg (e :: ·) ih
      | getAlreadyRead => exact ih

/-- Nothing more is returned once the place is lost. -/
theorem lost_runLog (lost : s.Lost) (calls : List LogCall) :
    ∃ s', runLog calls s = some ([], s') ∧ s'.Lost := by
  induction calls generalizing s with
  | nil => exact ⟨s, rfl, lost⟩
  | cons call rest ih =>
      cases call with
      | saveAlreadyRead e =>
          obtain ⟨s', later, lost'⟩ := ih (s := { s with queue := some (s.queue.getD [] ++ e.bytes) }) lost
          refine ⟨s', ?_, lost'⟩
          rw [runLog, LogCall.run, s.saveAlreadyRead_eq, Option.map_some, Option.bind_some, later]
          rfl
      | getAlreadyRead =>
          obtain ⟨s', later, lost'⟩ := ih lost
          refine ⟨s', ?_, lost'⟩
          rw [runLog, LogCall.run, lost.getAlreadyRead, Option.bind_some, later]
          rfl

/-- What calls leave behind: a place from which to resume, with nothing waiting just behind a
`GetAlreadyRead` and only there, or, after two of them in a row, none. -/
inductive LogState (calls : List LogCall) (keys : List (List UInt8)) (s : ReadLog) : Prop
  | resumes (done left : List LogEntry) (holds : s.Resumes done left)
      (saved : savedEntries calls = done ++ left) (returned : keys = done.map LogEntry.key)
      (read : ∀ before, calls = before ++ [.getAlreadyRead] → left = [])
      (last : left = [] → done ≠ [] → ∃ before, calls = before ++ [.getAlreadyRead])
  | lost (a b : List LogCall) (lost : s.Lost)
      (split : calls = a ++ .getAlreadyRead :: .getAlreadyRead :: b) (some : savedEntries a ≠ [])
      (returned : keys = (savedEntries a).map LogEntry.key)

theorem LogState.saveAlreadyRead (h : LogState calls keys s) (e : LogEntry) :
    LogState (calls ++ [.saveAlreadyRead e]) keys
      { s with queue := some (s.queue.getD [] ++ e.bytes) } := by
  cases h with
  | resumes done left holds saved returned read last =>
      refine .resumes done (left ++ [e]) holds.saveAlreadyRead ?_ returned ?_ ?_
      · rw [savedEntries_append, saved, List.append_assoc]
        rfl
      · intro before same
        cases (List.append_inj' same rfl).2
      · intro none
        simp at none
  | lost a b lost split some returned =>
      refine .lost a (b ++ [.saveAlreadyRead e]) lost ?_ some returned
      rw [split, List.append_assoc]
      rfl

theorem LogState.getAlreadyRead (h : LogState calls keys s)
    (small : ((savedEntries calls).flatMap LogEntry.bytes).length < 2 ^ 63) :
    ∃ more s', s.getAlreadyRead = some (more, s') ∧
      LogState (calls ++ [.getAlreadyRead]) (keys ++ more) s' := by
  have same : savedEntries (calls ++ [.getAlreadyRead]) = savedEntries calls := by
    rw [savedEntries_append]
    exact List.append_nil _
  cases h with
  | lost a b lost split some returned =>
      refine ⟨[], s, lost.getAlreadyRead, .lost a (b ++ [.getAlreadyRead]) lost ?_ some ?_⟩
      · rw [split, List.append_assoc]
        rfl
      · rw [List.append_nil, returned]
  | resumes done left holds saved returned read last =>
      by_cases none : done ++ left = []
      · refine ⟨[], s, holds.getAlreadyRead_nothing none, .resumes done left holds ?_ ?_ ?_ ?_⟩
        · rw [same, saved]
        · rw [List.append_nil, returned]
        · exact fun _ _ => (List.append_eq_nil_iff.mp none).2
        · exact fun _ _ => ⟨calls, rfl⟩
      · rw [saved] at small
        refine ⟨_, _, holds.getAlreadyRead none small, ?_⟩
        cases left using List.reverseRecOn with
        | nil =>
            obtain ⟨before, rfl⟩ := last rfl fun empty => none (by rw [empty, List.append_nil])
            have earlier : savedEntries before = done := by
              rw [savedEntries_append, List.append_nil] at saved
              exact (List.append_nil _).symm.trans saved
            refine .lost before [] rfl ?_ ?_ ?_
            · rw [List.append_assoc]
              rfl
            · rw [earlier]
              exact fun empty => none (by rw [empty, List.append_nil])
            · rw [List.map_nil, List.append_nil, returned, earlier]
        | append_singleton front e =>
            refine .resumes (done ++ (front ++ [e])) [] ?_ ?_ ?_ ?_ ?_
            · rw [List.getLast?_concat, List.dropLast_concat, ← List.append_assoc]
              refine .behind (done ++ front) e [] rfl ?_
              cases holds with
              | fresh _ place queue =>
                  cases held : s.queue with
                  | some bytes =>
                      rw [held, Option.getD_some] at queue
                      exact congrArg some queue
                  | none =>
                      rw [held, Option.getD_none] at queue
                      have := ReadLog.length_le_bytes (front ++ [e])
                      rw [← queue] at this
                      simp at this
              | behind done e' _ place queue =>
                  rw [queue]
                  simp
            · rw [same, saved, List.append_nil]
            · rw [returned]
              exact List.map_append.symm
            · exact fun _ _ => rfl
            · exact fun _ _ => ⟨calls, rfl⟩

theorem logState (calls : List LogCall)
    (small : ((savedEntries calls).flatMap LogEntry.bytes).length < 2 ^ 63) :
    ∃ keys s, runLog calls .start = some (keys, s) ∧ LogState calls keys s := by
  induction calls using List.reverseRecOn with
  | nil =>
      refine ⟨[], .start, rfl, .resumes [] [] (.fresh [] rfl rfl) rfl rfl (fun _ _ => rfl) ?_⟩
      exact fun _ some => absurd rfl some
  | append_singleton calls call ih =>
      rw [savedEntries_append, List.flatMap_append, List.length_append] at small
      have earlier := Nat.lt_of_add_right_lt small
      obtain ⟨keys, s, run, state⟩ := ih earlier
      rw [runLog_append, run, Option.bind_some]
      cases call with
      | saveAlreadyRead e =>
          refine ⟨keys, _, ?_, state.saveAlreadyRead e⟩
          rw [runLog, LogCall.run, s.saveAlreadyRead_eq]
          exact congrArg (fun l => some (l, _)) (List.append_nil keys)
      | getAlreadyRead =>
          obtain ⟨more, s', read, state'⟩ := state.getAlreadyRead earlier
          refine ⟨keys ++ more, s', ?_, state'⟩
          rw [runLog, LogCall.run, read]
          exact congrArg (fun l => some (keys ++ l, s')) (List.append_nil more)

theorem LogState.prefix (h : LogState calls keys s) :
    keys <+: (savedEntries calls).map LogEntry.key := by
  cases h with
  | resumes done left holds saved returned read last =>
      rw [saved, List.map_append, returned]
      exact List.prefix_append _ _
  | lost a b lost split some returned =>
      rw [split, savedEntries_append, List.map_append, returned]
      exact List.prefix_append _ _

/-- After two `GetAlreadyRead` in a row, of which the second finds nothing new, the place is lost. -/
theorem lost_of_idle (some : savedEntries a ≠ [])
    (small : ((savedEntries a).flatMap LogEntry.bytes).length < 2 ^ 63) :
    ∃ keys s, runLog (a ++ [.getAlreadyRead, .getAlreadyRead]) .start = .some (keys, s) ∧ s.Lost ∧
      keys.length ≤ (savedEntries a).length := by
  have same : savedEntries (a ++ [.getAlreadyRead]) = savedEntries a := by
    rw [savedEntries_append]
    exact List.append_nil _
  obtain ⟨keys, s, run, state⟩ := logState (a ++ [.getAlreadyRead]) (by rwa [same])
  have few := state.prefix.length_le
  rw [same, List.length_map] at few
  have split : a ++ [.getAlreadyRead, .getAlreadyRead] =
      (a ++ [.getAlreadyRead]) ++ [LogCall.getAlreadyRead] := by
    rw [List.append_assoc]
    rfl
  rw [split, runLog_append, run, Option.bind_some]
  cases state with
  | lost a' b lost split some returned =>
      obtain ⟨s', later, lost'⟩ := lost_runLog lost [.getAlreadyRead]
      rw [later]
      exact ⟨keys, s', congrArg (fun l => Option.some (l, s')) (List.append_nil keys), lost', few⟩
  | resumes done left holds saved returned read last =>
      rw [same] at saved
      rw [read a rfl] at saved holds
      have read := holds.getAlreadyRead (by rwa [← saved]) (by rwa [← saved])
      rw [runLog, LogCall.run, read]
      refine ⟨keys, { s with place := Option.some [] }, ?_, rfl, few⟩
      exact congrArg (fun l => Option.some (l, _)) (List.append_nil keys)

end Runs

/-- As long as no `GetAlreadyRead` that finds nothing new, once something has been saved, is followed by
a save, the log is delivered whole. The log is no longer than an `int64_t` can say. -/
theorem log_delivered_iff (calls : List LogCall)
    (small : ((savedEntries calls).flatMap LogEntry.bytes).length < 2 ^ 63) :
    DeliversLog calls ↔ ¬ ∃ a b, calls =
      a ++ .getAlreadyRead :: .getAlreadyRead :: (b ++ [.getAlreadyRead]) ∧
        savedEntries a ≠ [] ∧ savedEntries b ≠ [] := by
  constructor
  · rintro ⟨keys, s, run, -, whole⟩ ⟨a, b, rfl, some, later⟩
    have split : a ++ .getAlreadyRead :: .getAlreadyRead :: (b ++ [.getAlreadyRead]) =
        (a ++ [.getAlreadyRead, .getAlreadyRead]) ++ (b ++ [LogCall.getAlreadyRead]) := by
      rw [List.append_assoc]
      rfl
    have all : savedEntries (a ++ .getAlreadyRead :: .getAlreadyRead :: (b ++ [.getAlreadyRead])) =
        savedEntries a ++ savedEntries b := by
      rw [savedEntries_append, savedEntries, savedEntries, savedEntries_append]
      exact congrArg _ (List.append_nil _)
    rw [all, List.flatMap_append, List.length_append] at small
    obtain ⟨first, s', run', lost, few⟩ := lost_of_idle some (Nat.lt_of_add_right_lt small)
    obtain ⟨s'', rest, -⟩ := lost_runLog lost (b ++ [.getAlreadyRead])
    have more := List.length_pos_iff.mpr later
    have keys' := whole (a ++ .getAlreadyRead :: .getAlreadyRead :: b) (by simp)
    rw [split, runLog_append, run', Option.bind_some, rest, Option.map_some, List.append_nil] at run
    cases run
    have length := congrArg List.length keys'
    rw [all, List.length_map, List.length_append] at length
    dsimp only at length
    omega
  · intro never
    obtain ⟨keys, s, run, state⟩ := logState calls small
    refine ⟨keys, s, run, state.prefix, fun before ends => ?_⟩
    cases state with
    | resumes done left holds saved returned read last =>
        rw [saved, read before ends, List.append_nil, returned]
    | lost a b lost split some returned =>
        have none : savedEntries b = [] := by
          by_contra later
          cases b using List.reverseRecOn with
          | nil => exact later rfl
          | append_singleton b call =>
              rw [split] at ends
              have last := congrArg List.getLast? ends
              rw [← List.cons_append, ← List.cons_append, ← List.append_assoc, List.getLast?_concat,
                List.getLast?_concat] at last
              cases last
              refine never ⟨a, b, split, some, fun empty => later ?_⟩
              rw [savedEntries_append, empty]
              rfl
        rw [returned, split, savedEntries_append, savedEntries, savedEntries, none, List.append_nil]

/-- `"2012-05-06 07:08:09"`. -/
def sampleTime : TimeText where
  text := [50, 48, 49, 50, 45, 48, 53, 45, 48, 54, 32, 48, 55, 58, 48, 56, 58, 48, 57]
  length := rfl
  plain := fun b mem => by
    have all : ∀ b ∈ [50, 48, 49, 50, 45, 48, 53, 45, 48, 54, 32, 48, 55, 58, 48, 56, 58, 48, 57],
        isDigit b ∨ b = 32 ∨ b = 45 ∨ b = 58 := by decide +kernel
    exact all b mem

def sampleEntry (id : UInt64) : LogEntry := ⟨id, 5, sampleTime⟩

theorem log_delivered_iff_two :
    DeliversLog [.saveAlreadyRead (sampleEntry 1), .getAlreadyRead, .saveAlreadyRead (sampleEntry 2),
      .getAlreadyRead] := by
  refine (log_delivered_iff _ (by decide)).mpr ?_
  rintro ⟨a, b, split, some, later⟩
  have before : 0 < a.length := List.length_pos_iff.mpr fun none => some (congrArg savedEntries none)
  have behind : 0 < b.length := List.length_pos_iff.mpr fun none => later (congrArg savedEntries none)
  have length := congrArg List.length split
  simp only [List.length_append, List.length_cons, List.length_nil] at length
  omega

/-- A call that finds nothing new empties the file with the place. -/
theorem not_log_delivered : ¬ ∀ calls : List LogCall,
    ((savedEntries calls).flatMap LogEntry.bytes).length < 2 ^ 63 → DeliversLog calls := by
  intro claim
  have small : ((savedEntries [.saveAlreadyRead (sampleEntry 1), .getAlreadyRead, .getAlreadyRead,
      .saveAlreadyRead (sampleEntry 2), .getAlreadyRead]).flatMap LogEntry.bytes).length < 2 ^ 63 := by
    decide
  have delivered := (log_delivered_iff _ small).mp (claim _ small)
  exact delivered ⟨[.saveAlreadyRead (sampleEntry 1)], [.saveAlreadyRead (sampleEntry 2)], rfl,
    List.cons_ne_nil _ _, List.cons_ne_nil _ _⟩

end BloomServer
