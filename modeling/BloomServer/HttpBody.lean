import BloomServer.Library.DecimalText
import BloomServer.Library.Receiving

/-! Reading an HTTP response from a socket: the header byte by byte, then the body through a
`MyConnection`. -/
namespace BloomServer
open Receiving

/-- A connection: its buffer and its socket. -/
abbrev MyConnection := Reader

def maxPageBufSize : ℕ := 2 * 1024 * 1024

namespace MyConnection

/-- How often an interrupted `recv` is repeated. -/
def retries : ℕ := 20

def readChar (c : MyConnection) : Option UInt8 × MyConnection := c.next 8192 retries

/-- The loop of `Read_Line`, with what is left of the terminator and the line so far. -/
def readLineFrom (maxlength : ℕ) (terminator line : List UInt8) (c : MyConnection) :
    Option (List UInt8) × MyConnection :=
  if maxlength = 0 then (some line, c)
  else
    match c.readChar with
    | (none, c) => (if line = [] then none else some line, c)
    | (some ch, c) =>
        match terminator with
        | [] => readLineFrom (maxlength - 1) [] (line ++ [ch]) c
        | t :: more =>
            if ch = t then
              if more = [] then (some line, c) else readLineFrom maxlength more line c
            else readLineFrom (maxlength - 1) (t :: more) (line ++ [ch]) c
termination_by maxlength + terminator.length
decreasing_by all_goals (simp only [List.length_nil, List.length_cons]; omega)

def readLine (c : MyConnection) (maxlength : ℕ) (terminator : List UInt8) :
    Option (List UInt8) × MyConnection :=
  readLineFrom maxlength terminator [] c

/-- The loop of `Read`, past the buffer: the count or an error, and all that was read. -/
def readRest (nleft : ℕ) (got : List UInt8) (net : List Answer) : ℤ × List UInt8 × List Answer :=
  if nleft = 0 then (got.length, got, net)
  else
    match run : receive nleft retries net with
    | (.error true, rest) => readRest nleft got rest
    | (.error false, rest) => (-1, got, rest)
    | (.closed, rest) => (got.length, got, rest)
    | (.got seg, rest) => readRest (nleft - seg.length) (got ++ seg) rest
termination_by weight net
decreasing_by
  · exact receive_error run
  · obtain ⟨_, some, gone⟩ := receive_got run
    have length := List.length_pos_iff.mpr (some (by omega))
    omega

def read (c : MyConnection) (length : ℕ) : ℤ × List UInt8 × MyConnection :=
  let got := c.unread.take length
  let (rc, got, net) := readRest (length - got.length) got c.net
  (rc, got, ⟨c.unread.drop length, net⟩)

variable {nleft : ℕ} {got seg : List UInt8} {net rest : List Answer}

theorem readRest_zero (got : List UInt8) (net : List Answer) :
    readRest 0 got net = ((got.length : ℤ), got, net) := by
  rw [readRest]
  rfl

theorem readRest_got (some : nleft ≠ 0) (run : receive nleft retries net = (.got seg, rest)) :
    readRest nleft got net = readRest (nleft - seg.length) (got ++ seg) rest := by
  rw [readRest, if_neg some]
  split
  all_goals
    rename_i same
    rw [run] at same
    cases same
  rfl

theorem readRest_closed (some : nleft ≠ 0) (run : receive nleft retries net = (.closed, rest)) :
    readRest nleft got net = ((got.length : ℤ), got, rest) := by
  rw [readRest, if_neg some]
  split
  all_goals
    rename_i same
    rw [run] at same
    cases same
  rfl

theorem readRest_error {again : Bool} (some : nleft ≠ 0)
    (run : receive nleft retries net = (.error again, rest)) :
    readRest nleft got net = if again then readRest nleft got rest else (-1, got, rest) := by
  rw [readRest, if_neg some]
  split
  all_goals
    rename_i same
    rw [run] at same
    cases same
  all_goals rfl

/-- Whatever the socket answers, a count is that of the bytes. -/
structure Counted (nleft : ℕ) (got : List UInt8) (net : List Answer)
    (result : ℤ × List UInt8 × List Answer) : Prop where
  count : result.1 = -1 ∨ result.1 = result.2.1.length
  most : result.2.1.length ≤ got.length + nleft
  gone : result.2.1.length + weight result.2.2 ≤ got.length + weight net

theorem readRest_counted (nleft : ℕ) (got : List UInt8) (net : List Answer) :
    Counted nleft got net (readRest nleft got net) := by
  induction heavy : weight net using Nat.strong_induction_on generalizing nleft got net with
  | _ n ih =>
      subst heavy
      by_cases zero : nleft = 0
      · subst zero
        rw [readRest_zero]
        exact ⟨Or.inr rfl, Nat.le_refl _, Nat.le_refl _⟩
      · rcases run : receive nleft retries net with ⟨seg | _ | again, rest⟩
        · obtain ⟨most, some, gone⟩ := receive_got run
          have length := List.length_pos_iff.mpr (some (by omega))
          obtain ⟨count, most', gone'⟩ :=
            ih (weight rest) (by omega) (nleft - seg.length) (got ++ seg) rest rfl
          rw [readRest_got zero run]
          rw [List.length_append] at most' gone'
          exact ⟨count, by omega, by omega⟩
        · have gone := receive_closed run
          rw [readRest_closed zero run]
          exact ⟨Or.inr rfl, Nat.le_add_right _ _, Nat.add_le_add_left gone _⟩
        · have less := receive_error run
          rw [readRest_error zero run]
          cases again with
          | true =>
              obtain ⟨count, most, gone⟩ := ih (weight rest) less nleft got rest rfl
              exact ⟨count, most, by
                change (readRest nleft got rest).2.1.length + weight (readRest nleft got rest).2.2 ≤ _
                omega⟩
          | false =>
              exact ⟨Or.inl rfl, Nat.le_add_right _ _, Nat.add_le_add_left (Nat.le_of_lt less) _⟩

/-- On a calm socket so many bytes of the stream are read, or all there are. -/
theorem readRest_calm (calm : Calm retries retries net) (nleft : ℕ) (got : List UInt8) :
    ∃ rest, readRest nleft got net = (((got ++ (delivered net).take nleft).length : ℤ),
        got ++ (delivered net).take nleft, rest) ∧
      delivered rest = (delivered net).drop nleft ∧ Calm retries retries rest := by
  induction nleft using Nat.strong_induction_on generalizing got net with
  | _ nleft ih =>
      by_cases zero : nleft = 0
      · subst zero
        refine ⟨net, ?_, rfl, calm⟩
        rw [readRest_zero, List.take_zero, List.append_nil]
      · rcases calm.receive (Nat.le_refl _) (Nat.pos_of_ne_zero zero) with
          ⟨none, run⟩ | ⟨seg, rest, run, some, most, split, calm'⟩
        · refine ⟨[], ?_, ?_, trivial⟩
          · rw [readRest_closed zero run, none, List.take_nil, List.append_nil]
          · rw [none, List.drop_nil]
            rfl
        · have length := List.length_pos_iff.mpr some
          obtain ⟨last, read, left, calm''⟩ :=
            ih (nleft - seg.length) (by omega) calm' (got ++ seg)
          refine ⟨last, ?_, ?_, calm''⟩
          · rw [readRest_got zero run, read, split, List.take_append, List.take_of_length_le most,
              List.append_assoc]
          · rw [left, split, List.drop_append, List.drop_of_length_le most, List.nil_append]

variable {c : MyConnection}

theorem read_calm (calm : Calm retries retries c.net) (length : ℕ) :
    ∃ c', c.read length = (((c.bytes.take length).length : ℤ), c.bytes.take length, c') ∧
      c'.bytes = c.bytes.drop length ∧ Calm retries retries c'.net := by
  obtain ⟨rest, run, left, calm'⟩ :=
    readRest_calm calm (length - (c.unread.take length).length) (c.unread.take length)
  have size : length - (c.unread.take length).length = length - c.unread.length := by
    rw [List.length_take]
    omega
  rw [size] at run left
  have whole : c.bytes.take length =
      c.unread.take length ++ (delivered c.net).take (length - c.unread.length) := List.take_append
  refine ⟨⟨c.unread.drop length, rest⟩, ?_, ?_, calm'⟩
  · unfold read
    dsimp only
    rw [size, run, whole]
  · change c.unread.drop length ++ delivered rest = _
    rw [left, Reader.bytes, List.drop_append]

theorem read_counted (c : MyConnection) (length : ℕ) :
    ((c.read length).1 = -1 ∨ (c.read length).1 = (c.read length).2.1.length) ∧
      (c.read length).2.1.length ≤ length ∧
      (c.read length).2.1.length + (c.read length).2.2.measure ≤ c.measure := by
  obtain ⟨count, most, gone⟩ := readRest_counted (length - (c.unread.take length).length)
    (c.unread.take length) c.net
  refine ⟨count, ?_, ?_⟩
  · change (readRest _ _ _).2.1.length ≤ length
    rw [List.length_take] at most
    rw [List.length_take]
    omega
  · change (readRest _ _ _).2.1.length +
      ((c.unread.drop length).length + weight (readRest _ _ _).2.2) ≤ c.unread.length + weight c.net
    rw [List.length_take] at gone
    rw [List.length_take, List.length_drop]
    omega

theorem readLineFrom_next {maxlength : ℕ} {t ch : UInt8} {more line : List UInt8}
    {c' : MyConnection} (room : maxlength ≠ 0) (run : c.readChar = (some ch, c')) :
    readLineFrom maxlength (t :: more) line c =
      if ch = t then if more = [] then (some line, c') else readLineFrom maxlength more line c'
      else readLineFrom (maxlength - 1) (t :: more) (line ++ [ch]) c' := by
  rw [readLineFrom, if_neg room, run]

theorem readLineFrom_end {maxlength : ℕ} {terminator line : List UInt8} {c' : MyConnection}
    (room : maxlength ≠ 0) (run : c.readChar = (none, c')) :
    readLineFrom maxlength terminator line c = (if line = [] then none else some line, c') := by
  rw [readLineFrom, if_neg room, run]

theorem readChar_calm {ch : UInt8} {tail : List UInt8} (calm : Calm retries retries c.net)
    (bytes : c.bytes = ch :: tail) : ∃ c', c.readChar = (some ch, c') ∧ c'.bytes = tail ∧
      Calm retries retries c'.net := by
  obtain ⟨read, left, calm'⟩ := Reader.next_cons calm (by decide : 0 < 8192) bytes
  exact ⟨_, Prod.ext read rfl, left, calm'⟩

/-- A line that fits is read to its end, however its bytes come. -/
theorem readLineFrom_line {line tail : List UInt8} (calm : Calm retries retries c.net)
    (bytes : c.bytes = line ++ 13 :: 10 :: tail) (one : 13 ∉ line) (read : List UInt8)
    {maxlength : ℕ} (fits : line.length < maxlength) :
    (readLineFrom maxlength [13, 10] read c).1 = some (read ++ line) ∧
      (readLineFrom maxlength [13, 10] read c).2.bytes = tail ∧
      Calm retries retries (readLineFrom maxlength [13, 10] read c).2.net := by
  have room : maxlength ≠ 0 := by omega
  induction line generalizing c read maxlength with
  | nil =>
      obtain ⟨c', first, left, calm'⟩ := readChar_calm calm bytes
      obtain ⟨c'', second, left', calm''⟩ := readChar_calm calm' left
      rw [readLineFrom_next room first, if_pos rfl, if_neg (List.cons_ne_nil _ _),
        readLineFrom_next room second, if_pos rfl, if_pos rfl, List.append_nil]
      exact ⟨rfl, left', calm''⟩
  | cons ch line ih =>
      obtain ⟨c', first, left, calm'⟩ := readChar_calm calm bytes
      rw [List.length_cons] at fits
      have other : ch ≠ 13 := by
        rintro rfl
        exact one List.mem_cons_self
      rw [readLineFrom_next room first, if_neg other]
      have fits' : line.length < maxlength - 1 := by omega
      have rest := ih calm' left (fun mem => one (List.mem_cons_of_mem _ mem)) (read ++ [ch]) fits'
        (by omega)
      rw [List.append_assoc, List.singleton_append] at rest
      exact rest

theorem measure_readLineFrom (maxlength : ℕ) (terminator line : List UInt8) (c : MyConnection) :
    (readLineFrom maxlength terminator line c).2.measure ≤ c.measure := by
  induction long : maxlength + terminator.length using Nat.strong_induction_on
    generalizing maxlength terminator line c with
  | _ n ih =>
      subst long
      obtain ⟨le, lt⟩ := Reader.measure_next c 8192 retries
      by_cases zero : maxlength = 0
      · rw [readLineFrom, if_pos zero]
      · rcases run : c.readChar with ⟨_ | ch, c'⟩
        · rw [readLineFrom_end zero run]
          change c.next 8192 retries = _ at run
          rw [run] at le
          exact le
        · have read : c.next 8192 retries = _ := run
          rw [read] at le
          cases terminator with
          | nil =>
              rw [readLineFrom, if_neg zero, run]
              exact (ih _ (by rw [List.length_nil]; omega) (maxlength - 1) [] _ c' rfl).trans le
          | cons t more =>
              rw [readLineFrom_next zero run]
              split_ifs
              · exact le
              · exact (ih _ (by rw [List.length_cons]; omega) _ more _ c' rfl).trans le
              · exact (ih _ (by rw [List.length_cons]; omega) (maxlength - 1) (t :: more) _ c'
                  rfl).trans le

end MyConnection

/-! ### Bodies -/

namespace Http
open MyConnection DecimalText

def isHexDigit (b : UInt8) : Bool := isDigit b || (65 ≤ b && b ≤ 70) || (97 ≤ b && b ≤ 102)

def hexDigitValue (b : UInt8) : ℕ :=
  if b ≤ 57 then b.toNat - 48 else if b ≤ 70 then b.toNat - 55 else b.toNat - 87

/-- `sscanf` with `%x` into an `int`: blanks, a sign, perhaps `0x`, digits. -/
def scanHex (text : List UInt8) : Option ℤ :=
  let text := text.dropWhile isBlank
  let negative := text.head? = some 45
  let body := if negative ∨ text.head? = some 43 then text.drop 1 else text
  let hex := body.take 2 = [48, 120] ∨ body.take 2 = [48, 88]
  let digits := (if hex then body.drop 2 else body).takeWhile isHexDigit
  if digits = [] ∧ ¬ hex then none
  else
    let v := digits.foldl (fun v b => 16 * v + hexDigitValue b) 0
    some (if 2 ^ 64 ≤ v then -1 else Int.bmod (if negative then -(v : ℤ) else v) (2 ^ 32))

def cStr (text : List UInt8) : List UInt8 := text.takeWhile (· ≠ 0)

/-- How reading one chunk ends. -/
inductive ChunkEnd
  | failed (buf : List UInt8) (c : MyConnection)
  | full (length : ℕ) (buf : List UInt8) (c : MyConnection)
  | done (length : ℕ) (buf : List UInt8) (c : MyConnection)

/-- The loop over one chunk; the buffer is not filled past its limit. -/
def readChunk (chunk length : ℕ) (buf : List UInt8) (c : MyConnection) : ChunkEnd :=
  let got := c.read (min chunk 8192)
  if _none : got.1 ≤ 0 then .failed buf got.2.2
  else
    let part := got.2.1.take (maxPageBufSize - buf.length)
    if maxPageBufSize ≤ length + part.length then .full (length + part.length) (buf ++ part) got.2.2
    else if chunk - got.2.1.length = 0 then .done (length + part.length) (buf ++ part) got.2.2
    else readChunk (chunk - got.2.1.length) (length + part.length) (buf ++ part) got.2.2
termination_by chunk
decreasing_by
  obtain ⟨count, most, _⟩ := read_counted c (min chunk 8192)
  change got.1 = -1 ∨ got.1 = got.2.1.length at count
  change got.2.1.length ≤ min chunk 8192 at most
  change chunk - got.2.1.length < chunk
  omega

/-- Read a size line; where it has no number, the size stays what it was. -/
def readChunkSize (chunkSize : ℤ) (c : MyConnection) : Option ℤ × MyConnection :=
  match c.readLine 63 [13, 10] with
  | (none, c) => (none, c)
  | (some line, c) => (if cStr line = [] then none else some ((scanHex (cStr line)).getD chunkSize), c)

/-- The loop over the chunks, each from its size line on. -/
def readChunks : ℕ → ℤ → ℕ → List UInt8 → MyConnection → Option (ℤ × List UInt8 × MyConnection)
  | 0, _, _, _, _ => none
  | fuel + 1, chunkSize, length, buf, c =>
      match readChunkSize chunkSize c with
      | (none, c) => some (-1, buf, c)
      | (some chunkSize, c) =>
          if chunkSize ≤ 0 then some (length, buf, c)
          else
            match readChunk chunkSize.toNat length buf c with
            | .failed buf c => some (-1, buf, c)
            | .full length buf c => some (length, buf, c)
            | .done length buf c =>
                match c.readLine 63 [13, 10] with
                | (none, c) => some (-1, buf, c)
                | (some _, c) => readChunks fuel chunkSize length buf c

/-- `ReadChunkedBody`; `unset` is what `chunk_size` holds before it is set. -/
def readChunkedBody (fuel : ℕ) (unset : ℤ) (buf : List UInt8) (c : MyConnection) :
    Option (ℤ × List UInt8 × MyConnection) :=
  readChunks fuel unset 0 buf c

/-! ### What a chunked body is -/

/-- A chunk: its size line and its bytes. -/
structure Chunk where
  line : List UInt8
  data : List UInt8

/-- A line short enough for the buffer, with a size in it. -/
structure SizeLine (line : List UInt8) (size : ℤ) : Prop where
  short : line.length < 63
  one : 13 ∉ line
  scans : scanHex (cStr line) = some size

/-- A chunked body: the chunks and a last size line. -/
def chunkedText (last : List UInt8) : List Chunk → List UInt8
  | [] => last ++ [13, 10]
  | ch :: more => ch.line ++ 13 :: 10 :: (ch.data ++ 13 :: 10 :: chunkedText last more)

/-- So much of the text as the page buffer can take. -/
def filled (text : List UInt8) : List UInt8 := text.take maxPageBufSize

variable {c : MyConnection} {buf data tail : List UInt8} {length chunk : ℕ}

theorem filled_append (short : buf.length ≤ maxPageBufSize) (data : List UInt8) :
    filled (buf ++ data) = buf ++ data.take (maxPageBufSize - buf.length) := by
  rw [filled, List.take_append, List.take_of_length_le short]

theorem filled_filled (text more : List UInt8) :
    filled (filled text ++ more) = filled (text ++ more) := by
  unfold filled
  rcases Nat.le_total text.length maxPageBufSize with short | long
  · rw [List.take_of_length_le short]
  · rw [List.take_append_of_le_length long, List.take_append_of_le_length, List.take_take,
      Nat.min_self]
    rw [List.length_take]
    omega

theorem length_filled_le (text : List UInt8) : (filled text).length ≤ maxPageBufSize :=
  List.length_take_le _ _

theorem length_le_filled (short : buf.length ≤ maxPageBufSize) (data : List UInt8) :
    buf.length ≤ (filled (buf ++ data)).length := by
  rw [filled_append short, List.length_append]
  exact Nat.le_add_right _ _

theorem readChunk_some {len : ℤ} {c' : MyConnection} (read : c.read (min chunk 8192) = (len, data, c'))
    (some : 0 < len) : readChunk chunk length buf c =
      let part := data.take (maxPageBufSize - buf.length)
      if maxPageBufSize ≤ length + part.length then .full (length + part.length) (buf ++ part) c'
      else if chunk - data.length = 0 then .done (length + part.length) (buf ++ part) c'
      else readChunk (chunk - data.length) (length + part.length) (buf ++ part) c' := by
  rw [readChunk]
  simp only [read]
  rw [dif_neg (Int.not_le.mpr some)]

/-- A chunk is read whole, as far as the buffer takes it. -/
theorem readChunk_calm (calm : Calm retries retries c.net) (bytes : c.bytes = data ++ tail)
    (size : chunk = data.length) (some : 0 < chunk) (short : buf.length ≤ maxPageBufSize)
    (counted : length ≤ buf.length) :
    ∃ c', (maxPageBufSize ≤ length + ((filled (buf ++ data)).length - buf.length) ∧
        readChunk chunk length buf c =
          .full (length + ((filled (buf ++ data)).length - buf.length)) (filled (buf ++ data)) c') ∨
      (length + ((filled (buf ++ data)).length - buf.length) < maxPageBufSize ∧
        readChunk chunk length buf c =
          .done (length + ((filled (buf ++ data)).length - buf.length)) (filled (buf ++ data)) c' ∧
        c'.bytes = tail ∧ Calm retries retries c'.net) := by
  induction chunk using Nat.strong_induction_on generalizing c buf data length with
  | _ chunk ih =>
      have inside : min chunk 8192 ≤ data.length := by omega
      obtain ⟨c', read, left, calm'⟩ := read_calm calm (min chunk 8192)
      rw [bytes, List.take_append_of_le_length inside] at read
      rw [bytes, List.drop_append_of_le_length inside] at left
      generalize got : data.take (min chunk 8192) = block at read
      have most : block.length = min chunk 8192 := by
        rw [← got, List.length_take]
        omega
      have run := @readChunk_some c buf block length chunk _ c' read (by omega)
      dsimp only at run
      have part := filled_append short block
      generalize block.take (maxPageBufSize - buf.length) = taken at run part
      have cap := length_filled_le (buf ++ block)
      have whole : filled (buf ++ taken ++ data.drop (min chunk 8192)) = filled (buf ++ data) := by
        rw [← part, filled_filled, List.append_assoc, ← got, List.take_append_drop]
      rw [part] at cap
      have more := length_le_filled cap (data.drop (min chunk 8192))
      rw [filled_append cap] at whole
      rw [List.length_append] at cap more
      by_cases full : maxPageBufSize ≤ length + taken.length
      · have none : maxPageBufSize - (buf ++ taken).length = 0 := by
          rw [List.length_append]
          omega
        rw [none, List.take_zero, List.append_nil] at whole
        rw [if_pos full] at run
        refine ⟨c', Or.inl ?_⟩
        rw [← whole, List.length_append, Nat.add_sub_cancel_left]
        exact ⟨full, run⟩
      rw [if_neg full] at run
      by_cases last : chunk - block.length = 0
      · have none : data.drop (min chunk 8192) = [] := by
          rw [List.drop_eq_nil_iff]
          omega
        rw [none, List.take_nil, List.append_nil] at whole
        rw [none, List.nil_append] at left
        rw [if_pos last] at run
        refine ⟨c', Or.inr ?_⟩
        rw [← whole, List.length_append, Nat.add_sub_cancel_left]
        exact ⟨by omega, run, left, calm'⟩
      · rw [if_neg last] at run
        have cap' : (buf ++ taken).length ≤ maxPageBufSize := by
          rw [List.length_append]
          exact cap
        have counted' : length + taken.length ≤ (buf ++ taken).length := by
          rw [List.length_append]
          omega
        have rest := ih (chunk - block.length) (by omega) calm' left
          (by rw [List.length_drop]; omega) (by omega) cap' counted'
        have same : filled (buf ++ taken ++ data.drop (min chunk 8192)) = filled (buf ++ data) := by
          rw [← whole, filled_append]
          rw [List.length_append]
          exact cap
        rw [same, ← run, List.length_append] at rest
        rw [same] at more
        have sum : length + taken.length + ((filled (buf ++ data)).length -
            (buf.length + taken.length)) =
            length + ((filled (buf ++ data)).length - buf.length) := by omega
        rw [sum] at rest
        exact rest

theorem readChunkSize_calm {line : List UInt8} {size : ℤ} (calm : Calm retries retries c.net)
    (bytes : c.bytes = line ++ 13 :: 10 :: tail) (sized : SizeLine line size) (old : ℤ) :
    ∃ c', readChunkSize old c = (some size, c') ∧ c'.bytes = tail ∧
      Calm retries retries c'.net := by
  obtain ⟨read, left, calm'⟩ := readLineFrom_line calm bytes sized.one [] sized.short
  refine ⟨(readLineFrom 63 [13, 10] [] c).2, ?_, left, calm'⟩
  have run : c.readLine 63 [13, 10] = (some line, _) := Prod.ext read rfl
  have some : cStr line ≠ [] := by
    intro none
    have scans := sized.scans
    rw [none] at scans
    exact (nomatch scans)
  unfold readChunkSize
  rw [run]
  dsimp only
  rw [if_neg some, sized.scans]
  rfl

/-- The chunks are read to the last size line, or until the buffer is full. -/
theorem readChunks_calm {last : List UInt8} {chunks : List Chunk}
    (calm : Calm retries retries c.net) (bytes : c.bytes = chunkedText last chunks ++ tail)
    (sized : ∀ ch ∈ chunks, SizeLine ch.line ch.data.length ∧ ch.data ≠ [])
    {size : ℤ} (none : size ≤ 0) (ends : SizeLine last size) (old : ℤ)
    (short : buf.length ≤ maxPageBufSize) (counted : length ≤ buf.length) {fuel : ℕ}
    (enough : chunks.length < fuel) :
    let page := filled (buf ++ (chunks.map Chunk.data).flatten)
    ∃ c', readChunks fuel old length buf c =
        some (((length + (page.length - buf.length) : ℕ) : ℤ), page, c') ∧
      (length + (page.length - buf.length) < maxPageBufSize →
        c'.bytes = tail ∧ Calm retries retries c'.net) := by
  induction chunks generalizing c old buf length fuel with
  | nil =>
      obtain ⟨fuel, rfl⟩ := Nat.exists_eq_succ_of_ne_zero (Nat.ne_of_gt enough)
      rw [chunkedText, List.append_assoc] at bytes
      obtain ⟨c', read, left, calm'⟩ := readChunkSize_calm calm bytes ends old
      have page : filled (buf ++ (([] : List Chunk).map Chunk.data).flatten) = buf := by
        rw [List.map_nil, List.flatten_nil, List.append_nil, filled, List.take_of_length_le short]
      refine ⟨c', ?_, fun _ => ⟨left, calm'⟩⟩
      rw [page, Nat.sub_self, readChunks, read]
      exact if_pos none
  | cons ch more ih =>
      obtain ⟨fuel, rfl⟩ := Nat.exists_eq_succ_of_ne_zero (Nat.ne_of_gt (Nat.zero_lt_of_lt enough))
      obtain ⟨line, some⟩ := sized ch List.mem_cons_self
      have positive := List.length_pos_iff.mpr some
      rw [chunkedText, List.append_assoc, List.cons_append, List.cons_append, List.append_assoc,
        List.cons_append, List.cons_append] at bytes
      obtain ⟨c₁, read₁, left₁, calm₁⟩ := readChunkSize_calm calm bytes line old
      have step : readChunks (fuel + 1) old length buf c = _ := rfl
      conv at step =>
        rhs
        rw [readChunks, read₁]
        dsimp only
        rw [if_neg (by omega), Int.toNat_natCast]
      have cap := length_filled_le (buf ++ ch.data)
      have grown := length_le_filled short ch.data
      have whole : filled (filled (buf ++ ch.data) ++ (more.map Chunk.data).flatten) =
          filled (buf ++ ((ch :: more).map Chunk.data).flatten) := by
        rw [filled_filled, List.append_assoc, List.map_cons, List.flatten_cons]
      obtain ⟨c₂, ⟨full, run⟩ | ⟨room, run, left₂, calm₂⟩⟩ :=
        readChunk_calm calm₁ left₁ rfl positive short counted
      · rw [run] at step
        have same : filled (filled (buf ++ ch.data) ++ (more.map Chunk.data).flatten) =
            filled (buf ++ ch.data) := by
          rw [filled_append cap]
          have none : maxPageBufSize - (filled (buf ++ ch.data)).length = 0 := by omega
          rw [none, List.take_zero, List.append_nil]
        rw [← whole, same]
        exact ⟨c₂, step, fun room => absurd full (Nat.not_le.mpr room)⟩
      · rw [run] at step
        obtain ⟨line₃, left₃, calm₃⟩ := readLineFrom_line calm₂ left₂ List.not_mem_nil []
          (by decide : _ < 63)
        have skip : c₂.readLine 63 [13, 10] = (Option.some [], _) := Prod.ext line₃ rfl
        dsimp only at step
        rw [skip] at step
        have counted' : length + ((filled (buf ++ ch.data)).length - buf.length) ≤
            (filled (buf ++ ch.data)).length := by omega
        have enough' : more.length < fuel := by
          rw [List.length_cons] at enough
          omega
        have rest := ih calm₃ left₃ (fun ch mem => sized ch (List.mem_cons_of_mem _ mem))
          ch.data.length cap counted' enough'
        rw [whole] at rest
        have longer := length_le_filled cap (more.map Chunk.data).flatten
        rw [whole] at longer
        have sum : length + ((filled (buf ++ ch.data)).length - buf.length) +
            ((filled (buf ++ ((ch :: more).map Chunk.data).flatten)).length -
              (filled (buf ++ ch.data)).length) =
            length + ((filled (buf ++ ((ch :: more).map Chunk.data).flatten)).length -
              buf.length) := by omega
        dsimp only at step rest ⊢
        rw [sum] at rest
        rw [step]
        exact rest

/-! ### Whatever the socket answers -/

/-- What may have become of the page buffer: it is longer, by as much as is counted. -/
structure Grown (length : ℕ) (buf : List UInt8) (length' : ℕ) (buf' : List UInt8) : Prop where
  kept : buf <+: buf'
  short : buf'.length ≤ maxPageBufSize
  counted : length' + buf.length = length + buf'.length

theorem Grown.trans {length₁ length₂ : ℕ} {buf₁ buf₂ : List UInt8}
    (first : Grown length buf length₁ buf₁) (rest : Grown length₁ buf₁ length₂ buf₂) :
    Grown length buf length₂ buf₂ := by
  obtain ⟨kept, _, counted⟩ := first
  obtain ⟨kept', short, counted'⟩ := rest
  exact ⟨kept.trans kept', short, by omega⟩

theorem Grown.refl (length : ℕ) (short : buf.length ≤ maxPageBufSize) :
    Grown length buf length buf := ⟨List.prefix_refl _, short, rfl⟩

def ChunkEnd.Sound (length : ℕ) (buf : List UInt8) (limit : ℕ) : ChunkEnd → Prop
  | .failed buf' _ => ∃ length', Grown length buf length' buf'
  | .full length' buf' _ => Grown length buf length' buf'
  | .done length' buf' c' => Grown length buf length' buf' ∧ c'.measure < limit ∧
      length' < maxPageBufSize ∧ (buf.length = length → length < length')

theorem readChunk_sound (chunk length : ℕ) {buf : List UInt8} (c : MyConnection)
    (short : buf.length ≤ maxPageBufSize) (more : length < maxPageBufSize) :
    (readChunk chunk length buf c).Sound length buf c.measure := by
  induction chunk using Nat.strong_induction_on generalizing length buf c with
  | _ chunk ih =>
      obtain ⟨count, most, gone⟩ := read_counted c (min chunk 8192)
      rcases read : c.read (min chunk 8192) with ⟨len, data, c'⟩
      rw [read] at count most gone
      dsimp only at count most gone
      by_cases none : len ≤ 0
      · have run : readChunk chunk length buf c = .failed buf c' := by
          rw [readChunk]
          simp only [read]
          rw [dif_pos none]
        rw [run]
        exact ⟨length, .refl length short⟩
      · have run := @readChunk_some c buf data length chunk len c' read (by omega)
        dsimp only at run
        have part : (data.take (maxPageBufSize - buf.length)).length =
            min (maxPageBufSize - buf.length) data.length := List.length_take
        generalize data.take (maxPageBufSize - buf.length) = taken at run part
        have grown : Grown length buf (length + taken.length) (buf ++ taken) := by
          refine ⟨List.prefix_append _ _, ?_, ?_⟩ <;> rw [List.length_append] <;> omega
        rw [run]
        split_ifs with full last
        · exact grown
        · exact ⟨grown, by omega, by omega, by omega⟩
        · have rest := ih (chunk - data.length) (by omega) (length + taken.length) c' grown.short
            (by omega)
          rcases end_ : readChunk (chunk - data.length) (length + taken.length) (buf ++ taken) c' with
            ⟨buf', c''⟩ | ⟨length', buf', c''⟩ | ⟨length', buf', c''⟩
          · rw [end_] at rest
            obtain ⟨length', rest⟩ := rest
            exact ⟨length', grown.trans rest⟩
          · rw [end_] at rest
            exact grown.trans rest
          · rw [end_] at rest
            obtain ⟨later, fewer, below, adds⟩ := rest
            have counted := grown.counted
            refine ⟨grown.trans later, by omega, below, fun same => ?_⟩
            have further := adds (by omega)
            omega

theorem measure_readChunkSize (old : ℤ) (c : MyConnection) :
    (readChunkSize old c).2.measure ≤ c.measure := by
  have less := measure_readLineFrom 63 [13, 10] [] c
  unfold readChunkSize
  rcases read : c.readLine 63 [13, 10] with ⟨_ | line, c'⟩
  all_goals
    have run : readLineFrom 63 [13, 10] [] c = _ := read
    rw [run] at less
    exact less

/-- One pass of the loop over the chunks: it ends the reading, or another one follows, with fewer
answers left; into a buffer that held nothing at first it has then added some. -/
theorem readChunks_step (old : ℤ) (length : ℕ) {buf : List UInt8} (c : MyConnection)
    (short : buf.length ≤ maxPageBufSize) (more : length < maxPageBufSize) :
    (∃ (rc : ℤ) (length' : ℕ) (buf' : List UInt8) (c' : MyConnection),
      (∀ fuel, readChunks (fuel + 1) old length buf c = some (rc, buf', c')) ∧
      (rc = -1 ∨ rc = length') ∧ Grown length buf length' buf') ∨
    ∃ (size : ℤ) (length' : ℕ) (buf' : List UInt8) (c' : MyConnection),
      (∀ fuel, readChunks (fuel + 1) old length buf c = readChunks fuel size length' buf' c') ∧
      Grown length buf length' buf' ∧ c'.measure < c.measure ∧ length' < maxPageBufSize ∧
      (buf.length = length → length < length') := by
  have less := measure_readChunkSize old c
  rcases read : readChunkSize old c with ⟨_ | size, c₁⟩
  · refine Or.inl ⟨-1, length, buf, c₁, fun fuel => ?_, Or.inl rfl, .refl length short⟩
    rw [readChunks, read]
  rw [read] at less
  dsimp only at less
  by_cases none : size ≤ 0
  · refine Or.inl ⟨length, length, buf, c₁, fun fuel => ?_, Or.inr rfl, .refl length short⟩
    rw [readChunks, read]
    exact if_pos none
  have sound := readChunk_sound size.toNat length c₁ short more
  have step : ∀ fuel, readChunks (fuel + 1) old length buf c = _ := fun fuel => rfl
  conv at step =>
    enter [fuel]
    rhs
    rw [readChunks, read]
    dsimp only
    rw [if_neg none]
  rcases end_ : readChunk size.toNat length buf c₁ with
    ⟨buf', c₂⟩ | ⟨length', buf', c₂⟩ | ⟨length', buf', c₂⟩
  · rw [end_] at step sound
    obtain ⟨length', grown⟩ := sound
    exact Or.inl ⟨-1, length', buf', c₂, step, Or.inl rfl, grown⟩
  · rw [end_] at step sound
    exact Or.inl ⟨length', length', buf', c₂, step, Or.inr rfl, sound⟩
  · rw [end_] at step sound
    obtain ⟨grown, fewer, below, adds⟩ := sound
    have skip := measure_readLineFrom 63 [13, 10] [] c₂
    rcases line : c₂.readLine 63 [13, 10] with ⟨_ | line, c₃⟩
    · dsimp only at step
      rw [line] at step
      exact Or.inl ⟨-1, length', buf', c₃, step, Or.inl rfl, grown⟩
    · dsimp only at step
      have run : readLineFrom 63 [13, 10] [] c₂ = _ := line
      rw [run] at skip
      dsimp only at skip
      rw [line] at step
      exact Or.inr ⟨size, length', buf', c₃, step, grown, by omega, below, adds⟩

/-- The page buffer is never filled past its limit, however long the reading goes on. -/
theorem readChunks_sound (fuel : ℕ) (old : ℤ) (length : ℕ) {buf : List UInt8} (c : MyConnection)
    (short : buf.length ≤ maxPageBufSize) (more : length < maxPageBufSize) {rc : ℤ}
    {buf' : List UInt8} {c' : MyConnection}
    (run : readChunks fuel old length buf c = some (rc, buf', c')) :
    ∃ length' : ℕ, (rc = -1 ∨ rc = length') ∧ Grown length buf length' buf' := by
  induction fuel generalizing old length buf c with
  | zero => cases run
  | succ fuel ih =>
      rcases readChunks_step old length c short more with
        ⟨rc₁, length₁, buf₁, c₁, step, count, grown⟩ |
          ⟨size, length₁, buf₁, c₁, step, grown, _, below, _⟩
      · cases (step fuel).symm.trans run
        exact ⟨length₁, count, grown⟩
      · obtain ⟨length', count, later⟩ :=
          ih size length₁ c₁ grown.short below ((step fuel).symm.trans run)
        exact ⟨length', count, grown.trans later⟩

/-- When there are no more answers the loop is over. -/
theorem readChunks_ends (old : ℤ) (length : ℕ) {buf : List UInt8} (c : MyConnection)
    (short : buf.length ≤ maxPageBufSize) (more : length < maxPageBufSize) {fuel : ℕ}
    (enough : c.measure < fuel) : readChunks fuel old length buf c ≠ none := by
  induction fuel generalizing old length buf c with
  | zero => exact absurd enough (Nat.not_lt_zero _)
  | succ fuel ih =>
      rcases readChunks_step old length c short more with
        ⟨rc, length', buf', c', step, _⟩ | ⟨size, length', buf', c', step, grown, fewer, below, _⟩
      · rw [step]
        exact Option.some_ne_none _
      · rw [step]
        exact ih size length' c' grown.short below (by omega)

/-- Into an empty buffer every chunk adds something, until it is full. -/
theorem readChunks_fills (old : ℤ) {buf : List UInt8} (c : MyConnection)
    (more : buf.length < maxPageBufSize) {fuel : ℕ} (enough : maxPageBufSize - buf.length < fuel) :
    readChunks fuel old buf.length buf c ≠ none := by
  induction fuel generalizing old buf c with
  | zero => exact absurd enough (Nat.not_lt_zero _)
  | succ fuel ih =>
      rcases readChunks_step old buf.length c more.le more with
        ⟨rc, length', buf', c', step, _⟩ | ⟨size, length', buf', c', step, grown, _, below, adds⟩
      · rw [step]
        exact Option.some_ne_none _
      · have counted := grown.counted
        have further := adds rfl
        obtain rfl : length' = buf'.length := by omega
        rw [step]
        exact ih size c' below (by omega)

/-! ### The header, and a body of a given length -/

def headerBufSize : ℕ := 4024

/-- The loop of `ReadBody`: what has been read, up to a number of bytes. -/
def readBodyFrom (bytesToGo : ℕ) (tmp : List UInt8) (c : MyConnection) : List UInt8 × MyConnection :=
  if bytesToGo = 0 then (tmp, c)
  else
    let got := c.read (min bytesToGo 8192)
    if _none : got.1 ≤ 0 then (tmp ++ got.2.1, got.2.2)
    else readBodyFrom (bytesToGo - got.2.1.length) (tmp ++ got.2.1) got.2.2
termination_by bytesToGo
decreasing_by
  obtain ⟨count, most, _⟩ := read_counted c (min bytesToGo 8192)
  change got.1 = -1 ∨ got.1 = got.2.1.length at count
  change got.2.1.length ≤ min bytesToGo 8192 at most
  change bytesToGo - got.2.1.length < bytesToGo
  omega

/-- How much of a body `ReadBody` asks for. -/
def bodyLength (contentLength : ℤ) : ℕ :=
  if contentLength ≤ 0 ∨ (maxPageBufSize : ℤ) < contentLength then maxPageBufSize
  else contentLength.toNat

def readBody (contentLength : ℤ) (buf : List UInt8) (c : MyConnection) :
    ℤ × List UInt8 × MyConnection :=
  let (tmp, c) := readBodyFrom (bodyLength contentLength) [] c
  ((buf ++ tmp).length, buf ++ tmp, c)

def countNewline (newlines : ℕ) (b : UInt8) : ℕ :=
  if b = 13 then newlines else if b = 10 then newlines + 1 else 0

/-- The loop of `read_header`, straight on the socket. -/
def readHeaderFrom (newlines bytesRead : ℕ) (header : List UInt8) (net : List Answer) :
    ℤ × List UInt8 × List Answer :=
  if newlines = 2 then (bytesRead, header.dropLast.dropLast, net)
  else
    match run : receive 1 0 net with
    | (.error true, rest) => readHeaderFrom newlines bytesRead header rest
    | (.error false, rest) => (-1, header, rest)
    | (.closed, rest) => (-1, header, rest)
    | (.got [], rest) => (-1, header, rest)
    | (.got (b :: _), rest) =>
        if 1024 * 10 < bytesRead + 1 then (-1, header, rest)
        else
          readHeaderFrom (countNewline newlines b) (bytesRead + 1)
            (if bytesRead + 1 < headerBufSize - 1 then header ++ [b] else header) rest
termination_by weight net
decreasing_by
  · exact receive_error run
  · have gone := (receive_got run).2.2
    rw [List.length_cons] at gone
    omega

def readHeader (net : List Answer) : ℤ × List UInt8 × List Answer := readHeaderFrom 0 0 [] net

/-- The bytes end with the first blank line; a carriage return counts for nothing. -/
def EndsHead (newlines : ℕ) : List UInt8 → Prop
  | [] => newlines = 2
  | b :: rest => newlines ≠ 2 ∧ EndsHead (countNewline newlines b) rest

theorem readHeaderFrom_again {newlines bytesRead : ℕ} {header : List UInt8} {net rest : List Answer}
    (more : newlines ≠ 2) (run : receive 1 0 net = (.error true, rest)) :
    readHeaderFrom newlines bytesRead header net = readHeaderFrom newlines bytesRead header rest := by
  rw [readHeaderFrom, if_neg more]
  split
  all_goals
    rename_i same
    rw [run] at same
    cases same
  rfl

theorem readHeaderFrom_got {newlines bytesRead : ℕ} {header seg : List UInt8} {b : UInt8}
    {net rest : List Answer} (more : newlines ≠ 2) (within : bytesRead + 1 ≤ 1024 * 10)
    (run : receive 1 0 net = (.got (b :: seg), rest)) :
    readHeaderFrom newlines bytesRead header net =
      readHeaderFrom (countNewline newlines b) (bytesRead + 1)
        (if bytesRead + 1 < headerBufSize - 1 then header ++ [b] else header) rest := by
  rw [readHeaderFrom, if_neg more]
  split
  all_goals
    rename_i same
    rw [run] at same
    cases same
  exact if_neg (Nat.not_lt.mpr within)

/-- The header is read up to its blank line and not a byte further. -/
theorem readHeaderFrom_calm {newlines bytesRead tries : ℕ} {header head : List UInt8}
    {net : List Answer} (calm : Calm retries tries net) (deliver : delivered net = head ++ tail)
    (ends : EndsHead newlines head) (within : bytesRead + head.length ≤ 1024 * 10)
    (some : head ≠ []) :
    ∃ rest, readHeaderFrom newlines bytesRead header net =
        (((bytesRead + head.length : ℕ) : ℤ),
          (header ++ head.take (headerBufSize - 2 - bytesRead)).dropLast.dropLast, rest) ∧
      delivered rest = tail ∧ Calm retries retries rest := by
  induction heavy : weight net using Nat.strong_induction_on
    generalizing newlines bytesRead tries header head net with
  | _ n ih =>
      subst heavy
      rcases head with _ | ⟨b, head⟩
      · exact absurd rfl some
      obtain ⟨more, ends⟩ := ends
      rcases calm.attempt Nat.one_pos with ⟨tries, rest, run, same, calm⟩ | ⟨none, _⟩ |
        ⟨seg, rest, run, nonempty, one, split, calm'⟩
      · rw [readHeaderFrom_again more run]
        exact ih _ (receive_error run) calm (same.trans deliver) ⟨more, ends⟩ within some rfl
      · exact absurd (none.symm.trans deliver) (List.cons_ne_nil _ _).symm
      · rcases seg with _ | ⟨b', seg⟩
        · exact absurd rfl nonempty
        have gone := (receive_got run).2.2
        rw [List.length_cons] at one gone within
        have single : seg = [] := List.eq_nil_of_length_eq_zero (by omega)
        subst single
        obtain ⟨rfl, left⟩ := List.cons.inj (deliver.symm.trans split)
        have stored : header ++ (b :: head).take (headerBufSize - 2 - bytesRead) =
            (if bytesRead + 1 < headerBufSize - 1 then header ++ [b] else header) ++
              head.take (headerBufSize - 2 - (bytesRead + 1)) := by
          change header ++ (b :: head).take (4022 - bytesRead) =
            (if bytesRead + 1 < 4023 then header ++ [b] else header) ++
              head.take (4022 - (bytesRead + 1))
          by_cases room : bytesRead + 1 < 4023
          · have next : 4022 - bytesRead = 4022 - (bytesRead + 1) + 1 := by omega
            rw [if_pos room, next, List.take_succ_cons, List.append_assoc, List.singleton_append]
          · have none : 4022 - bytesRead = 0 := by omega
            have none' : 4022 - (bytesRead + 1) = 0 := by omega
            rw [if_neg room, none, none', List.take_zero, List.take_zero]
        rw [readHeaderFrom_got more (by omega) run, stored, List.length_cons]
        have sum : bytesRead + (head.length + 1) = bytesRead + 1 + head.length := by omega
        rw [sum]
        by_cases last : head = []
        · subst last
          refine ⟨rest, ?_, left.symm, calm'⟩
          have two : countNewline newlines b = 2 := ends
          rw [two, readHeaderFrom, if_pos rfl, List.take_nil, List.append_nil]
          rfl
        · exact ih (weight rest) (by omega) calm' left.symm ends (by omega) last rfl

/-- Reading on after a first part. -/
theorem split_at (text : List UInt8) {k n : ℕ} (within : k ≤ n) :
    text.take k ++ (text.drop k).take (n - (text.take k).length) = text.take n ∧
      (text.drop k).drop (n - (text.take k).length) = text.drop n := by
  have length : (text.take k).length = min k text.length := List.length_take
  rcases Nat.le_total k text.length with inside | short
  · rw [length, Nat.min_eq_left inside, ← List.take_add, List.drop_drop, Nat.add_sub_cancel' within]
    exact ⟨rfl, rfl⟩
  · rw [List.drop_of_length_le short, List.take_nil, List.drop_nil, List.append_nil,
      List.take_of_length_le short, List.take_of_length_le (short.trans within),
      List.drop_of_length_le (short.trans within)]
    exact ⟨rfl, rfl⟩

/-- So many bytes of the body are read, or all there are. -/
theorem readBodyFrom_calm (calm : Calm retries retries c.net) (bytesToGo : ℕ) (tmp : List UInt8) :
    ∃ c', readBodyFrom bytesToGo tmp c = (tmp ++ c.bytes.take bytesToGo, c') ∧
      c'.bytes = c.bytes.drop bytesToGo := by
  induction bytesToGo using Nat.strong_induction_on generalizing c tmp with
  | _ bytesToGo ih =>
      by_cases zero : bytesToGo = 0
      · subst zero
        refine ⟨c, ?_, rfl⟩
        rw [readBodyFrom, if_pos rfl, List.take_zero, List.append_nil]
      · obtain ⟨c', read, left, calm'⟩ := read_calm calm (min bytesToGo 8192)
        have step : readBodyFrom bytesToGo tmp c = _ := rfl
        conv at step =>
          rhs
          rw [readBodyFrom, if_neg zero]
          simp only [read]
        by_cases none : c.bytes = []
        · rw [none, List.take_nil] at step
          rw [none, List.drop_nil] at left
          refine ⟨c', ?_, ?_⟩
          · rw [step, none, List.take_nil]
            rfl
          · rw [left, none, List.drop_nil]
        · have positive := List.length_pos_iff.mpr none
          have most : (c.bytes.take (min bytesToGo 8192)).length =
              min (min bytesToGo 8192) c.bytes.length := List.length_take
          rw [dif_neg (by omega)] at step
          obtain ⟨c'', rest, left'⟩ := ih
            (bytesToGo - (c.bytes.take (min bytesToGo 8192)).length) (by omega) calm'
            (tmp ++ c.bytes.take (min bytesToGo 8192))
          obtain ⟨front, back⟩ := split_at c.bytes (Nat.min_le_left bytesToGo 8192)
          refine ⟨c'', ?_, ?_⟩
          · rw [step, rest, left, List.append_assoc, front]
          · rw [left', left, back]

theorem EndsHead.some {head : List UInt8} (ends : EndsHead 0 head) : head ≠ [] := by
  rintro rfl
  change (0 : ℕ) = 2 at ends
  omega

/-- A response with a chunked body: in whatever pieces its bytes arrive, the header is read to its
blank line, the page is the bytes of the chunks, as far as the page buffer takes them, and if it
takes all, what follows the last size line is left unread. -/
theorem chunked_response_read {net : List Answer} {head last : List UInt8} {chunks : List Chunk}
    (calm : Calm retries retries net)
    (deliver : delivered net = head ++ (chunkedText last chunks ++ tail))
    (ends : EndsHead 0 head) (within : head.length ≤ 1024 * 10)
    (sized : ∀ ch ∈ chunks, SizeLine ch.line ch.data.length ∧ ch.data ≠ [])
    {size : ℤ} (none : size ≤ 0) (stops : SizeLine last size) (unset : ℤ)
    (short : buf.length ≤ maxPageBufSize) {fuel : ℕ} (enough : chunks.length < fuel) :
    let page := filled (buf ++ (chunks.map Chunk.data).flatten)
    ∃ rest, readHeader net =
        ((head.length : ℤ), (head.take (headerBufSize - 2)).dropLast.dropLast, rest) ∧
      ∃ c', readChunkedBody fuel unset buf ⟨[], rest⟩ =
          some (((page.length - buf.length : ℕ) : ℤ), page, c') ∧
        (page.length - buf.length < maxPageBufSize → c'.bytes = tail) := by
  obtain ⟨rest, header, left, calm'⟩ :=
    @readHeaderFrom_calm _ 0 0 _ [] _ _ calm deliver ends (by omega) ends.some
  obtain ⟨c', body, clean⟩ := readChunks_calm (c := ⟨[], rest⟩) calm' left sized none stops unset
    short (Nat.zero_le _) enough
  rw [Nat.zero_add, List.nil_append, Nat.sub_zero] at header
  rw [Nat.zero_add] at body clean
  exact ⟨rest, header, c', body, fun room => (clean room).1⟩

/-- Two chunks in four pieces, with an interruption. -/
theorem chunked_response_read_pieces : ∃ rest c',
    readHeader [.bytes [72, 13, 10], .again, .bytes [13, 10, 51, 13, 10, 97], .bytes [98, 99, 13],
      .bytes [10, 50, 13, 10, 100, 101, 13, 10, 48, 13, 10, 13, 10]] = (5, [72, 13, 10], rest) ∧
    readChunkedBody 3 0 [] ⟨[], rest⟩ = some (5, [97, 98, 99, 100, 101], c') ∧
    c'.bytes = [13, 10] := by
  obtain ⟨rest, header, c', body, left⟩ := @chunked_response_read [] [13, 10]
    [.bytes [72, 13, 10], .again, .bytes [13, 10, 51, 13, 10, 97], .bytes [98, 99, 13],
      .bytes [10, 50, 13, 10, 100, 101, 13, 10, 48, 13, 10, 13, 10]]
    [72, 13, 10, 13, 10] [48] [⟨[51], [97, 98, 99]⟩, ⟨[50], [100, 101]⟩]
    (by simp [Calm, retries]) rfl (by simp [EndsHead, countNewline]) (by decide)
    (by
      intro ch mem
      rcases List.mem_cons.mp mem with rfl | mem
      · exact ⟨⟨by decide, by decide, by decide⟩, by decide⟩
      · rw [List.mem_singleton.mp mem]
        exact ⟨⟨by decide, by decide, by decide⟩, by decide⟩)
    0 (Int.le_refl 0) ⟨by decide, by decide, by decide⟩ 0 (by decide) 3 (by decide)
  exact ⟨rest, c', header, body, left (by decide)⟩

/-- A response with a plain body: as much of it is read as its length says, or all there is. -/
theorem plain_response_read {net : List Answer} {head body : List UInt8}
    (calm : Calm retries retries net) (deliver : delivered net = head ++ body)
    (ends : EndsHead 0 head) (within : head.length ≤ 1024 * 10) (contentLength : ℤ)
    (buf : List UInt8) :
    ∃ rest, readHeader net =
        ((head.length : ℤ), (head.take (headerBufSize - 2)).dropLast.dropLast, rest) ∧
      ∃ c', readBody contentLength buf ⟨[], rest⟩ =
          (((buf ++ body.take (bodyLength contentLength)).length : ℤ),
            buf ++ body.take (bodyLength contentLength), c') ∧
        c'.bytes = body.drop (bodyLength contentLength) := by
  obtain ⟨rest, header, left, calm'⟩ :=
    @readHeaderFrom_calm _ 0 0 _ [] _ _ calm deliver ends (by omega) ends.some
  obtain ⟨c', read, after⟩ := readBodyFrom_calm (c := ⟨[], rest⟩) calm' (bodyLength contentLength) []
  have bytes : Reader.bytes ⟨[], rest⟩ = body := left
  rw [bytes] at read after
  rw [Nat.zero_add, List.nil_append, Nat.sub_zero] at header
  refine ⟨rest, header, c', ?_, after⟩
  unfold readBody
  rw [read]
  rfl

/-- Whatever the peer sends and however the connection fails, the page buffer is never filled past
its limit, and an answer other than -1 is what was added to it. The reading ends when the connection
does; a page buffer that was empty takes at most so many chunks as it has bytes. One that was not may
go on taking nothing from a peer that never stops, as the count of what was added stays below the
limit. -/
theorem page_buffer_bounded (net : List Answer) (unset : ℤ) (short : buf.length ≤ maxPageBufSize) :
    (∀ fuel rc buf' c', readChunkedBody fuel unset buf ⟨[], net⟩ = some (rc, buf', c') →
      buf <+: buf' ∧ buf'.length ≤ maxPageBufSize ∧
        (rc = -1 ∨ rc = ((buf'.length - buf.length : ℕ) : ℤ))) ∧
    (∃ fuel, readChunkedBody fuel unset buf ⟨[], net⟩ ≠ none) ∧
    (buf = [] → readChunkedBody (maxPageBufSize + 1) unset buf ⟨[], net⟩ ≠ none) := by
  have more : 0 < maxPageBufSize := by decide
  refine ⟨fun fuel rc buf' c' run => ?_, ?_, ?_⟩
  · obtain ⟨length', count, grown⟩ := readChunks_sound fuel unset 0 ⟨[], net⟩ short more run
    refine ⟨grown.kept, grown.short, ?_⟩
    have counted := grown.counted
    rcases count with failed | same
    · exact Or.inl failed
    · exact Or.inr (by omega)
  · exact ⟨_, readChunks_ends unset 0 ⟨[], net⟩ short more (Nat.lt_succ_self _)⟩
  · rintro rfl
    exact @readChunks_fills unset [] ⟨[], net⟩ more _ (Nat.lt_succ_self _)

/-- A peer that stops in the middle of a chunk. -/
theorem page_buffer_bounded_cut : ∃ rc buf' c',
    readChunkedBody (maxPageBufSize + 1) 7 [] ⟨[], [.bytes [51, 13, 10, 1, 2]]⟩ =
      some (rc, buf', c') ∧
    buf'.length ≤ maxPageBufSize ∧ (rc = -1 ∨ rc = (buf'.length : ℤ)) := by
  obtain ⟨bounded, _, ends⟩ := @page_buffer_bounded [] [.bytes [51, 13, 10, 1, 2]] 7 (by decide)
  obtain ⟨⟨rc, buf', c'⟩, run⟩ := Option.ne_none_iff_exists'.mp (ends rfl)
  obtain ⟨_, small, count⟩ := bounded _ rc buf' c' run
  exact ⟨rc, buf', c', run, small, count⟩

end Http

end BloomServer
