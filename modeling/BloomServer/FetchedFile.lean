import BloomServer.FetchedDelivery
import BloomServer.Library.ByteFields
import BloomServer.UrlIds

/-! The file that the fetched results wait in: records behind their lengths (`WriteContent`,
`ReadContent`), and the file with the position up to which they have been read. -/
namespace BloomServer
open ByteCodec DecimalText

def rcBfEof : ℤ := -1000
def rcBfBufferTooLong : ℤ := -1012

/-- An `FSBigFile`, as the stream of the bytes of its chunks, with the position it is read at. -/
structure BigFile where
  maxFileSize : ℕ
  bytes : List UInt8
  pos : ℕ

namespace BigFile

/-- A stream with the limit of the build. -/
def opened (bytes : List UInt8) : BigFile := ⟨1024 * 1024 * 1024, bytes, 0⟩

@[simp] theorem bytes_opened (bytes : List UInt8) : (opened bytes).bytes = bytes := rfl

def rewound (f : BigFile) : BigFile := { f with pos := 0 }

/-- 0 or an error is returned. -/
def write (f : BigFile) (buf : List UInt8) : ℤ × BigFile :=
  if f.maxFileSize < buf.length then (rcBfBufferTooLong, f)
  else (0, { f with bytes := f.bytes ++ buf })

/-- Besides the bytes that were read. At the end a read of no bytes is an error, too. -/
def read (f : BigFile) (size : ℕ) : ℤ × List UInt8 × BigFile :=
  if f.maxFileSize < size then (rcBfBufferTooLong, [], f)
  else if f.bytes.length ≤ f.pos then (rcBfEof, [], f)
  else
    let buf := (f.bytes.drop f.pos).take size
    (0, buf, { f with pos := f.pos + buf.length })

/-- From the start; the position is an `int64_t`, and not to be the end. -/
def seek (f : BigFile) (pos : ℕ) : Option BigFile :=
  if 2 ^ 63 ≤ pos ∨ f.bytes.length ≤ pos then none else some { f with pos }

end BigFile

def BigFile.writeContent (f : BigFile) (key data : List UInt8) : ℤ × BigFile :=
  let (ret₁, f) := f.write (toBytes 4 key.length)
  let (ret₂, f) := f.write key
  let (ret₃, f) := f.write (toBytes 4 data.length)
  let (ret₄, f) := f.write data
  (ret₁ + ret₂ + ret₃ + ret₄, f)

/-- What `ReadContent` is handed to fill in. -/
structure Content where
  key : List UInt8
  keylen : ℕ
  data : List UInt8
  datalen : ℕ

/-- The low bytes of an `int` are read over. -/
def readOver (old : ℕ) (buf : List UInt8) : ℕ := ofBytes (buf ++ (toBytes 4 old).drop buf.length)

/-- Read into a new buffer, that holds what the memory held before if nothing is read. -/
def readNew (memory : ℕ → UInt8) (f : BigFile) (size : ℕ) : ℤ × List UInt8 × BigFile :=
  let (ret, buf, f) := f.read size
  (ret, if ret < 0 then (List.range size).map memory else buf, f)

/-- The answer, what has been filled in, and the stream afterwards. The size of a buffer is not defined
for a length that is negative, or the largest. -/
def BigFile.readContent (memory : ℕ → UInt8) (f : BigFile) (c : Content) :
    Option (ℤ × Content × BigFile) :=
  let (ret, head, f) := f.read 4
  let c := { c with keylen := readOver c.keylen head }
  if ret < 0 then some (-1, c, f)
  else if 2 ^ 31 - 1 ≤ c.keylen then none
  else
    let (ret, key, f) := readNew memory f c.keylen
    let c := { c with key, keylen := key.length }
    if ret < 0 then some (-1, c, f)
    else
      let (ret, head, f) := f.read 4
      let c := { c with datalen := readOver c.datalen head }
      if ret < 0 then some (-1, c, f)
      else if 2 ^ 31 - 1 ≤ c.datalen then none
      else
        let (ret, data, f) := readNew memory f c.datalen
        let c := { c with data, datalen := data.length }
        if ret < 0 ∧ ret ≠ rcBfEof then some (-1, c, f) else some (0, c, f)

/-- The loop of `readFetched`, up to so many records. -/
def readContents (memory : ℕ → UInt8) : ℕ → BigFile → Content → Option (List Content × BigFile)
  | 0, f, _ => some ([], f)
  | n + 1, f, c => do
      let (ret, c, f) ← BigFile.readContent memory f c
      if -1 < ret then
        let (rest, f) ← readContents memory n f c
        return (c :: rest, f)
      else return ([], f)

/-- Records written one after another, as long as no error is returned. -/
def writeContents : List (List UInt8 × List UInt8) → BigFile → Option BigFile
  | [], f => some f
  | (key, data) :: rest, f =>
      let (ret, f) := BigFile.writeContent f key data
      if ret = 0 then writeContents rest f else none

/-! ### The queue -/

/-- The files under `dbpath`, and the position that the process remembers. -/
structure FetchedFiles where
  fifoqueue : Option (List UInt8)
  fifoqueuePos : Option (List UInt8)
  lastpos : ℕ

/-- `"%llu/%d"` -/
def FetchedEntry.key (e : FetchedEntry) : List UInt8 :=
  decimal e.id.toNat ++ 47 :: printInt e.taskid.toInt

namespace FetchedFiles

def none : FetchedFiles := ⟨.none, .none, 0⟩

def start (s : FetchedFiles) : FetchedFiles :=
  { s with fifoqueuePos := some (s.fifoqueuePos.getD (decimal 0)) }

/-- The key is printed to a buffer of 32 bytes. -/
def saveFetched (s : FetchedFiles) (e : FetchedEntry) : Option FetchedFiles :=
  if 32 < e.key.length + 1 then .none
  else
    let (_, bigfile) := BigFile.writeContent (.opened (s.fifoqueue.getD [])) e.key []
    some { s with fifoqueue := some bigfile.bytes }

/-- The position that the file says, if it says one. -/
def posRead (s : FetchedFiles) (text : List UInt8) : ℕ :=
  let key := text.take 32
  if key = [] then s.lastpos
  else ((scanLlu (key ++ List.replicate (32 - key.length) 0)).map UInt64.toNat).getD 0

def readFetched (memory : ℕ → UInt8) (s : FetchedFiles) (num : ℤ) :
    Option (List (List UInt8) × FetchedFiles) :=
  match s.fifoqueuePos, s.fifoqueue with
  | .some text, .some bytes =>
      match (BigFile.opened bytes).seek (s.posRead text) with
      | .none => some ([], s)
      | .some bigfile => do
          let (contents, bigfile) ← readContents memory num.toNat bigfile ⟨[], 0, [], 0⟩
          return (contents.map Content.key,
            { s with fifoqueuePos := some (decimal bigfile.pos), lastpos := bigfile.pos })
  | _, _ => some ([], s)

end FetchedFiles

/-- The calls on the queue. -/
inductive FifoCall
  | saveFetched (e : FetchedEntry)
  | readFetched (num : ℤ)

/-- What the reads of a sequence of calls return. -/
def runFifo (memory : ℕ → UInt8) : List FifoCall → FetchedFiles → Option (List (List (List UInt8)))
  | [], _ => some []
  | .saveFetched e :: rest, s => (s.saveFetched e).bind (runFifo memory rest)
  | .readFetched num :: rest, s => do
      let (fetched, s) ← s.readFetched memory num
      return fetched :: (← runFifo memory rest s)

/-- What they return from a queue. -/
def fifo : List FifoCall → List (List UInt8) → List (List (List UInt8))
  | [], _ => []
  | .saveFetched e :: rest, queue => fifo rest (queue ++ [e.key])
  | .readFetched num :: rest, queue => queue.take num.toNat :: fifo rest (queue.drop num.toNat)

/-- The keys that are saved. -/
def savedKeys : List FifoCall → List (List UInt8)
  | [] => []
  | .saveFetched e :: rest => e.key :: savedKeys rest
  | .readFetched _ :: rest => savedKeys rest

/-- How many records the reads ask for together. -/
def asked : List ℤ → ℕ
  | [] => 0
  | num :: rest => num.toNat + asked rest

/-- `ReadContent`, called again and again, gives the records, and then it reports the end. -/
def ReadsBack (memory : ℕ → UInt8) :
    List (List UInt8 × List UInt8) → BigFile → Content → Prop
  | [], f, c => ∃ c' f', BigFile.readContent memory f c = some (-1, c', f')
  | r :: rest, f, c => ∃ c' f', BigFile.readContent memory f c = some (0, c', f') ∧
      (c'.key, c'.data) = r ∧ ReadsBack memory rest f' c'

/-! ### Frames -/

/-- The bytes of a record: both texts, each behind its length. -/
def contentBytes (r : List UInt8 × List UInt8) : List UInt8 :=
  toBytes 4 r.1.length ++ (r.1 ++ (toBytes 4 r.2.length ++ r.2))

namespace BigFile

variable {f f' : BigFile} {front rest key data : List UInt8} {size : ℕ}

/-- The stream so many bytes further on. -/
def skip (f : BigFile) (n : ℕ) : BigFile := { f with pos := f.pos + n }

theorem skip_skip (f : BigFile) (m n : ℕ) : (f.skip m).skip n = f.skip (m + n) := by
  unfold skip
  dsimp only
  rw [Nat.add_assoc]

/-- The bytes that are still to be read. -/
structure Ahead (f : BigFile) (rest : List UInt8) : Prop where
  inside : f.pos ≤ f.bytes.length
  bytes : f.bytes.drop f.pos = rest

theorem Ahead.length (h : f.Ahead rest) : f.bytes.length = f.pos + rest.length := by
  have inside := h.inside
  rw [← h.bytes, List.length_drop]
  omega

theorem Ahead.advance (h : f.Ahead (front ++ rest)) :
    (f.skip front.length).Ahead rest := by
  have length := h.length
  rw [List.length_append] at length
  constructor
  · change f.pos + front.length ≤ f.bytes.length
    omega
  · change f.bytes.drop (f.pos + front.length) = rest
    rw [← List.drop_drop, h.bytes, List.drop_left]

/-- As many bytes as are asked for, if there are any left. -/
theorem Ahead.read (h : f.Ahead (front ++ rest)) (some : front ++ rest ≠ [])
    (within : front.length ≤ f.maxFileSize) :
    f.read front.length = (0, front, f.skip front.length) := by
  have length := h.length
  have positive := List.length_pos_iff.mpr some
  unfold BigFile.read
  rw [if_neg (by omega), if_neg (by omega), h.bytes, List.take_left]
  rfl

theorem Ahead.read_end (h : f.Ahead []) (within : size ≤ f.maxFileSize) :
    f.read size = (rcBfEof, [], f) := by
  have length := h.length
  rw [List.length_nil] at length
  unfold BigFile.read
  rw [if_neg (by omega), if_pos (by omega)]

theorem ahead_opened : ((opened (front ++ rest)).skip front.length).Ahead rest :=
  Ahead.advance ⟨Nat.zero_le _, rfl⟩

theorem seek_end : (opened front).seek front.length = none := if_pos (Or.inr (Nat.le_refl _))

theorem seek_within (some : rest ≠ []) (within : front.length < 2 ^ 63) :
    (opened (front ++ rest)).seek front.length =
      .some ((opened (front ++ rest)).skip front.length) := by
  have positive := List.length_pos_iff.mpr some
  rw [seek, if_neg]
  · unfold skip opened
    rw [Nat.zero_add]
  · rw [bytes_opened, List.length_append]
    omega

theorem write_eq (within : front.length ≤ f.maxFileSize) :
    f.write front = (0, { f with bytes := f.bytes ++ front }) := if_neg (Nat.not_lt.mpr within)

theorem maxFileSize_write (f : BigFile) (buf : List UInt8) :
    (f.write buf).2.maxFileSize = f.maxFileSize := by
  unfold write
  split_ifs <;> rfl

theorem write_ret (f : BigFile) (buf : List UInt8) :
    (f.write buf).1 ≤ 0 ∧ ((f.write buf).1 = 0 → buf.length ≤ f.maxFileSize) := by
  unfold write
  split_ifs with long
  · have error : rcBfBufferTooLong < 0 := by decide
    exact ⟨error.le, fun same => absurd same error.ne⟩
  · exact ⟨Int.le_refl 0, fun _ => Nat.le_of_not_lt long⟩

end BigFile

section Records

variable (memory : ℕ → UInt8) {f f' : BigFile} {key data rest : List UInt8} {c : Content}
  {r : List UInt8 × List UInt8} {records : List (List UInt8 × List UInt8)} {n : ℕ}

/-- The texts of a record are not too long for the stream. -/
def ContentFits (limit : ℕ) (r : List UInt8 × List UInt8) : Prop :=
  r.1.length ≤ limit ∧ r.2.length ≤ limit

theorem writeContent_eq (fits : ContentFits f.maxFileSize r) (lengths : 4 ≤ f.maxFileSize) :
    BigFile.writeContent f r.1 r.2 = (0, { f with bytes := f.bytes ++ contentBytes r }) := by
  have four (v : ℕ) : (toBytes 4 v).length ≤ f.maxFileSize := by
    rw [length_toBytes]
    exact lengths
  unfold BigFile.writeContent
  simp only [BigFile.write_eq, four, fits.1, fits.2, contentBytes, List.append_assoc]
  rfl

/-- No error is returned only if all of the record has been written. -/
theorem fits_of_written (written : (BigFile.writeContent f r.1 r.2).1 = 0) :
    ContentFits f.maxFileSize r := by
  obtain ⟨w₁, eq₁⟩ : ∃ w, f.write (toBytes 4 r.1.length) = w := ⟨_, rfl⟩
  obtain ⟨w₂, eq₂⟩ : ∃ w, w₁.2.write r.1 = w := ⟨_, rfl⟩
  obtain ⟨w₃, eq₃⟩ : ∃ w, w₂.2.write (toBytes 4 r.2.length) = w := ⟨_, rfl⟩
  have sum : w₁.1 + w₂.1 + w₃.1 + (w₃.2.write r.2).1 = 0 := by
    rw [← eq₃, ← eq₂, ← eq₁]
    exact written
  have size₁ := BigFile.maxFileSize_write f (toBytes 4 r.1.length)
  have size₂ := BigFile.maxFileSize_write w₁.2 r.1
  have size₃ := BigFile.maxFileSize_write w₂.2 (toBytes 4 r.2.length)
  have ret₁ := BigFile.write_ret f (toBytes 4 r.1.length)
  have ret₂ := BigFile.write_ret w₁.2 r.1
  have ret₃ := BigFile.write_ret w₂.2 (toBytes 4 r.2.length)
  have ret₄ := BigFile.write_ret w₃.2 r.2
  rw [eq₁] at size₁ ret₁
  rw [eq₂, size₁] at size₂
  rw [eq₃, size₂] at size₃
  rw [eq₂, size₁] at ret₂
  rw [eq₃] at ret₃
  rw [size₃] at ret₄
  exact ⟨ret₂.2 (by omega), ret₄.2 (by omega)⟩

theorem writeContents_eq (written : writeContents records f = some f') (lengths : 4 ≤ f.maxFileSize) :
    f' = { f with bytes := f.bytes ++ records.flatMap contentBytes } ∧
      ∀ r ∈ records, ContentFits f.maxFileSize r := by
  induction records generalizing f with
  | nil =>
      cases written
      rw [List.flatMap_nil, List.append_nil]
      exact ⟨rfl, fun r mem => by cases mem⟩
  | cons r rest ih =>
      have step : writeContents (r :: rest) f = if (BigFile.writeContent f r.1 r.2).1 = 0 then
          writeContents rest (BigFile.writeContent f r.1 r.2).2 else none := rfl
      rw [step] at written
      by_cases ret : (BigFile.writeContent f r.1 r.2).1 = 0
      · have fits := fits_of_written ret
        rw [if_pos ret, writeContent_eq fits lengths] at written
        obtain ⟨same, all⟩ := ih written lengths
        rw [same, List.flatMap_cons]
        refine ⟨by rw [List.append_assoc], fun q mem => ?_⟩
        rcases List.mem_cons.mp mem with rfl | later
        · exact fits
        · exact all q later
      · rw [if_neg ret] at written
        cases written

theorem readOver_eq (old : ℕ) {v : ℕ} (small : v < 2 ^ 32) : readOver old (toBytes 4 v) = v := by
  have none : (toBytes 4 old).drop (toBytes 4 v).length = [] := by
    apply List.drop_eq_nil_of_le
    rw [length_toBytes, length_toBytes]
  rw [readOver, none, List.append_nil, ofBytes_toBytes small]

theorem readNew_eq {buf : List UInt8} {size : ℕ} (read : f.read size = (0, buf, f')) :
    readNew memory f size = (0, buf, f') := by
  unfold readNew
  rw [read]
  rfl

/-- The data is the last that is read of a record; if it is empty, the end may come first. -/
theorem readNew_data {data : List UInt8} (ahead : f.Ahead (data ++ rest))
    (within : data.length ≤ f.maxFileSize) : ∃ ret, (ret = 0 ∨ ret = rcBfEof) ∧
      readNew memory f data.length = (ret, data, f.skip data.length) := by
  by_cases none : data ++ rest = []
  · obtain ⟨rfl, rfl⟩ := List.append_eq_nil_iff.mp none
    refine ⟨rcBfEof, Or.inr rfl, ?_⟩
    unfold readNew
    rw [ahead.read_end within]
    rfl
  · exact ⟨0, Or.inl rfl, readNew_eq memory (ahead.read none within)⟩

/-- A record is read back as a whole, whatever is behind it. -/
theorem readContent_eq (ahead : f.Ahead (contentBytes r ++ rest)) (fits : ContentFits f.maxFileSize r)
    (lengths : 4 ≤ f.maxFileSize) (int : f.maxFileSize < 2 ^ 31 - 1) :
    BigFile.readContent memory f c =
      some (0, ⟨r.1, r.1.length, r.2, r.2.length⟩, f.skip (contentBytes r).length) := by
  have four (v : ℕ) (l : List UInt8) : toBytes 4 v ++ l ≠ [] := by
    apply List.append_ne_nil_of_left_ne_nil
    rw [← List.length_pos_iff, length_toBytes]
    decide
  have length (v : ℕ) : (toBytes 4 v).length = 4 := length_toBytes 4 v
  obtain ⟨key, data⟩ := r
  obtain ⟨short, short'⟩ := fits
  dsimp only at short short'
  simp only [contentBytes, List.append_assoc] at ahead
  have ahead₁ := ahead.advance
  have ahead₂ := ahead₁.advance
  have ahead₃ := ahead₂.advance
  have read₁ := ahead.read (four _ _) (by rw [length]; exact lengths)
  have read₂ := readNew_eq memory
    (ahead₁.read (List.append_ne_nil_of_right_ne_nil _ (four _ _)) short)
  have read₃ := ahead₂.read (four _ _) (by rw [length]; exact lengths)
  obtain ⟨ret, answer, read₄⟩ := readNew_data memory ahead₃ short'
  rw [length] at read₁ read₂ read₃ read₄
  rw [length] at read₃ read₄
  have back : ¬ (ret < 0 ∧ ret ≠ rcBfEof) := by
    rintro ⟨negative, other⟩
    rcases answer with rfl | rfl
    · cases negative
    · exact other rfl
  have none : ¬ (0 : ℤ) < 0 := by decide
  have whole : ((((f.skip 4).skip key.length).skip 4).skip data.length) =
      f.skip (contentBytes (key, data)).length := by
    rw [BigFile.skip_skip, BigFile.skip_skip, BigFile.skip_skip]
    simp only [contentBytes, List.length_append, length_toBytes]
  unfold BigFile.readContent
  simp only [read₁, readOver_eq _ (show key.length < 2 ^ 32 by omega), if_neg none,
    if_neg (show ¬ 2 ^ 31 - 1 ≤ key.length by omega), read₂, read₃,
    readOver_eq _ (show data.length < 2 ^ 32 by omega),
    if_neg (show ¬ 2 ^ 31 - 1 ≤ data.length by omega), read₄, if_neg back, whole]

theorem readContent_end (ahead : f.Ahead []) (lengths : 4 ≤ f.maxFileSize) :
    ∃ c', BigFile.readContent memory f c = some (-1, c', f) := by
  refine ⟨{ c with keylen := readOver c.keylen [] }, ?_⟩
  unfold BigFile.readContent
  simp only [ahead.read_end lengths]
  rfl

theorem readsBack_written (ahead : f.Ahead (records.flatMap contentBytes))
    (fits : ∀ r ∈ records, ContentFits f.maxFileSize r) (lengths : 4 ≤ f.maxFileSize)
    (int : f.maxFileSize < 2 ^ 31 - 1) : ReadsBack memory records f c := by
  induction records generalizing f c with
  | nil =>
      obtain ⟨c', last⟩ := readContent_end memory (c := c) ahead lengths
      exact ⟨c', f, last⟩
  | cons r rest ih =>
      rw [List.flatMap_cons] at ahead
      refine ⟨_, _, readContent_eq memory ahead (fits r List.mem_cons_self) lengths int, rfl, ?_⟩
      exact ih ahead.advance (fun q mem => fits q (List.mem_cons_of_mem r mem)) lengths int

/-- The loop reads as many records as it is asked for, or all that there are. -/
theorem readContents_eq (ahead : f.Ahead (records.flatMap contentBytes))
    (fits : ∀ r ∈ records, ContentFits f.maxFileSize r) (lengths : 4 ≤ f.maxFileSize)
    (int : f.maxFileSize < 2 ^ 31 - 1) (n : ℕ) :
    ∃ l, readContents memory n f c =
        some (l, f.skip ((records.take n).flatMap contentBytes).length) ∧
      l.map (fun c => (c.key, c.data)) = records.take n := by
  induction n generalizing f c records with
  | zero => exact ⟨[], rfl, rfl⟩
  | succ n ih =>
      cases records with
      | nil =>
          obtain ⟨c', last⟩ := readContent_end memory (c := c) ahead lengths
          refine ⟨[], ?_, rfl⟩
          unfold readContents
          rw [last]
          rfl
      | cons r rest =>
          rw [List.flatMap_cons] at ahead
          have read := readContent_eq memory (c := c) ahead
            (fits r List.mem_cons_self) lengths int
          obtain ⟨l, later, same⟩ := ih (c := ⟨r.1, r.1.length, r.2, r.2.length⟩) ahead.advance
            (fun q mem => fits q (List.mem_cons_of_mem r mem)) lengths int
          refine ⟨⟨r.1, r.1.length, r.2, r.2.length⟩ :: l, ?_, ?_⟩
          · unfold readContents
            rw [read]
            change (readContents memory n (f.skip (contentBytes r).length) _).bind _ = _
            rw [later, BigFile.skip_skip, List.take_succ_cons, List.flatMap_cons, List.length_append]
            rfl
          · rw [List.map_cons, same, List.take_succ_cons]

end Records

/-! ### The queue in the files -/

namespace FetchedFiles

variable (memory : ℕ → UInt8) {s : FetchedFiles}
  {records done left : List (List UInt8 × List UInt8)} {e : FetchedEntry}

/-- The records that have been read, and those that wait. -/
structure Holds (s : FetchedFiles) (done left : List (List UInt8 × List UInt8)) : Prop where
  bytes : s.fifoqueue.getD [] = (done ++ left).flatMap contentBytes
  pos : s.fifoqueuePos = some (decimal (done.flatMap contentBytes).length)
  fits : ∀ r ∈ left, ContentFits (1024 * 1024 * 1024) r

theorem Holds.saveFetched (h : s.Holds done left) (small : e.key.length < 32) :
    ∃ s', s.saveFetched e = some s' ∧ s'.Holds done (left ++ [(e.key, [])]) := by
  have fits : ContentFits (1024 * 1024 * 1024) (e.key, []) := ⟨by dsimp only; omega, Nat.zero_le _⟩
  have wrote := writeContent_eq (f := .opened (s.fifoqueue.getD [])) fits
    (show 4 ≤ 1024 * 1024 * 1024 by decide)
  dsimp only at wrote
  refine ⟨{ s with fifoqueue := some (s.fifoqueue.getD [] ++ contentBytes (e.key, [])) }, ?_, ?_,
    h.pos, ?_⟩
  · unfold FetchedFiles.saveFetched
    rw [if_neg (by omega), wrote]
    rfl
  · change s.fifoqueue.getD [] ++ _ = _
    rw [h.bytes, ← List.append_assoc, @List.flatMap_append _ _ (done ++ left), List.flatMap_singleton]
  · intro r mem
    rcases List.mem_append.mp mem with old | new
    · exact h.fits r old
    · rw [List.mem_singleton.mp new]
      exact fits

/-- The position is read back from its file. -/
theorem posRead_decimal (s : FetchedFiles) {pos : ℕ} (small : pos < 2 ^ 63) :
    s.posRead (decimal pos) = pos := by
  have length : (decimal pos).length ≤ 19 := (length_decimal_le_iff (by decide)).mpr (by omega)
  have whole : (decimal pos).take 32 = decimal pos := List.take_of_length_le (by omega)
  have zeros : List.replicate (32 - (decimal pos).length) (0 : UInt8) =
      0 :: List.replicate (31 - (decimal pos).length) 0 := by
    rw [← List.replicate_succ]
    congr 1
    omega
  have scanned := scanInt_printInt .none (pos : ℤ) (c := 0) rfl 0
    (List.replicate (31 - (decimal pos).length) 0) (by simp)
  have text : printInt (pos : ℤ) = decimal pos := by
    rw [printInt, if_neg (by omega), Int.natAbs_natCast]
  rw [text, List.replicate_zero, List.nil_append] at scanned
  unfold posRead
  dsimp only
  rw [whole, if_neg (decimal_ne_nil pos), zeros, scanLlu, scanned]
  exact toNat_strtoull (by omega)

theorem contentBytes_ne_nil (r : List UInt8 × List UInt8) : contentBytes r ≠ [] := by
  apply List.append_ne_nil_of_left_ne_nil
  rw [← List.length_pos_iff, length_toBytes]
  decide

/-- If records wait, they are in the file, behind those that have been read. -/
theorem Holds.queue (h : s.Holds done left) (some : left.flatMap contentBytes ≠ []) :
    s.fifoqueue = .some (done.flatMap contentBytes ++ left.flatMap contentBytes) := by
  have bytes := h.bytes
  rw [List.flatMap_append] at bytes
  cases queue : s.fifoqueue with
  | none =>
      rw [queue, Option.getD_none] at bytes
      exact absurd (List.append_eq_nil_iff.mp bytes.symm).2 some
  | some text =>
      rw [queue, Option.getD_some] at bytes
      rw [bytes]

/-- At the end nothing is returned, and nothing changes. -/
theorem Holds.readFetched_end (h : s.Holds done []) (num : ℤ)
    (within : (done.flatMap contentBytes).length < 2 ^ 63) :
    s.readFetched memory num = some ([], s) := by
  have bytes := h.bytes
  rw [List.append_nil] at bytes
  unfold FetchedFiles.readFetched
  rw [h.pos]
  cases queue : s.fifoqueue with
  | none => rfl
  | some text =>
      rw [queue, Option.getD_some] at bytes
      dsimp only
      rw [s.posRead_decimal within, bytes, BigFile.seek_end]

/-- As many records as are asked for, and the position behind them. -/
theorem Holds.readFetched_next (h : s.Holds done left) (num : ℤ)
    (some : left.flatMap contentBytes ≠ []) (within : (done.flatMap contentBytes).length < 2 ^ 63) :
    s.readFetched memory num = .some ((left.take num.toNat).map Prod.fst,
      let pos := ((done ++ left.take num.toNat).flatMap contentBytes).length
      { s with fifoqueuePos := .some (decimal pos), lastpos := pos }) := by
  obtain ⟨l, read, same⟩ := readContents_eq memory (c := ⟨[], 0, [], 0⟩)
    BigFile.ahead_opened h.fits (show 4 ≤ 1024 * 1024 * 1024 by decide)
    (show 1024 * 1024 * 1024 < 2 ^ 31 - 1 by decide) num.toNat
  have keys : l.map Content.key = (left.take num.toNat).map Prod.fst := by
    rw [← same, List.map_map]
    rfl
  unfold FetchedFiles.readFetched
  rw [h.pos, h.queue some]
  dsimp only
  rw [s.posRead_decimal within, BigFile.seek_within some within]
  dsimp only
  rw [read, BigFile.skip_skip, ← keys, List.flatMap_append, List.length_append]
  change Option.some (_, FetchedFiles.mk _ (.some (decimal (0 + _))) (0 + _)) = _
  rw [Nat.zero_add]

theorem Holds.readFetched (h : s.Holds done left) (num : ℤ)
    (within : ((done ++ left).flatMap contentBytes).length < 2 ^ 63) :
    ∃ s', s.readFetched memory num = some ((left.take num.toNat).map Prod.fst, s') ∧
      s'.Holds (done ++ left.take num.toNat) (left.drop num.toNat) := by
  rw [List.flatMap_append, List.length_append] at within
  have front := Nat.lt_of_add_right_lt within
  cases left with
  | nil =>
      rw [List.take_nil, List.drop_nil, List.append_nil]
      exact ⟨s, h.readFetched_end memory num front, h⟩
  | cons r rest =>
      have some : (r :: rest).flatMap contentBytes ≠ [] :=
        List.append_ne_nil_of_left_ne_nil (contentBytes_ne_nil r) _
      refine ⟨_, h.readFetched_next memory num some front, ?_, rfl, ?_⟩
      · change s.fifoqueue.getD [] = _
        rw [List.append_assoc, List.take_append_drop]
        exact h.bytes
      · intro q mem
        exact h.fits q (List.mem_of_mem_drop mem)

/-! The files carry the queue that the requests are served from. -/

def record (e : FetchedEntry) : List UInt8 × List UInt8 := (e.key, [])

def Carries (s : FetchedFiles) (q : FetchedQueue) : Prop :=
  s.Holds ((q.file.take q.readpos).map record) ((q.file.drop q.readpos).map record)

variable {q : FetchedQueue}

theorem Carries.saveFetched (h : s.Carries q) (sound : q.Sound) (small : e.key.length < 32) :
    ∃ s', s.saveFetched e = some s' ∧ s'.Carries (q.saveFetched e) := by
  obtain ⟨s', saved, holds⟩ := Holds.saveFetched h small
  refine ⟨s', saved, ?_⟩
  unfold Carries FetchedQueue.saveFetched
  dsimp only
  rw [List.take_append_of_le_length sound.inside, List.drop_append_of_le_length sound.inside,
    List.map_append]
  exact holds

theorem Carries.readFetched (h : s.Carries q) (num : ℤ)
    (within : ((q.file.map record).flatMap contentBytes).length < 2 ^ 63) :
    ∃ s', s.readFetched memory num =
        some ((q.readFetched num.toNat).1.map FetchedEntry.key, s') ∧
      s'.Carries (q.readFetched num.toNat).2 := by
  rw [← List.take_append_drop q.readpos q.file, List.map_append] at within
  obtain ⟨s', read, holds⟩ := Holds.readFetched memory h num within
  rw [← List.map_take, ← List.map_append, ← List.map_drop] at holds
  rw [← List.map_take, List.map_map] at read
  refine ⟨s', read, ?_⟩
  have taken : q.file.take (q.readpos + ((q.file.drop q.readpos).take num.toNat).length) =
      q.file.take q.readpos ++ (q.file.drop q.readpos).take num.toNat := by
    rw [List.take_add, List.length_take, ← List.take_take, List.take_length]
  have left : q.file.drop (q.readpos + ((q.file.drop q.readpos).take num.toNat).length) =
      (q.file.drop q.readpos).drop num.toNat := by
    rw [← List.drop_drop, List.length_take]
    rcases Nat.le_total num.toNat (q.file.drop q.readpos).length with enough | few
    · rw [Nat.min_eq_left enough]
    · rw [Nat.min_eq_right few, List.drop_length, List.drop_eq_nil_of_le few]
  unfold Carries FetchedQueue.readFetched
  dsimp only
  rw [taken, left]
  exact holds

end FetchedFiles

/-! ### Runs -/

section Runs

variable {memory : ℕ → UInt8} {s : FetchedFiles} {done left : List (List UInt8 × List UInt8)}
  {calls : List FifoCall}

theorem runFifo_eq (holds : s.Holds done left) (short : ∀ key ∈ savedKeys calls, key.length < 32)
    (within : ((done ++ left ++ (savedKeys calls).map fun key => (key, [])).flatMap contentBytes).length <
      2 ^ 63) : runFifo memory calls s = some (fifo calls (left.map Prod.fst)) := by
  induction calls generalizing s done left with
  | nil => rfl
  | cons call rest ih =>
      cases call with
      | saveFetched e =>
          obtain ⟨s', saved, holds'⟩ := holds.saveFetched (short e.key List.mem_cons_self)
          have later := ih holds' (fun key mem => short key (List.mem_cons_of_mem _ mem))
            (by simpa [savedKeys] using within)
          change (s.saveFetched e).bind _ = _
          rw [saved, Option.bind_some, later, List.map_append]
          rfl
      | readFetched num =>
          have room : ((done ++ left).flatMap contentBytes).length < 2 ^ 63 := by
            rw [List.flatMap_append, List.length_append] at within
            exact Nat.lt_of_add_right_lt within
          obtain ⟨s', read, holds'⟩ := holds.readFetched memory num room
          have later := ih holds' short
            (by rwa [List.append_assoc done, List.take_append_drop])
          unfold runFifo
          rw [read]
          change (runFifo memory rest s').bind _ = _
          rw [later, fifo, List.map_take, List.map_drop]
          rfl

theorem savedKeys_reads (nums : List ℤ) : savedKeys (nums.map .readFetched) = [] := by
  induction nums with
  | nil => rfl
  | cons num rest ih => exact ih

theorem flatten_fifo (nums : List ℤ) (queue : List (List UInt8)) :
    (fifo (nums.map .readFetched) queue).flatten = queue.take (asked nums) := by
  induction nums generalizing queue with
  | nil => rfl
  | cons num rest ih =>
      rw [List.map_cons, fifo, List.flatten_cons, ih, asked, List.take_add]

end Runs

/-- Records come back as they were written, and the reads of the queue return the keys in the order
they were saved in, wherever they split them. -/
theorem fetched_queue_fifo (memory : ℕ → UInt8) :
    (∀ (limit : ℕ) (records : List (List UInt8 × List UInt8)) (f : BigFile) (c : Content),
      4 ≤ limit → limit < 2 ^ 31 - 1 → writeContents records ⟨limit, [], 0⟩ = some f →
        ReadsBack memory records f.rewound c) ∧
    ∀ (records : List (List UInt8 × List UInt8)) (f : BigFile) (queue : Option (List UInt8))
      (lastpos : ℕ), writeContents records (.opened []) = some f → queue.getD [] = f.bytes →
        (∀ calls : List FifoCall, (∀ key ∈ savedKeys calls, key.length < 32) →
          (f.bytes ++ (savedKeys calls).flatMap fun key => contentBytes (key, [])).length < 2 ^ 63 →
            runFifo memory calls (FetchedFiles.start ⟨queue, none, lastpos⟩) =
              some (fifo calls (records.map Prod.fst))) ∧
        ∀ nums : List ℤ, f.bytes.length < 2 ^ 63 → asked nums = records.length →
          ∃ fetched, runFifo memory (nums.map .readFetched)
            (FetchedFiles.start ⟨queue, none, lastpos⟩) = some fetched ∧
              fetched.flatten = records.map Prod.fst := by
  constructor
  · intro limit records f c lengths int written
    obtain ⟨rfl, fits⟩ := writeContents_eq written lengths
    exact readsBack_written memory ⟨Nat.zero_le _, rfl⟩ fits lengths int
  · intro records f queue lastpos written held
    obtain ⟨rfl, fits⟩ := writeContents_eq written (show 4 ≤ 1024 * 1024 * 1024 by decide)
    have holds : (FetchedFiles.start ⟨queue, none, lastpos⟩).Holds [] records := ⟨held, rfl, fits⟩
    have bytes : (BigFile.opened []).bytes ++ records.flatMap contentBytes = records.flatMap contentBytes :=
      List.nil_append _
    dsimp only
    rw [bytes]
    constructor
    · intro calls short within
      apply runFifo_eq holds short
      rwa [List.nil_append, List.flatMap_append, List.flatMap_map]
    · intro nums within all
      have reads := savedKeys_reads nums
      refine ⟨_, runFifo_eq holds (by rw [reads]; intro key mem; cases mem) ?_, ?_⟩
      · rwa [reads, List.nil_append, List.map_nil, List.append_nil]
      · rw [flatten_fifo, all, ← List.length_map Prod.fst, List.take_length]

/-- A record with data and an empty one. -/
def twoRecords : List (List UInt8 × List UInt8) := [([97], [98, 99]), ([], [])]

/-- They are there already, another one is saved, and the last read asks for too many. -/
theorem fetched_queue_fifo_three :
    writeContents twoRecords (.opened []) = some (.opened (twoRecords.flatMap contentBytes)) ∧
    ReadsBack (fun _ => 0) twoRecords (.opened (twoRecords.flatMap contentBytes)) ⟨[], 0, [], 0⟩ ∧
    runFifo (fun _ => 0) [.readFetched 1, .saveFetched ⟨7, 3⟩, .readFetched 5]
      (FetchedFiles.start ⟨some (twoRecords.flatMap contentBytes), none, 0⟩) =
        some [[[97]], [[], [55, 47, 51]]] ∧
    ∃ fetched, runFifo (fun _ => 0) ([1, 0, 1].map .readFetched)
      (FetchedFiles.start ⟨some (twoRecords.flatMap contentBytes), none, 0⟩) = some fetched ∧
        fetched.flatten = [[97], []] := by
  have written : writeContents twoRecords (.opened []) =
      some (.opened (twoRecords.flatMap contentBytes)) := rfl
  obtain ⟨back, queue⟩ := fetched_queue_fifo fun _ => 0
  obtain ⟨runs, splits⟩ := queue twoRecords _ (some _) 0 written rfl
  refine ⟨written, back _ twoRecords _ _ (by decide) (by decide) written, ?_, ?_⟩
  · rw [← BigFile.bytes_opened (twoRecords.flatMap contentBytes), runs _ (by decide) (by decide)]
    decide
  · exact splits [1, 0, 1] (by decide) rfl

end BloomServer
