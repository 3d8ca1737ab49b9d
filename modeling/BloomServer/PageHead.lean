import BloomServer.Library.DecimalText
import Mathlib.Data.UInt

/-! The text in front of a stored record: `writeHead`, `readHead` and `appendPageHead`. -/
namespace BloomServer
open DecimalText

structure ContentPageHead where
  id : UInt64
  offset : Int64
  length : UInt64
  page : Int32
  deriving DecidableEq

/-- The array `contentPageHead` is `none` while the pointer is null. -/
structure ContentHead where
  totallength : UInt64
  headlength : UInt64
  totalpage : Int32
  nowpage : Int32
  taskid : Int32
  batchid : Int32
  contentPageHead : Option (List ContentPageHead)
  deriving DecidableEq

/-- The constructors. -/
def ContentPageHead.new : ContentPageHead := ⟨0, 0, 0, 1⟩
def ContentHead.new : ContentHead := ⟨0, 0, 0, 0, -1, -1, none⟩

/-! ### Printing and scanning -/

/-- What `%d` prints of a 64-bit argument. -/
def lowInt (x : UInt64) : ℤ := x.toUInt32.toInt32.toInt

/-- The format `%d/%d/…/`. -/
def slashed (fields : List ℤ) : List UInt8 := fields.flatMap fun z => printInt z ++ [47]

/-- `sprintf` into a `char[64]`. -/
def sprintf64 (text : List UInt8) : Option (List UInt8) := if text.length < 64 then some text else none

/-- `sscanf` with conversions that are each followed by a slash: the values assigned before the
first mismatch. A conversion may have a width. -/
def scanSlashed : List (Option ℕ) → List UInt8 → List ℤ
  | [], _ => []
  | limit :: limits, text =>
      match scanInt limit text with
      | none => []
      | some (z, []) => [z]
      | some (z, b :: rest) => if b = 47 then z :: scanSlashed limits rest else [z]

/-- The value `%d` assigns: `strtol` saturates, the conversion to `int` wraps. -/
def intOf (z : ℤ) : Int32 := Int32.ofInt (max (-2 ^ 63) (min z (2 ^ 63 - 1)))

/-- The value `%llu` assigns. -/
def uLongLongOf (z : ℤ) : UInt64 := if 2 ^ 64 ≤ z.natAbs then UInt64.ofNat (2 ^ 64 - 1) else UInt64.ofInt z

/-- An `int` variable after `sscanf`. -/
def assignInt (old : Int32) (scanned : Option ℤ) : Int32 := scanned.elim old intOf

/-- A 64-bit variable after `sscanf` with `%d`, which writes its lower half. -/
def assignLow (old : UInt64) (scanned : Option ℤ) : UInt64 :=
  scanned.elim old fun z => (old &&& 0xFFFFFFFF00000000) ||| (intOf z).toUInt32.toUInt64

def pageLine (p : ContentPageHead) : List UInt8 :=
  slashed [(p.id.toNat : ℤ), lowInt p.offset.toUInt64, lowInt p.length, p.page.toInt]

/-- What follows the head length. -/
def totalsLine (head : ContentHead) : List UInt8 :=
  slashed [lowInt head.totallength, head.totalpage.toInt, head.nowpage.toInt, head.taskid.toInt,
    head.batchid.toInt]

/-! ### The three functions -/

/-- The loop over the page heads, from index `i` on, with `rest` of them to go. -/
def writePages (pages : List ContentPageHead) : ℕ → ℕ → Option (List UInt8)
  | 0, _ => some []
  | rest + 1, i => do
      let page ← pages[i]?
      let line ← sprintf64 (pageLine page)
      let more ← writePages pages rest (i + 1)
      return line ++ more

/-- The value returned, the text, and the head with its length filled in. -/
def writeHead (head : ContentHead) : Option (ℕ × List UInt8 × ContentHead) := do
  let line ← sprintf64 (totalsLine head)
  let pages ← writePages (head.contentPageHead.getD []) head.nowpage.toInt.toNat 0
  let buffer := line ++ pages
  let headlength := buffer.length
  let text := padLeft 8 (printInt (headlength + 8 + 1)) ++ [47] ++ buffer
  return (headlength, text, { head with headlength := UInt64.ofNat text.length })

/-- A page head after the `sscanf` of its line. -/
def ContentPageHead.assign (p : ContentPageHead) (scanned : List ℤ) : ContentPageHead where
  id := scanned[0]?.elim p.id uLongLongOf
  offset := (assignLow p.offset.toUInt64 scanned[1]?).toInt64
  length := assignLow p.length scanned[2]?
  page := assignInt p.page scanned[3]?

/-- A head after the `sscanf` of its first line. -/
def ContentHead.assign (head : ContentHead) (scanned : List ℤ) : ContentHead :=
  { head with
    headlength := assignLow head.headlength scanned[0]?
    totallength := assignLow head.totallength scanned[1]?
    totalpage := assignInt head.totalpage scanned[2]?
    nowpage := assignInt head.nowpage scanned[3]?
    taskid := assignInt head.taskid scanned[4]?
    batchid := assignInt head.batchid scanned[5]? }

def readPages : ℕ → List UInt8 → Option (List ContentPageHead)
  | 0, _ => some []
  | rest + 1, buf => do
      let page := ContentPageHead.new.assign (scanSlashed [none, none, none, none] buf)
      let line ← sprintf64 (pageLine page)
      let pages ← readPages rest (buf.drop line.length)
      return page :: pages

def readHead (buf : List UInt8) (head : ContentHead) : Option ContentHead := do
  let head := head.assign (scanSlashed [some 8, none, none, none, none, none] buf)
  let line ← sprintf64 (padLeft 8 (printInt (lowInt head.headlength)) ++ [47] ++ totalsLine head)
  if head.nowpage < 0 then none
  else
    let pages ← readPages head.nowpage.toInt.toNat (buf.drop line.length)
    return { head with contentPageHead := some pages }

/-- The head with room for one page more, and the index of that page. -/
def appendPageHead (head : ContentHead) : ContentHead × ℕ :=
  match head.contentPageHead with
  | some pages =>
      ({ head with
          contentPageHead := some (pages.take head.nowpage.toInt.toNat ++ [.new])
          nowpage := head.nowpage + 1 },
        head.nowpage.toInt.toNat)
  | none => ({ head with contentPageHead := some [.new] }, 0)

/-! ### Round trips of single values -/

theorem lowInt_of_lt {x : UInt64} (small : x.toNat < 2 ^ 31) : lowInt x = x.toNat := by
  have low : x.toUInt32.toNat = x.toNat := by
    rw [UInt64.toNat_toUInt32]
    omega
  have value : x.toUInt32.toInt32.toInt = x.toUInt32.toBitVec.toInt := rfl
  rw [lowInt, value, BitVec.toInt_eq_toNat_cond]
  change (if 2 * x.toUInt32.toNat < 2 ^ 32 then (x.toUInt32.toNat : ℤ) else _) = _
  rw [low, if_pos (by omega)]

theorem toInt_lt (a : Int32) : a.toInt < 2 ^ 31 := by
  have top := a.toInt_le
  change a.toInt ≤ 2 ^ 31 - 1 at top
  omega

theorem intOf_toInt (a : Int32) : intOf a.toInt = a := by
  have low := a.minValue_le_toInt
  have high := toInt_lt a
  change -2 ^ 31 ≤ a.toInt at low
  rw [intOf, min_eq_left (by omega), max_eq_right (by omega), Int32.ofInt_toInt]

theorem assignInt_toInt (old a : Int32) : assignInt old (some a.toInt) = a := intOf_toInt a

theorem assignLow_of_lt {x : UInt64} (small : x.toNat < 2 ^ 31) :
    assignLow 0 (some (x.toNat : ℤ)) = x := by
  have value : (x.toNat : ℤ) = x.toUInt32.toInt32.toInt := (lowInt_of_lt small).symm
  have low : x.toUInt32.toUInt64 = x := by
    apply UInt64.toNat_inj.mp
    rw [UInt32.toNat_toUInt64, UInt64.toNat_toUInt32]
    omega
  change (0 &&& 0xFFFFFFFF00000000) ||| (intOf (x.toNat : ℤ)).toUInt32.toUInt64 = x
  rw [value, intOf_toInt, UInt32.toUInt32_toInt32, low, UInt64.zero_and, UInt64.zero_or]

theorem uLongLongOf_toNat (x : UInt64) : uLongLongOf (x.toNat : ℤ) = x := by
  have bound := x.toNat_lt
  have same : ((x.toNat : ℤ) % 2 ^ 64).toNat = x.toNat := by omega
  rw [uLongLongOf, if_neg (by omega)]
  change UInt64.ofNat ((x.toNat : ℤ) % 2 ^ 64).toNat = x
  rw [same, UInt64.ofNat_toNat]

theorem printInt_natCast (n : ℕ) : printInt (n : ℤ) = decimal n := by
  rw [printInt, if_neg (by omega), Int.natAbs_natCast]

theorem length_printInt_le {z : ℤ} {k : ℕ} (low : 0 ≤ z) (high : z < 10 ^ k) (positive : 0 < k) :
    (printInt z).length ≤ k := by
  obtain ⟨n, rfl⟩ := Int.eq_ofNat_of_zero_le low
  rw [printInt_natCast, length_decimal_le_iff positive]
  exact_mod_cast high

theorem length_printInt_toInt (a : Int32) : (printInt a.toInt).length ≤ 11 := by
  have low := a.minValue_le_toInt
  have high := toInt_lt a
  change -2 ^ 31 ≤ a.toInt at low
  have digits : (decimal a.toInt.natAbs).length ≤ 10 := by
    rw [length_decimal_le_iff (by decide)]
    omega
  unfold printInt
  split_ifs
  · rw [List.length_cons]
    omega
  · omega

/-- What was printed with slashes is scanned back, whatever follows. -/
theorem scanSlashed_slashed (fields : List ℤ) (rest : List UInt8) :
    scanSlashed (fields.map fun _ => none) (slashed fields ++ rest) = fields := by
  induction fields with
  | nil => rfl
  | cons z fields ih =>
      have first := scanInt_printInt none (c := 47) z rfl 0 (slashed fields ++ rest)
        (by simp)
      rw [List.replicate_zero, List.nil_append] at first
      have shape : slashed (z :: fields) ++ rest =
          printInt z ++ 47 :: (slashed fields ++ rest) := by
        rw [slashed, List.flatMap_cons, ← slashed]
        simp only [List.append_assoc, List.cons_append, List.nil_append]
      rw [shape, List.map_cons, scanSlashed, first]
      dsimp only
      rw [if_pos rfl, ih]

/-- The same behind a padded number of at most eight digits. -/
theorem scanSlashed_padded {n : ℕ} (short : n < 10 ^ 8) (fields : List ℤ) (rest : List UInt8) :
    scanSlashed (some 8 :: fields.map fun _ => none)
      (padLeft 8 (printInt n) ++ [47] ++ slashed fields ++ rest) = (n : ℤ) :: fields := by
  have width : (printInt (n : ℤ)).length ≤ 8 := by
    rw [printInt_natCast, length_decimal_le_iff (by decide)]
    exact short
  have first := scanInt_padLeft width (c := 47) rfl (slashed fields ++ rest)
  have shape : padLeft 8 (printInt n) ++ [47] ++ slashed fields ++ rest =
      padLeft 8 (printInt n) ++ 47 :: (slashed fields ++ rest) := by
    simp only [List.append_assoc, List.cons_append, List.nil_append]
  rw [shape, scanSlashed, first]
  dsimp only
  rw [if_pos rfl, scanSlashed_slashed]

/-! ### The heads the functions are used on -/

/-- A page head whose 64-bit numbers are those of non-negative `int`s. -/
structure ContentPageHead.Plain (p : ContentPageHead) : Prop where
  offset : 0 ≤ p.offset.toInt ∧ p.offset.toInt < 2 ^ 31
  length : p.length.toNat < 2 ^ 31

/-- A head with as many page heads as it says, whose 64-bit numbers are those of non-negative
`int`s. -/
structure ContentHead.Counted (head : ContentHead) : Prop where
  pages : head.nowpage.toInt = (head.contentPageHead.getD []).length
  each : ∀ p ∈ head.contentPageHead.getD [], p.Plain
  totallength : head.totallength.toNat < 2 ^ 31

/-- The same with the other numbers not negative either. -/
structure ContentHead.Plain (head : ContentHead) : Prop extends head.Counted where
  totalpage : 0 ≤ head.totalpage.toInt
  taskid : 0 ≤ head.taskid.toInt
  batchid : 0 ≤ head.batchid.toInt

theorem toNat_toUInt64_offset {p : ContentPageHead} (plain : p.Plain) :
    (p.offset.toUInt64.toNat : ℤ) = p.offset.toInt ∧ p.offset.toUInt64.toNat < 2 ^ 31 := by
  have low := plain.offset.1
  have high := plain.offset.2
  have value : p.offset.toUInt64.toNat = p.offset.toInt.toNat := by
    rw [Int64.toNat_toUInt64_of_le (Int64.le_iff_toInt_le.mpr low)]
    rfl
  omega

theorem length_slashed (fields : List ℤ) :
    (slashed fields).length = (fields.map fun z => (printInt z).length + 1).sum := by
  induction fields with
  | nil => rfl
  | cons z fields ih =>
      rw [slashed, List.flatMap_cons, ← slashed, List.length_append, ih, List.length_append]
      rfl

/-- A line of a page head fits the buffer and is at least eight bytes long. -/
theorem pageLine_length {p : ContentPageHead} (plain : p.Plain) :
    (pageLine p).length < 64 ∧ 8 ≤ (pageLine p).length := by
  obtain ⟨offset, small⟩ := toNat_toUInt64_offset plain
  have length := plain.length
  have id := p.id.toNat_lt
  have one := length_printInt_le (z := (p.id.toNat : ℤ)) (k := 20) (by omega) (by omega) (by decide)
  have two := length_printInt_le (z := lowInt p.offset.toUInt64) (k := 10)
    (by rw [lowInt_of_lt small]; omega) (by rw [lowInt_of_lt small]; omega) (by decide)
  have three := length_printInt_le (z := lowInt p.length) (k := 10)
    (by rw [lowInt_of_lt length]; omega) (by rw [lowInt_of_lt length]; omega) (by decide)
  have four := length_printInt_toInt p.page
  have some (z : ℤ) : 0 < (printInt z).length := by
    unfold printInt
    split_ifs
    · exact Nat.succ_pos _
    · exact length_decimal_pos _
  have s1 := some (p.id.toNat : ℤ)
  have s2 := some (lowInt p.offset.toUInt64)
  have s3 := some (lowInt p.length)
  have s4 := some p.page.toInt
  rw [pageLine, length_slashed]
  simp only [List.map_cons, List.map_nil, List.sum_cons, List.sum_nil]
  omega

theorem writePages_eq {pages : List ContentPageHead} (each : ∀ p ∈ pages, p.Plain)
    (done todo : List ContentPageHead) (cut : pages = done ++ todo) :
    writePages pages todo.length done.length = some (todo.flatMap pageLine) := by
  induction todo generalizing done with
  | nil => rfl
  | cons p todo ih =>
      have here : pages[done.length]? = some p := by rw [cut]; simp
      have plain : p.Plain := each p (by rw [cut]; simp)
      have line : sprintf64 (pageLine p) = some (pageLine p) := if_pos (pageLine_length plain).1
      have rest := ih (done ++ [p]) (by rw [cut]; simp)
      rw [List.length_append, List.length_singleton] at rest
      rw [List.length_cons, writePages, here]
      simp only [Option.bind_eq_bind, Option.bind_some, line, rest, List.flatMap_cons]
      rfl

theorem ContentPageHead.assign_scanned {p : ContentPageHead} (plain : p.Plain) :
    ContentPageHead.new.assign
      [(p.id.toNat : ℤ), lowInt p.offset.toUInt64, lowInt p.length, p.page.toInt] = p := by
  obtain ⟨_, small⟩ := toNat_toUInt64_offset plain
  have offset : (assignLow 0 (some (p.offset.toUInt64.toNat : ℤ))).toInt64 = p.offset := by
    rw [assignLow_of_lt small, Int64.toInt64_toUInt64]
  rw [lowInt_of_lt small, lowInt_of_lt plain.length]
  change ContentPageHead.mk (uLongLongOf (p.id.toNat : ℤ))
    (assignLow 0 (some (p.offset.toUInt64.toNat : ℤ))).toInt64
    (assignLow 0 (some (p.length.toNat : ℤ))) (assignInt 1 (some p.page.toInt)) = p
  rw [uLongLongOf_toNat, offset, assignLow_of_lt plain.length, assignInt_toInt]

/-- The page heads are read back from what was printed of them, whatever follows. -/
theorem readPages_eq {pages : List ContentPageHead} (each : ∀ p ∈ pages, p.Plain)
    (rest : List UInt8) :
    readPages pages.length (pages.flatMap pageLine ++ rest) = some pages := by
  induction pages with
  | nil => rfl
  | cons p pages ih =>
      have plain : p.Plain := each p List.mem_cons_self
      have scanned : ContentPageHead.new.assign (scanSlashed [none, none, none, none]
          (pageLine p ++ (pages.flatMap pageLine ++ rest))) = p := by
        have fields := scanSlashed_slashed
          [(p.id.toNat : ℤ), lowInt p.offset.toUInt64, lowInt p.length, p.page.toInt]
          (pages.flatMap pageLine ++ rest)
        rw [← pageLine] at fields
        change scanSlashed [none, none, none, none] _ = _ at fields
        rw [fields, ContentPageHead.assign_scanned plain]
      have line : sprintf64 (pageLine p) = some (pageLine p) := if_pos (pageLine_length plain).1
      have later := ih fun q mem => each q (List.mem_cons_of_mem p mem)
      rw [List.length_cons, List.flatMap_cons, List.append_assoc, readPages]
      simp only [scanned, line, Option.bind_eq_bind, Option.bind_some, List.drop_left, later]
      rfl

/-- Each page head takes at least eight bytes. -/
theorem length_pages_le {pages : List ContentPageHead} (each : ∀ p ∈ pages, p.Plain) :
    8 * pages.length ≤ (pages.flatMap pageLine).length := by
  induction pages with
  | nil => exact Nat.zero_le _
  | cons p pages ih =>
      have first := (pageLine_length (each p List.mem_cons_self)).2
      have rest := ih fun q mem => each q (List.mem_cons_of_mem p mem)
      rw [List.flatMap_cons, List.length_append, List.length_cons]
      omega

theorem totalsLine_length (head : ContentHead) : (totalsLine head).length < 64 := by
  have one := length_printInt_toInt head.totallength.toUInt32.toInt32
  have two := length_printInt_toInt head.totalpage
  have three := length_printInt_toInt head.nowpage
  have four := length_printInt_toInt head.taskid
  have five := length_printInt_toInt head.batchid
  rw [totalsLine, length_slashed]
  simp only [List.map_cons, List.map_nil, List.sum_cons, List.sum_nil, lowInt]
  omega

/-- The text of a head, given the text of its totals and pages. -/
def headText (buffer : List UInt8) : List UInt8 :=
  padLeft 8 (printInt (buffer.length + 8 + 1)) ++ [47] ++ buffer

/-- The text of a head. -/
def ContentHead.text (head : ContentHead) : List UInt8 :=
  headText (totalsLine head ++ (head.contentPageHead.getD []).flatMap pageLine)

theorem writeHead_eq {head : ContentHead}
    (pages : head.nowpage.toInt = (head.contentPageHead.getD []).length)
    (each : ∀ p ∈ head.contentPageHead.getD [], p.Plain) :
    ∃ ret, writeHead head =
      some (ret, head.text, { head with headlength := UInt64.ofNat head.text.length }) := by
  have line : sprintf64 (totalsLine head) = some (totalsLine head) :=
    if_pos (totalsLine_length head)
  have lines := writePages_eq each [] (head.contentPageHead.getD []) rfl
  rw [List.length_nil] at lines
  have count : head.nowpage.toInt.toNat = (head.contentPageHead.getD []).length := by
    rw [pages]
    rfl
  refine ⟨(totalsLine head ++ (head.contentPageHead.getD []).flatMap pageLine).length, ?_⟩
  unfold writeHead
  rw [line, count, lines]
  rfl

theorem length_headText {buffer : List UInt8} (short : (headText buffer).length < 10 ^ 8) :
    (headText buffer).length = buffer.length + 8 + 1 := by
  have all : (headText buffer).length =
      (padLeft 8 (printInt (buffer.length + 8 + 1))).length + 1 + buffer.length := by
    rw [headText, List.length_append, List.length_append, List.length_singleton]
  have width : (printInt (buffer.length + 8 + 1)).length ≤ 8 := by
    have least : 8 ≤ (padLeft 8 (printInt (buffer.length + 8 + 1))).length := by
      rw [padLeft, List.length_append, List.length_replicate]
      omega
    exact length_printInt_le (by omega) (by omega) (by decide)
  rw [all, length_padLeft width]
  omega

theorem ContentHead.assign_totals {head : ContentHead} (counted : head.Counted) {n : ℕ}
    (small : n < 2 ^ 31) :
    ContentHead.new.assign [(n : ℤ), lowInt head.totallength, head.totalpage.toInt,
      head.nowpage.toInt, head.taskid.toInt, head.batchid.toInt] =
        { head with headlength := UInt64.ofNat n, contentPageHead := none } := by
  have length : assignLow 0 (some (n : ℤ)) = UInt64.ofNat n := by
    have value : (UInt64.ofNat n).toNat = n := by
      rw [UInt64.toNat_ofNat']
      omega
    have back := assignLow_of_lt (x := UInt64.ofNat n) (by rw [value]; exact small)
    rwa [value] at back
  rw [lowInt_of_lt counted.totallength]
  change ContentHead.mk (assignLow 0 (some (head.totallength.toNat : ℤ)))
    (assignLow 0 (some (n : ℤ))) (assignInt 0 (some head.totalpage.toInt))
    (assignInt 0 (some head.nowpage.toInt)) (assignInt (-1) (some head.taskid.toInt))
    (assignInt (-1) (some head.batchid.toInt)) none = _
  rw [length, assignLow_of_lt counted.totallength, assignInt_toInt, assignInt_toInt, assignInt_toInt,
    assignInt_toInt]

/-- The text begins with its own length. -/
theorem ContentHead.text_eq {head : ContentHead} (short : head.text.length < 10 ^ 8) :
    head.text = padLeft 8 (printInt head.text.length) ++ [47] ++ totalsLine head ++
      (head.contentPageHead.getD []).flatMap pageLine := by
  have number : (head.text.length : ℤ) = ((totalsLine head ++
      (head.contentPageHead.getD []).flatMap pageLine).length : ℤ) + 8 + 1 := by
    exact_mod_cast length_headText short
  rw [number, ContentHead.text, headText]
  simp only [List.append_assoc]

/-- Rewriting the first line of a plain head fits the buffer of `readHead`. -/
theorem ContentHead.Plain.room {head : ContentHead} (plain : head.Plain)
    (short : head.text.length < 10 ^ 8) :
    (padLeft 8 (printInt head.text.length) ++ [47] ++ totalsLine head).length < 64 := by
  have total := plain.totallength
  have count := length_pages_le plain.each
  have lengths := congrArg List.length (ContentHead.text_eq short)
  have width := length_printInt_le (z := (head.text.length : ℤ)) (k := 8) (by omega) (by omega)
    (by decide)
  rw [List.length_append, List.length_append, List.length_append] at lengths
  have one := length_printInt_le (z := lowInt head.totallength) (k := 10)
    (by rw [lowInt_of_lt total]; omega) (by rw [lowInt_of_lt total]; omega) (by decide)
  have digits := length_printInt_le (z := head.nowpage.toInt) (k := 8)
    (by rw [plain.pages]; omega) (by rw [plain.pages]; omega) (by decide)
  have int (a : Int32) (low : 0 ≤ a.toInt) : (printInt a.toInt).length ≤ 10 := by
    have top := toInt_lt a
    exact length_printInt_le low (by omega) (by decide)
  have two := int head.totalpage plain.totalpage
  have three := int head.taskid plain.taskid
  have four := int head.batchid plain.batchid
  rw [List.length_append, List.length_append, length_padLeft width, totalsLine, length_slashed]
  simp only [List.map_cons, List.map_nil, List.sum_cons, List.sum_nil, List.length_singleton]
  omega

theorem readHead_eq {head : ContentHead} (counted : head.Counted) (short : head.text.length < 10 ^ 8)
    (room : (padLeft 8 (printInt head.text.length) ++ [47] ++ totalsLine head).length < 64)
    (body : List UInt8) :
    readHead (head.text ++ body) .new = some { head with
      headlength := UInt64.ofNat head.text.length
      contentPageHead := some (head.contentPageHead.getD []) } := by
  have text := ContentHead.text_eq short
  generalize head.text.length = n at short room text ⊢
  have value : lowInt (UInt64.ofNat n) = n := by
    have back : (UInt64.ofNat n).toNat = n := by
      rw [UInt64.toNat_ofNat']
      omega
    rw [lowInt_of_lt (by rw [back]; omega), back]
  have first : sprintf64 (padLeft 8 (printInt n) ++ [47] ++ totalsLine head) =
      some (padLeft 8 (printInt n) ++ [47] ++ totalsLine head) := if_pos room
  have scanned := scanSlashed_padded short
    [lowInt head.totallength, head.totalpage.toInt, head.nowpage.toInt, head.taskid.toInt,
      head.batchid.toInt] ((head.contentPageHead.getD []).flatMap pageLine ++ body)
  rw [← totalsLine, ← List.append_assoc _ _ body, ← text] at scanned
  change scanSlashed [some 8, none, none, none, none, none] _ = _ at scanned
  have natural : head.nowpage.toInt.toNat = (head.contentPageHead.getD []).length := by
    rw [counted.pages]
    rfl
  have positive : ¬ head.nowpage < 0 := by
    rw [Int32.lt_iff_toInt_lt, counted.pages]
    change ¬ ((head.contentPageHead.getD []).length : ℤ) < 0
    omega
  have body' : (head.text ++ body).drop
      (padLeft 8 (printInt n) ++ [47] ++ totalsLine head).length =
        (head.contentPageHead.getD []).flatMap pageLine ++ body := by
    rw [text, List.append_assoc _ _ body, List.drop_left]
  unfold readHead
  rw [scanned, ContentHead.assign_totals counted (by omega)]
  change (sprintf64 (padLeft 8 (printInt (lowInt (UInt64.ofNat n))) ++ [47] ++ totalsLine head)).bind
    (fun line => if head.nowpage < 0 then none
      else (readPages head.nowpage.toInt.toNat ((head.text ++ body).drop line.length)).bind fun pages =>
        some { head with headlength := UInt64.ofNat n, contentPageHead := some pages }) = _
  rw [value, first, Option.bind_some, if_neg positive, body', natural, readPages_eq counted.each,
    Option.bind_some]

/-- A head comes back from its text, whatever body follows it, and the body begins where the
head says. -/
theorem head_roundTrips {head : ContentHead} (plain : head.Plain) :
    ∃ ret text, writeHead head =
        some (ret, text, { head with headlength := UInt64.ofNat text.length }) ∧
      (text.length < 10 ^ 8 → ∀ body,
        readHead (text ++ body) .new = some { head with
          headlength := UInt64.ofNat text.length
          contentPageHead := some (head.contentPageHead.getD []) } ∧
        (UInt64.ofNat text.length).toNat = text.length ∧
        scanInt (some 8) (text ++ body) = some ((text.length : ℤ), (text ++ body).drop 8) ∧
        (text ++ body).drop text.length = body) := by
  obtain ⟨ret, written⟩ := writeHead_eq plain.pages plain.each
  refine ⟨ret, head.text, written, fun short body =>
    ⟨readHead_eq plain.toCounted short (plain.room short) body, ?_, ?_, ?_⟩⟩
  · rw [UInt64.toNat_ofNat']
    omega
  · have width : (printInt (head.text.length : ℤ)).length ≤ 8 :=
      length_printInt_le (by omega) (by omega) (by decide)
    have shape : head.text ++ body = padLeft 8 (printInt head.text.length) ++
        47 :: (totalsLine head ++ ((head.contentPageHead.getD []).flatMap pageLine ++ body)) := by
      rw [congrArg (· ++ body) (ContentHead.text_eq short)]
      simp only [List.append_assoc, List.cons_append, List.nil_append]
    rw [shape, scanInt_padLeft width rfl, List.drop_left' (length_padLeft width)]
  · exact List.drop_left

/-- A head of two pages. -/
def twoPages : ContentHead where
  totallength := 1030
  headlength := 0
  totalpage := 2
  nowpage := 2
  taskid := 7
  batchid := 1
  contentPageHead := some [⟨18446744073709551615, 0, 999, 1⟩, ⟨5, 999, 31, 2⟩]

theorem head_roundTrips_two : ∃ text head, readHead (text ++ [49, 47, 0]) .new = some head ∧
    head.contentPageHead = twoPages.contentPageHead ∧ head.headlength.toNat = text.length ∧
    (text ++ [49, 47, 0]).drop text.length = [49, 47, 0] := by
  have plain : twoPages.Plain := by
    refine ⟨⟨rfl, ?_, by decide⟩, by decide, by decide, by decide⟩
    intro p mem
    have either : p = ⟨18446744073709551615, 0, 999, 1⟩ ∨ p = ⟨5, 999, 31, 2⟩ := by
      simpa [twoPages] using mem
    rcases either with rfl | rfl
    · exact ⟨by decide, by decide⟩
    · exact ⟨by decide, by decide⟩
  obtain ⟨ret, text, written, back⟩ := head_roundTrips plain
  have size : (writeHead twoPages).map (fun r => r.2.1.length) = some 62 := by decide +kernel
  rw [written, Option.map_some, Option.some.injEq] at size
  obtain ⟨read, value, _, rest⟩ := back (by rw [size]; decide) [49, 47, 0]
  exact ⟨text, _, read, rfl, value, rest⟩

end BloomServer
