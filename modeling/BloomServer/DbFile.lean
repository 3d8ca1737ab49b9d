import BloomServer.Library.ByteFile
import BloomServer.Library.DecimalText
import Mathlib.Data.UInt

/-! The files of the on-disk hash store: chain pointers, index records and data records
(`tools/db.cpp`, the binary format). -/
namespace BloomServer
open DecimalText

def ptrSz : ℕ := 9
def idxlenSz : ℕ := 4
def ptrMax : ℕ := 999999999
def idxlenMin : ℕ := 6
def idxlenMax : ℕ := 4096
def datlenMax : ℕ := 1024 * 1024 * 2
def dataFilelenMax : ℕ := 2000000000
def nhashDef : ℕ := 1572869
def freeOff : ℕ := 0
def hashOff : ℕ := ptrSz

/-- A record of an index file that has been read or is being written. -/
structure Dbd where
  idxbuf : List UInt8
  datbuf : List UInt8
  idxoff : ℕ
  datoff : ℕ
  chainoff : ℕ
  ptroff : ℕ
  ptrval : ℕ
  datlen : ℕ
  idxlen : ℕ
  isfree : ℕ
  datlenU : ℕ
  idxlenU : ℕ
  idxlenA : ℕ
  deriving DecidableEq

/-- `dbd_alloc`. -/
def Dbd.alloc : Dbd := ⟨[], [], 0, 0, 0, 0, 0, 0, 0, 0, 0, 0, 0⟩

/-- A free record, as it is kept in memory. -/
structure Fsdbd where
  offset : ℕ
  datlen : ℕ
  idxlenA : ℕ
  deriving DecidableEq

structure Db where
  idx : ByteFile
  dat : ByteFile
  idxLen : ℕ
  datLen : ℕ
  freeList : List Fsdbd

/-! ### Numbers in the index file -/

/-- What `atol` makes of a C string. -/
def atol (text : List UInt8) : ℤ :=
  (scanInt none (text ++ [0])).elim 0 fun p => max (-2 ^ 63) (min p.1 (2 ^ 63 - 1))

/-- A field whose value is an offset or a length; there are no negative ones. -/
def natField (text : List UInt8) : Option ℕ := if 0 ≤ atol text then some (atol text).toNat else none

def dbReadptr (f : ByteFile) (offset : ℕ) : Option ℕ :=
  let asciiptr := f.pread ptrSz offset
  if asciiptr.length = ptrSz then natField asciiptr else none

/-- A pointer with more digits overflows the buffer it is printed to. -/
def dbWriteptr (db : Db) (offset ptrval : ℕ) : Option Db :=
  if ptrMax < ptrval then none
  else some { db with idx := db.idx.pwrite (padLeft ptrSz (decimal ptrval)) offset }

/-! ### Index records -/

/-- The text up to the last separator, and the text behind it. -/
def cutLast (text : List UInt8) : Option (List UInt8 × List UInt8) :=
  let field := (text.reverse.takeWhile (· != 58)).reverse
  if field.length = text.length then none
  else some (text.take (text.length - field.length - 1), field)

/-- The fields behind the key, from the last to the first, and the key. -/
def scanIdx (offset ptrval idxlen : ℕ) (idxbuf : List UInt8) : Option Dbd := do
  let (idxbuf, ptr5) ← cutLast idxbuf
  let (idxbuf, ptr4) ← cutLast idxbuf
  let (idxbuf, ptr3) ← cutLast idxbuf
  let (idxbuf, ptr1) ← cutLast idxbuf
  let (idxbuf, ptr2) ← cutLast idxbuf
  let datoff ← natField ptr2
  let datlen ← natField ptr1
  if datlenMax < datlen then none
  else
    let idxlenU ← natField ptr3
    let datlenU ← natField ptr4
    let isfree ← natField ptr5
    return { Dbd.alloc with
      idxbuf := idxbuf.take idxlenU
      idxoff := offset, datoff, ptrval, datlen, idxlen, isfree, datlenU, idxlenU
      idxlenA := idxbuf.length }

/-- `none` is an answer of -1, or a number that should not be negative. -/
def dbReadidx (f : ByteFile) (offset : ℕ) : Option Dbd := do
  let ptrval ← dbReadptr f offset
  let asciilen := f.pread idxlenSz (offset + ptrSz)
  if asciilen.length ≠ idxlenSz then none
  else
    let idxlen ← natField asciilen
    if idxlen < idxlenMin ∨ idxlenMax < idxlen then none
    else
      let idxbuf := f.pread idxlen (offset + ptrSz + idxlenSz)
      if idxbuf.length ≠ idxlen ∨ idxbuf.getLast? ≠ some 10 then none
      else scanIdx offset ptrval idxlen (idxbuf.dropLast.takeWhile (· != 0))

/-- The key on the left of an area that is as wide as asked for. -/
def padRight (width : ℕ) (text : List UInt8) : List UInt8 :=
  text ++ List.replicate (width - text.length) 32

/-- What `_db_writeidx` prints, up to the newline. -/
def indexText (idxlenA : ℕ) (key : List UInt8) (datoff datlen datlenU isfree : ℕ) : List UInt8 :=
  padRight idxlenA key ++ [58] ++ decimal datoff ++ [58] ++ decimal datlen ++ [58] ++
    decimal key.length ++ [58] ++ decimal datlenU ++ [58] ++ decimal isfree

def Dbd.text (dbd : Dbd) (key : List UInt8) : List UInt8 :=
  indexText dbd.idxlenA key dbd.datoff dbd.datlen dbd.datlenU dbd.isfree

/-- The value returned, and the record and the files afterwards. A text that is longer than the
buffer overflows it. -/
def dbWriteidx (db : Db) (dbd : Dbd) (key : List UInt8) (offset : ℕ) (append : Bool) (ptrval : ℕ) :
    Option (ℤ × Dbd × Db) :=
  let dbd := { dbd with ptrval }
  if ptrMax < ptrval then some (-2, dbd, db)
  else
    let text := dbd.text key
    let len := text.length + 1
    if idxlenMax + 1 < len then none
    else if len < idxlenMin ∨ idxlenMax < len then some (-1, dbd, db)
    else
      let idxbuf := text ++ List.replicate (dbd.idxlen - len) 32 ++ [10]
      let append := append || decide (dbd.idxlen < len)
      let offset := if append then db.idxLen else offset
      let asciiptrlen := padLeft ptrSz (decimal ptrval) ++ padLeft idxlenSz (decimal idxbuf.length)
      some (0, { dbd with idxbuf, idxoff := offset }, { db with
        idx := (db.idx.pwrite asciiptrlen offset).pwrite idxbuf (offset + (ptrSz + idxlenSz))
        idxLen := if append then db.idxLen + (idxbuf.length + ptrSz + idxlenSz) else db.idxLen })

/-! ### Data records -/

def dbReaddatBin (db : Db) (dbd : Dbd) : Option Dbd :=
  let datbuf := db.dat.pread dbd.datlenU dbd.datoff
  if datbuf.length = dbd.datlenU then some { dbd with datbuf } else none

def dbWritedatBin (db : Db) (dbd : Dbd) (data : List UInt8) (offset : ℕ) (append : Bool) : Dbd × Db :=
  if append then
    ({ dbd with datlen := data.length, datlenU := data.length, datoff := db.datLen },
      { db with dat := db.dat.pwrite data db.datLen, datLen := db.datLen + data.length })
  else
    ({ dbd with datlenU := data.length, datoff := offset },
      { db with dat := db.dat.pwrite data offset })

/-! ### Reading back what was written -/

theorem atol_decimal {n : ℕ} (small : n < 2 ^ 63) (before after : ℕ) :
    atol (List.replicate before 32 ++ decimal n ++ List.replicate after 32) = n := by
  have shape : List.replicate before 32 ++ decimal n ++ List.replicate after 32 ++ [0] =
      List.replicate before 32 ++ printInt n ++ (List.replicate after 32 ++ [0]) := by
    rw [printInt, if_neg (by omega), Int.natAbs_natCast, List.append_assoc _ _ [0]]
  unfold atol
  rw [shape]
  cases after with
  | zero =>
      rw [List.replicate_zero, List.nil_append, scanInt_printInt none n rfl before [] (by simp)]
      change max (-2 ^ 63) (min (n : ℤ) (2 ^ 63 - 1)) = n
      omega
  | succ after =>
      rw [List.replicate_succ, List.cons_append,
        scanInt_printInt none n rfl before (List.replicate after 32 ++ [0]) (by simp)]
      change max (-2 ^ 63) (min (n : ℤ) (2 ^ 63 - 1)) = n
      omega

theorem natField_decimal {n : ℕ} (small : n < 2 ^ 63) (before after : ℕ) :
    natField (List.replicate before 32 ++ decimal n ++ List.replicate after 32) = some n := by
  rw [natField, atol_decimal small, if_pos (by omega), Int.toNat_natCast]

theorem natField_padLeft {n : ℕ} (small : n < 2 ^ 63) (width : ℕ) :
    natField (padLeft width (decimal n)) = some n := by
  have field := natField_decimal small (width - (decimal n).length) 0
  rwa [List.replicate_zero, List.append_nil] at field

theorem length_ptr {p : ℕ} (small : p ≤ ptrMax) : (padLeft ptrSz (decimal p)).length = ptrSz := by
  apply length_padLeft
  rw [length_decimal_le_iff (by decide)]
  unfold ptrMax at small
  change p < 10 ^ 9
  omega

theorem length_idxlen {n : ℕ} (small : n ≤ idxlenMax) :
    (padLeft idxlenSz (decimal n)).length = idxlenSz := by
  apply length_padLeft
  rw [length_decimal_le_iff (by decide)]
  unfold idxlenMax at small
  change n < 10 ^ 4
  omega

theorem dbReadptr_of_at {f : ByteFile} {offset p : ℕ} (small : p ≤ ptrMax)
    (h : f.At offset (padLeft ptrSz (decimal p))) : dbReadptr f offset = some p := by
  have read := h.pread
  rw [length_ptr small] at read
  unfold dbReadptr
  dsimp only
  unfold ptrMax at small
  rw [read, if_pos (length_ptr small), natField_padLeft (by omega)]

theorem cutLast_append {front field : List UInt8} (plain : 58 ∉ field) :
    cutLast (front ++ 58 :: field) = some (front, field) := by
  have back : ((front ++ 58 :: field).reverse.takeWhile (· != 58)).reverse = field := by
    rw [List.reverse_append, List.reverse_cons, List.append_assoc,
      List.takeWhile_append_of_pos, List.singleton_append, List.takeWhile_cons_of_neg (by decide),
      List.append_nil, List.reverse_reverse]
    intro b mem
    rw [bne_iff_ne]
    intro same
    exact plain (same ▸ List.mem_reverse.mp mem)
  unfold cutLast
  dsimp only
  rw [back, if_neg (by rw [List.length_append, List.length_cons]; omega)]
  congr 2
  rw [List.length_append, List.length_cons,
    show front.length + (field.length + 1) - field.length - 1 = front.length by omega,
    List.take_left]

theorem sep_not_mem_decimal (n : ℕ) : (58 : UInt8) ∉ decimal n := fun mem =>
  absurd (isDigit_of_mem_decimal mem) (by decide)

theorem length_indexText (idxlenA : ℕ) (key : List UInt8) (datoff datlen datlenU isfree : ℕ) :
    (indexText idxlenA key datoff datlen datlenU isfree).length = max idxlenA key.length + 5 +
      (decimal datoff).length + (decimal datlen).length + (decimal key.length).length +
        (decimal datlenU).length + (decimal isfree).length := by
  simp only [indexText, padRight, List.length_append, List.length_replicate, List.length_singleton]
  omega

/-- What an index record says. Its key stands in an area of `idxlenA` bytes, and the record takes
`idxlen` bytes behind the pointer and the length. -/
structure IndexRec where
  key : List UInt8
  idxlen : ℕ
  idxlenA : ℕ
  datoff : ℕ
  datlen : ℕ
  datlenU : ℕ
  isfree : ℕ

namespace IndexRec

def text (r : IndexRec) : List UInt8 :=
  indexText r.idxlenA r.key r.datoff r.datlen r.datlenU r.isfree

/-- The bytes of the record behind its length. -/
def line (r : IndexRec) : List UInt8 :=
  r.text ++ List.replicate (r.idxlen - (r.text.length + 1)) 32 ++ [10]

/-- The bytes of the record behind its pointer. -/
def image (r : IndexRec) : List UInt8 := padLeft idxlenSz (decimal r.idxlen) ++ r.line

/-- What reading the record gives, when its pointer is `ptrval`. -/
def dbd (r : IndexRec) (offset ptrval : ℕ) : Dbd :=
  { Dbd.alloc with
    idxbuf := r.key
    idxoff := offset
    datoff := r.datoff
    ptrval := ptrval
    datlen := r.datlen
    idxlen := r.idxlen
    isfree := r.isfree
    datlenU := r.datlenU
    idxlenU := r.key.length
    idxlenA := r.idxlenA }

/-- A record that keeps within its lengths. -/
structure Valid (r : IndexRec) : Prop where
  noNul : 0 ∉ r.key
  area : r.key.length ≤ r.idxlenA
  room : r.text.length + 1 ≤ r.idxlen
  short : r.idxlen ≤ idxlenMax
  place : r.datoff < 2 ^ 63
  datlen : r.datlen ≤ datlenMax
  used : r.datlenU ≤ r.datlen
  state : r.isfree ≤ 1

/-- What of this the scanning of the record needs. -/
structure Readable (r : IndexRec) : Prop where
  noNul : 0 ∉ r.key
  area : r.key.length ≤ r.idxlenA
  room : r.text.length + 1 ≤ r.idxlen
  short : r.idxlen ≤ idxlenMax
  place : r.datoff < 2 ^ 63
  datlen : r.datlen ≤ datlenMax
  used : r.datlenU < 2 ^ 63
  state : r.isfree < 2 ^ 63

variable {r : IndexRec}

theorem Valid.readable (valid : r.Valid) : r.Readable where
  noNul := valid.noNul
  area := valid.area
  room := valid.room
  short := valid.short
  place := valid.place
  datlen := valid.datlen
  used := by
    have used := valid.used
    have datlen := valid.datlen
    unfold datlenMax at datlen
    omega
  state := by
    have state := valid.state
    omega

theorem Readable.length_line (valid : r.Readable) : r.line.length = r.idxlen := by
  have room := valid.room
  simp only [line, List.length_append, List.length_replicate, List.length_singleton]
  omega

theorem Readable.length_image (valid : r.Readable) : r.image.length = idxlenSz + r.idxlen := by
  rw [image, List.length_append, length_idxlen valid.short, valid.length_line]

theorem length_text (valid : r.Readable) : r.text.length = r.idxlenA + 5 + (decimal r.datoff).length +
    (decimal r.datlen).length + (decimal r.key.length).length + (decimal r.datlenU).length +
    (decimal r.isfree).length := by
  rw [text, length_indexText, max_eq_left valid.area]

theorem length_area (valid : r.Readable) : (padRight r.idxlenA r.key).length = r.idxlenA := by
  have area := valid.area
  rw [padRight, List.length_append, List.length_replicate]
  omega

/-- No byte of the text ends a C string. -/
theorem nul_not_mem_text (valid : r.Readable) (blanks : ℕ) :
    (0 : UInt8) ∉ r.text ++ List.replicate blanks 32 := by
  have digits (n : ℕ) : (0 : UInt8) ∉ decimal n := fun mem =>
    absurd (isDigit_of_mem_decimal mem) (by decide)
  have blank (n : ℕ) : (0 : UInt8) ∉ List.replicate n 32 := fun mem =>
    absurd (List.eq_of_mem_replicate mem) (by decide)
  have sep : (0 : UInt8) ∉ [58] := by decide
  simp only [text, indexText, padRight, List.mem_append, not_or]
  exact ⟨⟨⟨⟨⟨⟨⟨⟨⟨⟨⟨⟨valid.noNul, blank _⟩, sep⟩, digits _⟩, sep⟩, digits _⟩, sep⟩, digits _⟩, sep⟩,
    digits _⟩, sep⟩, digits _⟩, blank blanks⟩

end IndexRec

/-- The fields of a printed record are scanned back, also in front of blanks. -/
theorem scanIdx_text {r : IndexRec} (valid : r.Readable) (offset p blanks : ℕ) :
    scanIdx offset p r.idxlen (r.text ++ List.replicate blanks 32) = some (r.dbd offset p) := by
  have short := valid.short
  have area := valid.area
  have room := valid.room
  have fits := valid.datlen
  have length := IndexRec.length_text valid
  unfold idxlenMax at short
  unfold datlenMax at fits
  have blank : (58 : UInt8) ∉ List.replicate blanks 32 := fun mem =>
    absurd (List.eq_of_mem_replicate mem) (by decide)
  have last : (58 : UInt8) ∉ decimal r.isfree ++ List.replicate blanks 32 := fun mem =>
    (List.mem_append.mp mem).elim (sep_not_mem_decimal _) blank
  have plain {n : ℕ} (small : n < 2 ^ 63) : natField (decimal n) = some n := by
    have field := natField_decimal small 0 0
    rwa [List.replicate_zero, List.append_nil, List.nil_append] at field
  have free : natField (decimal r.isfree ++ List.replicate blanks 32) = some r.isfree := by
    have field := natField_decimal valid.state 0 blanks
    rwa [List.replicate_zero, List.nil_append] at field
  have shape : r.text ++ List.replicate blanks 32 =
      padRight r.idxlenA r.key ++ 58 :: decimal r.datoff ++ 58 :: decimal r.datlen ++
        58 :: decimal r.key.length ++ 58 :: decimal r.datlenU ++
          58 :: (decimal r.isfree ++ List.replicate blanks 32) := by
    simp only [IndexRec.text, indexText, List.append_assoc, List.cons_append, List.nil_append]
  have taken : (padRight r.idxlenA r.key).take r.key.length = r.key := by
    rw [padRight, List.take_left]
  unfold scanIdx
  rw [shape]
  simp only [cutLast_append last, cutLast_append (sep_not_mem_decimal _), Option.bind_eq_bind,
    Option.bind_some, plain valid.place, plain (show r.datlen < 2 ^ 63 by omega),
    plain (show r.key.length < 2 ^ 63 by omega), plain valid.used, free,
    taken, IndexRec.length_area valid]
  rw [if_neg (Nat.not_lt.mpr valid.datlen)]
  rfl

/-- An index record is read back from where it stands, together with its pointer. -/
theorem dbReadidx_of_at {f : ByteFile} {offset p : ℕ} {r : IndexRec} (valid : r.Readable)
    (small : p ≤ ptrMax) (ptr : f.At offset (padLeft ptrSz (decimal p)))
    (record : f.At (offset + ptrSz) r.image) : dbReadidx f offset = some (r.dbd offset p) := by
  obtain ⟨length, rest⟩ := ByteFile.at_append.mp record
  rw [length_idxlen valid.short] at rest
  have asciilen := length.pread
  rw [length_idxlen valid.short] at asciilen
  have short := valid.short
  have least : ¬ (r.idxlen < idxlenMin ∨ idxlenMax < r.idxlen) := by
    have room := valid.room
    have digits := length_decimal_pos r.datoff
    rw [IndexRec.length_text valid] at room
    unfold idxlenMin
    omega
  have size := valid.length_line
  have idxbuf := rest.pread
  rw [size, IndexRec.line] at idxbuf
  rw [IndexRec.line] at size
  have number : natField (padLeft idxlenSz (decimal r.idxlen)) = some r.idxlen := by
    apply natField_padLeft
    unfold idxlenMax at short
    omega
  have whole : (r.text ++ List.replicate (r.idxlen - (r.text.length + 1)) 32).takeWhile (· != 0) =
      r.text ++ List.replicate (r.idxlen - (r.text.length + 1)) 32 := by
    apply List.takeWhile_eq_self_iff.mpr
    intro b mem
    rw [bne_iff_ne]
    intro nul
    rw [nul] at mem
    exact IndexRec.nul_not_mem_text valid _ mem
  unfold dbReadidx
  simp only [dbReadptr_of_at small ptr, Option.bind_eq_bind, Option.bind_some, asciilen,
    length_idxlen valid.short, number, idxbuf, size]
  rw [if_neg (by simp), if_neg least, if_neg (by simp), List.dropLast_concat, whole,
    scanIdx_text valid]

end BloomServer
