import BloomServer.Library.ByteCodec
import BloomServer.Murmur
import Mathlib.Data.List.TakeWhile
import Mathlib.Data.UInt

/-! `UrlNode::serialize` and `UrlNode::unserialize` with the helpers of `utilcpp.cpp`. Every
field is written as the number of its bytes, in an `int`, and the bytes. -/
namespace BloomServer
open ByteCodec

def maxUrlLen : Nat := 1024

theorem maxUrlLen_eq : maxUrlLen = 1024 := rfl
def maxTitleLen : Nat := 128

/-- What a `char` array holds: a C string that leaves room for its NUL. -/
@[ext] structure CharArray (size : Nat) where
  chars : CString
  noNul : 0 ∉ chars
  fits : chars.length < size
  deriving DecidableEq

/-- The members of `UrlNode` that are serialized. -/
structure UrlNode where
  url : CharArray maxUrlLen
  fatherurl : CharArray maxUrlLen
  title : CharArray maxTitleLen
  topicsource : CharArray maxTitleLen
  taskid : Int32
  type : Int32
  errornum : Int8
  id : UInt64
  page : Int32
  maxtype : Int32
  layerid : Int32
  bbsid : Int32
  needtologin : Bool
  redirectnum : Int8
  taskbatch : Int32
  keyid : Int64
  searchid : Int64
  nextpage : Int32
  totalpage : Int32
  fetchedPage : Int32
  onepage : CharArray 32
  ipnum : Int32
  sqliteId : Int64
  deriving DecidableEq

/-! ### Writing -/

/-- A writer appends to the buffer and returns the number of bytes. -/
abbrev Writer := StateM (List UInt8) Nat

/-- The common body of the helpers: `memcpy(buf, &len, 4)`, then `memcpy(buf, …, len)`. -/
def emit (bytes : List UInt8) : Writer := fun buf =>
  (4 + bytes.length, buf ++ toBytes 4 bytes.length ++ bytes)

def serializeLong (a : Int64) : Writer := emit (toBytes 8 a.toUInt64.toNat)
def serializeULongLong (a : UInt64) : Writer := emit (toBytes 8 a.toNat)
def serializeInt (a : Int32) : Writer := emit (toBytes 4 a.toUInt32.toNat)
def serializeString {size : Nat} (a : CharArray size) : Writer := emit a.chars
def serializeChar (a : Int8) : Writer := emit [a.toUInt8]
def serializeBool (a : Bool) : Writer := emit [if a then 1 else 0]

namespace UrlNode

def serialize (u : UrlNode) : Writer := do
  let mut len := 0
  len := len + (← serializeString u.url)
  len := len + (← serializeString u.fatherurl)
  len := len + (← serializeString u.title)
  len := len + (← serializeString u.topicsource)
  len := len + (← serializeInt u.taskid)
  len := len + (← serializeInt u.type)
  len := len + (← serializeChar u.errornum)
  len := len + (← serializeULongLong u.id)
  len := len + (← serializeInt u.page)
  len := len + (← serializeInt u.maxtype)
  len := len + (← serializeInt u.layerid)
  len := len + (← serializeInt u.bbsid)
  len := len + (← serializeBool u.needtologin)
  len := len + (← serializeChar u.redirectnum)
  len := len + (← serializeInt u.taskbatch)
  len := len + (← serializeLong u.keyid)
  len := len + (← serializeLong u.searchid)
  len := len + (← serializeInt u.nextpage)
  len := len + (← serializeInt u.totalpage)
  len := len + (← serializeInt u.fetchedPage)
  len := len + (← serializeString u.onepage)
  len := len + (← serializeInt u.ipnum)
  len := len + (← serializeLong u.sqliteId)
  return len

end UrlNode

/-! ### Reading -/

/-- An `int` as the size of a `memcpy`: a negative one is huge. -/
def sizeOfInt (len : Nat) : Nat := if len < 2 ^ 31 then len else len + (2 ^ 64 - 2 ^ 32)

/-- `memcpy(&len, buf, 4)`, and the `len` bytes after it. -/
def readChunk : Reader (List UInt8) := do
  let len ← take 4
  take (sizeOfInt (ofBytes len))

/-- `memcpy(&a, chunk, len)` onto a variable of the bytes `old`; `none` is a write past its end. -/
def copyOnto (old chunk : List UInt8) : Option (List UInt8) :=
  if chunk.length ≤ old.length then some (chunk ++ old.drop chunk.length) else none

/-- The common body of the helpers for numbers of `size` bytes: the variable, and the `len` returned. -/
def readNumber (size : Nat) (old : Nat) : Reader (Nat × Nat) := do
  let chunk ← readChunk
  let raw ← copyOnto (toBytes size old) chunk
  return (ofBytes raw, chunk.length)

def unserializeLong (a : Int64) : Reader (Int64 × Nat) := do
  let (raw, len) ← readNumber 8 a.toUInt64.toNat
  return ((UInt64.ofNat raw).toInt64, len)

def unserializeULongLong (a : UInt64) : Reader (UInt64 × Nat) := do
  let (raw, len) ← readNumber 8 a.toNat
  return (UInt64.ofNat raw, len)

def unserializeInt (a : Int32) : Reader (Int32 × Nat) := do
  let (raw, len) ← readNumber 4 a.toUInt32.toNat
  return ((UInt32.ofNat raw).toInt32, len)

def unserializeChar (a : Int8) : Reader (Int8 × Nat) := do
  let (raw, len) ← readNumber 1 a.toUInt8.toNat
  return ((UInt8.ofNat raw).toInt8, len)

/-- The bytes go into `a`; the test is on the local `a1`. -/
def unserializeBool (a : Bool) : Reader (Bool × Nat) := do
  let a1 : UInt8 := 0
  let (_, len) ← readNumber 1 a.toNat
  if a1 = 0 then return (false, len) else return (true, len)

/-- The C string that bytes in a `char` array make. -/
theorem noNul_takeWhile (bytes : List UInt8) : 0 ∉ bytes.takeWhile (· != 0) := by
  intro mem
  have nonzero := List.mem_takeWhile_imp mem
  simp at nonzero

/-- `none` when the bytes and the NUL do not fit the array. -/
def charArray {size : Nat} (bytes : List UInt8) : Option (CharArray size) :=
  if fits : bytes.length < size then
    some ⟨bytes.takeWhile (· != 0), noNul_takeWhile bytes,
      (List.takeWhile_sublist _).length_le.trans_lt fits⟩
  else none

def unserializeString (size : Nat) : Reader (CharArray size × Nat) := do
  let chunk ← readChunk
  let a ← charArray chunk
  return (a, chunk.length)

namespace UrlNode

def unserialize (u : UrlNode) : Reader UrlNode := do
  let (url, _) ← unserializeString maxUrlLen
  let (fatherurl, _) ← unserializeString maxUrlLen
  let (title, _) ← unserializeString maxTitleLen
  let (topicsource, _) ← unserializeString maxTitleLen
  let (taskid, _) ← unserializeInt u.taskid
  let (type, _) ← unserializeInt u.type
  let (errornum, _) ← unserializeChar u.errornum
  let (id, _) ← unserializeULongLong u.id
  let (page, _) ← unserializeInt u.page
  let (maxtype, _) ← unserializeInt u.maxtype
  let (layerid, _) ← unserializeInt u.layerid
  let (bbsid, _) ← unserializeInt u.bbsid
  let (needtologin, _) ← unserializeBool u.needtologin
  let (redirectnum, _) ← unserializeChar u.redirectnum
  let (taskbatch, _) ← unserializeInt u.taskbatch
  let (keyid, _) ← unserializeLong u.keyid
  let (searchid, _) ← unserializeLong u.searchid
  let (nextpage, _) ← unserializeInt u.nextpage
  let (totalpage, _) ← unserializeInt u.totalpage
  let (fetchedPage, _) ← unserializeInt u.fetchedPage
  let (onepage, _) ← unserializeString 32
  let (ipnum, _) ← unserializeInt u.ipnum
  let (sqliteId, _) ← unserializeLong u.sqliteId
  return { url, fatherurl, title, topicsource, taskid, type, errornum, id, page, maxtype,
           layerid, bbsid, needtologin, redirectnum, taskbatch, keyid, searchid, nextpage,
           totalpage, fetchedPage, onepage, ipnum, sqliteId }

end UrlNode

/-! ### What each pair of helpers does -/

/-- The bytes of one field. -/
def framed (bytes : List UInt8) : List UInt8 := toBytes 4 bytes.length ++ bytes

theorem emit_eq (bytes buf : List UInt8) : emit bytes buf = ((framed bytes).length, buf ++ framed bytes) := by
  simp only [emit, framed, List.length_append, length_toBytes, List.append_assoc]

theorem reads_chunk {bytes : List UInt8} (small : bytes.length < 2 ^ 31) :
    Reads readChunk (framed bytes) bytes := by
  have value : ofBytes (toBytes 4 bytes.length) = bytes.length :=
    ofBytes_toBytes (small.trans (by decide))
  refine (Reads.take (length_toBytes 4 _)).bind (.take ?_)
  rw [value, sizeOfInt, if_pos small]

theorem reads_number {size v : Nat} (old : Nat) (narrow : size < 2 ^ 31) (fits : v < 256 ^ size) :
    Reads (readNumber size old) (framed (toBytes size v)) (v, size) := by
  have chunk : Reads readChunk (framed (toBytes size v)) (toBytes size v) :=
    reads_chunk (by rw [length_toBytes]; exact narrow)
  have raw : copyOnto (toBytes size old) (toBytes size v) = some (toBytes size v) := by
    unfold copyOnto
    rw [length_toBytes, length_toBytes, if_pos (Nat.le_refl size),
      List.drop_of_length_le (length_toBytes size old).le, List.append_nil]
  have value : ((v, size) : Nat × Nat) = (ofBytes (toBytes size v), (toBytes size v).length) := by
    rw [ofBytes_toBytes fits, length_toBytes]
  unfold readNumber
  rw [value]
  exact chunk.bind_nil ((Reads.lift raw).bind_nil (.pure _))

def bytesLong (a : Int64) : List UInt8 := framed (toBytes 8 a.toUInt64.toNat)
def bytesULongLong (a : UInt64) : List UInt8 := framed (toBytes 8 a.toNat)
def bytesInt (a : Int32) : List UInt8 := framed (toBytes 4 a.toUInt32.toNat)
def bytesChar (a : Int8) : List UInt8 := framed [a.toUInt8]
def bytesBool (a : Bool) : List UInt8 := framed [if a then 1 else 0]

/-- A helper that reads a number and casts it. -/
theorem reads_cast {α : Type} (size : Nat) {v : Nat} {a : α} (old : Nat) (cast : Nat → α)
    (narrow : size < 2 ^ 31) (fits : v < 256 ^ size) (value : cast v = a) :
    Reads (readNumber size old >>= fun p => pure (cast p.1, p.2)) (framed (toBytes size v))
      (a, size) := by
  rw [← value]
  exact (reads_number old narrow fits).bind_nil (.pure (cast v, size))

theorem reads_long (a old : Int64) : Reads (unserializeLong old) (bytesLong a) (a, 8) := by
  refine reads_cast 8 old.toUInt64.toNat (fun raw => (UInt64.ofNat raw).toInt64)
    (by decide) a.toUInt64.toNat_lt ?_
  rw [UInt64.ofNat_toNat, Int64.toInt64_toUInt64]

theorem reads_uLongLong (a old : UInt64) :
    Reads (unserializeULongLong old) (bytesULongLong a) (a, 8) :=
  reads_cast 8 old.toNat UInt64.ofNat (by decide) a.toNat_lt UInt64.ofNat_toNat

theorem reads_int (a old : Int32) : Reads (unserializeInt old) (bytesInt a) (a, 4) := by
  refine reads_cast 4 old.toUInt32.toNat (fun raw => (UInt32.ofNat raw).toInt32)
    (by decide) a.toUInt32.toNat_lt ?_
  rw [UInt32.ofNat_toNat, Int32.toInt32_toUInt32]

theorem toBytes_one (b : UInt8) : toBytes 1 b.toNat = [b] := by
  rw [toBytes, UInt8.ofNat_toNat]
  rfl

theorem reads_char (a old : Int8) : Reads (unserializeChar old) (bytesChar a) (a, 1) := by
  unfold bytesChar
  rw [← toBytes_one]
  refine reads_cast 1 old.toUInt8.toNat (fun raw => (UInt8.ofNat raw).toInt8)
    (by decide) a.toUInt8.toNat_lt ?_
  rw [UInt8.ofNat_toNat, Int8.toInt8_toUInt8]

/-- The byte that was written is consumed, and the answer is `false` whatever it is. -/
theorem reads_bool (a old : Bool) : Reads (unserializeBool old) (bytesBool a) (false, 1) := by
  unfold bytesBool
  rw [← toBytes_one]
  exact reads_cast 1 old.toNat (fun _ => false) (by decide) (UInt8.toNat_lt _) rfl

theorem takeWhile_chars {size : Nat} (a : CharArray size) :
    a.chars.takeWhile (· != 0) = a.chars := by
  apply List.takeWhile_eq_self_iff.mpr
  intro b mem
  have nonzero : b ≠ 0 := by
    rintro rfl
    exact a.noNul mem
  exact bne_iff_ne.mpr nonzero

theorem reads_string {size : Nat} (a : CharArray size) (narrow : size ≤ 2 ^ 31) :
    Reads (unserializeString size) (framed a.chars) (a, a.chars.length) := by
  have back : charArray a.chars = some a := by
    unfold charArray
    rw [dif_pos a.fits]
    congr 1
    apply CharArray.ext
    exact takeWhile_chars a
  have chunk := reads_chunk (a.fits.trans_le narrow)
  exact chunk.bind_nil ((Reads.lift back).bind_nil (.pure _))

namespace UrlNode

/-- The bytes of a record. -/
def bytes (u : UrlNode) : List UInt8 :=
  framed u.url.chars ++ (framed u.fatherurl.chars ++ (framed u.title.chars ++ (
    framed u.topicsource.chars ++ (bytesInt u.taskid ++ (bytesInt u.type ++ (
    bytesChar u.errornum ++ (bytesULongLong u.id ++ (bytesInt u.page ++ (bytesInt u.maxtype ++ (
    bytesInt u.layerid ++ (bytesInt u.bbsid ++ (bytesBool u.needtologin ++ (
    bytesChar u.redirectnum ++ (bytesInt u.taskbatch ++ (bytesLong u.keyid ++ (
    bytesLong u.searchid ++ (bytesInt u.nextpage ++ (bytesInt u.totalpage ++ (
    bytesInt u.fetchedPage ++ (framed u.onepage.chars ++ (bytesInt u.ipnum ++
    bytesLong u.sqliteId)))))))))))))))))))))

theorem serialize_eq (u : UrlNode) (buf : List UInt8) :
    u.serialize buf = (u.bytes.length, buf ++ u.bytes) := by
  simp only [serialize, serializeString, serializeInt, serializeChar, serializeULongLong,
    serializeLong, serializeBool, bind_apply, pure_apply, emit_eq]
  simp only [bytes, bytesInt, bytesChar, bytesULongLong, bytesLong, bytesBool, List.length_append,
    List.append_assoc, Nat.zero_add, Nat.add_assoc]

/-- What a node is once it has been read back. -/
def readBack (u : UrlNode) : UrlNode := { u with needtologin := false }

/-- Every member but the boolean is restored, and exactly the bytes of the record are consumed. -/
theorem reads_bytes (u old : UrlNode) : Reads old.unserialize u.bytes u.readBack := by
  have small : maxUrlLen ≤ 2 ^ 31 ∧ maxTitleLen ≤ 2 ^ 31 ∧ 32 ≤ 2 ^ 31 := by decide
  unfold unserialize bytes
  refine (reads_string u.url small.1).bind ?_
  refine (reads_string u.fatherurl small.1).bind ?_
  refine (reads_string u.title small.2.1).bind ?_
  refine (reads_string u.topicsource small.2.1).bind ?_
  refine (reads_int u.taskid old.taskid).bind ?_
  refine (reads_int u.type old.type).bind ?_
  refine (reads_char u.errornum old.errornum).bind ?_
  refine (reads_uLongLong u.id old.id).bind ?_
  refine (reads_int u.page old.page).bind ?_
  refine (reads_int u.maxtype old.maxtype).bind ?_
  refine (reads_int u.layerid old.layerid).bind ?_
  refine (reads_int u.bbsid old.bbsid).bind ?_
  refine (reads_bool u.needtologin old.needtologin).bind ?_
  refine (reads_char u.redirectnum old.redirectnum).bind ?_
  refine (reads_int u.taskbatch old.taskbatch).bind ?_
  refine (reads_long u.keyid old.keyid).bind ?_
  refine (reads_long u.searchid old.searchid).bind ?_
  refine (reads_int u.nextpage old.nextpage).bind ?_
  refine (reads_int u.totalpage old.totalpage).bind ?_
  refine (reads_int u.fetchedPage old.fetchedPage).bind ?_
  refine (reads_string u.onepage small.2.2).bind ?_
  refine (reads_int u.ipnum old.ipnum).bind ?_
  exact (reads_long u.sqliteId old.sqliteId).bind_nil (.pure _)

/-- Records written one after another, the buffer being handed on. -/
def serializeAll : List UrlNode → Writer
  | [] => pure 0
  | u :: us => do
      let len ← u.serialize
      let more ← serializeAll us
      return len + more

theorem serializeAll_eq (us : List UrlNode) (buf : List UInt8) :
    serializeAll us buf = ((us.flatMap bytes).length, buf ++ us.flatMap bytes) := by
  induction us generalizing buf with
  | nil =>
      rw [List.flatMap_nil, List.append_nil]
      rfl
  | cons u us ih =>
      simp only [serializeAll, bind_apply, pure_apply, serialize_eq, ih,
        List.flatMap_cons, List.length_append, List.append_assoc]

/-- Reading what a node wrote, whatever follows it, gives the node and leaves what follows. -/
def RoundTrips (u : UrlNode) : Prop :=
  ∀ (old : UrlNode) (rest : List UInt8),
    old.unserialize ((u.serialize []).2 ++ rest) = some (u, rest)

/-- The same for records written one after another. -/
def RoundTripAll (us : List UrlNode) : Prop :=
  ∀ (old : UrlNode) (rest : List UInt8),
    readMany old.unserialize us.length ((serializeAll us []).2 ++ rest) = some (us, rest)

theorem readBack_eq_self_iff (u : UrlNode) : u.readBack = u ↔ u.needtologin = false := by
  constructor
  · intro same
    exact (congrArg needtologin same).symm
  · intro none
    unfold readBack
    rw [← none]

theorem map_readBack_eq_self_iff (us : List UrlNode) :
    us.map readBack = us ↔ ∀ u ∈ us, u.needtologin = false := by
  have each : us.map readBack = us.map (fun u => u) ↔ ∀ u ∈ us, u.needtologin = false := by
    rw [List.map_inj_left]
    exact forall₂_congr fun u _ => readBack_eq_self_iff u
  rwa [List.map_id'] at each

theorem roundTrips_iff_readBack (u : UrlNode) : u.RoundTrips ↔ u.readBack = u := by
  have back (old : UrlNode) (rest : List UInt8) := reads_bytes u old rest
  unfold RoundTrips
  rw [serialize_eq, List.nil_append]
  constructor
  · intro trips
    have both := (back u []).symm.trans (trips u [])
    exact (Prod.mk.inj (Option.some.inj both)).1
  · intro same old rest
    rw [same] at back
    exact back old rest

/-- The round trip holds of the nodes that need no login, and of no others, alone and in sequences;
the number of bytes that `serialize` returns is right for all of them. -/
theorem serialization_roundTrips (u : UrlNode) (us : List UrlNode) :
    (u.RoundTrips ↔ u.needtologin = false) ∧
    (RoundTripAll us ↔ ∀ u ∈ us, u.needtologin = false) ∧
    (u.serialize []).1 = (u.serialize []).2.length := by
  refine ⟨?_, ?_, ?_⟩
  · rw [roundTrips_iff_readBack, readBack_eq_self_iff]
  · have back (old : UrlNode) (rest : List UInt8) :=
      Reads.many us (fun u _ => reads_bytes u old) rest
    rw [← map_readBack_eq_self_iff]
    unfold RoundTripAll
    rw [serializeAll_eq, List.nil_append]
    constructor
    · intro trips
      cases us with
      | nil => rfl
      | cons u us =>
          have both := (back u []).symm.trans (trips u [])
          exact (Prod.mk.inj (Option.some.inj both)).1
    · intro same old rest
      rw [same] at back
      exact back old rest
  · rw [serialize_eq]
    rfl

/-- A node for a page behind a login. -/
def login : UrlNode where
  url := ⟨[47], by decide, by decide⟩
  fatherurl := ⟨[], by decide, by decide⟩
  title := ⟨[], by decide, by decide⟩
  topicsource := ⟨[], by decide, by decide⟩
  taskid := 0
  type := 0
  errornum := 0
  id := 0
  page := 1
  maxtype := -1
  layerid := 1
  bbsid := -1
  needtologin := true
  redirectnum := 0
  taskbatch := -1
  keyid := 0
  searchid := 0
  nextpage := 1
  totalpage := 1
  fetchedPage := 0
  onepage := ⟨[], by decide, by decide⟩
  ipnum := 0
  sqliteId := 0

/-- It is read back as one that needs none. -/
theorem login_lost : login.needtologin = true ∧ ¬ login.RoundTrips := by
  refine ⟨rfl, ?_⟩
  rw [roundTrips_iff_readBack, readBack_eq_self_iff]
  decide

end UrlNode
end BloomServer
