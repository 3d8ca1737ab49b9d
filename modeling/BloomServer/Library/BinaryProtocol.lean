import BloomServer.Library.FieldProtocol

/-! The binary protocol: fixed-width big-endian numbers, texts and containers behind a signed
32-bit count, and a versioned message header. -/
namespace BinaryProtocol
open ByteCodec FieldProtocol

/-- The `n` low bytes of a number, most significant first. -/
def bigEndian (n v : ℕ) : Bytes := (toBytes n v).reverse

def readNumber (n : ℕ) : Reader ℕ := do
  let bytes ← take n
  return ofBytes bytes.reverse

def typeCode : WireType → UInt8
  | .stop => 0
  | .void => 1
  | .bool => 2
  | .byte => 3
  | .double => 4
  | .i16 => 6
  | .i32 => 8
  | .i64 => 10
  | .string => 11
  | .struct => 12
  | .map => 13
  | .set => 14
  | .list => 15
  | .other code => code

def typeOfCode (code : UInt8) : WireType :=
  if code = 0 then .stop
  else if code = 1 then .void
  else if code = 2 then .bool
  else if code = 3 then .byte
  else if code = 4 then .double
  else if code = 6 then .i16
  else if code = 8 then .i32
  else if code = 10 then .i64
  else if code = 11 then .string
  else if code = 12 then .struct
  else if code = 13 then .map
  else if code = 14 then .set
  else if code = 15 then .list
  else .other code

def messageCode : MessageType → UInt8
  | .call => 1
  | .reply => 2
  | .exception => 3
  | .oneway => 4
  | .other code => code

def messageOfCode (code : UInt8) : MessageType :=
  if code = 1 then .call
  else if code = 2 then .reply
  else if code = 3 then .exception
  else if code = 4 then .oneway
  else .other code

def readType : Reader WireType := do
  let code ← readNumber 1
  return typeOfCode (UInt8.ofNat code)

def writeType (type : WireType) : Bytes := bigEndian 1 (typeCode type).toNat

/-- A count; a negative one is an error. -/
def readCount : Reader ℕ := do
  let n ← readNumber 4
  if n < maxCount then return n else failure

def readText : Reader Bytes := do
  let n ← readCount
  take n

def writeText (s : Bytes) : Bytes := bigEndian 4 s.length ++ s

/-- The upper half of the first number of a message. -/
def version : ℕ := 0x8001

/-- A message in the strict form, which starts with the version, or in the old one, which starts
with the name. -/
def readMessage : Reader (Bytes × MessageType × Int32) := do
  let n ← readNumber 4
  if maxCount ≤ n then
    if n / 2 ^ 16 ≠ version then failure
    else
      let name ← readText
      let seqid ← readNumber 4
      return (name, messageOfCode (UInt8.ofNat n), (UInt32.ofNat seqid).toInt32)
  else
    let name ← take n
    let code ← readNumber 1
    let seqid ← readNumber 4
    return (name, messageOfCode (UInt8.ofNat code), (UInt32.ofNat seqid).toInt32)

def writeMessage (name : Bytes) (type : MessageType) (seqid : Int32) : Bytes :=
  bigEndian 4 (version * 2 ^ 16 + (messageCode type).toNat) ++
    (writeText name ++ bigEndian 4 seqid.toUInt32.toNat)

def primitives : Primitives where
  writeMessageBegin := writeMessage
  readMessageBegin := readMessage
  writeMessageEnd := []
  readMessageEnd := return ()
  writeStructBegin _ := []
  readStructBegin := return ()
  writeStructEnd := []
  readStructEnd := return ()
  writeFieldBegin _ type id := writeType type ++ bigEndian 2 id.toUInt16.toNat
  readFieldBegin := do
    let type ← readType
    if type = .stop then return (.stop, 0)
    else
      let id ← readNumber 2
      return (type, (UInt16.ofNat id).toInt16)
  writeFieldEnd := []
  readFieldEnd := return ()
  writeFieldStop := writeType .stop
  writeListBegin item size := writeType item ++ bigEndian 4 size.toNat
  readListBegin := do
    let item ← readType
    let n ← readCount
    return (item, UInt32.ofNat n)
  writeListEnd := []
  readListEnd := return ()
  writeSetBegin item size := writeType item ++ bigEndian 4 size.toNat
  readSetBegin := do
    let item ← readType
    let n ← readCount
    return (item, UInt32.ofNat n)
  writeSetEnd := []
  readSetEnd := return ()
  writeMapBegin key value size := writeType key ++ (writeType value ++ bigEndian 4 size.toNat)
  readMapBegin := do
    let key ← readType
    let value ← readType
    let n ← readCount
    return (key, value, UInt32.ofNat n)
  writeMapEnd := []
  readMapEnd := return ()
  writeBool v := bigEndian 1 (if v then 1 else 0)
  readBool := do
    let n ← readNumber 1
    return n ≠ 0
  writeByte v := bigEndian 1 v.toUInt8.toNat
  readByte := do
    let n ← readNumber 1
    return (UInt8.ofNat n).toInt8
  writeI16 v := bigEndian 2 v.toUInt16.toNat
  readI16 := do
    let n ← readNumber 2
    return (UInt16.ofNat n).toInt16
  writeI32 v := bigEndian 4 v.toUInt32.toNat
  readI32 := do
    let n ← readNumber 4
    return (UInt32.ofNat n).toInt32
  writeI64 v := bigEndian 8 v.toUInt64.toNat
  readI64 := do
    let n ← readNumber 8
    return (UInt64.ofNat n).toInt64
  writeDouble v := bigEndian 8 v.toNat
  readDouble := do
    let n ← readNumber 8
    return UInt64.ofNat n
  writeString := writeText
  readString := readText

/-! ### Reading back -/

theorem number_reads {n v : ℕ} (fits : v < 256 ^ n) : Reads (readNumber n) (bigEndian n v) v := by
  have bytes : Reads (take n) (bigEndian n v) (bigEndian n v) := by
    apply Reads.take
    rw [bigEndian, List.length_reverse, length_toBytes]
  refine bytes.bind_nil ?_
  have value := Reads.pure (ofBytes (bigEndian n v).reverse)
  rw [bigEndian, List.reverse_reverse, ofBytes_toBytes fits] at value
  rw [bigEndian, List.reverse_reverse, ofBytes_toBytes fits]
  exact value

theorem type_reads {type : WireType} (known : typeOfCode (typeCode type) = type) :
    Reads readType (writeType type) type := by
  have code : (typeCode type).toNat < 256 ^ 1 := (typeCode type).toNat_lt
  refine (number_reads code).bind_nil ?_
  rw [UInt8.ofNat_toNat, known]
  exact .pure type

theorem typeOfCode_typeCode {type : WireType} (proper : type.Proper) :
    typeOfCode (typeCode type) = type := by
  cases type <;> first | rfl | exact absurd proper id

theorem messageOfCode_messageCode {type : MessageType} (proper : type.Proper) :
    messageOfCode (messageCode type) = type := by
  cases type <;> first | rfl | exact absurd proper id

theorem count_reads {n : ℕ} (short : n < maxCount) : Reads readCount (bigEndian 4 n) n := by
  have fits : n < 256 ^ 4 := Nat.lt_trans short (by decide)
  refine (number_reads fits).bind_nil ?_
  rw [if_pos short]
  exact .pure n

theorem text_reads {s : Bytes} (short : s.length < maxCount) :
    Reads readText (writeText s) s :=
  (count_reads short).bind (Reads.take rfl)

theorem container_reads {item : WireType} {size : UInt32} (proper : item.Proper)
    (short : size.toNat < maxCount) :
    Reads (do
      let item ← readType
      let n ← readCount
      return (item, UInt32.ofNat n)) (writeType item ++ bigEndian 4 size.toNat) (item, size) := by
  refine (type_reads (typeOfCode_typeCode proper)).bind ((count_reads short).bind_nil ?_)
  rw [UInt32.ofNat_toNat]
  exact .pure _

theorem message_reads {name : Bytes} {type : MessageType} {seqid : Int32}
    (short : name.length < maxCount) (proper : type.Proper) :
    Reads readMessage (writeMessage name type seqid) (name, type, seqid) := by
  have small := (messageCode type).toNat_lt
  have fits : version * 2 ^ 16 + (messageCode type).toNat < 256 ^ 4 := by
    unfold version
    omega
  refine (number_reads fits).bind ?_
  have negative : maxCount ≤ version * 2 ^ 16 + (messageCode type).toNat := by
    unfold version maxCount
    omega
  have upper : (version * 2 ^ 16 + (messageCode type).toNat) / 2 ^ 16 = version := by
    unfold version
    omega
  have lower : UInt8.ofNat (version * 2 ^ 16 + (messageCode type).toNat) = messageCode type := by
    apply UInt8.toNat_inj.mp
    rw [UInt8.toNat_ofNat']
    unfold version
    omega
  rw [if_pos negative, if_neg (not_not.mpr upper), lower, messageOfCode_messageCode proper]
  have number : Reads (readNumber 4) (bigEndian 4 seqid.toUInt32.toNat) seqid.toUInt32.toNat :=
    number_reads seqid.toUInt32.toNat_lt
  refine (text_reads short).bind (number.bind_nil ?_)
  rw [UInt32.ofNat_toNat, Int32.toInt32_toUInt32]
  exact .pure _

theorem primitives_lawful : primitives.Lawful where
  messageBegin _ _ _ short proper := message_reads short proper
  messageBegin_nil := rfl
  messageEnd := .pure ()
  structBegin _ := .pure ()
  structEnd := .pure ()
  fieldBegin name type id proper := by
    have go : type ≠ .stop := fun stop => by
      rw [stop] at proper
      exact proper
    have number : Reads (readNumber 2) (bigEndian 2 id.toUInt16.toNat) id.toUInt16.toNat :=
      number_reads id.toUInt16.toNat_lt
    refine (type_reads (typeOfCode_typeCode proper)).bind ?_
    rw [if_neg go]
    refine number.bind_nil ?_
    rw [UInt16.ofNat_toNat, Int16.toInt16_toUInt16]
    exact .pure _
  fieldBegin_pos _ _ _ := Nat.succ_pos _
  fieldEnd := .pure ()
  fieldStop := (type_reads rfl).bind_nil (.pure _)
  fieldStop_pos := by decide
  listBegin _ _ := container_reads
  listBegin_pos _ _ := Nat.succ_pos _
  listEnd := .pure ()
  setBegin _ _ := container_reads
  setBegin_pos _ _ := Nat.succ_pos _
  setEnd := .pure ()
  mapBegin key value size proper proper' short := by
    refine (type_reads (typeOfCode_typeCode proper)).bind ?_
    refine (type_reads (typeOfCode_typeCode proper')).bind ((count_reads short).bind_nil ?_)
    rw [UInt32.ofNat_toNat]
    exact .pure _
  mapBegin_pos _ _ _ := Nat.succ_pos _
  mapEnd := .pure ()
  bool v := by
    cases v with
    | true => exact (number_reads (by decide)).bind_nil (.pure true)
    | false => exact (number_reads (by decide)).bind_nil (.pure false)
  byte v := by
    refine (number_reads v.toUInt8.toNat_lt).bind_nil ?_
    rw [UInt8.ofNat_toNat, Int8.toInt8_toUInt8]
    exact .pure v
  i16 v := by
    refine (number_reads v.toUInt16.toNat_lt).bind_nil ?_
    rw [UInt16.ofNat_toNat, Int16.toInt16_toUInt16]
    exact .pure v
  i32 v := by
    refine (number_reads v.toUInt32.toNat_lt).bind_nil ?_
    rw [UInt32.ofNat_toNat, Int32.toInt32_toUInt32]
    exact .pure v
  i64 v := by
    refine (number_reads v.toUInt64.toNat_lt).bind_nil ?_
    rw [UInt64.ofNat_toNat, Int64.toInt64_toUInt64]
    exact .pure v
  double v := by
    refine (number_reads v.toNat_lt).bind_nil ?_
    rw [UInt64.ofNat_toNat]
    exact .pure v
  string _ short := text_reads short

/-- The binary protocol, which skips by reading. -/
def protocol : Protocol := primitives.protocol

theorem protocol_lawful : protocol.Lawful := primitives_lawful.protocol

end BinaryProtocol
