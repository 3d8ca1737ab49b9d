import BloomServer.Library.ByteCodec

/-! Self-describing records: values that carry their types, and structs whose fields carry
numbers. A reader knows some of the fields and skips all others. -/
namespace FieldProtocol
open ByteCodec

abbrev Bytes := List UInt8

/-- The types a field or an item can have. -/
inductive WireType
  | stop | void | bool | byte | double | i16 | i32 | i64 | string | struct | map | set | list
  | other (code : UInt8)
  deriving DecidableEq

inductive MessageType
  | call | reply | exception | oneway
  | other (code : UInt8)
  deriving DecidableEq

/-- What a protocol appends for each piece of a message, and how it reads the piece back. Names
of structs and fields may be lost; a double is its 64 bits. -/
structure Primitives where
  writeMessageBegin : Bytes → MessageType → Int32 → Bytes
  readMessageBegin : Reader (Bytes × MessageType × Int32)
  writeMessageEnd : Bytes
  readMessageEnd : Reader Unit
  writeStructBegin : Bytes → Bytes
  readStructBegin : Reader Unit
  writeStructEnd : Bytes
  readStructEnd : Reader Unit
  writeFieldBegin : Bytes → WireType → Int16 → Bytes
  readFieldBegin : Reader (WireType × Int16)
  writeFieldEnd : Bytes
  readFieldEnd : Reader Unit
  writeFieldStop : Bytes
  writeListBegin : WireType → UInt32 → Bytes
  readListBegin : Reader (WireType × UInt32)
  writeListEnd : Bytes
  readListEnd : Reader Unit
  writeSetBegin : WireType → UInt32 → Bytes
  readSetBegin : Reader (WireType × UInt32)
  writeSetEnd : Bytes
  readSetEnd : Reader Unit
  writeMapBegin : WireType → WireType → UInt32 → Bytes
  readMapBegin : Reader (WireType × WireType × UInt32)
  writeMapEnd : Bytes
  readMapEnd : Reader Unit
  writeBool : Bool → Bytes
  readBool : Reader Bool
  writeByte : Int8 → Bytes
  readByte : Reader Int8
  writeI16 : Int16 → Bytes
  readI16 : Reader Int16
  writeI32 : Int32 → Bytes
  readI32 : Reader Int32
  writeI64 : Int64 → Bytes
  readI64 : Reader Int64
  writeDouble : UInt64 → Bytes
  readDouble : Reader UInt64
  writeString : Bytes → Bytes
  readString : Reader Bytes

/-- A protocol can also skip a value of a given type. -/
structure Protocol extends Primitives where
  skip : WireType → Reader Unit

/-! ### Values -/

mutual

/-- A value of some type, with the names its writer gives. -/
inductive Value
  | bool (v : Bool)
  | byte (v : Int8)
  | double (v : UInt64)
  | i16 (v : Int16)
  | i32 (v : Int32)
  | i64 (v : Int64)
  | string (v : Bytes)
  | struct (name : Bytes) (fields : Fields)
  | map (key value : WireType) (entries : Entries)
  | set (item : WireType) (items : Items)
  | list (item : WireType) (items : Items)

inductive Fields
  | nil
  | cons (name : Bytes) (id : Int16) (value : Value) (rest : Fields)

inductive Items
  | nil
  | cons (value : Value) (rest : Items)

inductive Entries
  | nil
  | cons (key value : Value) (rest : Entries)

end

def Value.type : Value → WireType
  | .bool _ => .bool
  | .byte _ => .byte
  | .double _ => .double
  | .i16 _ => .i16
  | .i32 _ => .i32
  | .i64 _ => .i64
  | .string _ => .string
  | .struct _ _ => .struct
  | .map _ _ _ => .map
  | .set _ _ => .set
  | .list _ _ => .list

def Items.count : Items → ℕ
  | .nil => 0
  | .cons _ rest => rest.count + 1

def Entries.count : Entries → ℕ
  | .nil => 0
  | .cons _ _ rest => rest.count + 1

/-- The lengths that fit the signed 32-bit counts of a protocol. -/
def maxCount : ℕ := 2 ^ 31

mutual

def Value.write (P : Primitives) : Value → Bytes
  | .bool v => P.writeBool v
  | .byte v => P.writeByte v
  | .double v => P.writeDouble v
  | .i16 v => P.writeI16 v
  | .i32 v => P.writeI32 v
  | .i64 v => P.writeI64 v
  | .string v => P.writeString v
  | .struct name fields =>
      P.writeStructBegin name ++ (fields.write P ++ (P.writeFieldStop ++ P.writeStructEnd))
  | .map key value entries =>
      P.writeMapBegin key value (UInt32.ofNat entries.count) ++ (entries.write P ++ P.writeMapEnd)
  | .set item items =>
      P.writeSetBegin item (UInt32.ofNat items.count) ++ (items.write P ++ P.writeSetEnd)
  | .list item items =>
      P.writeListBegin item (UInt32.ofNat items.count) ++ (items.write P ++ P.writeListEnd)

def Fields.write (P : Primitives) : Fields → Bytes
  | .nil => []
  | .cons name id value rest =>
      P.writeFieldBegin name value.type id ++ (value.write P ++ (P.writeFieldEnd ++ rest.write P))

def Items.write (P : Primitives) : Items → Bytes
  | .nil => []
  | .cons value rest => value.write P ++ rest.write P

def Entries.write (P : Primitives) : Entries → Bytes
  | .nil => []
  | .cons key value rest => key.write P ++ (value.write P ++ rest.write P)

end

/-- The types of values. -/
def WireType.Proper : WireType → Prop
  | .stop | .void | .other _ => False
  | _ => True

def MessageType.Proper : MessageType → Prop
  | .other _ => False
  | _ => True

mutual

/-- Texts and counts fit, and the items of a container have the type it declares. -/
def Value.Valid : Value → Prop
  | .string v => v.length < maxCount
  | .struct _ fields => fields.Valid
  | .map key value entries =>
      (key.Proper ∧ value.Proper) ∧ entries.count < maxCount ∧ entries.Valid key value
  | .set item items | .list item items =>
      item.Proper ∧ items.count < maxCount ∧ items.Valid item
  | .bool _ | .byte _ | .double _ | .i16 _ | .i32 _ | .i64 _ => True

def Fields.Valid : Fields → Prop
  | .nil => True
  | .cons _ _ value rest => value.Valid ∧ rest.Valid

def Items.Valid (item : WireType) : Items → Prop
  | .nil => True
  | .cons value rest => value.type = item ∧ value.Valid ∧ rest.Valid item

def Entries.Valid (key value : WireType) : Entries → Prop
  | .nil => True
  | .cons k v rest => (k.type = key ∧ k.Valid) ∧ (v.type = value ∧ v.Valid) ∧ rest.Valid key value

end

theorem Value.type_proper (v : Value) : v.type.Proper := by
  cases v <;> trivial

/-- Every piece is read back as it was written. -/
structure Primitives.Lawful (P : Primitives) : Prop where
  messageBegin : ∀ name type seqid, name.length < maxCount → type.Proper →
    Reads P.readMessageBegin (P.writeMessageBegin name type seqid) (name, type, seqid)
  messageBegin_nil : P.readMessageBegin [] = none
  messageEnd : Reads P.readMessageEnd P.writeMessageEnd ()
  structBegin : ∀ name, Reads P.readStructBegin (P.writeStructBegin name) ()
  structEnd : Reads P.readStructEnd P.writeStructEnd ()
  fieldBegin : ∀ name type id, type.Proper →
    Reads P.readFieldBegin (P.writeFieldBegin name type id) (type, id)
  fieldBegin_pos : ∀ name type id, 0 < (P.writeFieldBegin name type id).length
  fieldEnd : Reads P.readFieldEnd P.writeFieldEnd ()
  fieldStop : Reads P.readFieldBegin P.writeFieldStop (.stop, 0)
  fieldStop_pos : 0 < P.writeFieldStop.length
  listBegin : ∀ item size, item.Proper → size.toNat < maxCount →
    Reads P.readListBegin (P.writeListBegin item size) (item, size)
  listBegin_pos : ∀ item size, 0 < (P.writeListBegin item size).length
  listEnd : Reads P.readListEnd P.writeListEnd ()
  setBegin : ∀ item size, item.Proper → size.toNat < maxCount →
    Reads P.readSetBegin (P.writeSetBegin item size) (item, size)
  setBegin_pos : ∀ item size, 0 < (P.writeSetBegin item size).length
  setEnd : Reads P.readSetEnd P.writeSetEnd ()
  mapBegin : ∀ key value size, key.Proper → value.Proper → size.toNat < maxCount →
    Reads P.readMapBegin (P.writeMapBegin key value size) (key, value, size)
  mapBegin_pos : ∀ key value size, 0 < (P.writeMapBegin key value size).length
  mapEnd : Reads P.readMapEnd P.writeMapEnd ()
  bool : ∀ v, Reads P.readBool (P.writeBool v) v
  byte : ∀ v, Reads P.readByte (P.writeByte v) v
  i16 : ∀ v, Reads P.readI16 (P.writeI16 v) v
  i32 : ∀ v, Reads P.readI32 (P.writeI32 v) v
  i64 : ∀ v, Reads P.readI64 (P.writeI64 v) v
  double : ∀ v, Reads P.readDouble (P.writeDouble v) v
  string : ∀ v, v.length < maxCount → Reads P.readString (P.writeString v) v

/-- Skipping takes exactly the value that was written. -/
structure Protocol.Lawful (P : Protocol) : Prop extends P.toPrimitives.Lawful where
  skip : ∀ v : Value, v.Valid → Reads (P.skip v.type) (v.write P.toPrimitives) ()

/-! ### Skipping by reading -/

section Skip

variable {P : Primitives}

/-- A reader run a number of times. -/
def repeatReader (r : Reader Unit) : ℕ → Reader Unit
  | 0 => return ()
  | n + 1 => do
      r
      repeatReader r n

mutual

/-- A value read and thrown away. Nothing is read for types that have no values. -/
def Primitives.skip (P : Primitives) : ℕ → WireType → Reader Unit
  | 0, _ => failure
  | fuel + 1, type =>
      match type with
      | .bool => do let _ ← P.readBool
      | .byte => do let _ ← P.readByte
      | .double => do let _ ← P.readDouble
      | .i16 => do let _ ← P.readI16
      | .i32 => do let _ ← P.readI32
      | .i64 => do let _ ← P.readI64
      | .string => do let _ ← P.readString
      | .struct => do
          P.readStructBegin
          P.skipFields fuel
          P.readStructEnd
      | .map => do
          let (key, value, size) ← P.readMapBegin
          repeatReader (do P.skip fuel key; P.skip fuel value) size.toNat
          P.readMapEnd
      | .set => do
          let (item, size) ← P.readSetBegin
          repeatReader (P.skip fuel item) size.toNat
          P.readSetEnd
      | .list => do
          let (item, size) ← P.readListBegin
          repeatReader (P.skip fuel item) size.toNat
          P.readListEnd
      | .stop | .void | .other _ => return ()

def Primitives.skipFields (P : Primitives) : ℕ → Reader Unit
  | 0 => failure
  | fuel + 1 => do
      let (type, _) ← P.readFieldBegin
      if type = .stop then return ()
      else
        P.skip fuel type
        P.readFieldEnd
        P.skipFields fuel

end

/-- Skipping with as many levels and turns as the input has bytes. -/
def Primitives.protocol (P : Primitives) : Protocol :=
  { P with skip := fun type input => P.skip (input.length + 1) type input }

mutual

/-- The levels and turns it takes to skip a value. -/
def Value.turns : Value → ℕ
  | .struct _ fields => fields.turns + 1
  | .map _ _ entries => entries.turns + 1
  | .set _ items | .list _ items => items.turns + 1
  | .bool _ | .byte _ | .double _ | .i16 _ | .i32 _ | .i64 _ | .string _ => 1

def Fields.turns : Fields → ℕ
  | .nil => 1
  | .cons _ _ value rest => max value.turns rest.turns + 1

def Items.turns : Items → ℕ
  | .nil => 0
  | .cons value rest => max value.turns rest.turns

def Entries.turns : Entries → ℕ
  | .nil => 0
  | .cons key value rest => max (max key.turns value.turns) rest.turns

end

mutual

/-- The bytes of a value are enough turns to skip it. -/
theorem Value.turns_le (lawful : P.Lawful) : ∀ v : Value, v.turns ≤ (v.write P).length + 1
  | .struct name fields => by
      have inner := fields.turns_le lawful
      have stop := lawful.fieldStop_pos
      simp only [Value.turns, Value.write, List.length_append]
      omega
  | .map key value entries => by
      have inner := entries.turns_le lawful
      have first := lawful.mapBegin_pos key value (UInt32.ofNat entries.count)
      simp only [Value.turns, Value.write, List.length_append]
      omega
  | .set item items => by
      have inner := items.turns_le lawful
      have first := lawful.setBegin_pos item (UInt32.ofNat items.count)
      simp only [Value.turns, Value.write, List.length_append]
      omega
  | .list item items => by
      have inner := items.turns_le lawful
      have first := lawful.listBegin_pos item (UInt32.ofNat items.count)
      simp only [Value.turns, Value.write, List.length_append]
      omega
  | .bool _ | .byte _ | .double _ | .i16 _ | .i32 _ | .i64 _ | .string _ => by
      simp only [Value.turns]
      omega

theorem Fields.turns_le (lawful : P.Lawful) : ∀ fields : Fields,
    fields.turns ≤ (fields.write P).length + 1
  | .nil => Nat.le_refl 1
  | .cons name id value rest => by
      have one := value.turns_le lawful
      have more := rest.turns_le lawful
      have first := lawful.fieldBegin_pos name value.type id
      simp only [Fields.turns, Fields.write, List.length_append]
      omega

theorem Items.turns_le (lawful : P.Lawful) : ∀ items : Items,
    items.turns ≤ (items.write P).length + 1
  | .nil => Nat.zero_le 1
  | .cons value rest => by
      have one := value.turns_le lawful
      have more := rest.turns_le lawful
      simp only [Items.turns, Items.write, List.length_append]
      omega

theorem Entries.turns_le (lawful : P.Lawful) : ∀ entries : Entries,
    entries.turns ≤ (entries.write P).length + 1
  | .nil => Nat.zero_le 1
  | .cons key value rest => by
      have one := key.turns_le lawful
      have two := value.turns_le lawful
      have more := rest.turns_le lawful
      simp only [Entries.turns, Entries.write, List.length_append]
      omega

end

theorem toNat_ofNat_count {n : ℕ} (short : n < maxCount) : (UInt32.ofNat n).toNat = n :=
  UInt32.toNat_ofNat_of_lt' (Nat.lt_trans short (by decide))

theorem ofNat_count_lt {n : ℕ} (short : n < maxCount) : (UInt32.ofNat n).toNat < maxCount := by
  rw [toNat_ofNat_count short]
  exact short

theorem discard {α : Type} {r : Reader α} {bytes : Bytes} {a : α} (reads : Reads r bytes a) :
    Reads (do let _ ← r) bytes () :=
  reads.bind_nil (.pure ())

mutual

/-- Skipping by reading takes exactly the value. -/
theorem Primitives.Lawful.skip_reads (lawful : P.Lawful) : ∀ (v : Value) (fuel : ℕ),
    v.turns ≤ fuel → v.Valid → Reads (P.skip fuel v.type) (v.write P) ()
  | .bool v, fuel + 1, _, _ => discard (lawful.bool v)
  | .byte v, fuel + 1, _, _ => discard (lawful.byte v)
  | .double v, fuel + 1, _, _ => discard (lawful.double v)
  | .i16 v, fuel + 1, _, _ => discard (lawful.i16 v)
  | .i32 v, fuel + 1, _, _ => discard (lawful.i32 v)
  | .i64 v, fuel + 1, _, _ => discard (lawful.i64 v)
  | .string v, fuel + 1, _, short => discard (lawful.string v short)
  | .struct name fields, fuel + 1, enough, valid => by
      have inner := lawful.skipFields_reads fields fuel (Nat.le_of_succ_le_succ enough) valid
      rw [Value.write, ← List.append_assoc (fields.write P)]
      exact (lawful.structBegin name).bind (inner.bind lawful.structEnd)
  | .map key value entries, fuel + 1, enough, valid => by
      obtain ⟨proper, short, typed⟩ := valid
      have size := toNat_ofNat_count short
      have inner := lawful.skipEntries_reads key value entries fuel
        (Nat.le_of_succ_le_succ enough) typed
      have header := lawful.mapBegin key value (UInt32.ofNat entries.count) proper.1 proper.2
        (ofNat_count_lt short)
      rw [← size] at inner
      exact header.bind (inner.bind lawful.mapEnd)
  | .set item items, fuel + 1, enough, valid => by
      obtain ⟨proper, short, typed⟩ := valid
      have size := toNat_ofNat_count short
      have inner := lawful.skipItems_reads item items fuel (Nat.le_of_succ_le_succ enough) typed
      have header := lawful.setBegin item (UInt32.ofNat items.count) proper (ofNat_count_lt short)
      rw [← size] at inner
      exact header.bind (inner.bind lawful.setEnd)
  | .list item items, fuel + 1, enough, valid => by
      obtain ⟨proper, short, typed⟩ := valid
      have size := toNat_ofNat_count short
      have inner := lawful.skipItems_reads item items fuel (Nat.le_of_succ_le_succ enough) typed
      have header := lawful.listBegin item (UInt32.ofNat items.count) proper (ofNat_count_lt short)
      rw [← size] at inner
      exact header.bind (inner.bind lawful.listEnd)

theorem Primitives.Lawful.skipFields_reads (lawful : P.Lawful) : ∀ (fields : Fields) (fuel : ℕ),
    fields.turns ≤ fuel → fields.Valid →
      Reads (P.skipFields fuel) (fields.write P ++ P.writeFieldStop) ()
  | .nil, fuel + 1, _, _ => lawful.fieldStop.bind_nil (.pure ())
  | .cons name id value rest, fuel + 1, enough, valid => by
      have turns := Nat.le_of_succ_le_succ enough
      have one := lawful.skip_reads value fuel (Nat.le_trans (Nat.le_max_left _ _) turns) valid.1
      have more := lawful.skipFields_reads rest fuel (Nat.le_trans (Nat.le_max_right _ _) turns) valid.2
      have proper := value.type_proper
      have go : value.type ≠ .stop := fun stop => by
        rw [stop] at proper
        exact proper
      simp only [Fields.write, List.append_assoc]
      refine (lawful.fieldBegin name value.type id proper).bind ?_
      dsimp only
      rw [if_neg go]
      exact one.bind (lawful.fieldEnd.bind more)

theorem Primitives.Lawful.skipItems_reads (lawful : P.Lawful) (item : WireType) :
    ∀ (items : Items) (fuel : ℕ), items.turns ≤ fuel → items.Valid item →
      Reads (repeatReader (P.skip fuel item) items.count) (items.write P) ()
  | .nil, _, _, _ => .pure ()
  | .cons value rest, fuel, enough, valid => by
      have one := lawful.skip_reads value fuel (Nat.le_trans (Nat.le_max_left _ _) enough) valid.2.1
      have more := lawful.skipItems_reads item rest fuel (Nat.le_trans (Nat.le_max_right _ _) enough)
        valid.2.2
      rw [valid.1] at one
      exact one.bind more

theorem Primitives.Lawful.skipEntries_reads (lawful : P.Lawful) (key value : WireType) :
    ∀ (entries : Entries) (fuel : ℕ), entries.turns ≤ fuel → entries.Valid key value →
      Reads (repeatReader (do P.skip fuel key; P.skip fuel value) entries.count)
        (entries.write P) ()
  | .nil, _, _, _ => .pure ()
  | .cons k v rest, fuel, enough, valid => by
      have both := Nat.le_trans (Nat.le_max_left _ _) enough
      have one := lawful.skip_reads k fuel (Nat.le_trans (Nat.le_max_left _ _) both) valid.1.2
      have two := lawful.skip_reads v fuel (Nat.le_trans (Nat.le_max_right _ _) both) valid.2.1.2
      have more := lawful.skipEntries_reads key value rest fuel
        (Nat.le_trans (Nat.le_max_right _ _) enough) valid.2.2
      rw [valid.1.1] at one
      rw [valid.2.1.1] at two
      rw [Entries.write, ← List.append_assoc]
      exact (one.bind two).bind more

end

theorem Primitives.Lawful.protocol (lawful : P.Lawful) : P.protocol.Lawful where
  toLawful := lawful
  skip v valid := by
    intro rest
    have turns := v.turns_le lawful
    have enough : v.turns ≤ (v.write P ++ rest).length + 1 := by
      rw [List.length_append]
      omega
    exact lawful.skip_reads v _ enough valid rest

end Skip

/-! ### Structs -/

section Structs

variable {S : Type} {P : Protocol}

/-- One field of a struct. `field` has a reader for the fields that are known with the type they
come with; all others are skipped. -/
def readField (P : Protocol) (field : Int16 → WireType → S → Option (Reader S)) (id : Int16)
    (type : WireType) (s : S) : Reader S :=
  match field id type s with
  | some reader => reader
  | none => do
      P.skip type
      return s

/-- The loop over the fields of a struct. -/
def readFields (P : Protocol) (field : Int16 → WireType → S → Option (Reader S)) :
    ℕ → S → Reader S
  | 0, _ => failure
  | fuel + 1, s => do
      let (type, id) ← P.readFieldBegin
      if type = .stop then return s
      else
        let s ← readField P field id type s
        P.readFieldEnd
        readFields P field fuel s

/-- A struct, read into `s`. Each turn of the loop takes a byte, so it ends within the input. -/
def readStruct (P : Protocol) (field : Int16 → WireType → S → Option (Reader S)) (s : S) :
    Reader S := do
  P.readStructBegin
  let s ← fun input => readFields P field (input.length + 1) s input
  P.readStructEnd
  return s

/-- What a list of fields makes of a record, one field after the other. -/
def Fields.fold (meaning : Int16 → Value → S → S) : Fields → S → S
  | .nil, s => s
  | .cons _ id value rest, s => rest.fold meaning (meaning id value s)

def Fields.All (fits : Int16 → Value → Prop) : Fields → Prop
  | .nil => True
  | .cons _ id value rest => fits id value ∧ rest.All fits

def Fields.count : Fields → ℕ
  | .nil => 0
  | .cons _ _ _ rest => rest.count + 1

/-- The reader of known fields does to the record what `meaning` says, and the record is left
alone where there is none. -/
def Understands (P : Protocol) (field : Int16 → WireType → S → Option (Reader S))
    (fits : Int16 → Value → Prop) (meaning : Int16 → Value → S → S) : Prop :=
  ∀ id value s, value.Valid → fits id value →
    (field id value.type s = none ∧ meaning id value s = s) ∨
    ∃ reader, field id value.type s = some reader ∧
      Reads reader (value.write P.toPrimitives) (meaning id value s)

theorem Fields.count_le (lawful : P.Lawful) (fields : Fields) :
    fields.count ≤ (fields.write P.toPrimitives).length := by
  cases fields with
  | nil => exact Nat.le_refl 0
  | cons name id value rest =>
      have one := lawful.fieldBegin_pos name value.type id
      have more := rest.count_le lawful
      simp only [Fields.count, Fields.write, List.length_append]
      omega

theorem readField_reads (lawful : P.Lawful)
    {field : Int16 → WireType → S → Option (Reader S)} {fits : Int16 → Value → Prop}
    {meaning : Int16 → Value → S → S} (knows : Understands P field fits meaning) {id : Int16}
    {value : Value} (valid : value.Valid) (fit : fits id value) (s : S) :
    Reads (readField P field id value.type s) (value.write P.toPrimitives)
      (meaning id value s) := by
  unfold readField
  rcases knows id value s valid fit with ⟨none, same⟩ | ⟨reader, known, reads⟩
  · rw [none, same]
    exact (lawful.skip value valid).bind_nil (.pure s)
  · rw [known]
    exact reads

/-- The loop lemma: the fields come in any order, any number of times, among unknown ones. -/
theorem readFields_reads (lawful : P.Lawful)
    {field : Int16 → WireType → S → Option (Reader S)} {fits : Int16 → Value → Prop}
    {meaning : Int16 → Value → S → S} (knows : Understands P field fits meaning) :
    ∀ (fields : Fields) (fuel : ℕ) (s : S), fields.count < fuel → fields.Valid → fields.All fits →
      Reads (readFields P field fuel s) (fields.write P.toPrimitives ++ P.writeFieldStop)
        (fields.fold meaning s)
  | .nil, fuel + 1, s, _, _, _ => by
      have stop := lawful.fieldStop
      refine stop.bind_nil ?_
      exact .pure s
  | .cons name id value rest, fuel + 1, s, enough, valid, fits => by
      have tail := readFields_reads lawful knows rest fuel (meaning id value s)
        (Nat.lt_of_succ_lt_succ enough) valid.2 fits.2
      have proper := value.type_proper
      have go : value.type ≠ .stop := fun stop => by
        rw [stop] at proper
        exact proper
      have begin_ := lawful.fieldBegin name value.type id proper
      have bytes : (Fields.cons name id value rest).write P.toPrimitives ++ P.writeFieldStop =
          P.writeFieldBegin name value.type id ++ (value.write P.toPrimitives ++
            (P.writeFieldEnd ++ (rest.write P.toPrimitives ++ P.writeFieldStop))) := by
        simp only [Fields.write, List.append_assoc]
      rw [bytes]
      refine begin_.bind ?_
      dsimp only
      rw [if_neg go]
      exact (readField_reads lawful knows valid.1 fits.1 s).bind (lawful.fieldEnd.bind tail)

/-- A struct is read as its known fields say, whatever else it holds. -/
theorem readStruct_reads (lawful : P.Lawful)
    {field : Int16 → WireType → S → Option (Reader S)} {fits : Int16 → Value → Prop}
    {meaning : Int16 → Value → S → S} (knows : Understands P field fits meaning)
    {name : Bytes} {fields : Fields} {s : S} (valid : fields.Valid) (all : fields.All fits) :
    Reads (readStruct P field s) ((Value.struct name fields).write P.toPrimitives)
      (fields.fold meaning s) := by
  have loop : Reads (fun input => readFields P field (input.length + 1) s input)
      (fields.write P.toPrimitives ++ P.writeFieldStop) (fields.fold meaning s) := by
    intro rest
    have enough :
        fields.count < (fields.write P.toPrimitives ++ P.writeFieldStop ++ rest).length + 1 := by
      have short := fields.count_le lawful
      simp only [List.length_append]
      omega
    exact readFields_reads lawful knows fields _ s enough valid all rest
  have bytes : (Value.struct name fields).write P.toPrimitives =
      P.writeStructBegin name ++
        ((fields.write P.toPrimitives ++ P.writeFieldStop) ++ P.writeStructEnd) := by
    simp only [Value.write, List.append_assoc]
  rw [bytes]
  exact (lawful.structBegin name).bind (loop.bind (lawful.structEnd.bind_nil (.pure _)))

end Structs

/-! ### Schemas -/

/-- A field that a reader knows: how it is read into the record, and what its value means there.
A value of another type is passed by. -/
structure Known (S : Type) where
  id : Int16
  type : WireType
  read : Protocol → S → Reader S
  fits : Value → Prop
  meaning : Value → S → S
  sound : ∀ (P : Protocol) (v : Value) (s : S), P.Lawful → v.type = type → v.Valid → fits v →
    Reads (read P s) (v.write P.toPrimitives) (meaning v s)
  other : ∀ (v : Value) (s : S), v.type ≠ type → meaning v s = s

/-- The known fields of a struct. -/
abbrev Schema (S : Type) := List (Known S)

namespace Schema

variable {S : Type} (schema : Schema S)

def known (id : Int16) : Option (Known S) := schema.find? fun k => k.id = id

def field (P : Protocol) (id : Int16) (type : WireType) (s : S) : Option (Reader S) :=
  (schema.known id).bind fun k => if k.type = type then some (k.read P s) else none

def read (P : Protocol) (s : S) : Reader S := readStruct P (schema.field P) s

def meaning (id : Int16) (v : Value) (s : S) : S :=
  match schema.known id with
  | some k => k.meaning v s
  | none => s

def fits (id : Int16) (v : Value) : Prop := ∀ k, schema.known id = some k → k.fits v

theorem understands {P : Protocol} (lawful : P.Lawful) :
    Understands P (schema.field P) schema.fits schema.meaning := by
  intro id v s valid fit
  cases found : schema.known id with
  | none => exact Or.inl ⟨by simp [field, found], by simp [meaning, found]⟩
  | some k =>
      have value : schema.meaning id v s = k.meaning v s := by simp [meaning, found]
      rw [value]
      by_cases typed : k.type = v.type
      · refine Or.inr ⟨k.read P s, by simp [field, found, typed], ?_⟩
        exact k.sound P v s lawful typed.symm valid (fit k found)
      · exact Or.inl ⟨by simp [field, found, typed], k.other v s fun same => typed same.symm⟩

/-- A struct with any fields is read as its known ones say, in their order. -/
theorem read_reads {P : Protocol} (lawful : P.Lawful) (name : Bytes) {fields : Fields} (s : S)
    (valid : fields.Valid) (all : fields.All schema.fits) :
    Reads (schema.read P s) ((Value.struct name fields).write P.toPrimitives)
      (fields.fold schema.meaning s) :=
  readStruct_reads lawful (schema.understands lawful) valid all

end Schema

section Known

variable {S T : Type}

/-- `readI16` into a field. -/
def Known.i16 (id : Int16) (set : Int16 → S → S) : Known S where
  id := id
  type := .i16
  read P s := do
    let v ← P.readI16
    return set v s
  fits _ := True
  meaning
    | .i16 v, s => set v s
    | _, s => s
  sound P v s lawful typed _ _ := by
    cases v <;> try cases typed
    exact (lawful.i16 _).bind_nil (.pure _)
  other v s typed := by
    cases v <;> first | rfl | exact absurd rfl typed

def Known.i32 (id : Int16) (set : Int32 → S → S) : Known S where
  id := id
  type := .i32
  read P s := do
    let v ← P.readI32
    return set v s
  fits _ := True
  meaning
    | .i32 v, s => set v s
    | _, s => s
  sound P v s lawful typed _ _ := by
    cases v <;> try cases typed
    exact (lawful.i32 _).bind_nil (.pure _)
  other v s typed := by
    cases v <;> first | rfl | exact absurd rfl typed

def Known.double (id : Int16) (set : UInt64 → S → S) : Known S where
  id := id
  type := .double
  read P s := do
    let v ← P.readDouble
    return set v s
  fits _ := True
  meaning
    | .double v, s => set v s
    | _, s => s
  sound P v s lawful typed _ _ := by
    cases v <;> try cases typed
    exact (lawful.double _).bind_nil (.pure _)
  other v s typed := by
    cases v <;> first | rfl | exact absurd rfl typed

def Known.string (id : Int16) (set : Bytes → S → S) : Known S where
  id := id
  type := .string
  read P s := do
    let v ← P.readString
    return set v s
  fits _ := True
  meaning
    | .string v, s => set v s
    | _, s => s
  sound P v s lawful typed valid _ := by
    cases v <;> try cases typed
    exact (lawful.string _ valid).bind_nil (.pure _)
  other v s typed := by
    cases v <;> first | rfl | exact absurd rfl typed

/-- The fields of the structs among some items. -/
def Items.structs : Items → List Fields
  | .nil => []
  | .cons (.struct _ fields) rest => fields :: rest.structs
  | .cons _ rest => rest.structs

theorem structs_reads {P : Protocol} (lawful : P.Lawful) (schema : Schema T) (empty : T) :
    ∀ items : Items, items.Valid .struct →
      (∀ fields ∈ items.structs, fields.All schema.fits) →
      Reads (readMany (schema.read P empty) items.count) (items.write P.toPrimitives)
        (items.structs.map fun fields => fields.fold schema.meaning empty)
  | .nil, _, _ => .pure []
  | .cons v rest, valid, fit => by
      obtain ⟨typed, inner, more⟩ := valid
      cases v <;> try cases typed
      rename_i name fields
      have one := schema.read_reads lawful name empty inner (fit fields List.mem_cons_self)
      have tail := structs_reads lawful schema empty rest more fun fields mem =>
        fit fields (List.mem_cons_of_mem _ mem)
      exact one.bind (tail.bind_nil (.pure _))

/-- A list of structs, each read into a new record. The declared type of the items is not looked
at. -/
def Known.structs (id : Int16) (schema : Schema T) (empty : T) (set : List T → S → S) :
    Known S where
  id := id
  type := .list
  read P s := do
    let (_, size) ← P.readListBegin
    let items ← readMany (schema.read P empty) size.toNat
    P.readListEnd
    return set items s
  fits
    | .list item items => item = .struct ∧ ∀ fields ∈ items.structs, fields.All schema.fits
    | _ => True
  meaning
    | .list _ items, s =>
        set (items.structs.map fun fields => fields.fold schema.meaning empty) s
    | _, s => s
  sound P v s lawful typed valid fit := by
    cases v <;> try cases typed
    rename_i item items
    obtain ⟨proper, short, inner⟩ := valid
    obtain ⟨rfl, each⟩ := fit
    have read := structs_reads lawful schema empty items inner each
    have size := toNat_ofNat_count short
    rw [← size] at read
    have header := lawful.listBegin .struct (UInt32.ofNat items.count) proper (ofNat_count_lt short)
    exact header.bind (read.bind (lawful.listEnd.bind_nil (.pure _)))
  other v s typed := by
    cases v <;> first | rfl | exact absurd rfl typed

end Known

end FieldProtocol
