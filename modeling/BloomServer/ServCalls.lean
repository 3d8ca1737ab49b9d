import BloomServer.ServWire

/-! `ServClient` and `ServProcessor`: the messages of a remote call, and what each side makes of
what it reads. -/
namespace BloomServer
open ByteCodec FieldProtocol

/-- `TApplicationException`. -/
structure ApplicationException where
  message : FieldProtocol.Bytes
  type : Int32
  deriving DecidableEq

/-- The kinds of exceptions that are raised here. -/
def unknownException : Int32 := 0
def unknownMethod : Int32 := 1
def missingResult : Int32 := 5

/-- The thrift library: a protocol, and how exceptions are carried. -/
structure Thrift extends Protocol where
  writeException : ApplicationException → FieldProtocol.Bytes
  readException : Reader ApplicationException

structure Thrift.Lawful (T : Thrift) : Prop extends toProtocolLawful : T.toProtocol.Lawful where
  exception : ∀ x : ApplicationException, x.message.length < maxCount →
    Reads T.readException (T.writeException x) x

/-- How a remote call ends for the caller. -/
inductive CallEnd (α : Type)
  | returned (a : α)
  | thrown (x : ApplicationException)

/-- What the processor reads. -/
inductive Incoming
  | call (m : Method) (seqid : Int32) (args : m.Args)
  | unknown (name : FieldProtocol.Bytes) (seqid : Int32)

def writeMessage (T : Thrift) (name : FieldProtocol.Bytes) (type : MessageType) (seqid : Int32)
    (body : FieldProtocol.Bytes) : FieldProtocol.Bytes :=
  T.writeMessageBegin name type seqid ++ (body ++ T.writeMessageEnd)

namespace ServClient

/-- `send_<method>`. -/
def send (T : Thrift) (m : Method) (args : m.Args) : FieldProtocol.Bytes :=
  writeMessage T m.name .call 0 ((m.argsValue args).write T.toPrimitives)

/-- A message that should not have come is read to its end, and the call goes on. -/
def skipMessageIf (T : Thrift) (unexpected : Bool) : Reader Unit :=
  if unexpected then do
    T.skip .struct
    T.readMessageEnd
  else return ()

/-- `recv_<method>`. -/
def recv (T : Thrift) (m : Method) : Reader (CallEnd m.Result) := do
  let (fname, mtype, _) ← T.readMessageBegin
  if mtype = .exception then
    let x ← T.readException
    T.readMessageEnd
    return .thrown x
  else
    skipMessageIf T (mtype ≠ .reply)
    skipMessageIf T (fname ≠ m.name)
    let result ← m.resultSchema.read T.toProtocol none
    T.readMessageEnd
    match result with
    | some r => return .returned r
    | none => return .thrown ⟨ascii (m.text ++ " failed: unknown result"), missingResult⟩

end ServClient

namespace ServProcessor

def methods : List Method :=
  [.add, .fill, .get, .getStats, .getBloomsStats, .getBloomStats, .setMem, .getOne, .fillOne,
    .deleteBlooms, .deleteBloomsAll]

def processMap (fname : FieldProtocol.Bytes) : Option Method := methods.find? fun m => m.name = fname

/-- `dispatchCall` and `process_<method>` up to the call of the handler. -/
def dispatchCall (T : Thrift) (fname : FieldProtocol.Bytes) (seqid : Int32) : Reader Incoming :=
  match processMap fname with
  | none => do
      T.skip .struct
      T.readMessageEnd
      return .unknown fname seqid
  | some m => do
      let args ← m.argsSchema.read T.toProtocol m.noArgs
      T.readMessageEnd
      return .call m seqid args

/-- One message, as `process` of the library's `TDispatchProcessor` takes it, which is not among the
sources here: it reads the header, hands calls and oneway calls on to `dispatchCall`, and nothing else. -/
def read (T : Thrift) : Reader Incoming := do
  let (fname, mtype, seqid) ← T.readMessageBegin
  if mtype = .call ∨ mtype = .oneway then dispatchCall T fname seqid else failure

/-- The rest of `process_<method>`, with what the handler returned or the `what()` it threw. -/
def answer (T : Thrift) (m : Method) (seqid : Int32) : Except FieldProtocol.Bytes m.Result → FieldProtocol.Bytes
  | .ok r => writeMessage T m.name .reply seqid ((m.resultValue (some r)).write T.toPrimitives)
  | .error what =>
      writeMessage T m.name .exception seqid (T.writeException ⟨what, unknownException⟩)

/-- The answer to a call of a method that does not exist. -/
def reject (T : Thrift) (fname : FieldProtocol.Bytes) (seqid : Int32) : FieldProtocol.Bytes :=
  writeMessage T fname .exception seqid
    (T.writeException ⟨ascii "Invalid method name: '" ++ fname ++ ascii "'", unknownMethod⟩)

end ServProcessor

/-- The end of a call whose handler ended with `outcome`. -/
def callEnd {α : Type} : Except FieldProtocol.Bytes α → CallEnd α
  | .ok r => .returned r
  | .error what => .thrown ⟨what, unknownException⟩

def Method.OutcomeFits (m : Method) : Except FieldProtocol.Bytes m.Result → Prop
  | .ok r => m.ResultFits r
  | .error what => what.length < maxCount

/-! ### Both sides agree -/

section Agree

variable {T : Thrift} {m : Method}

theorem Method.name_short (m : Method) : m.name.length < maxCount := by
  cases m <;> decide

theorem ServProcessor.processMap_name (m : Method) : processMap m.name = some m := by
  cases m <;> decide

theorem bind_eq_none {α β : Type} {r : Reader α} {f : α → Reader β} {input : FieldProtocol.Bytes}
    (stuck : r input = none) : (r >>= f) input = none := by
  change (r input).bind _ = none
  rw [stuck]
  rfl

theorem ServProcessor.read_nil (lawful : T.Lawful) : read T [] = none :=
  bind_eq_none lawful.messageBegin_nil

theorem ServClient.recv_nil (lawful : T.Lawful) (m : Method) : recv T m [] = none :=
  bind_eq_none lawful.messageBegin_nil

/-- Whatever struct comes with a known method, the handler is called with its known fields, and
exactly the message is taken. -/
theorem ServProcessor.read_call (lawful : T.Lawful) (name : FieldProtocol.Bytes) (seqid : Int32)
    {fields : Fields} (valid : fields.Valid) (fit : fields.All m.argsSchema.fits) :
    Reads (read T) (writeMessage T m.name .call seqid
        ((Value.struct name fields).write T.toPrimitives))
      (.call m seqid (fields.fold m.argsSchema.meaning m.noArgs)) := by
  refine (lawful.messageBegin m.name .call seqid m.name_short trivial).bind ?_
  dsimp only
  rw [if_pos (Or.inl rfl), dispatchCall, processMap_name]
  have args := m.argsSchema.read_reads lawful.toProtocolLawful name m.noArgs valid fit
  exact args.bind (lawful.messageEnd.bind_nil (.pure _))

/-- A call of an unknown method is skipped as a whole. -/
theorem ServProcessor.read_unknown (lawful : T.Lawful) {fname name : FieldProtocol.Bytes} {fields : Fields}
    {seqid : Int32} (short : fname.length < maxCount) (unknown : processMap fname = none)
    (valid : fields.Valid) :
    Reads (read T) (writeMessage T fname .call seqid
        ((Value.struct name fields).write T.toPrimitives)) (.unknown fname seqid) := by
  refine (lawful.messageBegin fname .call seqid short trivial).bind ?_
  dsimp only
  rw [if_pos (Or.inl rfl), dispatchCall, unknown]
  exact (lawful.skip (.struct name fields) valid).bind (lawful.messageEnd.bind_nil (.pure _))

theorem ServProcessor.read_send (lawful : T.Lawful) {args : m.Args} (fit : m.ArgsFit args) :
    Reads (read T) (ServClient.send T m args) (.call m 0 args) := by
  have whole := read_call (m := m) lawful (ascii ("Serv_" ++ m.text ++ "_pargs")) 0
    (Method.args_valid fit) (m.args_all args)
  rw [m.args_back args] at whole
  exact whole

theorem ServClient.recv_exception (lawful : T.Lawful) {fname : FieldProtocol.Bytes} {seqid : Int32}
    {x : ApplicationException} (short : fname.length < maxCount)
    (fits : x.message.length < maxCount) :
    Reads (recv T m) (writeMessage T fname .exception seqid (T.writeException x)) (.thrown x) := by
  refine (lawful.messageBegin fname .exception seqid short trivial).bind ?_
  dsimp only
  rw [if_pos rfl]
  exact (lawful.exception x fits).bind (lawful.messageEnd.bind_nil (.pure _))

/-- The caller gets what the handler returned, or threw. -/
theorem ServClient.recv_answer (lawful : T.Lawful) (seqid : Int32)
    {outcome : Except FieldProtocol.Bytes m.Result} (fits : m.OutcomeFits outcome) :
    Reads (recv T m) (ServProcessor.answer T m seqid outcome) (callEnd outcome) := by
  cases outcome with
  | error what => exact recv_exception lawful m.name_short fits
  | ok r =>
      refine (lawful.messageBegin m.name .reply seqid m.name_short trivial).bind ?_
      dsimp only
      rw [if_neg (by decide)]
      have result := Method.result_read lawful.toProtocolLawful (r := r) fits
      have expected : Reads (skipMessageIf T (decide (MessageType.reply ≠ .reply))) [] () :=
        .pure ()
      have named : Reads (skipMessageIf T (decide (m.name ≠ m.name))) [] () := by
        rw [skipMessageIf, if_neg (by simp)]
        exact .pure ()
      exact expected.bind (named.bind (result.bind (lawful.messageEnd.bind_nil (.pure _))))

end Agree

/-! ### The library the server links -/

/-- `TApplicationException::read`. -/
def ApplicationException.schema : Schema ApplicationException :=
  [.string 1 fun v x => { x with message := v }, .i32 2 fun v x => { x with type := v }]

def ApplicationException.value (x : ApplicationException) : Value :=
  structOf "TApplicationException" [("message", 1, .string x.message), ("type", 2, .i32 x.type)]

/-- `TBinaryProtocol`. -/
def binaryThrift : Thrift where
  toProtocol := BinaryProtocol.protocol
  writeException x := x.value.write BinaryProtocol.primitives
  readException := ApplicationException.schema.read BinaryProtocol.protocol ⟨[], unknownException⟩

theorem binaryThrift_lawful : binaryThrift.Lawful where
  toProtocolLawful := BinaryProtocol.protocol_lawful
  exception _ short :=
    ApplicationException.schema.read_reads BinaryProtocol.protocol_lawful
      (ascii "TApplicationException") ⟨[], unknownException⟩ ⟨short, trivial, trivial⟩
      ⟨Schema.fits_of_find rfl trivial, Schema.fits_of_find rfl trivial, trivial⟩

/-! ### Streams of messages -/

/-- A call as some client may write it: of any method, with any struct of arguments. -/
structure WireCall where
  fname : FieldProtocol.Bytes
  seqid : Int32
  name : FieldProtocol.Bytes
  fields : Fields

namespace WireCall

def write (T : Thrift) (x : WireCall) : FieldProtocol.Bytes :=
  writeMessage T x.fname .call x.seqid ((Value.struct x.name x.fields).write T.toPrimitives)

/-- Fields of the known numbers and types are well formed; there may be others. -/
structure WellFormed (x : WireCall) : Prop where
  short : x.fname.length < maxCount
  valid : x.fields.Valid
  fits : ∀ m, ServProcessor.processMap x.fname = some m → x.fields.All m.argsSchema.fits

/-- What the processor makes of the call. -/
def incoming (x : WireCall) : Incoming :=
  match ServProcessor.processMap x.fname with
  | some m => .call m x.seqid (x.fields.fold m.argsSchema.meaning m.noArgs)
  | none => .unknown x.fname x.seqid

end WireCall

theorem ServProcessor.name_of_processMap {fname : FieldProtocol.Bytes} {m : Method}
    (found : processMap fname = some m) : m.name = fname := by
  have same := List.find?_some found
  exact of_decide_eq_true same

theorem WireCall.WellFormed.reads {T : Thrift} (lawful : T.Lawful) {x : WireCall}
    (formed : x.WellFormed) : Reads (ServProcessor.read T) (x.write T) x.incoming := by
  unfold WireCall.write WireCall.incoming
  cases found : ServProcessor.processMap x.fname with
  | none => exact ServProcessor.read_unknown lawful formed.short found formed.valid
  | some m =>
      rw [← ServProcessor.name_of_processMap found]
      exact ServProcessor.read_call lawful x.name x.seqid formed.valid (formed.fits m found)

/-- A stream of calls is taken apart exactly, one call after the other, whatever methods they name
and whatever fields they carry; a method that does not exist is answered by an exception that its
caller throws. -/
theorem processor_stays_in_step {T : Thrift} (lawful : T.Lawful) {calls : List WireCall}
    (formed : ∀ x ∈ calls, x.WellFormed) :
    Reads (readMany (ServProcessor.read T) calls.length) (calls.flatMap (WireCall.write T))
      (calls.map WireCall.incoming) ∧
    ∀ fname seqid (m : Method), .unknown fname seqid ∈ calls.map WireCall.incoming →
      fname.length + 23 < maxCount →
      Reads (ServClient.recv T m) (ServProcessor.reject T fname seqid)
        (.thrown ⟨ascii "Invalid method name: '" ++ fname ++ ascii "'", unknownMethod⟩) := by
  refine ⟨Reads.many calls fun x mem => (formed x mem).reads lawful, ?_⟩
  intro fname seqid m _ short
  apply ServClient.recv_exception lawful
  · omega
  · have first : (ascii "Invalid method name: '").length = 22 := by decide
    have last : (ascii "'").length = 1 := by decide
    rw [List.length_append, List.length_append, first, last]
    omega

/-- A call of an unknown method with a list in it, and a known one with a field of another type and
a field that nobody knows. -/
def strangeCalls : List WireCall :=
  [⟨ascii "ping", 7, [], .cons [] 1 (.list .i32 (.cons (.i32 5) (.cons (.i32 6) .nil))) .nil⟩,
    ⟨ascii "delete_blooms", 8, [],
      .cons [] 1 (.i64 3) (.cons [] 1 (.string [97]) (.cons [] 9 (.bool true) .nil))⟩]

theorem processor_stays_in_step_strange :
    Reads (readMany (ServProcessor.read binaryThrift) 2)
      (strangeCalls.flatMap (WireCall.write binaryThrift))
      [.unknown (ascii "ping") 7, .call .deleteBlooms 8 (⟨[97]⟩ : KeyArgs)] := by
  have formed : ∀ x ∈ strangeCalls, x.WellFormed := by
    have one : (1 : ℕ) < maxCount := by decide
    rintro x (_ | ⟨_, _ | ⟨_, none⟩⟩)
    · refine ⟨by decide, ?_, fun m found => ?_⟩
      · exact ⟨⟨trivial, by decide, ⟨rfl, trivial, ⟨rfl, trivial, trivial⟩⟩⟩, trivial⟩
      · cases found
    · refine ⟨by decide, ⟨trivial, one, trivial, trivial⟩, fun m found => ?_⟩
      cases found
      exact ⟨Schema.fits_of_find rfl trivial, Schema.fits_of_find rfl trivial,
        fun k none => (nomatch none), trivial⟩
    · cases none
  exact (processor_stays_in_step binaryThrift_lawful formed).1

end BloomServer
