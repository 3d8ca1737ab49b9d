import BloomServer.BatchRequests
import BloomServer.UrlParse
import BloomServer.Library.BinaryProtocol

/-! The structs of the thrift service `Serv` on the wire: what each writes, which fields each
reads, and that reading undoes writing. -/
namespace BloomServer
open ByteCodec FieldProtocol

/-- The thrift struct `memInfo`. -/
structure MemInfo where
  key : StdString
  size : Int32
  deriving DecidableEq

/-- The calls of `write` for a struct, as the value they put out. -/
def fieldsOf : List (String × Int16 × Value) → Fields
  | [] => .nil
  | (name, id, v) :: rest => .cons (ascii name) id v (fieldsOf rest)

def structOf (name : String) (fields : List (String × Int16 × Value)) : Value :=
  .struct (ascii name) (fieldsOf fields)

def itemsOf {α : Type} (value : α → Value) : List α → Items
  | [] => .nil
  | a :: rest => .cons (value a) (itemsOf value rest)

/-- `element::read`. -/
def Element.schema : Schema Element :=
  [.i16 1 fun v x => { x with isExist := v }, .string 2 fun v x => { x with url := v }]

/-- `element()`. -/
def Element.empty : Element := ⟨0, []⟩

/-- `element::write`. -/
def Element.value (x : Element) : Value :=
  structOf "element" [("is_exist", 1, .i16 x.isExist), ("url", 2, .string x.url)]

/-- `memInfo::read`. -/
def MemInfo.schema : Schema MemInfo :=
  [.string 1 fun v x => { x with key := v }, .i32 2 fun v x => { x with size := v }]

def MemInfo.empty : MemInfo := ⟨[], 0⟩

/-- `memInfo::write`. -/
def MemInfo.value (x : MemInfo) : Value :=
  structOf "memInfo" [("key", 1, .string x.key), ("size", 2, .i32 x.size)]

/-! ### The methods -/

inductive Method
  | add | fill | get | getStats | getBloomsStats | getBloomStats | setMem | getOne | fillOne
  | deleteBlooms | deleteBloomsAll
  deriving DecidableEq

def Method.text : Method → String
  | .add => "add"
  | .fill => "fill"
  | .get => "get"
  | .getStats => "get_stats"
  | .getBloomsStats => "get_blooms_stats"
  | .getBloomStats => "get_bloom_stats"
  | .setMem => "set_mem"
  | .getOne => "get_one"
  | .fillOne => "fill_one"
  | .deleteBlooms => "delete_blooms"
  | .deleteBloomsAll => "delete_blooms_all"

def Method.name (m : Method) : FieldProtocol.Bytes := ascii m.text

/-- `Serv_add_args`; `false_rate` is carried as the 64 bits of the double. -/
structure AddArgs where
  key : StdString
  maxElements : Int32
  falseRate : UInt64
  deriving DecidableEq

/-- `Serv_fill_args` and `Serv_get_args`. -/
structure UrlsArgs where
  key : StdString
  vectorUrl : List Element
  deriving DecidableEq

/-- `Serv_get_one_args` and `Serv_fill_one_args`. -/
structure UrlArgs where
  key : StdString
  url : StdString
  deriving DecidableEq

/-- `Serv_get_bloom_stats_args` and `Serv_delete_blooms_args`. -/
structure KeyArgs where
  key : StdString
  deriving DecidableEq

/-- `Serv_set_mem_args`. -/
structure SizeArgs where
  size : Int32
  deriving DecidableEq

def Method.Args : Method → Type
  | .add => AddArgs
  | .fill | .get => UrlsArgs
  | .getOne | .fillOne => UrlArgs
  | .getBloomStats | .deleteBlooms => KeyArgs
  | .setMem => SizeArgs
  | .getStats | .getBloomsStats | .deleteBloomsAll => Unit

def Method.Result : Method → Type
  | .fill | .get => List Element
  | .getStats | .getBloomsStats | .getBloomStats => List MemInfo
  | .add | .setMem | .getOne | .fillOne | .deleteBlooms | .deleteBloomsAll => Int16

/-- `Serv_add_args::read`. -/
def AddArgs.schema : Schema AddArgs :=
  [.string 1 fun v a => { a with key := v }, .i32 2 fun v a => { a with maxElements := v },
    .double 3 fun v a => { a with falseRate := v }]

/-- `Serv_fill_args::read`. -/
def UrlsArgs.schema : Schema UrlsArgs :=
  [.string 1 fun v a => { a with key := v },
    .structs 2 Element.schema Element.empty fun v a => { a with vectorUrl := v }]

/-- `Serv_get_one_args::read`. -/
def UrlArgs.schema : Schema UrlArgs :=
  [.string 1 fun v a => { a with key := v }, .string 2 fun v a => { a with url := v }]

def KeyArgs.schema : Schema KeyArgs := [.string 1 fun v a => { a with key := v }]

def SizeArgs.schema : Schema SizeArgs := [.i32 1 fun v a => { a with size := v }]

/-- The fields that `Serv_<method>_args::read` knows. -/
def Method.argsSchema : (m : Method) → Schema m.Args
  | .add => AddArgs.schema
  | .fill | .get => UrlsArgs.schema
  | .getOne | .fillOne => UrlArgs.schema
  | .getBloomStats | .deleteBlooms => KeyArgs.schema
  | .setMem => SizeArgs.schema
  | .getStats | .getBloomsStats | .deleteBloomsAll => []

/-- The arguments before a field is read. -/
def Method.noArgs : (m : Method) → m.Args
  | .add => (⟨[], 0, 0⟩ : AddArgs)
  | .fill | .get => (⟨[], []⟩ : UrlsArgs)
  | .getOne | .fillOne => (⟨[], []⟩ : UrlArgs)
  | .getBloomStats | .deleteBlooms => (⟨[]⟩ : KeyArgs)
  | .setMem => (⟨0⟩ : SizeArgs)
  | .getStats | .getBloomsStats | .deleteBloomsAll => ()

/-- The fields that `Serv_<method>_pargs::write` writes. -/
def Method.argsFields : (m : Method) → m.Args → List (String × Int16 × Value)
  | .add, (a : AddArgs) =>
      [("key", 1, .string a.key), ("max_elements", 2, .i32 a.maxElements),
        ("false_rate", 3, .double a.falseRate)]
  | .fill, (a : UrlsArgs) | .get, (a : UrlsArgs) =>
      [("key", 1, .string a.key),
        ("vector_url", 2, .list .struct (itemsOf Element.value a.vectorUrl))]
  | .getOne, (a : UrlArgs) | .fillOne, (a : UrlArgs) =>
      [("key", 1, .string a.key), ("url", 2, .string a.url)]
  | .getBloomStats, (a : KeyArgs) | .deleteBlooms, (a : KeyArgs) => [("key", 1, .string a.key)]
  | .setMem, (a : SizeArgs) => [("size", 1, .i32 a.size)]
  | .getStats, _ | .getBloomsStats, _ | .deleteBloomsAll, _ => []

def Method.argsValue (m : Method) (args : m.Args) : Value :=
  structOf ("Serv_" ++ m.text ++ "_pargs") (m.argsFields args)

/-- The fields that `Serv_<method>_presult::read` knows; `none` is a result that is not set. -/
def Method.resultSchema : (m : Method) → Schema (Option m.Result)
  | .fill | .get => [.structs 0 Element.schema Element.empty fun v _ => some v]
  | .getStats | .getBloomsStats | .getBloomStats =>
      [.structs 0 MemInfo.schema MemInfo.empty fun v _ => some v]
  | .add | .setMem | .getOne | .fillOne | .deleteBlooms | .deleteBloomsAll =>
      [.i16 0 fun v _ => some v]

/-- The value that a method returns, on the wire. -/
def Method.success : (m : Method) → m.Result → Value
  | .fill, (r : List Element) | .get, (r : List Element) =>
      .list .struct (itemsOf Element.value r)
  | .getStats, (r : List MemInfo) | .getBloomsStats, (r : List MemInfo)
  | .getBloomStats, (r : List MemInfo) => .list .struct (itemsOf MemInfo.value r)
  | .add, (r : Int16) | .setMem, (r : Int16) | .getOne, (r : Int16) | .fillOne, (r : Int16)
  | .deleteBlooms, (r : Int16) | .deleteBloomsAll, (r : Int16) => .i16 r

/-- The value that `Serv_<method>_result::write` puts out. -/
def Method.resultValue (m : Method) (result : Option m.Result) : Value :=
  structOf ("Serv_" ++ m.text ++ "_result")
    ((result.map fun r => ("success", 0, m.success r)).toList)

/-! ### Reading undoes writing -/

def Element.Fits (x : Element) : Prop := x.url.length < maxCount

def MemInfo.Fits (x : MemInfo) : Prop := x.key.length < maxCount

/-- Texts and lists have lengths that fit the counts on the wire. -/
def Method.ArgsFit : (m : Method) → m.Args → Prop
  | .add, (a : AddArgs) => a.key.length < maxCount
  | .fill, (a : UrlsArgs) | .get, (a : UrlsArgs) =>
      a.key.length < maxCount ∧ a.vectorUrl.length < maxCount ∧ ∀ x ∈ a.vectorUrl, x.Fits
  | .getOne, (a : UrlArgs) | .fillOne, (a : UrlArgs) =>
      a.key.length < maxCount ∧ a.url.length < maxCount
  | .getBloomStats, (a : KeyArgs) | .deleteBlooms, (a : KeyArgs) => a.key.length < maxCount
  | .setMem, _ | .getStats, _ | .getBloomsStats, _ | .deleteBloomsAll, _ => True

def Method.ResultFits : (m : Method) → m.Result → Prop
  | .fill, (r : List Element) | .get, (r : List Element) =>
      r.length < maxCount ∧ ∀ x ∈ r, x.Fits
  | .getStats, (r : List MemInfo) | .getBloomsStats, (r : List MemInfo)
  | .getBloomStats, (r : List MemInfo) => r.length < maxCount ∧ ∀ x ∈ r, x.Fits
  | .add, _ | .setMem, _ | .getOne, _ | .fillOne, _ | .deleteBlooms, _ | .deleteBloomsAll, _ =>
      True

section Items

variable {α : Type} {value : α → Value} {name : String}
  {fields : α → List (String × Int16 × Value)}

theorem itemsOf_count (as : List α) : (itemsOf value as).count = as.length := by
  induction as with
  | nil => rfl
  | cons a as ih => exact congrArg (· + 1) ih

theorem itemsOf_structs (as : List α) :
    (itemsOf (fun a => structOf name (fields a)) as).structs =
      as.map fun a => fieldsOf (fields a) := by
  induction as with
  | nil => rfl
  | cons a as ih => exact congrArg _ ih

theorem itemsOf_valid {as : List α} (valid : ∀ a ∈ as, (fieldsOf (fields a)).Valid) :
    (itemsOf (fun a => structOf name (fields a)) as).Valid .struct := by
  induction as with
  | nil => trivial
  | cons a as ih =>
      refine ⟨rfl, valid a List.mem_cons_self, ?_⟩
      exact ih fun b mem => valid b (List.mem_cons_of_mem a mem)

/-- A list of structs is read back if each of them is. -/
theorem list_valid {as : List α} (short : as.length < maxCount)
    (valid : ∀ a ∈ as, (fieldsOf (fields a)).Valid) :
    (Value.list .struct (itemsOf (fun a => structOf name (fields a)) as)).Valid := by
  refine ⟨trivial, ?_, itemsOf_valid valid⟩
  rw [itemsOf_count]
  exact short

theorem structs_fold (name : String) {schema : Schema α} {empty : α}
    (back : ∀ a, (fieldsOf (fields a)).fold schema.meaning empty = a) (as : List α) :
    ((itemsOf (fun a => structOf name (fields a)) as).structs.map fun fs =>
      fs.fold schema.meaning empty) = as := by
  rw [itemsOf_structs, List.map_map]
  exact (List.map_congr_left fun a _ => back a).trans (List.map_id as)

theorem structs_all {schema : Schema α} (fit : ∀ a, (fieldsOf (fields a)).All schema.fits)
    (as : List α) : ∀ fs ∈ (itemsOf (fun a => structOf name (fields a)) as).structs,
      fs.All schema.fits := by
  intro fs mem
  rw [itemsOf_structs, List.mem_map] at mem
  obtain ⟨a, _, rfl⟩ := mem
  exact fit a

end Items

theorem Schema.fits_of_find {S : Type} {schema : Schema S} {id : Int16} {v : Value} {k : Known S}
    (found : schema.known id = some k) (fit : k.fits v) : schema.fits id v := by
  intro k' found'
  cases found.symm.trans found'
  exact fit

namespace Element

theorem back (x : Element) :
    (fieldsOf [("is_exist", 1, .i16 x.isExist), ("url", 2, .string x.url)]).fold
      schema.meaning empty = x := rfl

theorem all_fits (x : Element) :
    (fieldsOf [("is_exist", 1, .i16 x.isExist), ("url", 2, .string x.url)]).All schema.fits :=
  ⟨Schema.fits_of_find rfl trivial, Schema.fits_of_find rfl trivial, trivial⟩

theorem Fits.valid {x : Element} (fits : x.Fits) :
    (fieldsOf [("is_exist", 1, .i16 x.isExist), ("url", 2, .string x.url)]).Valid :=
  ⟨trivial, fits, trivial⟩

end Element

namespace MemInfo

theorem back (x : MemInfo) : (fieldsOf [("key", 1, .string x.key), ("size", 2, .i32 x.size)]).fold
    schema.meaning empty = x := rfl

theorem all_fits (x : MemInfo) :
    (fieldsOf [("key", 1, .string x.key), ("size", 2, .i32 x.size)]).All schema.fits :=
  ⟨Schema.fits_of_find rfl trivial, Schema.fits_of_find rfl trivial, trivial⟩

theorem Fits.valid {x : MemInfo} (fits : x.Fits) :
    (fieldsOf [("key", 1, .string x.key), ("size", 2, .i32 x.size)]).Valid :=
  ⟨fits, trivial, trivial⟩

end MemInfo

theorem Method.args_back (m : Method) (args : m.Args) :
    (fieldsOf (m.argsFields args)).fold m.argsSchema.meaning m.noArgs = args := by
  cases m with
  | fill | get =>
      have urls := structs_fold "element" Element.back args.vectorUrl
      exact congrArg (UrlsArgs.mk args.key) urls
  | _ => rfl

theorem Method.args_valid {m : Method} {args : m.Args} (fit : m.ArgsFit args) :
    (fieldsOf (m.argsFields args)).Valid := by
  cases m with
  | add => exact ⟨fit, trivial, trivial, trivial⟩
  | fill | get =>
      obtain ⟨key, short, urls⟩ := fit
      exact ⟨key, list_valid short fun x mem => (urls x mem).valid, trivial⟩
  | getOne | fillOne => exact ⟨fit.1, fit.2, trivial⟩
  | getBloomStats | deleteBlooms => exact ⟨fit, trivial⟩
  | setMem => exact ⟨trivial, trivial⟩
  | getStats | getBloomsStats | deleteBloomsAll => trivial

theorem Method.args_all (m : Method) (args : m.Args) :
    (fieldsOf (m.argsFields args)).All m.argsSchema.fits := by
  cases m with
  | add => exact ⟨Schema.fits_of_find rfl trivial, Schema.fits_of_find rfl trivial,
      Schema.fits_of_find rfl trivial, trivial⟩
  | fill | get =>
      refine ⟨Schema.fits_of_find rfl trivial, Schema.fits_of_find rfl ⟨rfl, ?_⟩, trivial⟩
      exact structs_all Element.all_fits args.vectorUrl
  | getOne | fillOne =>
      exact ⟨Schema.fits_of_find rfl trivial, Schema.fits_of_find rfl trivial, trivial⟩
  | getBloomStats | deleteBlooms | setMem => exact ⟨Schema.fits_of_find rfl trivial, trivial⟩
  | getStats | getBloomsStats | deleteBloomsAll => trivial

theorem Method.result_back (m : Method) (r : m.Result) :
    (fieldsOf [("success", 0, m.success r)]).fold m.resultSchema.meaning none = some r := by
  cases m with
  | fill | get => exact congrArg some (structs_fold "element" Element.back r)
  | getStats | getBloomsStats | getBloomStats =>
      exact congrArg some (structs_fold "memInfo" MemInfo.back r)
  | _ => rfl

theorem Method.result_valid {m : Method} {r : m.Result} (fit : m.ResultFits r) :
    (fieldsOf [("success", 0, m.success r)]).Valid := by
  cases m with
  | fill | get => exact ⟨list_valid fit.1 fun x mem => (fit.2 x mem).valid, trivial⟩
  | getStats | getBloomsStats | getBloomStats =>
      exact ⟨list_valid fit.1 fun x mem => (fit.2 x mem).valid, trivial⟩
  | _ => exact ⟨trivial, trivial⟩

theorem Method.result_all (m : Method) (r : m.Result) :
    (fieldsOf [("success", 0, m.success r)]).All m.resultSchema.fits := by
  cases m with
  | fill | get =>
      exact ⟨Schema.fits_of_find rfl ⟨rfl, structs_all Element.all_fits r⟩, trivial⟩
  | getStats | getBloomsStats | getBloomStats =>
      exact ⟨Schema.fits_of_find rfl ⟨rfl, structs_all MemInfo.all_fits r⟩, trivial⟩
  | _ => exact ⟨Schema.fits_of_find rfl trivial, trivial⟩

section Reads

variable {P : Protocol} {m : Method}

/-- `args.read` takes what `args.write` wrote and gets the arguments back. -/
theorem Method.args_read (lawful : P.Lawful) {args : m.Args} (fit : m.ArgsFit args) :
    Reads (m.argsSchema.read P m.noArgs) ((m.argsValue args).write P.toPrimitives) args := by
  have read := m.argsSchema.read_reads lawful (ascii ("Serv_" ++ m.text ++ "_pargs"))
    m.noArgs (Method.args_valid fit) (m.args_all args)
  rw [m.args_back args] at read
  exact read

theorem Method.result_read (lawful : P.Lawful) {r : m.Result} (fit : m.ResultFits r) :
    Reads (m.resultSchema.read P none) ((m.resultValue (some r)).write P.toPrimitives)
      (some r) := by
  have read := m.resultSchema.read_reads lawful (ascii ("Serv_" ++ m.text ++ "_result"))
    none (Method.result_valid fit) (m.result_all r)
  rw [m.result_back r] at read
  exact read

end Reads

end BloomServer
