import BloomServer.RegistryRun
import BloomServer.Library.ByteFields

/-! The table of filters with the bytes of every `bloom_t` from its member `key` on, into which
`strcpy` writes the key however long it is, and the calls on it. -/
namespace BloomServer
open LabelledRun LinkedChain

/-! ### A `bloom_t` in memory -/

/-- A `bloom_t`. The members before `key` lie where no write of a key comes; `body` is the memory
from `key` on, which has 104 bytes of the node and whatever is written behind them. -/
structure LayoutNode where
  hashNext : Option Addr
  bytes : UInt64
  body : ByteFile

/-! The offsets of the members of `bloom_t`, counted from `key`. -/

def offsetN : ℕ := 32
def offsetM : ℕ := 40
def offsetGetCount : ℕ := 48
def offsetSetCount : ℕ := 56
def offsetGetMissCount : ℕ := 64
def offsetE : ℕ := 72
def offsetE2 : ℕ := 80
def offsetK : ℕ := 88
def offsetVHash : ℕ := 96
def bodySize : ℕ := 104

namespace LayoutNode

variable (nd : LayoutNode)

/-- The key as `strcmp` reads it: up to the first NUL. -/
def key : CString := nd.body.text
def n : UInt64 := .ofNat (nd.body.number offsetN 8)
def m : UInt64 := .ofNat (nd.body.number offsetM 8)
def getCount : UInt64 := .ofNat (nd.body.number offsetGetCount 8)
def setCount : UInt64 := .ofNat (nd.body.number offsetSetCount 8)
def getMissCount : UInt64 := .ofNat (nd.body.number offsetGetMissCount 8)
/-- The bits of the double. -/
def eBits : UInt64 := .ofNat (nd.body.number offsetE 8)
def e2Bits : UInt64 := .ofNat (nd.body.number offsetE2 8)
def k : Int32 := (UInt32.ofNat (nd.body.number offsetK 4)).toInt32
/-- The pointer to the vector. -/
def vHash : ℕ := nd.body.number offsetVHash 8

end LayoutNode

/-- The nodes and the vectors of the process, each in the order of their allocation. The pointer to
vector `i` is the number `i + 1`; a deleted vector is `none`. -/
structure LayoutStore where
  nodes : List LayoutNode
  vectors : List (Option (List Word))
  blooms : Blooms

/-- `blooms_init`. -/
def layoutInit (max : UInt64) : LayoutStore := ⟨[], [], (bloomsInit max []).blooms⟩

namespace LayoutStore

def vector (σ : LayoutStore) : ℕ → Option (List Word)
  | 0 => none
  | i + 1 => (σ.vectors[i]?).join

def writeVector (σ : LayoutStore) (map : Option (List Word)) : ℕ → LayoutStore
  | 0 => σ
  | i + 1 => { σ with vectors := σ.vectors.set i map }

/-- The filter that the code sees at a node. -/
def bloom (σ : LayoutStore) (nd : LayoutNode) : Bloom :=
  { bytes := nd.bytes, key := nd.key, n := nd.n, m := nd.m, getCount := nd.getCount
    setCount := nd.setCount, getMissCount := nd.getMissCount, e := .ofBits nd.eBits
    e2 := .ofBits nd.e2Bits, k := nd.k, vHash := σ.vector nd.vHash }

/-- The table as the walks along the chains see it. -/
def view (σ : LayoutStore) : Store := ⟨σ.nodes.map fun nd => ⟨nd.hashNext, σ.bloom nd⟩, σ.blooms⟩

def readNode (σ : LayoutStore) (p : Addr) : Except Stop LayoutNode :=
  match σ.nodes[p]? with
  | some nd => .ok nd
  | none => .error .badPointer

def setNext (σ : LayoutStore) (p : Addr) (q : Option Addr) : LayoutStore :=
  { σ with nodes := σ.nodes.modify p fun nd => { nd with hashNext := q } }

def setHead (σ : LayoutStore) (hv : ℕ) (q : Option Addr) : LayoutStore :=
  { σ with blooms := { σ.blooms with hashtable := Function.update σ.blooms.hashtable hv q } }

/-- Write one of the counters of a node. -/
def writeCounter (σ : LayoutStore) (p : Addr) (offset : ℕ) (count : UInt64) : LayoutStore :=
  { σ with nodes := σ.nodes.modify p fun nd => { nd with body := nd.body.put offset 8 count.toNat } }

/-! ### The calls -/

/-- The `bloom_t` that `bloom_init` has filled in before it copies the key: zeros, then the members
in the order of their assignments. -/
def newBody (size : Size) (n : UInt64) (e : Float) (vHash : ℕ) : ByteFile :=
  let body : ByteFile := ⟨fun _ => 0, bodySize⟩
  let body := body.put offsetM 8 size.m.toNat
  let body := body.put offsetE 8 e.toBits.toNat
  let body := body.put offsetE2 8 size.e2.toBits.toNat
  let body := body.put offsetK 4 size.k.toUInt32.toNat
  let body := body.put offsetN 8 n.toNat
  body.put offsetVHash 8 vHash

/-- `strcpy(bloom->key, key)`. -/
def copyKey (body : ByteFile) (key : CString) : ByteFile := body.pwrite (key ++ [0]) 0

/-- `bloom_init`; `new` fails as well when there is no address left for the vector. -/
def bloomInit (E : Env) (mem : Alloc) (key : CString) (n : UInt64) (e : Float) (σ : LayoutStore) :
    Except Stop (Option (LayoutNode × LayoutStore)) :=
  let size := calculate E.libm n e
  if size.bytes = 0 then .ok none
  else if size.bytes > σ.blooms.maxBytes - σ.blooms.bytes then .ok none
  else if mem.malloc = false then .ok none
  else if mem.newVector = false ∨ 2 ^ 64 ≤ σ.vectors.length + 1 then .error .badAlloc
  else
    let vector := List.replicate (wordsOf size.bytes) 0#32
    .ok (some (⟨none, size.bytes, copyKey (newBody size n e (σ.vectors.length + 1)) key⟩,
      { σ with vectors := σ.vectors ++ [some vector] }))

/-- The new node at the head of its chain, counted. -/
def pushNode (σ : LayoutStore) (hv : ℕ) (nd : LayoutNode) : LayoutStore :=
  { σ with
    nodes := σ.nodes ++ [{ nd with hashNext := σ.blooms.hashtable hv }]
    blooms := { σ.blooms with
      hashtable := Function.update σ.blooms.hashtable hv (some σ.nodes.length)
      count := σ.blooms.count + 1
      bytes := σ.blooms.bytes + nd.bytes } }

def bloomsAdd (E : Env) (mem : Alloc) (key : CString) (n : UInt64) (e : Float) (σ : LayoutStore) :
    Except Stop (Int × LayoutStore) := do
  match ← bloomsSearch key σ.view with
  | some _ => .ok (1, σ)
  | none =>
      match ← σ.bloomInit E mem key n e with
      | none => .ok (2, σ)
      | some (nd, τ) => .ok (0, τ.pushNode (σ.view.bucket key) nd)

/-- `bloom_set` at the node `p`, and `blooms->set_count++`. -/
def setAt (E : Env) (subkey : CString) (p : Addr) (σ : LayoutStore) : Except Stop LayoutStore := do
  let nd ← σ.readNode p
  let b ← bloomSet E (σ.bloom nd) subkey
  let σ := (σ.writeVector b.vHash nd.vHash).writeCounter p offsetSetCount b.setCount
  .ok { σ with blooms := { σ.blooms with setCount := σ.blooms.setCount + 1 } }

/-- `bloom_get` at the node `p`: a hit counts in `get_count`, a miss in `get_miss_count`. -/
def getAt (E : Env) (subkey : CString) (p : Addr) (σ : LayoutStore) :
    Except Stop (Int × LayoutStore) := do
  let nd ← σ.readNode p
  let (result, b) ← bloomGet E (σ.bloom nd) subkey
  if result = 1 then
    let σ := σ.writeCounter p offsetGetCount b.getCount
    .ok (1, { σ with blooms := { σ.blooms with getCount := σ.blooms.getCount + 1 } })
  else
    let σ := σ.writeCounter p offsetGetMissCount b.getMissCount
    .ok (0, { σ with blooms := { σ.blooms with getMissCount := σ.blooms.getMissCount + 1 } })

def bloomsSet (E : Env) (key subkey : CString) (σ : LayoutStore) : Except Stop (Int × LayoutStore) := do
  match ← bloomsSearch key σ.view with
  | none => .ok (1, σ)
  | some p =>
      let σ ← σ.setAt E subkey p
      .ok (0, σ)

def bloomsGet (E : Env) (key subkey : CString) (σ : LayoutStore) :
    Except Stop (Int × LayoutStore) := do
  match ← bloomsSearch key σ.view with
  | none => .ok (-1, σ)
  | some p => σ.getAt E subkey p

/-- `bloom_delete`; deleting a null `v_hash` does nothing. -/
def bloomDelete (p : Addr) (σ : LayoutStore) : Except Stop LayoutStore := do
  let nd ← σ.readNode p
  if nd.vHash ≠ 0 ∧ (σ.vector nd.vHash).isNone then .error .deadVector
  else
    .ok { σ.writeVector none nd.vHash with
      blooms := { σ.blooms with
        bytes := σ.blooms.bytes - nd.bytes
        count := σ.blooms.count - 1 } }

def bloomsDelete (key : CString) (σ : LayoutStore) : Except Stop (Int × LayoutStore) := do
  match σ.blooms.hashtable (σ.view.bucket key) with
  | none => .ok (1, σ)
  | some bloom =>
      let nd ← σ.readNode bloom
      if nd.key = key then
        let σ ← bloomDelete bloom (σ.setHead (σ.view.bucket key) nd.hashNext)
        .ok (0, σ)
      else
        match ← unlinkLoop σ.view.heap key σ.nodes.length bloom nd.hashNext with
        | none => .ok (1, σ)
        | some (prev, next) =>
            let nx ← σ.readNode next
            let σ ← bloomDelete next (σ.setNext prev nx.hashNext)
            .ok (0, σ)

end LayoutStore

def Call.layoutExec (E : Env) (σ : LayoutStore) : Call → Except Stop (Int × LayoutStore)
  | .add key n e mem => σ.bloomsAdd E mem key n e
  | .set key subkey => σ.bloomsSet E key subkey
  | .get key subkey => σ.bloomsGet E key subkey
  | .delete key => σ.bloomsDelete key

/-- One call of a sequential run. -/
def LayoutReturns (E : Env) (σ : LayoutStore) (ev : Event) (σ' : LayoutStore) : Prop :=
  ev.1.layoutExec E σ = .ok (ev.2, σ')

end BloomServer
