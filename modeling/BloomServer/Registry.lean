import BloomServer.FilterCore

/-! The hash table of filters: `blooms_add`, `blooms_set`, `blooms_get` and
`blooms_delete` as one thread runs them. Every walk along a chain is given the
length of the heap as fuel. -/
namespace BloomServer

def readNode (heap : List Node) (p : Addr) : Except Stop Node :=
  match heap[p]? with
  | some nd => .ok nd
  | none => .error .badPointer

/-- A pointer the code dereferences without testing it. -/
def follow : Option Addr → Except Stop Addr
  | some p => .ok p
  | none => .error .badPointer

/-- `while (bloom) { if (!strcmp(bloom->key, key)) break; bloom = bloom->hash_next; }`. -/
def searchLoop (heap : List Node) (key : CString) : Nat → Option Addr → Except Stop (Option Addr)
  | _, none => .ok none
  | 0, some _ => .error .endless
  | fuel + 1, some bloom => do
      let nd ← readNode heap bloom
      if nd.bloom.key = key then .ok (some bloom)
      else searchLoop heap key fuel nd.hashNext

namespace Store

/-- The bucket index a call computes for its key. -/
def bucket (σ : Store) (key : CString) : Nat := bucketOf σ.blooms.power key

/-- A new node at the head of its chain. -/
def pushNode (σ : Store) (hv : Nat) (b : Bloom) : Store where
  heap := σ.heap ++ [⟨σ.blooms.hashtable hv, b⟩]
  blooms :=
    { σ.blooms with
      hashtable := Function.update σ.blooms.hashtable hv (some σ.heap.length) }

/-- `blooms->count++`. -/
def bumpCount (σ : Store) : Store :=
  { σ with blooms := { σ.blooms with count := σ.blooms.count + 1 } }

/-- `blooms->bytes += bloom->bytes`. -/
def addBytes (σ : Store) (p : Addr) : Except Stop Store := do
  let nd ← readNode σ.heap p
  .ok { σ with blooms := { σ.blooms with bytes := σ.blooms.bytes + nd.bloom.bytes } }

/-- `blooms->set_count++`. -/
def bumpSet (σ : Store) : Store :=
  { σ with blooms := { σ.blooms with setCount := σ.blooms.setCount + 1 } }

/-- `blooms->get_count++` after a hit, `blooms->get_miss_count++` after a miss. -/
def bumpGet (σ : Store) (result : Int) : Store :=
  if result = 1 then { σ with blooms := { σ.blooms with getCount := σ.blooms.getCount + 1 } }
  else { σ with blooms := { σ.blooms with getMissCount := σ.blooms.getMissCount + 1 } }

end Store

/-- `blooms_search`, and the walk every other operation starts with. -/
def bloomsSearch (key : CString) (σ : Store) : Except Stop (Option Addr) :=
  searchLoop σ.heap key σ.heap.length (σ.blooms.hashtable (σ.bucket key))

/-- `blooms_add` up to the release of `bloom_hash_lock`: the value it will return
and the node it has linked, if any. -/
def addSection (E : Env) (mem : Alloc) (key : CString) (n : UInt64) (e : Float) (σ : Store) :
    Except Stop (Int × Option Addr × Store) := do
  match ← bloomsSearch key σ with
  | some _ => .ok (1, none, σ)
  | none =>
      match ← bloomInit E mem σ.blooms key n e with
      | none => .ok (2, none, σ)
      | some b => .ok (0, some σ.heap.length, σ.pushNode (σ.bucket key) b)

def bloomsAdd (E : Env) (mem : Alloc) (key : CString) (n : UInt64) (e : Float) (σ : Store) :
    Except Stop (Int × Store) := do
  let (ret, node, σ) ← addSection E mem key n e σ
  match node with
  | none => .ok (ret, σ)
  | some p =>
      let σ ← σ.bumpCount.addBytes p
      .ok (ret, σ)

def bloomsSet (E : Env) (key subkey : CString) (σ : Store) : Except Stop (Int × Store) := do
  match ← bloomsSearch key σ with
  | none => .ok (1, σ)
  | some p =>
      let nd ← readNode σ.heap p
      let b ← bloomSet E nd.bloom subkey
      .ok (0, (σ.setBloom p b).bumpSet)

def bloomsGet (E : Env) (key subkey : CString) (σ : Store) : Except Stop (Int × Store) := do
  match ← bloomsSearch key σ with
  | none => .ok (-1, σ)
  | some p =>
      let nd ← readNode σ.heap p
      let (result, b) ← bloomGet E nd.bloom subkey
      .ok (result, (σ.setBloom p b).bumpGet result)

/-- `bloom_delete`: the vector goes, the node stays allocated. -/
def bloomDelete (p : Addr) (σ : Store) : Except Stop Store := do
  let nd ← readNode σ.heap p
  if nd.bloom.vHash.isNone then .error .deadVector
  else
    let σ := σ.setBloom p { nd.bloom with vHash := none }
    .ok { σ with
      blooms := { σ.blooms with
        bytes := σ.blooms.bytes - nd.bloom.bytes
        count := σ.blooms.count - 1 } }

/-- The second loop of `blooms_delete`, with its trailing pointer: the node found and
the one before it. -/
def unlinkLoop (heap : List Node) (key : CString) :
    Nat → Addr → Option Addr → Except Stop (Option (Addr × Addr))
  | _, _, none => .ok none
  | 0, _, some _ => .error .endless
  | fuel + 1, bloom, some next => do
      let nd ← readNode heap next
      if nd.bloom.key = key then .ok (some (bloom, next))
      else
        let prev ← readNode heap bloom
        let bloom ← follow prev.hashNext
        let cur ← readNode heap bloom
        unlinkLoop heap key fuel bloom cur.hashNext

def bloomsDelete (key : CString) (σ : Store) : Except Stop (Int × Store) := do
  match σ.blooms.hashtable (σ.bucket key) with
  | none => .ok (1, σ)
  | some bloom =>
      let nd ← readNode σ.heap bloom
      if nd.bloom.key = key then
        let σ ← bloomDelete bloom (σ.setHead (σ.bucket key) nd.hashNext)
        .ok (0, σ)
      else
        match ← unlinkLoop σ.heap key σ.heap.length bloom nd.hashNext with
        | none => .ok (1, σ)
        | some (prev, next) =>
            let nx ← readNode σ.heap next
            let σ ← bloomDelete next (σ.setNext prev nx.hashNext)
            .ok (0, σ)

/-- The calls of a client. Each `add` comes with the outcome of its allocations. -/
inductive Call
  | add (key : CString) (n : UInt64) (e : Float) (mem : Alloc)
  | set (key subkey : CString)
  | get (key subkey : CString)
  | delete (key : CString)
  deriving DecidableEq

def Call.key : Call → CString
  | .add key _ _ _ | .set key _ | .get key _ | .delete key => key

def Call.exec (E : Env) (σ : Store) : Call → Except Stop (Int × Store)
  | .add key n e mem => bloomsAdd E mem key n e σ
  | .set key subkey => bloomsSet E key subkey σ
  | .get key subkey => bloomsGet E key subkey σ
  | .delete key => bloomsDelete key σ

/-- A call that returned, with the value it returned. -/
abbrev Event := Call × Int

/-- One call of a sequential run. -/
def Returns (E : Env) (σ : Store) (ev : Event) (σ' : Store) : Prop :=
  ev.1.exec E σ = .ok (ev.2, σ')

theorem Returns.deterministic {E : Env} {σ σ₁ σ₂ : Store} {ev : Event}
    (h : Returns E σ ev σ₁) (k : Returns E σ ev σ₂) : σ₁ = σ₂ := by
  have same := Except.ok.inj (h.symm.trans k)
  exact congrArg Prod.snd same

end BloomServer
