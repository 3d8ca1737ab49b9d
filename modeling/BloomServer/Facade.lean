import BloomServer.LayoutEffect
import BloomServer.Library.CallSequence

/-! `BloomFilter`: the calls on the table through buffers of the process. -/
namespace BloomServer
open ByteFile CallSequence LayoutStore

/-- The table and the global `bloom_key_str`. The global `bloom_key_str1` is left out: `set` writes a
local variable of that name, and nothing writes the global one. -/
structure Facade where
  bloomKeyStr : CString
  store : LayoutStore

/-- The global `bloom_key_str1`, zero as every global. -/
def bloomKeyStr1 : CString := []

/-- The size of the buffers. -/
def bufferLen : ℕ := 128

/-- `strcpy` into one of the buffers. -/
def copyToBuffer (s : CString) : Except Stop CString :=
  if s.length < bufferLen then .ok s else .error .keyOverflow

/-- The calls of `BloomFilter`. -/
inductive FacadeCall
  | get (bloomKey key : CString)
  | add (key : CString) (n : Int64) (e : Float) (mem : Alloc)
  | set (bloomKey key : CString)
  | remove (bloomKey : CString)

namespace Facade

/-- `BloomFilter::get`; its arguments are not used. -/
def get (E : Env) (_bloomKey _key : CString) (F : Facade) : Except Stop (Int × Facade) := do
  let (r, σ) ← F.store.bloomsGet E F.bloomKeyStr bloomKeyStr1
  .ok (r, { F with store := σ })

def add (E : Env) (mem : Alloc) (key : CString) (n : Int64) (e : Float) (F : Facade) :
    Except Stop (Int × Facade) := do
  let str ← copyToBuffer key
  let (r, σ) ← F.store.bloomsAdd E mem str n.toUInt64 e
  .ok (r, ⟨str, σ⟩)

def set (E : Env) (bloomKey key : CString) (F : Facade) : Except Stop (Int × Facade) := do
  let str ← copyToBuffer bloomKey
  let str1 ← copyToBuffer key
  let (r, σ) ← F.store.bloomsSet E str str1
  .ok (if r = 0 then 0 else -1, ⟨str, σ⟩)

def remove (bloomKey : CString) (F : Facade) : Except Stop (Int × Facade) := do
  let (r, σ) ← F.store.bloomsDelete bloomKey
  .ok (if r = 0 then 0 else -1, { F with store := σ })

end Facade

namespace FacadeCall

def exec (E : Env) (F : Facade) : FacadeCall → Except Stop (Int × Facade)
  | .get bloomKey key => F.get E bloomKey key
  | .add key n e mem => F.add E mem key n e
  | .set bloomKey key => F.set E bloomKey key
  | .remove bloomKey => F.remove bloomKey

/-- The core function called with the same arguments. -/
def core : FacadeCall → Call
  | .get bloomKey key => .get bloomKey key
  | .add key n e mem => .add key n.toUInt64 e mem
  | .set bloomKey key => .set bloomKey key
  | .remove bloomKey => .delete bloomKey

/-- The strings are short enough for the buffers. -/
def Short : FacadeCall → Prop
  | .get bloomKey key | .set bloomKey key => bloomKey.length < bufferLen ∧ key.length < bufferLen
  | .add key _ _ _ | .remove key => key.length < bufferLen

/-- What the facade is to return when the core function returns `r`. -/
def SameValue (r' r : Int) : FacadeCall → Prop
  | .get _ _ | .add _ _ _ _ => r' = r
  | .set _ _ | .remove _ => r' = 0 ↔ r = 0

/-- Where the core function returns, the facade returns as well, with the same table. -/
def Agrees (E : Env) (F : Facade) (call : FacadeCall) : Prop :=
  ∀ r σ, call.core.layoutExec E F.store = .ok (r, σ) →
    ∃ r' F', call.exec E F = .ok (r', F') ∧ F'.store = σ ∧ call.SameValue r' r

end FacadeCall

namespace LayoutStore

/-- Whether all bits of a subkey are set in the filter at the node `p`. -/
def bitsSet (E : Env) (subkey : CString) (p : Addr) (σ : LayoutStore) : Except Stop Bool := do
  let nd ← σ.readNode p
  match σ.vector nd.vHash with
  | none => .error .deadVector
  | some map => getLoop (E.hash subkey) nd.m map (σ.bloom nd).rounds 0

end LayoutStore

/-- Where `get` asks for a filter that is there, it is the one that `bloom_key_str` names, and has the
bits of the empty key set or not as those of the key; where it asks for one that is not there, that
one is not there either. -/
def FacadeCall.Meets (E : Env) (F : Facade) : FacadeCall → Prop
  | .get bloomKey key =>
      match bloomsSearch bloomKey F.store.view with
      | .error _ => True
      | .ok none => bloomsSearch F.bloomKeyStr F.store.view = .ok none
      | .ok (some p) => ∀ hit, F.store.bitsSet E key p = .ok hit →
          bloomsSearch F.bloomKeyStr F.store.view = .ok (some p) ∧
            F.store.bitsSet E bloomKeyStr1 p = .ok hit
  | .add _ _ _ _ | .set _ _ | .remove _ => True

section Agreement

variable {E : Env} {F : Facade} {σ : LayoutStore} {p q : Addr} {nd nd' : LayoutNode}
  {key subkey : CString}

theorem getAt_eq_map (here : σ.nodes[p]? = some nd) :
    σ.getAt E subkey p = (σ.bitsSet E subkey p).map (σ.counted p nd) := by
  have bits : σ.bitsSet E subkey p = match σ.vector nd.vHash with
      | none => .error .deadVector
      | some map => getLoop (E.hash subkey) nd.m map (σ.bloom nd).rounds 0 := by
    rw [LayoutStore.bitsSet, LayoutStore.readNode_eq here]
    rfl
  rw [bits]
  cases vector : σ.vector nd.vHash with
  | none => rw [getAt_dead here vector]; rfl
  | some map => rw [getAt_eq here vector]

theorem node_of_bitsSet {hit : Bool} (bits : σ.bitsSet E subkey p = .ok hit) :
    ∃ nd, σ.nodes[p]? = some nd := by
  cases here : σ.nodes[p]? with
  | some nd => exact ⟨nd, rfl⟩
  | none =>
      rw [LayoutStore.bitsSet, LayoutStore.readNode, here] at bits
      cases bits

/-- A counter that changes shows in which node it stands. -/
theorem writeCounter_inj {offset offset' : ℕ} {count count' : UInt64} (here : σ.nodes[p]? = some nd)
    (changes : count ≠ .ofNat (nd.body.number offset 8))
    (same : (σ.writeCounter p offset count).nodes = (σ.writeCounter q offset' count').nodes) :
    p = q := by
  by_contra differ
  have read := congrArg (fun l => l[p]?) same
  simp only [writeCounter, List.getElem?_modify_eq, List.getElem?_modify_ne _ _ (Ne.symm differ), here,
    Option.map_eq_map, Option.map_some, Option.some.injEq] at read
  have body := congrArg LayoutNode.body read
  have value : (nd.body.put offset 8 count.toNat).number offset 8 = count.toNat :=
    number_put (by decide) count.toNat_lt
  dsimp only at body
  rw [body] at value
  exact changes (by rw [value, UInt64.ofNat_toNat])

theorem succ_ne (x : UInt64) : x + 1 ≠ x := by
  intro same
  have zero : (1 : UInt64) = 0 := by
    rw [← UInt64.add_right_inj x, same, UInt64.add_zero]
  exact absurd zero (by decide)

theorem counted_fst (hit : Bool) : (σ.counted p nd hit).1 = if hit then 1 else 0 := by
  cases hit <;> rfl

/-- The count shows which filter was asked, and the value what it answered. -/
theorem counted_inj {hit hit' : Bool} (here : σ.nodes[p]? = some nd)
    (same : σ.counted p nd hit = σ.counted q nd' hit') : p = q ∧ hit = hit' := by
  have value := congrArg Prod.fst same
  have nodes := congrArg (fun r => r.2.nodes) same
  rw [counted_fst, counted_fst] at value
  cases hit <;> cases hit'
  · have counters : (σ.writeCounter p offsetGetMissCount (nd.getMissCount + 1)).nodes =
        (σ.writeCounter q offsetGetMissCount (nd'.getMissCount + 1)).nodes := nodes
    exact ⟨writeCounter_inj here (succ_ne nd.getMissCount) counters, rfl⟩
  · exact absurd value (by decide)
  · exact absurd value (by decide)
  · have counters : (σ.writeCounter p offsetGetCount (nd.getCount + 1)).nodes =
        (σ.writeCounter q offsetGetCount (nd'.getCount + 1)).nodes := nodes
    exact ⟨writeCounter_inj here (succ_ne nd.getCount) counters, rfl⟩

theorem counted_ne {hit : Bool} {τ : LayoutStore} : σ.counted p nd hit ≠ (-1, τ) := by
  intro same
  have value : (if hit then (1 : Int) else 0) = -1 := by
    rw [← counted_fst, same]
  cases hit
  · exact absurd value (by decide)
  · exact absurd value (by decide)

/-- `blooms_get` of a key that is there or not. -/
theorem bloomsGet_absent (none : bloomsSearch key σ.view = .ok none) :
    σ.bloomsGet E key subkey = .ok (-1, σ) := by
  rw [LayoutStore.bloomsGet, none]
  rfl

theorem bloomsGet_present (found : bloomsSearch key σ.view = .ok (some p)) :
    σ.bloomsGet E key subkey = σ.getAt E subkey p := by
  rw [LayoutStore.bloomsGet, found]
  rfl

/-- What `blooms_get` returns is -1, or what it has counted at a filter that it found. -/
theorem bloomsGet_eq_ok {r : Int × LayoutStore} (run : σ.bloomsGet E key subkey = .ok r) :
    (bloomsSearch key σ.view = .ok none ∧ r = (-1, σ)) ∨
    ∃ p nd hit, bloomsSearch key σ.view = .ok (some p) ∧ σ.nodes[p]? = some nd ∧
      σ.bitsSet E subkey p = .ok hit ∧ r = σ.counted p nd hit := by
  cases search : bloomsSearch key σ.view with
  | error s =>
      rw [LayoutStore.bloomsGet, search] at run
      cases run
  | ok found =>
      cases found with
      | none =>
          rw [bloomsGet_absent search] at run
          exact Or.inl ⟨rfl, (Except.ok.inj run).symm⟩
      | some p =>
          rw [bloomsGet_present search] at run
          cases here : σ.nodes[p]? with
          | none =>
              rw [LayoutStore.getAt, LayoutStore.readNode, here] at run
              cases run
          | some nd =>
              rw [getAt_eq_map here] at run
              obtain ⟨hit, bits, same⟩ := exists_of_map_ok run
              exact Or.inr ⟨p, nd, hit, rfl, here, bits, same.symm⟩

/-- `get` of the facade, in terms of the core function it calls. -/
theorem get_agrees_iff (bloomKey key : CString) :
    (FacadeCall.get bloomKey key).Agrees E F ↔
      ∀ r, F.store.bloomsGet E bloomKey key = .ok r →
        F.store.bloomsGet E F.bloomKeyStr bloomKeyStr1 = .ok r := by
  constructor
  · intro agrees r run
    obtain ⟨r', F', exec, store, value⟩ := agrees r.1 r.2 run
    cases inner : F.store.bloomsGet E F.bloomKeyStr bloomKeyStr1 with
    | error s =>
        rw [FacadeCall.exec, Facade.get, inner] at exec
        cases exec
    | ok t =>
        rw [FacadeCall.exec, Facade.get, inner] at exec
        cases exec
        exact congrArg Except.ok (Prod.ext value store)
  · intro same r τ run
    refine ⟨r, { F with store := τ }, ?_, rfl, rfl⟩
    rw [FacadeCall.exec, Facade.get, same (r, τ) run]
    rfl

theorem get_meets_iff (bloomKey key : CString) :
    (FacadeCall.get bloomKey key).Agrees E F ↔ (FacadeCall.get bloomKey key).Meets E F := by
  rw [get_agrees_iff, FacadeCall.Meets]
  cases search : bloomsSearch bloomKey F.store.view with
  | error s =>
      refine iff_of_true (fun r run => ?_) trivial
      rw [LayoutStore.bloomsGet, search] at run
      cases run
  | ok found =>
      cases found with
      | none =>
          dsimp only
          constructor
          · intro same
            rcases bloomsGet_eq_ok (same _ (bloomsGet_absent search)) with
              ⟨none, -⟩ | ⟨p, nd, hit, -, -, -, counted⟩
            · exact none
            · exact absurd counted.symm counted_ne
          · intro none r run
            rw [bloomsGet_absent search] at run
            rw [bloomsGet_absent none, run]
      | some p =>
          dsimp only
          constructor
          · intro same hit bits
            obtain ⟨nd, here⟩ := node_of_bitsSet bits
            have run : F.store.bloomsGet E bloomKey key = .ok (F.store.counted p nd hit) := by
              rw [bloomsGet_present search, getAt_eq_map here, bits]
              rfl
            rcases bloomsGet_eq_ok (same _ run) with ⟨-, counted⟩ | ⟨q, nd', hit', found, -, bits', counted⟩
            · exact absurd counted counted_ne
            · obtain ⟨rfl, rfl⟩ := counted_inj here counted
              exact ⟨found, bits'⟩
          · intro meets r run
            rcases bloomsGet_eq_ok run with ⟨none, -⟩ | ⟨q, nd, hit, found, here, bits, rfl⟩
            · cases search.symm.trans none
            · obtain rfl := Option.some.inj (Except.ok.inj (search.symm.trans found))
              obtain ⟨last, empty⟩ := meets hit bits
              rw [bloomsGet_present last, getAt_eq_map here, empty]
              rfl

theorem copyToBuffer_eq {s : CString} (short : s.length < bufferLen) : copyToBuffer s = .ok s :=
  if_pos short

/-- `set` and `remove` return 0 for 0 and -1 for everything else. -/
theorem zero_iff (r : Int) : (if r = 0 then (0 : Int) else -1) = 0 ↔ r = 0 := by
  split_ifs with zero
  · exact iff_of_true rfl zero
  · exact iff_of_false (by decide) zero

theorem agrees_iff_meets {call : FacadeCall} (short : call.Short) :
    call.Agrees E F ↔ call.Meets E F := by
  cases call with
  | get bloomKey key => exact get_meets_iff bloomKey key
  | add key n e mem =>
      refine iff_of_true (fun r τ run => ⟨r, ⟨key, τ⟩, ?_, rfl, rfl⟩) trivial
      change F.store.bloomsAdd E mem key n.toUInt64 e = _ at run
      rw [FacadeCall.exec, Facade.add, copyToBuffer_eq short]
      change (F.store.bloomsAdd E mem key n.toUInt64 e >>= _) = _
      rw [run]
      rfl
  | set bloomKey key =>
      refine iff_of_true (fun r τ run => ⟨if r = 0 then 0 else -1, ⟨bloomKey, τ⟩, ?_, rfl, ?_⟩) trivial
      · change F.store.bloomsSet E bloomKey key = _ at run
        rw [FacadeCall.exec, Facade.set, copyToBuffer_eq short.1, copyToBuffer_eq short.2]
        change (F.store.bloomsSet E bloomKey key >>= _) = _
        rw [run]
        rfl
      · exact zero_iff r
  | remove bloomKey =>
      refine iff_of_true (fun r τ run => ⟨if r = 0 then 0 else -1, { F with store := τ }, ?_, rfl, ?_⟩)
        trivial
      · change F.store.bloomsDelete bloomKey = _ at run
        rw [FacadeCall.exec, Facade.remove, run]
        rfl
      · exact zero_iff r

end Agreement

/-- One call of the facade; what stops is undefined. -/
def facadeStep (E : Env) (F : Facade) (call : FacadeCall) : Option Facade :=
  match call.exec E F with
  | .ok (_, F) => some F
  | .error _ => none

/-- The facade after `initialize` has made a new table. -/
def facadeInit (max : UInt64) : Facade := ⟨[], layoutInit max⟩

/-- In a sequence of calls the facade agrees with the core functions throughout exactly if every
`get` meets its condition. -/
theorem facade_agrees_iff {E : Env} {max : UInt64} {calls : List FacadeCall}
    (short : ∀ call ∈ calls, call.Short) :
    Throughout (facadeStep E) (fun F call => call.Agrees E F) (facadeInit max) calls ↔
      Throughout (facadeStep E) (fun F call => call.Meets E F) (facadeInit max) calls :=
  throughout_congr fun _ call mem => agrees_iff_meets (short call mem)

/-- A `get` of the empty key in the filter just added. -/
theorem facade_agrees_iff_same :
    Throughout (facadeStep (serverEnv Libm.oneHalf)) (fun F call => call.Agrees (serverEnv Libm.oneHalf) F)
      (facadeInit 1000) [.add [97] 16 0.5 ⟨true, true⟩, .get [97] []] := by
  refine (facade_agrees_iff (by simp [FacadeCall.Short, bufferLen])).mpr ⟨trivial, fun F step => ?_⟩
  have named : (facadeStep (serverEnv Libm.oneHalf) (facadeInit 1000)
      (.add [97] 16 0.5 ⟨true, true⟩)).map Facade.bloomKeyStr = some [97] := by decide +kernel
  rw [step] at named
  have last : F.bloomKeyStr = [97] := Option.some.inj named
  refine ⟨?_, fun _ _ => trivial⟩
  change (FacadeCall.get [97] []).Meets _ F
  rw [FacadeCall.Meets, last]
  cases search : bloomsSearch [97] F.store.view with
  | error s => trivial
  | ok found =>
      cases found with
      | none => rfl
      | some p => exact fun hit bits => ⟨rfl, bits⟩

/-- After a filter has been added, `get` of another one answers for it. -/
theorem not_facade_agrees : ¬ ∀ calls : List FacadeCall, (∀ call ∈ calls, call.Short) →
    Throughout (facadeStep (serverEnv Libm.oneHalf))
      (fun F call => call.Agrees (serverEnv Libm.oneHalf) F) (facadeInit 1000) calls := by
  intro all
  let add := FacadeCall.add [97] 16 0.5 ⟨true, true⟩
  let get := FacadeCall.get [98] [120]
  have values : ([add].foldlM (facadeStep (serverEnv Libm.oneHalf)) (facadeInit 1000)).map (fun F =>
      ((get.exec (serverEnv Libm.oneHalf) F).map Prod.fst,
        (get.core.layoutExec (serverEnv Libm.oneHalf) F.store).map Prod.fst)) =
      some (.ok 0, .ok (-1)) := by decide +kernel
  obtain ⟨F, run, both⟩ := Option.map_eq_some_iff.mp values
  obtain ⟨mine, core⟩ := Prod.mk.inj both
  obtain ⟨⟨r, σ⟩, returned, rfl⟩ := exists_of_map_ok core
  have agrees := (all [add, get] (by simp [FacadeCall.Short, bufferLen, add, get])).after run
  obtain ⟨r', F', exec, -, same⟩ := agrees _ σ returned
  rw [exec] at mine
  have zero : r' = 0 := Except.ok.inj mine
  have value : r' = -1 := same
  exact absurd (zero.symm.trans value) (by decide)

end BloomServer
