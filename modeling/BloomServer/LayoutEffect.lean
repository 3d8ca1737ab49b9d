import BloomServer.FilterLayout

/-! What the calls on the table in memory can do: the chains they leave, and the bytes and vectors
they touch. Keys may be longer than their member, so that nothing is assumed of the nodes but that
they hang in chains. -/
namespace BloomServer
open LinkedChain ByteCodec

namespace Threaded

variable {σ σ' : Store} {B : Buckets}

theorem of_links (thr : Threaded σ B) (links : σ'.link = σ.link)
    (table : σ'.blooms.hashtable = σ.blooms.hashtable) (power : σ'.blooms.power = σ.blooms.power) :
    Threaded σ' B :=
  ⟨power.trans thr.power, by rw [links, table]; exact thr.chain, thr.apart⟩

/-- A node behind all others becomes the head of a chain. -/
theorem push (thr : Threaded σ B) {hv : Nat}
    (old : ∀ q < σ.heap.length, σ'.link q = σ.link q)
    (new : σ'.link σ.heap.length = some (σ.blooms.hashtable hv))
    (table : σ'.blooms.hashtable =
      Function.update σ.blooms.hashtable hv (some σ.heap.length))
    (power : σ'.blooms.power = σ.blooms.power) :
    Threaded σ' (Function.update B hv (σ.heap.length :: B hv)) := by
  have links : ∀ hv', ∀ q ∈ B hv', σ'.link q = σ.link q :=
    fun hv' q mem => old q (thr.lt_length mem)
  have fresh : ∀ hv', σ.heap.length ∉ B hv' :=
    fun hv' mem => Nat.lt_irrefl _ (thr.lt_length mem)
  refine ⟨power.trans thr.power, ?_, ?_⟩
  · intro hv'
    rw [table]
    by_cases same : hv' = hv
    · subst same
      rw [Function.update_self, Function.update_self]
      exact (thr.chain hv').push new (links hv')
    · rw [Function.update_of_ne same, Function.update_of_ne same]
      exact (thr.chain hv').congr (links hv')
  · have cases : ∀ hv' q, q ∈ Function.update B hv (σ.heap.length :: B hv) hv' →
        q ∈ B hv' ∨ (q = σ.heap.length ∧ hv' = hv) := by
      intro hv' q mem
      by_cases same : hv' = hv
      · subst same
        rw [Function.update_self, List.mem_cons] at mem
        exact mem.symm.imp id fun here => ⟨here, rfl⟩
      · rw [Function.update_of_ne same] at mem
        exact Or.inl mem
    intro hv₁ hv₂ q mem₁ mem₂
    rcases cases hv₁ q mem₁ with mem₁ | ⟨last, here⟩ <;>
      rcases cases hv₂ q mem₂ with mem₂ | ⟨last', here'⟩
    · exact thr.apart hv₁ hv₂ q mem₁ mem₂
    · exact absurd (last' ▸ mem₁) (fresh hv₁)
    · exact absurd (last ▸ mem₂) (fresh hv₂)
    · rw [here, here']

end Threaded

namespace LayoutStore

variable {E : Env} {σ σ' : LayoutStore} {B : Buckets} {key subkey : CString} {p q : Addr}
  {nd : LayoutNode} {r : Int}

theorem view_link (σ : LayoutStore) (p : Addr) :
    σ.view.link p = σ.nodes[p]?.map LayoutNode.hashNext := by
  simp only [Store.link, view, List.getElem?_map, Option.map_map, Function.comp_def]

theorem view_bloomAt (σ : LayoutStore) (p : Addr) : σ.view.bloomAt p = σ.nodes[p]?.map σ.bloom := by
  simp only [Store.bloomAt, view, List.getElem?_map, Option.map_map, Function.comp_def]

@[simp] theorem length_view_heap (σ : LayoutStore) : σ.view.heap.length = σ.nodes.length := by
  rw [view, List.length_map]

theorem view_setNext (σ : LayoutStore) (p : Addr) (q : Option Addr) :
    (σ.setNext p q).view = σ.view.setNext p q := by
  simp only [view, setNext, Store.setNext, Store.mk.injEq, and_true]
  apply List.ext_getElem?
  intro i
  simp only [List.getElem?_map, List.getElem?_modify]
  cases σ.nodes[i]? with
  | none => rfl
  | some nd =>
      simp only [Option.map_some]
      split_ifs <;> rfl

theorem readNode_eq (read : σ.nodes[p]? = some nd) : σ.readNode p = .ok nd := by
  rw [readNode, read]

/-- The filter that the search finds is a node of its chain. -/
theorem exists_node {b : Bloom} (read : σ.view.bloomAt p = some b) :
    ∃ nd, σ.nodes[p]? = some nd ∧ σ.bloom nd = b := by
  rw [view_bloomAt] at read
  exact Option.map_eq_some_iff.mp read

theorem search_cases (thr : Threaded σ.view B) (key : CString) :
    (∃ p nd, bloomsSearch key σ.view = .ok (some p) ∧ p ∈ B (bucketOf hashPower key) ∧
      σ.nodes[p]? = some nd ∧ nd.key = key) ∨
    (bloomsSearch key σ.view = .ok none ∧
      ∀ p ∈ B (bucketOf hashPower key), ∀ nd, σ.nodes[p]? = some nd → nd.key ≠ key) := by
  rcases thr.search_cases key with ⟨p, b, found, mem, read, same⟩ | ⟨none, absent⟩
  · obtain ⟨nd, here, rfl⟩ := exists_node read
    exact Or.inl ⟨p, nd, found, mem, here, same⟩
  · refine Or.inr ⟨none, fun p mem nd here => absent p mem (σ.bloom nd) ?_⟩
    rw [view_bloomAt, here, Option.map_some]

/-! ### Writing a counter and the vector of a node -/

theorem vector_writeVector_of_ne {map : Option (List Word)} {v w : ℕ} (differ : w ≠ v) :
    (σ.writeVector map v).vector w = σ.vector w := by
  cases v with
  | zero => rfl
  | succ i =>
      cases w with
      | zero => rfl
      | succ j =>
          have apart : i ≠ j := fun same => differ (congrArg _ same.symm)
          simp only [vector, writeVector, List.getElem?_set_ne apart]

theorem vector_writeVector_self {map : Option (List Word)} {v : ℕ} (there : (σ.vector v).isSome) :
    (σ.writeVector map v).vector v = map := by
  cases v with
  | zero => cases there
  | succ i =>
      have inside : i < σ.vectors.length := by
        by_contra out
        rw [vector, List.getElem?_eq_none (Nat.le_of_not_lt out)] at there
        cases there
      simp only [vector, writeVector, List.getElem?_set_self inside, Option.join_some]

theorem length_writeVector (map : Option (List Word)) (v : ℕ) :
    (σ.writeVector map v).vectors.length = σ.vectors.length := by
  cases v with
  | zero => rfl
  | succ i => exact List.length_set

/-- What `blooms_set` and `blooms_get` do to the memory once they have found the node `p`: they
count in one of its counters, and keep the length of every vector. -/
structure Touched (σ : LayoutStore) (p : Addr) (nd : LayoutNode) (σ' : LayoutStore) : Prop where
  table : σ'.blooms.hashtable = σ.blooms.hashtable
  power : σ'.blooms.power = σ.blooms.power
  node : ∃ offset count, (offset = offsetGetCount ∨ offset = offsetSetCount ∨
      offset = offsetGetMissCount) ∧
    σ'.nodes = σ.nodes.modify p fun nd => { nd with body := nd.body.put offset 8 count }
  lengths : ∀ v, (σ'.vector v).map List.length = (σ.vector v).map List.length
  allocated : σ'.vectors.length = σ.vectors.length
  /-- A filter with probes has words to probe. -/
  words : ∃ map, σ.vector nd.vHash = some map ∧ (0 < (σ.bloom nd).rounds → map ≠ [])

theorem setLoop_ne_nil {h : UInt64 × UInt64} {m : UInt64} {rest i : ℕ} {map map' : List Word}
    (run : setLoop h m rest i map = .ok map') (probes : 0 < rest) : map ≠ [] := by
  rintro rfl
  cases rest with
  | zero => cases probes
  | succ rest =>
      rw [setLoop] at run
      cases at? : probe h m i with
      | error s => rw [at?] at run; cases run
      | ok hashes => rw [at?] at run; cases run

theorem getLoop_ne_nil {h : UInt64 × UInt64} {m : UInt64} {rest i : ℕ} {map : List Word} {hit : Bool}
    (run : getLoop h m map rest i = .ok hit) (probes : 0 < rest) : map ≠ [] := by
  rintro rfl
  cases rest with
  | zero => cases probes
  | succ rest =>
      rw [getLoop] at run
      cases at? : probe h m i with
      | error s => rw [at?] at run; cases run
      | ok hashes => rw [at?] at run; cases run

theorem setAt_eq {map : List Word} (here : σ.nodes[p]? = some nd)
    (vector : σ.vector nd.vHash = some map) : σ.setAt E subkey p =
      (setLoop (E.hash subkey) nd.m (σ.bloom nd).rounds 0 map).map fun map' =>
        { (σ.writeVector (some map') nd.vHash).writeCounter p offsetSetCount (nd.setCount + 1) with
          blooms := { σ.blooms with setCount := σ.blooms.setCount + 1 } } := by
  have live : (σ.bloom nd).vHash = some map := vector
  have table : ∀ map', (σ.writeVector map' nd.vHash).blooms = σ.blooms := by
    intro map'
    cases nd.vHash <;> rfl
  rw [setAt, readNode_eq here]
  change (bloomSet E (σ.bloom nd) subkey >>= _) = _
  simp only [bloomSet, live]
  change ((setLoop (E.hash subkey) nd.m (σ.bloom nd).rounds 0 map >>= _) >>= _) = _
  cases setLoop (E.hash subkey) nd.m (σ.bloom nd).rounds 0 map with
  | error s => rfl
  | ok map' => rw [← table (some map')]; rfl

theorem setAt_dead (here : σ.nodes[p]? = some nd) (dead : σ.vector nd.vHash = none) :
    σ.setAt E subkey p = .error .deadVector := by
  have none : (σ.bloom nd).vHash = none := dead
  rw [setAt, readNode_eq here]
  change (bloomSet E (σ.bloom nd) subkey >>= _) = _
  simp only [bloomSet, none]
  rfl

/-- The outcome of `bloom_get` at the node `p` once its probes have been checked. -/
def counted (σ : LayoutStore) (p : Addr) (nd : LayoutNode) (hit : Bool) : Int × LayoutStore :=
  if hit then
    (1, { σ.writeCounter p offsetGetCount (nd.getCount + 1) with
      blooms := { σ.blooms with getCount := σ.blooms.getCount + 1 } })
  else
    (0, { σ.writeCounter p offsetGetMissCount (nd.getMissCount + 1) with
      blooms := { σ.blooms with getMissCount := σ.blooms.getMissCount + 1 } })

theorem getAt_eq {map : List Word} (here : σ.nodes[p]? = some nd)
    (vector : σ.vector nd.vHash = some map) : σ.getAt E subkey p =
      (getLoop (E.hash subkey) nd.m map (σ.bloom nd).rounds 0).map (σ.counted p nd) := by
  have live : (σ.bloom nd).vHash = some map := vector
  rw [getAt, readNode_eq here]
  change (bloomGet E (σ.bloom nd) subkey >>= _) = _
  simp only [bloomGet, live]
  change ((getLoop (E.hash subkey) nd.m map (σ.bloom nd).rounds 0 >>= _) >>= _) = _
  cases getLoop (E.hash subkey) nd.m map (σ.bloom nd).rounds 0 with
  | error s => rfl
  | ok hit => cases hit <;> rfl

theorem getAt_dead (here : σ.nodes[p]? = some nd) (dead : σ.vector nd.vHash = none) :
    σ.getAt E subkey p = .error .deadVector := by
  have none : (σ.bloom nd).vHash = none := dead
  rw [getAt, readNode_eq here]
  change (bloomGet E (σ.bloom nd) subkey >>= _) = _
  simp only [bloomGet, none]
  rfl

theorem touched_of_setAt (here : σ.nodes[p]? = some nd) (run : σ.setAt E subkey p = .ok σ') :
    σ.Touched p nd σ' := by
  cases vector : σ.vector nd.vHash with
  | none => rw [setAt_dead here vector] at run; cases run
  | some map =>
      rw [setAt_eq here vector] at run
      obtain ⟨map', loop, rfl⟩ := exists_of_map_ok run
      have nodes : (σ.writeVector (some map') nd.vHash).nodes = σ.nodes := by
        cases nd.vHash <;> rfl
      refine ⟨rfl, rfl, ⟨offsetSetCount, (nd.setCount + 1).toNat, Or.inr (Or.inl rfl), ?_⟩,
        fun v => ?_, length_writeVector _ _, map, vector, setLoop_ne_nil loop⟩
      · change List.modify (σ.writeVector (some map') nd.vHash).nodes p _ = _
        rw [nodes]
      · change ((σ.writeVector (some map') nd.vHash).vector v).map List.length = _
        by_cases same : v = nd.vHash
        · rw [same, vector_writeVector_self (by rw [vector]; rfl), vector, Option.map_some,
            Option.map_some, setLoop_length loop]
        · rw [vector_writeVector_of_ne same]

theorem touched_of_getAt (here : σ.nodes[p]? = some nd) (run : σ.getAt E subkey p = .ok (r, σ')) :
    σ.Touched p nd σ' ∧ r ≠ -1 := by
  cases vector : σ.vector nd.vHash with
  | none => rw [getAt_dead here vector] at run; cases run
  | some map =>
      rw [getAt_eq here vector] at run
      obtain ⟨hit, loop, same⟩ := exists_of_map_ok run
      have words := getLoop_ne_nil loop
      cases hit with
      | true =>
          cases same
          exact ⟨⟨rfl, rfl, ⟨_, _, Or.inl rfl, rfl⟩, fun _ => rfl, rfl, map, vector, words⟩, by decide⟩
      | false =>
          cases same
          exact ⟨⟨rfl, rfl, ⟨_, _, Or.inr (Or.inr rfl), rfl⟩, fun _ => rfl, rfl, map, vector, words⟩,
            by decide⟩

/-! ### The four operations -/

/-- The node that a successful `blooms_add` puts at the head of the chain. -/
def newNode (E : Env) (key : CString) (n : UInt64) (e : Float) (σ : LayoutStore) : LayoutNode :=
  ⟨σ.blooms.hashtable (σ.view.bucket key), (calculate E.libm n e).bytes,
    copyKey (newBody (calculate E.libm n e) n e (σ.vectors.length + 1)) key⟩

/-- The table after a successful `blooms_add`. -/
def added (E : Env) (key : CString) (n : UInt64) (e : Float) (σ : LayoutStore) : LayoutStore where
  nodes := σ.nodes ++ [newNode E key n e σ]
  vectors := σ.vectors ++ [some (List.replicate (wordsOf (calculate E.libm n e).bytes) 0#32)]
  blooms := { σ.blooms with
    hashtable := Function.update σ.blooms.hashtable (σ.view.bucket key) (some σ.nodes.length)
    count := σ.blooms.count + 1
    bytes := σ.blooms.bytes + (calculate E.libm n e).bytes }

theorem add_cases {mem : Alloc} {n : UInt64} {e : Float}
    (run : σ.bloomsAdd E mem key n e = .ok (r, σ')) :
    (r ≠ 0 ∧ σ' = σ) ∨
    (r = 0 ∧ (calculate E.libm n e).bytes ≠ 0 ∧ σ.vectors.length + 1 < 2 ^ 64 ∧
      σ' = added E key n e σ) := by
  unfold bloomsAdd at run
  cases search : bloomsSearch key σ.view with
  | error s => rw [search] at run; cases run
  | ok found =>
      rw [search] at run
      cases found with
      | some p =>
          cases run
          exact Or.inl ⟨by decide, rfl⟩
      | none =>
          simp only [bind, Except.bind] at run
          unfold bloomInit at run
          dsimp only at run
          split_ifs at run with zero large fails throws
          · cases run
            exact Or.inl ⟨by decide, rfl⟩
          · cases run
            exact Or.inl ⟨by decide, rfl⟩
          · cases run
            exact Or.inl ⟨by decide, rfl⟩
          · cases run
            exact Or.inr ⟨rfl, zero, by omega, rfl⟩

/-- `blooms_set` finds the key and works on its node, or returns 1. -/
theorem set_cases (thr : Threaded σ.view B) (run : σ.bloomsSet E key subkey = .ok (r, σ')) :
    σ' = σ ∨ ∃ p nd, p ∈ B (bucketOf hashPower key) ∧ σ.nodes[p]? = some nd ∧ nd.key = key ∧
      σ.Touched p nd σ' := by
  unfold bloomsSet at run
  rcases search_cases thr key with ⟨p, nd, found, mem, here, same⟩ | ⟨none, -⟩
  · rw [found] at run
    change (σ.setAt E subkey p >>= _) = _ at run
    cases set : σ.setAt E subkey p with
    | error s => rw [set] at run; cases run
    | ok τ =>
        rw [set] at run
        cases run
        exact Or.inr ⟨p, nd, mem, here, same, touched_of_setAt here set⟩
  · rw [none] at run
    cases run
    exact Or.inl rfl

theorem get_cases (thr : Threaded σ.view B) (run : σ.bloomsGet E key subkey = .ok (r, σ')) :
    (σ' = σ ∧ ∀ p ∈ B (bucketOf hashPower key), ∀ nd, σ.nodes[p]? = some nd → nd.key ≠ key) ∨
    (r ≠ -1 ∧ ∃ p nd, p ∈ B (bucketOf hashPower key) ∧ σ.nodes[p]? = some nd ∧ nd.key = key ∧
      σ.Touched p nd σ') := by
  unfold bloomsGet at run
  rcases search_cases thr key with ⟨p, nd, found, mem, here, same⟩ | ⟨none, absent⟩
  · rw [found] at run
    change σ.getAt E subkey p = _ at run
    obtain ⟨touched, differ⟩ := touched_of_getAt here run
    exact Or.inr ⟨differ, p, nd, mem, here, same, touched⟩
  · rw [none] at run
    cases run
    exact Or.inl ⟨rfl, absent⟩

/-- The outcome of deleting the node `p`: it has left its chain, and a vector may be gone. -/
structure Unlinked (σ : LayoutStore) (B : Buckets) (p : Addr) (σ' : LayoutStore) : Prop where
  threaded : Threaded σ'.view fun hv => (B hv).erase p
  bodies : ∀ q : Addr, σ'.nodes[q]?.map LayoutNode.body = σ.nodes[q]?.map LayoutNode.body
  vectors : ∀ v, σ'.vector v = σ.vector v ∨ σ'.vector v = none
  allocated : σ'.vectors.length = σ.vectors.length

theorem unlinked_of_bloomDelete {τ : LayoutStore} (thr : Threaded σ.view B)
    (chain : ∀ hv, Chain τ.view.link (τ.blooms.hashtable hv) ((B hv).erase p))
    (bodies : ∀ q : Addr, τ.nodes[q]?.map LayoutNode.body = σ.nodes[q]?.map LayoutNode.body)
    (vectors : τ.vectors = σ.vectors) (power : τ.blooms.power = σ.blooms.power)
    (run : bloomDelete p τ = .ok σ') : σ.Unlinked B p σ' := by
  unfold bloomDelete at run
  cases read : τ.readNode p with
  | error s => rw [read] at run; cases run
  | ok nd =>
      rw [read] at run
      change (if _ then _ else _) = _ at run
      split_ifs at run with dead
      cases run
      have same : (τ.writeVector none nd.vHash).nodes = τ.nodes := by cases nd.vHash <;> rfl
      refine ⟨⟨power.trans thr.power, ?_, ?_⟩, ?_, ?_, by rw [← vectors]; exact length_writeVector _ _⟩
      · intro hv
        refine (chain hv).congr fun q _ => ?_
        rw [view_link, view_link]
        exact congrArg (fun l : List LayoutNode => l[q]?.map LayoutNode.hashNext) same
      · exact fun hv hv' q mem mem' =>
          thr.apart hv hv' q (List.mem_of_mem_erase mem) (List.mem_of_mem_erase mem')
      · intro q
        rw [← bodies q]
        exact congrArg (fun l : List LayoutNode => l[q]?.map LayoutNode.body) same
      · intro v
        have old : τ.vector v = σ.vector v := by
          cases v with
          | zero => rfl
          | succ i => simp only [vector, vectors]
        have after : ∀ blooms, LayoutStore.vector { τ.writeVector none nd.vHash with blooms := blooms } v =
            (τ.writeVector none nd.vHash).vector v := by
          intro blooms
          cases v <;> rfl
        rw [after, ← old]
        by_cases mine : v = nd.vHash
        · rw [← mine] at dead ⊢
          cases live : τ.vector v with
          | some map => exact Or.inr (vector_writeVector_self (by rw [live]; rfl))
          | none =>
              by_cases null : v = 0
              · subst null
                exact Or.inr rfl
              · exact (dead ⟨null, by rw [live]; rfl⟩).elim
        · exact Or.inl (vector_writeVector_of_ne mine)

/-- `blooms_delete` deletes a node with the key, or changes nothing. -/
theorem delete_cases (thr : Threaded σ.view B) (run : σ.bloomsDelete key = .ok (r, σ')) :
    σ' = σ ∨ ∃ p nd, σ.nodes[p]? = some nd ∧ nd.key = key ∧ σ.Unlinked B p σ' := by
  have home : σ.view.bucket key = bucketOf hashPower key := by rw [Store.bucket, thr.power]
  have walk := thr.chain (bucketOf hashPower key)
  unfold bloomsDelete at run
  rw [home] at run
  cases shape : B (bucketOf hashPower key) with
  | nil =>
      rw [shape] at walk
      have empty : σ.blooms.hashtable (bucketOf hashPower key) = none := walk.head_eq
      rw [empty] at run
      cases run
      exact Or.inl rfl
  | cons a rest =>
      have live : ∀ p ∈ a :: rest, ∃ b, σ.view.bloomAt p = some b :=
        fun p mem => thr.exists_bloomAt (by rw [shape]; exact mem)
      rw [shape] at walk
      have head : σ.blooms.hashtable (bucketOf hashPower key) = some a := walk.head_eq
      obtain ⟨b, readb⟩ := live a List.mem_cons_self
      obtain ⟨nd, here, rfl⟩ := exists_node readb
      have whole : Chain σ.view.link _ ([] ++ a :: rest) := walk
      have linka : σ.view.link a = some rest.head? := whole.next_eq
      have next : nd.hashNext = rest.head? := by
        rw [view_link, here] at linka
        exact Option.some.inj linka
      rw [head] at run
      change (σ.readNode a >>= _) = _ at run
      rw [readNode_eq here] at run
      change (if nd.key = key then _ else _) = _ at run
      rw [next] at run
      by_cases same : nd.key = key
      · rw [if_pos same] at run
        cases delete : bloomDelete a (σ.setHead (bucketOf hashPower key) rest.head?) with
        | error s => rw [delete] at run; cases run
        | ok τ =>
            rw [delete] at run
            cases run
            refine Or.inr ⟨a, nd, here, same, ?_⟩
            exact unlinked_of_bloomDelete (τ := σ.setHead (bucketOf hashPower key) rest.head?) thr
              (thr.unlink_head shape) (fun _ => rfl) rfl rfl delete
      · rw [if_neg same] at run
        have enough : rest.length ≤ σ.nodes.length := by
          have bound := thr.length_le (bucketOf hashPower key)
          rw [shape, List.length_cons, length_view_heap] at bound
          omega
        rcases unlinkLoop_spec key whole live enough with
          ⟨prev, nx, s, t, c, loop, cut, readc, keyc⟩ | ⟨loop, -⟩
        · rw [loop] at run
          obtain ⟨nn, there, rfl⟩ := exists_node readc
          have shape' : B (bucketOf hashPower key) = s ++ prev :: nx :: t := shape.trans cut
          have again : s ++ prev :: nx :: t = (s ++ [prev]) ++ nx :: t := by simp
          have linkn : σ.view.link nx = some t.head? :=
            (again ▸ shape' ▸ thr.chain (bucketOf hashPower key)).next_eq
          have behind : nn.hashNext = t.head? := by
            rw [view_link, there] at linkn
            exact Option.some.inj linkn
          change (σ.readNode nx >>= _) = _ at run
          rw [readNode_eq there] at run
          change (bloomDelete nx (σ.setNext prev nn.hashNext) >>= _) = _ at run
          rw [behind] at run
          cases delete : bloomDelete nx (σ.setNext prev t.head?) with
          | error s => rw [delete] at run; cases run
          | ok τ =>
              rw [delete] at run
              cases run
              refine Or.inr ⟨nx, nn, there, keyc, unlinked_of_bloomDelete (τ := σ.setNext prev t.head?) thr
                ?_ ?_ rfl rfl delete⟩
              · intro hv
                rw [view_setNext]
                exact thr.unlink_next shape' hv
              · intro q
                simp only [setNext, List.getElem?_modify]
                cases σ.nodes[q]? with
                | none => rfl
                | some nd =>
                    simp only [Option.map_some]
                    split_ifs <;> rfl
        · rw [loop] at run
          cases run
          exact Or.inl rfl

/-! ### The chains in every state -/

theorem threaded_added (thr : Threaded σ.view B) (E : Env) (key : CString) (n : UInt64) (e : Float) :
    Threaded (added E key n e σ).view
      (Function.update B (bucketOf hashPower key) (σ.nodes.length :: B (bucketOf hashPower key))) := by
  have home : σ.view.bucket key = bucketOf hashPower key := by rw [Store.bucket, thr.power]
  have size := σ.length_view_heap
  rw [← home, ← size]
  apply thr.push
  · intro q old
    rw [size] at old
    simp only [view_link, added, List.getElem?_append_left old]
  · rw [size, view_link, added]
    simp only [List.getElem?_append_right (Nat.le_refl _), Nat.sub_self, List.getElem?_cons_zero]
    rfl
  · rw [size]
    rfl
  · rfl

theorem Touched.threaded (touched : σ.Touched p nd σ') (thr : Threaded σ.view B) :
    Threaded σ'.view B := by
  obtain ⟨offset, count, -, nodes⟩ := touched.node
  refine thr.of_links ?_ touched.table touched.power
  funext q
  rw [view_link, view_link, nodes, List.getElem?_modify]
  cases σ.nodes[q]? with
  | none => rfl
  | some nd =>
      simp only [Option.map_some]
      split_ifs <;> rfl

end LayoutStore

open LayoutStore

theorem layout_threaded {E : Env} {max : UInt64} {T : List Event} {σ : LayoutStore}
    (run : LabelledRun.Run (LayoutReturns E) (layoutInit max) T σ) : ∃ B, Threaded σ.view B := by
  refine run.invariant (I := fun σ => ∃ B, Threaded σ.view B) ?_ ?_
  · exact ⟨fun _ => [], rfl, fun _ => .nil, fun _ _ _ mem => absurd mem List.not_mem_nil⟩
  · rintro σ ⟨call, r⟩ σ' ⟨B, thr⟩ returned
    cases call with
    | add key n e mem =>
        rcases add_cases returned with ⟨-, rfl⟩ | ⟨-, -, -, rfl⟩
        · exact ⟨B, thr⟩
        · exact ⟨_, threaded_added thr E key n e⟩
    | set key subkey =>
        rcases set_cases thr returned with rfl | ⟨p, nd, -, -, -, touched⟩
        · exact ⟨B, thr⟩
        · exact ⟨B, touched.threaded thr⟩
    | get key subkey =>
        rcases get_cases thr returned with ⟨rfl, -⟩ | ⟨-, p, nd, -, -, -, touched⟩
        · exact ⟨B, thr⟩
        · exact ⟨B, touched.threaded thr⟩
    | delete key =>
        rcases delete_cases thr returned with rfl | ⟨p, nd, -, -, gone⟩
        · exact ⟨B, thr⟩
        · exact ⟨_, gone.threaded⟩

end BloomServer
