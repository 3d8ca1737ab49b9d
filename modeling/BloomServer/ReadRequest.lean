import BloomServer.RegistryRun

/-! `blooms_get` statement by statement. Requests hold `bloom_hash_lock` only for reading,
and all of them keep the probe they are about to test in the globals `bloom_get_iter`
and `bloom_get_addr`. -/
namespace BloomServer
open LabelledRun

/-- Where a request stands in `blooms_get`; each constructor is the statement to come. -/
inductive GetPc
  | lookup
  | head (bloom : Addr) (i : Nat)                     -- `i < bloom->k`, then `hashes = …`
  | iter (bloom : Addr) (i : Nat) (hashes : UInt64)   -- `bloom_get_iter = v_hash->begin()`
  | addr (bloom : Addr) (i : Nat) (hashes : UInt64)   -- `bloom_get_addr = &(*bloom_get_iter)`
  | test (bloom : Addr) (i : Nat) (hashes : UInt64)   -- `bitmap_check(bloom_get_addr, hashes)`
  | own (bloom : Addr) (hit : Bool)                   -- the counter of the filter
  | table (hit : Bool)                                -- the counter of `blooms`
  | done (result : Except Stop Int)
  deriving DecidableEq

/-- The filter whose vector the globals must point into for the statements to come. -/
def GetPc.window : GetPc → Option Addr
  | .addr p _ _ | .test p _ _ => some p
  | _ => none

/-- The filter the next statement points `bloom_get_iter` at. -/
def GetPc.claims : GetPc → Option Addr
  | .iter p _ _ => some p
  | _ => none

structure Request where
  key : CString
  subkey : CString
  pc : GetPc

/-- What the requests share. The two globals are named by the node whose vector they point into. -/
structure Shared where
  store : Store
  iter : Option Addr
  addr : Option Addr

structure Readers where
  shared : Shared
  requests : List Request

/-- `*bloom->v_hash`. -/
def Bloom.vector (b : Bloom) : Except Stop (List Word) :=
  match b.vHash with
  | none => .error .deadVector
  | some map => .ok map

def readVector (heap : List Node) (p : Addr) : Except Stop (List Word) := do
  let nd ← readNode heap p
  nd.bloom.vector

theorem Bloom.vector_eq {b : Bloom} {map : List Word} (live : b.vHash = some map) :
    b.vector = .ok map := by
  rw [Bloom.vector, live]

theorem Bloom.vector_dead {b : Bloom} (dead : b.vHash = none) : b.vector = .error .deadVector := by
  rw [Bloom.vector, dead]

theorem readVector_eq {heap : List Node} {p : Addr} {nd : Node} (node : readNode heap p = .ok nd) :
    readVector heap p = nd.bloom.vector := by
  rw [readVector, node]
  rfl

/-- The value `bloom_get` returns. -/
def answerOf (hit : Bool) : Int := if hit then 1 else 0

def Bloom.bumpGet (b : Bloom) (hit : Bool) : Bloom :=
  if hit then { b with getCount := b.getCount + 1 }
  else { b with getMissCount := b.getMissCount + 1 }

/-- One statement of a request. -/
def getStep (E : Env) (key subkey : CString) (g : Shared) : GetPc → Except Stop (Shared × GetPc)
  | .lookup => do
      match ← bloomsSearch key g.store with
      | none => .ok (g, .done (.ok (-1)))
      | some p =>
          let _ ← readVector g.store.heap p
          .ok (g, .head p 0)
  | .head p i => do
      let nd ← readNode g.store.heap p
      if i < nd.bloom.rounds then
        let hashes ← probe (E.hash subkey) nd.bloom.m i
        .ok (g, .iter p i hashes)
      else .ok (g, .own p true)
  | .iter p i hashes => do
      let _ ← readVector g.store.heap p
      .ok ({ g with iter := some p }, .addr p i hashes)
  | .addr p i hashes => .ok ({ g with addr := g.iter }, .test p i hashes)
  | .test p i hashes => do
      let q ← follow g.addr
      let map ← readVector g.store.heap q
      let word ← bitmapCheck map hashes
      if word = 0#32 then .ok (g, .own p false) else .ok (g, .head p (i + 1))
  | .own p hit => do
      let nd ← readNode g.store.heap p
      .ok ({ g with store := g.store.setBloom p (nd.bloom.bumpGet hit) }, .table hit)
  | .table hit =>
      .ok ({ g with store := g.store.bumpGet (answerOf hit) }, .done (.ok (answerOf hit)))
  | .done result => .ok (g, .done result)

def GetPc.Finished : GetPc → Prop
  | .done _ => True
  | _ => False

instance (pc : GetPc) : Decidable pc.Finished := by
  unfold GetPc.Finished
  split <;> infer_instance

/-- Request `j` executes its next statement; a fault ends it. -/
def Readers.advance (E : Env) (s : Readers) (j : Nat) : Option Readers :=
  match s.requests[j]? with
  | none => none
  | some r =>
      if r.pc.Finished then none
      else match getStep E r.key r.subkey s.shared r.pc with
        | .ok (g, pc) => some ⟨g, s.requests.set j { r with pc := pc }⟩
        | .error stop => some ⟨s.shared, s.requests.set j { r with pc := .done (.error stop) }⟩

/-- What a step of request `j` leads to. -/
def ReadStep (E : Env) (s : Readers) (j : Nat) (s' : Readers) : Prop := s.advance E j = some s'

/-- Any number of requests before their first statement. -/
def Readers.start (σ : Store) (iter addr : Option Addr) (calls : List (CString × CString)) :
    Readers :=
  ⟨⟨σ, iter, addr⟩, calls.map fun call => ⟨call.1, call.2, .lookup⟩⟩

/-- The value of `blooms_get` when nobody else runs. -/
def alone (E : Env) (σ : Store) (key subkey : CString) : Except Stop Int :=
  (bloomsGet E key subkey σ).map Prod.fst

/-! ### A request that nobody interrupts -/

theorem readStep_single {E : Env} {key subkey : CString} {g g' : Shared} {pc pc' : GetPc}
    (active : ¬ pc.Finished) (run : getStep E key subkey g pc = .ok (g', pc')) :
    ReadStep E ⟨g, [⟨key, subkey, pc⟩]⟩ 0 ⟨g', [⟨key, subkey, pc'⟩]⟩ := by
  unfold ReadStep Readers.advance
  simp only [List.getElem?_cons_zero, if_neg active, run, List.set_cons_zero]

/-- The statements of the loop, one after the other, are `getLoop`. -/
theorem getLoop_steps {E : Env} {key subkey : CString} {σ : Store} {p : Addr} {nd : Node}
    {map : List Word} (node : readNode σ.heap p = .ok nd) (vector : readVector σ.heap p = .ok map)
    {rest i : Nat} {hit : Bool} (count : i + rest = nd.bloom.rounds)
    (run : getLoop (E.hash subkey) nd.bloom.m map rest i = .ok hit) (iter addr : Option Addr) :
    ∃ T iter' addr', Run (ReadStep E) ⟨⟨σ, iter, addr⟩, [⟨key, subkey, .head p i⟩]⟩ T
      ⟨⟨σ, iter', addr'⟩, [⟨key, subkey, .own p hit⟩]⟩ := by
  induction rest generalizing i iter addr with
  | zero =>
      cases run
      have last : ReadStep E ⟨⟨σ, iter, addr⟩, [⟨key, subkey, .head p i⟩]⟩ 0
          ⟨⟨σ, iter, addr⟩, [⟨key, subkey, .own p true⟩]⟩ := by
        refine readStep_single not_false ?_
        unfold getStep
        dsimp only
        rw [node]
        change (if i < nd.bloom.rounds then _ else _) = _
        rw [if_neg (by omega)]
      exact ⟨_, iter, addr, .single last⟩
  | succ rest ih =>
      change (probe (E.hash subkey) nd.bloom.m i >>= fun hashes => bitmapCheck map hashes >>= fun word =>
        if word = 0#32 then .ok false else getLoop (E.hash subkey) nd.bloom.m map rest (i + 1)) = _
        at run
      cases reduce : probe (E.hash subkey) nd.bloom.m i with
      | error stop => rw [reduce] at run; cases run
      | ok hashes =>
          rw [reduce] at run
          change (bitmapCheck map hashes >>= _) = _ at run
          cases word : bitmapCheck map hashes with
          | error stop => rw [word] at run; cases run
          | ok bit =>
              rw [word] at run
              change (if bit = 0#32 then _ else _) = _ at run
              have first : ReadStep E ⟨⟨σ, iter, addr⟩, [⟨key, subkey, .head p i⟩]⟩ 0
                  ⟨⟨σ, iter, addr⟩, [⟨key, subkey, .iter p i hashes⟩]⟩ := by
                refine readStep_single not_false ?_
                unfold getStep
                dsimp only
                rw [node]
                change (if i < nd.bloom.rounds then probe (E.hash subkey) nd.bloom.m i >>= _
                  else _) = _
                rw [if_pos (by omega), reduce]
                rfl
              have second : ReadStep E ⟨⟨σ, iter, addr⟩, [⟨key, subkey, .iter p i hashes⟩]⟩ 0
                  ⟨⟨σ, some p, addr⟩, [⟨key, subkey, .addr p i hashes⟩]⟩ := by
                refine readStep_single not_false ?_
                unfold getStep
                dsimp only
                rw [vector]
                rfl
              have third : ReadStep E ⟨⟨σ, some p, addr⟩, [⟨key, subkey, .addr p i hashes⟩]⟩ 0
                  ⟨⟨σ, some p, some p⟩, [⟨key, subkey, .test p i hashes⟩]⟩ :=
                readStep_single not_false rfl
              have fourth : ReadStep E ⟨⟨σ, some p, some p⟩, [⟨key, subkey, .test p i hashes⟩]⟩ 0
                  ⟨⟨σ, some p, some p⟩, [⟨key, subkey,
                    if bit = 0#32 then .own p false else .head p (i + 1)⟩]⟩ := by
                refine readStep_single not_false ?_
                unfold getStep
                change (readVector σ.heap p >>= _) = _
                rw [vector]
                change (bitmapCheck map hashes >>= _) = _
                rw [word]
                change (if bit = 0#32 then _ else _) = _
                split <;> rfl
              have round := (((Run.single first).snoc second).snoc third).snoc fourth
              by_cases clear : bit = 0#32
              · rw [if_pos clear] at run round
                cases run
                exact ⟨_, _, _, round⟩
              · rw [if_neg clear] at run round
                obtain ⟨T, iter', addr', later⟩ := ih (by omega) run (some p) (some p)
                exact ⟨_, iter', addr', round.append later⟩

theorem bloomGet_ok {E : Env} {b : Bloom} {subkey : CString} {got : Int × Bloom}
    (run : bloomGet E b subkey = .ok got) :
    ∃ map hit, b.vHash = some map ∧ getLoop (E.hash subkey) b.m map b.rounds 0 = .ok hit ∧
      got = (answerOf hit, b.bumpGet hit) := by
  unfold bloomGet at run
  split at run
  · cases run
  · rename_i map vector
    cases loop : getLoop (E.hash subkey) b.m map b.rounds 0 with
    | error stop => rw [loop] at run; cases run
    | ok hit =>
        rw [loop] at run
        refine ⟨map, hit, vector, loop, ?_⟩
        cases hit with
        | true => cases run; rfl
        | false => cases run; rfl

/-- One request alone, from its first statement to its last, is `blooms_get`. -/
theorem bloomsGet_steps {E : Env} {key subkey : CString} {σ σ' : Store} {r : Int}
    (run : bloomsGet E key subkey σ = .ok (r, σ')) (iter addr : Option Addr) :
    ∃ T iter' addr', Run (ReadStep E) (Readers.start σ iter addr [(key, subkey)]) T
      ⟨⟨σ', iter', addr'⟩, [⟨key, subkey, .done (.ok r)⟩]⟩ := by
  unfold bloomsGet at run
  cases search : bloomsSearch key σ with
  | error stop => rw [search] at run; cases run
  | ok found =>
      rw [search] at run
      cases found with
      | none =>
          cases run
          have only : ReadStep E ⟨⟨σ, iter, addr⟩, [⟨key, subkey, .lookup⟩]⟩ 0
              ⟨⟨σ, iter, addr⟩, [⟨key, subkey, .done (.ok (-1))⟩]⟩ := by
            refine readStep_single not_false ?_
            unfold getStep
            dsimp only
            rw [search]
            rfl
          exact ⟨_, iter, addr, .single only⟩
      | some p =>
          change (readNode σ.heap p >>= fun nd => bloomGet E nd.bloom subkey >>= fun got =>
            Except.ok (got.1, (σ.setBloom p got.2).bumpGet got.1)) = _ at run
          cases node : readNode σ.heap p with
          | error stop => rw [node] at run; cases run
          | ok nd =>
              rw [node] at run
              change (bloomGet E nd.bloom subkey >>= _) = _ at run
              cases get : bloomGet E nd.bloom subkey with
              | error stop => rw [get] at run; cases run
              | ok got =>
                  rw [get] at run
                  cases run
                  obtain ⟨map, hit, live, loop, rfl⟩ := bloomGet_ok get
                  have vector : readVector σ.heap p = .ok map := by
                    rw [readVector_eq node, Bloom.vector_eq live]
                  have first : ReadStep E ⟨⟨σ, iter, addr⟩, [⟨key, subkey, .lookup⟩]⟩ 0
                      ⟨⟨σ, iter, addr⟩, [⟨key, subkey, .head p 0⟩]⟩ := by
                    refine readStep_single not_false ?_
                    unfold getStep
                    dsimp only
                    rw [search]
                    change (readVector σ.heap p >>= _) = _
                    rw [vector]
                    rfl
                  obtain ⟨T, iter', addr', rounds⟩ :=
                    getLoop_steps node vector (Nat.zero_add _) loop iter addr
                  have own : ReadStep E ⟨⟨σ, iter', addr'⟩, [⟨key, subkey, .own p hit⟩]⟩ 0
                      ⟨⟨σ.setBloom p (nd.bloom.bumpGet hit), iter', addr'⟩,
                        [⟨key, subkey, .table hit⟩]⟩ := by
                    refine readStep_single not_false ?_
                    unfold getStep
                    dsimp only
                    rw [node]
                    rfl
                  have before := ((Run.single first).append rounds).snoc own
                  exact ⟨_, iter', addr', before.snoc (readStep_single not_false rfl)⟩

/-! ### What the requests change of the store: four counters -/

def Bloom.quiet (b : Bloom) : Bloom := { b with getCount := 0, getMissCount := 0 }

/-- Two stores that differ in the counters of gets only. -/
structure Store.Alike (σ τ : Store) : Prop where
  nodes : τ.heap.map (fun nd => (nd.hashNext, nd.bloom.quiet)) =
    σ.heap.map fun nd => (nd.hashNext, nd.bloom.quiet)
  power : τ.blooms.power = σ.blooms.power
  hashtable : τ.blooms.hashtable = σ.blooms.hashtable

namespace Store.Alike

variable {σ τ : Store}

theorem refl (σ : Store) : σ.Alike σ := ⟨rfl, rfl, rfl⟩

theorem bumpGet (same : σ.Alike τ) (r : Int) : σ.Alike (τ.bumpGet r) := by
  unfold Store.bumpGet
  split
  · exact ⟨same.nodes, same.power, same.hashtable⟩
  · exact ⟨same.nodes, same.power, same.hashtable⟩

theorem quiet_bumpGet (b : Bloom) (hit : Bool) : (b.bumpGet hit).quiet = b.quiet := by
  cases hit <;> rfl

theorem setBloom (same : σ.Alike τ) {p : Addr} {nd : Node} (read : τ.heap[p]? = some nd)
    (hit : Bool) : σ.Alike (τ.setBloom p (nd.bloom.bumpGet hit)) := by
  refine ⟨Eq.trans ?_ same.nodes, same.power, same.hashtable⟩
  apply List.ext_getElem?
  intro q
  simp only [Store.setBloom, List.getElem?_map, List.getElem?_modify]
  by_cases here : p = q
  · subst here
    simp only [read, if_true, Option.map_some, Option.map_eq_map, quiet_bumpGet]
  · simp only [if_neg here, Option.map_eq_map, Option.map_map]
    rfl

/-- A node of one store is the same node of the other up to its counters. -/
theorem readNode (same : σ.Alike τ) (p : Addr) :
    (BloomServer.readNode σ.heap p = .error .badPointer ∧
      BloomServer.readNode τ.heap p = .error .badPointer) ∨
    ∃ nd nd', BloomServer.readNode σ.heap p = .ok nd ∧ BloomServer.readNode τ.heap p = .ok nd' ∧
      nd'.hashNext = nd.hashNext ∧ nd'.bloom.quiet = nd.bloom.quiet := by
  have here := congrArg (fun l => l[p]?) same.nodes
  simp only [List.getElem?_map] at here
  unfold BloomServer.readNode
  cases left : σ.heap[p]? with
  | none =>
      rw [left, Option.map_none, Option.map_eq_none_iff] at here
      exact Or.inl ⟨rfl, by rw [here]⟩
  | some nd =>
      rw [left, Option.map_some, Option.map_eq_some_iff] at here
      obtain ⟨nd', right, fields⟩ := here
      obtain ⟨link, bloom⟩ := Prod.mk.inj fields
      exact Or.inr ⟨nd, nd', rfl, by rw [right], link, bloom⟩

theorem readVector (same : σ.Alike τ) (p : Addr) :
    readVector τ.heap p = BloomServer.readVector σ.heap p := by
  rcases same.readNode p with ⟨left, right⟩ | ⟨nd, nd', left, right, _, bloom⟩
  · unfold BloomServer.readVector
    rw [left, right]
  · rw [readVector_eq left, readVector_eq right]
    change nd'.bloom.quiet.vector = nd.bloom.quiet.vector
    rw [bloom]

theorem bloomsSearch (same : σ.Alike τ) (key : CString) :
    bloomsSearch key τ = BloomServer.bloomsSearch key σ := by
  have walk : ∀ fuel hd, searchLoop τ.heap key fuel hd = searchLoop σ.heap key fuel hd := by
    intro fuel
    induction fuel with
    | zero =>
        intro hd
        cases hd <;> rfl
    | succ fuel ih =>
        intro hd
        cases hd with
        | none => rfl
        | some p =>
            unfold searchLoop
            rcases same.readNode p with ⟨left, right⟩ | ⟨nd, nd', left, right, link, bloom⟩
            · rw [left, right]
              rfl
            · have name : nd'.bloom.quiet.key = nd.bloom.quiet.key := congrArg Bloom.key bloom
              rw [left, right]
              change (if nd'.bloom.quiet.key = key then _ else _) =
                if nd.bloom.quiet.key = key then _ else _
              rw [name, link, ih]
  have size : τ.heap.length = σ.heap.length := by
    have lengths := congrArg List.length same.nodes
    rwa [List.length_map, List.length_map] at lengths
  unfold BloomServer.bloomsSearch Store.bucket
  rw [walk, size, same.power, same.hashtable]

end Store.Alike

end BloomServer
