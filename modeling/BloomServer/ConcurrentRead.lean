import BloomServer.ReadRequest

/-! Gets of many clients at once: when the two globals serve every request, and what
happens when they do not. -/
namespace BloomServer
open LabelledRun

/-! ### A request on its way to the answer it gives alone -/

/-- The filter a request on the key works with, in the store the requests started from. -/
structure Found (σ : Store) (key : CString) (p : Addr) (b : Bloom) (map : List Word) : Prop where
  search : bloomsSearch key σ = .ok (some p)
  read : σ.bloomAt p = some b
  vector : b.vHash = some map

/-- What is left of a request from probe `i` on. -/
def restOf (E : Env) (b : Bloom) (map : List Word) (subkey : CString) (i : Nat) :
    Except Stop Int :=
  (getLoop (E.hash subkey) b.m map (b.rounds - i) i).map answerOf

theorem Found.alone_eq {E : Env} {σ : Store} {key : CString} {p : Addr} {b : Bloom}
    {map : List Word} (found : Found σ key p b map) (subkey : CString) :
    alone E σ key subkey = restOf E b map subkey 0 := by
  obtain ⟨search, read, vector⟩ := found
  obtain ⟨nd, here, rfl⟩ := Option.map_eq_some_iff.mp read
  have node : readNode σ.heap p = .ok nd := by rw [readNode, here]
  unfold alone bloomsGet restOf
  rw [search]
  change Except.map Prod.fst (readNode σ.heap p >>= fun nd => bloomGet E nd.bloom subkey >>= _) = _
  rw [node]
  change Except.map Prod.fst (bloomGet E nd.bloom subkey >>= _) = _
  unfold bloomGet
  rw [vector]
  dsimp only
  rw [Nat.sub_zero]
  cases getLoop (E.hash subkey) nd.bloom.m map nd.bloom.rounds 0 with
  | error stop => rfl
  | ok hit => cases hit <;> rfl

theorem restOf_end (E : Env) (b : Bloom) (map : List Word) (subkey : CString) {i : Nat}
    (last : ¬ i < b.rounds) : restOf E b map subkey i = .ok (answerOf true) := by
  rw [restOf, Nat.sub_eq_zero_of_le (Nat.le_of_not_lt last)]
  rfl

theorem restOf_fault (E : Env) (b : Bloom) (map : List Word) (subkey : CString) {i : Nat}
    {stop : Stop} (more : i < b.rounds) (run : probe (E.hash subkey) b.m i = .error stop) :
    restOf E b map subkey i = .error stop := by
  obtain ⟨rest, count⟩ := Nat.exists_eq_succ_of_ne_zero (Nat.sub_ne_zero_of_lt more)
  unfold restOf
  rw [count]
  change Except.map answerOf (probe (E.hash subkey) b.m i >>= _) = _
  rw [run]
  rfl

/-- One round of the loop: the probe, the test, and what is left after it. -/
theorem restOf_round (E : Env) (b : Bloom) (map : List Word) (subkey : CString) {i : Nat}
    {hashes : UInt64} (more : i < b.rounds) (run : probe (E.hash subkey) b.m i = .ok hashes) :
    restOf E b map subkey i = bitmapCheck map hashes >>= fun word =>
      if word = 0#32 then .ok (answerOf false) else restOf E b map subkey (i + 1) := by
  obtain ⟨rest, count⟩ := Nat.exists_eq_succ_of_ne_zero (Nat.sub_ne_zero_of_lt more)
  have fewer : b.rounds - (i + 1) = rest := by omega
  unfold restOf
  rw [count, fewer]
  change Except.map answerOf (probe (E.hash subkey) b.m i >>= _) = _
  rw [run]
  change Except.map answerOf (bitmapCheck map hashes >>= _) = _
  cases bitmapCheck map hashes with
  | error stop => rfl
  | ok word =>
      change Except.map answerOf (if word = 0#32 then _ else _) = if word = 0#32 then _ else _
      split <;> rfl

/-- The request will give the answer it gives alone. The three phases between the reduction and
the test share their facts. -/
inductive Follows (E : Env) (σ : Store) (key subkey : CString) : GetPc → Prop
  | lookup : Follows E σ key subkey .lookup
  | head {p b map i} (found : Found σ key p b map)
      (rest : alone E σ key subkey = restOf E b map subkey i) :
      Follows E σ key subkey (.head p i)
  | round {p b map i hashes pc} (found : Found σ key p b map)
      (rest : alone E σ key subkey = restOf E b map subkey i) (more : i < b.rounds)
      (run : probe (E.hash subkey) b.m i = .ok hashes)
      (phase : pc = .iter p i hashes ∨ pc = .addr p i hashes ∨ pc = .test p i hashes) :
      Follows E σ key subkey pc
  | own {p b map hit} (found : Found σ key p b map)
      (rest : alone E σ key subkey = .ok (answerOf hit)) : Follows E σ key subkey (.own p hit)
  | table {hit} (rest : alone E σ key subkey = .ok (answerOf hit)) :
      Follows E σ key subkey (.table hit)
  | done : Follows E σ key subkey (.done (alone E σ key subkey))

/-- The filter is still there, with the same vector, while gets are in flight. -/
theorem Found.current {σ τ : Store} {key : CString} {p : Addr} {b : Bloom} {map : List Word}
    (found : Found σ key p b map) (same : σ.Alike τ) :
    (∃ nd, τ.heap[p]? = some nd ∧ readNode τ.heap p = .ok nd ∧ nd.bloom.quiet = b.quiet) ∧
      readVector τ.heap p = .ok map := by
  obtain ⟨_, read, vector⟩ := found
  obtain ⟨nd, here, rfl⟩ := Option.map_eq_some_iff.mp read
  have node : readNode σ.heap p = .ok nd := by rw [readNode, here]
  constructor
  · rcases same.readNode p with ⟨left, _⟩ | ⟨nd₀, nd', left, right, _, bloom⟩
    · cases node.symm.trans left
    · cases node.symm.trans left
      refine ⟨nd', ?_, right, bloom⟩
      unfold readNode at right
      split at right
      · cases right
        assumption
      · cases right
  · rw [same.readVector, readVector_eq node, Bloom.vector_eq vector]

theorem found_of_readVector {σ : Store} {key : CString} {p : Addr} {map : List Word}
    (search : bloomsSearch key σ = .ok (some p)) (run : readVector σ.heap p = .ok map) :
    ∃ b, Found σ key p b map := by
  cases here : σ.heap[p]? with
  | none =>
      rw [readVector, readNode, here] at run
      cases run
  | some nd =>
      have node : readNode σ.heap p = .ok nd := by rw [readNode, here]
      rw [readVector_eq node] at run
      cases vector : nd.bloom.vHash with
      | none => cases run.symm.trans (Bloom.vector_dead vector)
      | some map' =>
          cases run.symm.trans (Bloom.vector_eq vector)
          exact ⟨nd.bloom, search, by rw [Store.bloomAt, here]; rfl, vector⟩

theorem alone_of_readVector {E : Env} {σ : Store} {key : CString} {p : Addr} {stop : Stop}
    (search : bloomsSearch key σ = .ok (some p)) (run : readVector σ.heap p = .error stop)
    (subkey : CString) : alone E σ key subkey = .error stop := by
  rw [alone, bloomsGet, search]
  change Except.map Prod.fst (readNode σ.heap p >>= fun nd => bloomGet E nd.bloom subkey >>= _) = _
  cases node : readNode σ.heap p with
  | error stop' =>
      rw [readVector, node] at run
      cases run
      rfl
  | ok nd =>
      rw [readVector_eq node] at run
      change Except.map Prod.fst (bloomGet E nd.bloom subkey >>= _) = _
      cases vector : nd.bloom.vHash with
      | none =>
          cases run.symm.trans (Bloom.vector_dead vector)
          rw [bloomGet, vector]
          rfl
      | some map => cases run.symm.trans (Bloom.vector_eq vector)

/-- How a statement moves the two globals. -/
inductive CursorMove : GetPc → Shared → GetPc → Shared → Prop
  | none {pc pc' g g'} (window : pc'.window = none) (iter : g'.iter = g.iter)
      (addr : g'.addr = g.addr) : CursorMove pc g pc' g'
  | iter {p i hashes g g'} (iter : g'.iter = some p) (addr : g'.addr = g.addr) :
      CursorMove (.iter p i hashes) g (.addr p i hashes) g'
  | addr {p i hashes g g'} (iter : g'.iter = g.iter) (addr : g'.addr = g.iter) :
      CursorMove (.addr p i hashes) g (.test p i hashes) g'

/-- The test ends the request's round as it does alone. -/
theorem test_step {E : Env} {σ : Store} {g : Shared} {key subkey : CString} {p : Addr} {b : Bloom}
    {map : List Word} {i : Nat} {hashes : UInt64} (found : Found σ key p b map)
    (rest : alone E σ key subkey = restOf E b map subkey i) (more : i < b.rounds)
    (run : probe (E.hash subkey) b.m i = .ok hashes) (same : σ.Alike g.store)
    (mine : g.addr = some p) :
    (∃ pc, getStep E key subkey g (.test p i hashes) = .ok (g, pc) ∧
      Follows E σ key subkey pc ∧ pc.window = none) ∨
    ∃ stop, getStep E key subkey g (.test p i hashes) = .error stop ∧
      alone E σ key subkey = .error stop := by
  have vector := (found.current same).2
  have round := rest.trans (restOf_round E b map subkey more run)
  unfold getStep
  dsimp only
  rw [mine]
  change (∃ pc, (readVector g.store.heap p >>= _) = _ ∧ _) ∨
    ∃ stop, (readVector g.store.heap p >>= _) = _ ∧ _
  rw [vector]
  change (∃ pc, (bitmapCheck map hashes >>= _) = _ ∧ _) ∨
    ∃ stop, (bitmapCheck map hashes >>= _) = _ ∧ _
  cases word : bitmapCheck map hashes with
  | error stop =>
      rw [word] at round
      exact Or.inr ⟨stop, rfl, round⟩
  | ok word' =>
      rw [word] at round
      change alone E σ key subkey = if word' = 0#32 then _ else _ at round
      left
      by_cases clear : word' = 0#32
      · rw [if_pos clear] at round
        exact ⟨.own p false, if_pos clear, .own found round, rfl⟩
      · rw [if_neg clear] at round
        exact ⟨.head p (i + 1), if_neg clear, .head found round, rfl⟩

theorem lookup_step {E : Env} {σ : Store} {g : Shared} {key subkey : CString}
    (same : σ.Alike g.store) :
    (∃ pc, getStep E key subkey g .lookup = .ok (g, pc) ∧ Follows E σ key subkey pc ∧
      pc.window = none) ∨
    ∃ stop, getStep E key subkey g .lookup = .error stop ∧ alone E σ key subkey = .error stop := by
  unfold getStep
  dsimp only
  rw [same.bloomsSearch]
  cases search : bloomsSearch key σ with
  | error stop =>
      have value : alone E σ key subkey = .error stop := by
        rw [alone, bloomsGet, search]
        rfl
      exact Or.inr ⟨stop, rfl, value⟩
  | ok hit =>
      cases hit with
      | none =>
          have value : alone E σ key subkey = .ok (-1) := by
            rw [alone, bloomsGet, search]
            rfl
          exact Or.inl ⟨_, rfl, value ▸ .done, rfl⟩
      | some p =>
          change (∃ pc, (readVector g.store.heap p >>= _) = _ ∧ _) ∨
            ∃ stop, (readVector g.store.heap p >>= _) = _ ∧ _
          rw [same.readVector]
          cases vector : readVector σ.heap p with
          | error stop => exact Or.inr ⟨stop, rfl, alone_of_readVector search vector subkey⟩
          | ok map =>
              obtain ⟨b, found⟩ := found_of_readVector search vector
              exact Or.inl ⟨.head p 0, rfl, .head found (found.alone_eq subkey), rfl⟩

/-- What one statement does to its own request, as long as a test finds its own vector. -/
theorem Follows.step {E : Env} {σ : Store} {g : Shared} {key subkey : CString} {pc : GetPc}
    (follows : Follows E σ key subkey pc) (same : σ.Alike g.store)
    (active : ¬ pc.Finished)
    (mine : ∀ p i hashes, pc = .test p i hashes → g.addr = some p) :
    (∃ g' pc', getStep E key subkey g pc = .ok (g', pc') ∧ Follows E σ key subkey pc' ∧
      σ.Alike g'.store ∧ CursorMove pc g pc' g') ∨
    ∃ stop, getStep E key subkey g pc = .error stop ∧ alone E σ key subkey = .error stop := by
  cases follows with
  | lookup =>
      rcases lookup_step same with ⟨pc, run, next, window⟩ | fault
      · exact Or.inl ⟨g, pc, run, next, same, .none window rfl rfl⟩
      · exact Or.inr fault
  | @head p b map i found rest =>
      obtain ⟨⟨nd, _, node, bloom⟩, _⟩ := found.current same
      have rounds : nd.bloom.rounds = b.rounds :=
        show nd.bloom.quiet.rounds = b.quiet.rounds from congrArg Bloom.rounds bloom
      have modulus : nd.bloom.m = b.m :=
        show nd.bloom.quiet.m = b.quiet.m from congrArg Bloom.m bloom
      unfold getStep
      dsimp only
      rw [node]
      change (∃ g' pc', (if i < nd.bloom.rounds then probe (E.hash subkey) nd.bloom.m i >>= _
        else _) = _ ∧ _) ∨ ∃ stop, (if i < nd.bloom.rounds then
          probe (E.hash subkey) nd.bloom.m i >>= _ else _) = _ ∧ _
      rw [rounds, modulus]
      by_cases more : i < b.rounds
      · rw [if_pos more]
        cases run : probe (E.hash subkey) b.m i with
        | error stop => exact Or.inr ⟨stop, rfl, rest.trans (restOf_fault E b map subkey more run)⟩
        | ok hashes =>
            have next : Follows E σ key subkey (.iter p i hashes) :=
              .round found rest more run (Or.inl rfl)
            exact Or.inl ⟨g, _, rfl, next, same, .none rfl rfl rfl⟩
      · rw [if_neg more]
        have next : Follows E σ key subkey (.own p true) :=
          .own found (rest.trans (restOf_end E b map subkey more))
        exact Or.inl ⟨g, _, rfl, next, same, .none rfl rfl rfl⟩
  | @round p b map i hashes _ found rest more run phase =>
      obtain ⟨_, vector⟩ := found.current same
      rcases phase with rfl | rfl | rfl
      · refine Or.inl ⟨{ g with iter := some p }, .addr p i hashes, ?_, ?_, same, .iter rfl rfl⟩
        · unfold getStep
          dsimp only
          rw [vector]
          rfl
        · exact .round found rest more run (Or.inr (Or.inl rfl))
      · refine Or.inl ⟨{ g with addr := g.iter }, .test p i hashes, rfl, ?_, same, .addr rfl rfl⟩
        exact .round found rest more run (Or.inr (Or.inr rfl))
      · rcases test_step found rest more run same (mine p i hashes rfl) with
          ⟨pc, run, next, window⟩ | fault
        · exact Or.inl ⟨g, pc, run, next, same, .none window rfl rfl⟩
        · exact Or.inr fault
  | @own p b map hit found rest =>
      obtain ⟨⟨nd, here, node, _⟩, _⟩ := found.current same
      left
      refine ⟨{ g with store := g.store.setBloom p (nd.bloom.bumpGet hit) }, .table hit, ?_,
        .table rest, same.setBloom here hit, .none rfl rfl rfl⟩
      unfold getStep
      dsimp only
      rw [node]
      rfl
  | @table hit rest =>
      left
      refine ⟨{ g with store := g.store.bumpGet (answerOf hit) }, .done (.ok (answerOf hit)), rfl,
        ?_, same.bumpGet _, .none rfl rfl rfl⟩
      exact rest ▸ .done
  | done => exact absurd trivial active

/-! ### Many requests -/

/-- A statement leaves alone the global that the next statement of another request uses. -/
def GetPc.Spares : GetPc → GetPc → Prop
  | .iter p _ _, .addr q _ _ | .addr p _ _, .test q _ _ => q = p
  | _, _ => True

instance (pc other : GetPc) : Decidable (pc.Spares other) := by
  unfold GetPc.Spares
  split <;> infer_instance

/-- No request points the cursor at its filter while one on another filter is to take it over, and none
takes it over while one on another filter is to test there. -/
def Exclusive (s : Readers) (j : Nat) : Prop :=
  ∀ r ∈ s.requests[j]?, ∀ r' ∈ s.requests, r.pc.Spares r'.pc

instance (s : Readers) (j : Nat) : Decidable (Exclusive s j) := by
  unfold Exclusive
  infer_instance

/-- The globals point where the next statement needs them. -/
structure GetPc.Served (g : Shared) (pc : GetPc) : Prop where
  iter : ∀ p i hashes, pc = .addr p i hashes → g.iter = some p
  addr : ∀ p i hashes, pc = .test p i hashes → g.addr = some p

theorem GetPc.Served.of_window {g : Shared} {pc : GetPc} (window : pc.window = none) :
    pc.Served g := by
  constructor <;>
  · rintro p i hashes rfl
    cases window

theorem CursorMove.self {pc pc' : GetPc} {g g' : Shared} (move : CursorMove pc g pc' g')
    (served : pc.Served g) : pc'.Served g' := by
  cases move with
  | none window _ _ => exact .of_window window
  | iter iter _ =>
      constructor
      · intro q i hashes phase
        cases phase
        exact iter
      · intro q i hashes phase
        cases phase
  | addr iter addr =>
      constructor
      · intro q i hashes phase
        cases phase
      · intro q i hashes phase
        cases phase
        exact addr.trans (served.iter _ _ _ rfl)

theorem CursorMove.other {pc pc' other : GetPc} {g g' : Shared} (move : CursorMove pc g pc' g')
    (own : pc.Served g) (served : other.Served g) (apart : pc.Spares other) : other.Served g' := by
  cases move with
  | none _ iter addr =>
      constructor
      · intro q i hashes phase
        exact iter.trans (served.iter q i hashes phase)
      · intro q i hashes phase
        exact addr.trans (served.addr q i hashes phase)
  | iter iter addr =>
      constructor
      · rintro q i hashes rfl
        exact (show q = _ from apart) ▸ iter
      · intro q i hashes phase
        exact addr.trans (served.addr q i hashes phase)
  | addr iter addr =>
      constructor
      · intro q i hashes phase
        exact iter.trans (served.iter q i hashes phase)
      · rintro q i hashes rfl
        exact (show q = _ from apart) ▸ addr.trans (own.iter _ _ _ rfl)

/-- Every request is on its way, and the globals serve those that are about to use them. -/
structure Readers.Undisturbed (E : Env) (σ : Store) (s : Readers) : Prop where
  alike : σ.Alike s.shared.store
  follows : ∀ r ∈ s.requests, Follows E σ r.key r.subkey r.pc
  served : ∀ r ∈ s.requests, r.pc.Served s.shared

namespace Readers

theorem undisturbed_start (E : Env) (σ : Store) (iter addr : Option Addr)
    (calls : List (CString × CString)) : (start σ iter addr calls).Undisturbed E σ := by
  have fresh : ∀ r ∈ (start σ iter addr calls).requests, r.pc = .lookup := by
    intro r mem
    obtain ⟨call, _, rfl⟩ := List.mem_map.mp mem
    rfl
  refine ⟨.refl σ, ?_, ?_⟩
  · intro r mem
    rw [fresh r mem]
    exact .lookup
  · intro r mem
    rw [fresh r mem]
    exact .of_window rfl

/-- The step lemma: an exclusive step keeps every request on its way. -/
theorem Undisturbed.step {E : Env} {σ : Store} {s s' : Readers} {j : Nat}
    (inv : s.Undisturbed E σ) (meets : Exclusive s j) (step : ReadStep E s j s') :
    s'.Undisturbed E σ := by
  unfold ReadStep advance at step
  split at step
  · cases step
  · rename_i r here
    split_ifs at step with finished
    have member := List.mem_of_getElem? here
    have served := inv.served r member
    rcases (inv.follows r member).step inv.alike finished served.addr with
      ⟨g, pc, run, next, same, move⟩ | ⟨stop, run, value⟩
    · rw [run] at step
      cases step
      refine ⟨same, ?_, ?_⟩
      · intro r' mem
        rcases List.mem_or_eq_of_mem_set mem with old | rfl
        · exact inv.follows r' old
        · exact next
      · intro r' mem
        rcases List.mem_or_eq_of_mem_set mem with old | rfl
        · exact move.other served (inv.served r' old) (meets r here r' old)
        · exact move.self served
    · rw [run] at step
      cases step
      refine ⟨inv.alike, ?_, ?_⟩
      · intro r' mem
        rcases List.mem_or_eq_of_mem_set mem with old | rfl
        · exact inv.follows r' old
        · exact value ▸ .done
      · intro r' mem
        rcases List.mem_or_eq_of_mem_set mem with old | rfl
        · exact inv.served r' old
        · exact .of_window rfl

end Readers

theorem undisturbed_of_run {E : Env} {σ : Store} {iter addr : Option Addr}
    {calls : List (CString × CString)} {T : List Nat} {s : Readers}
    (run : Run (Guarded Exclusive (ReadStep E)) (Readers.start σ iter addr calls) T s) :
    s.Undisturbed E σ :=
  run.invariant (I := fun s => s.Undisturbed E σ) (Readers.undisturbed_start E σ iter addr calls)
    fun _ _ _ inv step => inv.step step.1 step.2

theorem Follows.search_of_claims {E : Env} {σ : Store} {key subkey : CString} {pc : GetPc}
    {p : Addr} (follows : Follows E σ key subkey pc) (claims : pc.claims = some p) :
    bloomsSearch key σ = .ok (some p) := by
  cases follows with
  | round found _ _ _ phase =>
      rcases phase with rfl | rfl | rfl
      · cases claims
        exact found.search
      · cases claims
      · cases claims
  | _ => cases claims

theorem Follows.search_of_window {E : Env} {σ : Store} {key subkey : CString} {pc : GetPc}
    {p : Addr} (follows : Follows E σ key subkey pc) (window : pc.window = some p) :
    bloomsSearch key σ = .ok (some p) := by
  cases follows with
  | round found _ _ _ phase =>
      rcases phase with rfl | rfl | rfl
      · cases window
      · cases window
        exact found.search
      · cases window
        exact found.search
  | _ => cases window

/-- Requests on one filter cannot disturb one another. -/
theorem exclusive_of_one_key {E : Env} {σ : Store} {s : Readers} {key : CString}
    (inv : s.Undisturbed E σ) (one : ∀ r ∈ s.requests, r.key = key) (j : Nat) : Exclusive s j := by
  intro r here r' mem
  have member := List.mem_of_getElem? here
  have own := inv.follows r member
  have others := inv.follows r' mem
  have same {p q : Addr} (left : bloomsSearch r.key σ = .ok (some p))
      (right : bloomsSearch r'.key σ = .ok (some q)) : q = p := by
    rw [one r member] at left
    rw [one r' mem] at right
    exact Option.some.inj (Except.ok.inj (right.symm.trans left))
  generalize r.pc = pc at own
  generalize r'.pc = pc' at others
  unfold GetPc.Spares
  split
  · exact same (own.search_of_claims rfl) (others.search_of_window rfl)
  · exact same (own.search_of_window rfl) (others.search_of_window rfl)
  · trivial

theorem ReadStep.keys {E : Env} {s s' : Readers} {j : Nat} {key : CString}
    (step : ReadStep E s j s') (one : ∀ r ∈ s.requests, r.key = key) :
    ∀ r ∈ s'.requests, r.key = key := by
  unfold ReadStep Readers.advance at step
  split at step
  · cases step
  · rename_i r here
    have own := one r (List.mem_of_getElem? here)
    split_ifs at step
    split at step
    all_goals
      cases step
      intro r' mem
      rcases List.mem_or_eq_of_mem_set mem with old | rfl
      · exact one r' old
      · exact own

/-- Every run of requests on one filter is exclusive throughout. -/
theorem run_of_one_key {E : Env} {σ : Store} {iter addr : Option Addr} {key : CString}
    {calls : List (CString × CString)} {T : List Nat} {s : Readers}
    (one : ∀ call ∈ calls, call.1 = key)
    (run : Run (ReadStep E) (Readers.start σ iter addr calls) T s) :
    Run (Guarded Exclusive (ReadStep E)) (Readers.start σ iter addr calls) T s := by
  have fresh : ∀ r ∈ (Readers.start σ iter addr calls).requests, r.key = key := by
    intro r mem
    obtain ⟨call, there, rfl⟩ := List.mem_map.mp mem
    exact one call there
  induction run with
  | nil => exact .nil
  | @snoc _ t u j before last ih =>
      have keys := before.invariant (I := fun s => ∀ r ∈ s.requests, r.key = key) fresh
        fun _ _ _ same step => step.keys same
      exact ih.snoc ⟨exclusive_of_one_key (undisturbed_of_run ih) keys j, last⟩

/-- In every run whose steps are exclusive each request returns what it would return alone, and
every test reads a word of the request's own filter. -/
theorem concurrent_reads {E : Env} {σ : Store} {iter addr : Option Addr}
    {calls : List (CString × CString)} {T : List Nat} {s : Readers}
    (run : Run (Guarded Exclusive (ReadStep E)) (Readers.start σ iter addr calls) T s) :
    ∀ r ∈ s.requests,
      (∀ result, r.pc = .done result → result = alone E σ r.key r.subkey) ∧
      ∀ p i hashes, r.pc = .test p i hashes → s.shared.addr = some p ∧
        ∃ b map, Found σ r.key p b map ∧
          (b.m.toNat ≤ 32 * map.length → (hashes >>> 5).toNat < map.length) := by
  have inv := undisturbed_of_run run
  intro r mem
  have follows := inv.follows r mem
  constructor
  · intro result phase
    rw [phase] at follows
    cases follows with
    | round _ _ _ _ phase => rcases phase with h | h | h <;> cases h
    | done => rfl
  · intro p i hashes phase
    refine ⟨(inv.served r mem).addr p i hashes phase, ?_⟩
    rw [phase] at follows
    cases follows with
    | @round p' b map i' hashes' _ found rest more run phase =>
        rcases phase with h | h | h
        · cases h
        · cases h
        · cases h
          refine ⟨b, map, found, fun fits => ?_⟩
          unfold probe at run
          split_ifs at run with zero
          cases run
          have inside := (position_lt (E.hash r.subkey) zero i).trans_le fits
          rw [toNat_shiftRight_five]
          exact Nat.div_lt_of_lt_mul inside

/-- Two gets on filters of different sizes whose cursors keep apart. -/
theorem concurrent_reads_apart :
    ∃ σ, Run (Returns (serverEnv Libm.oneHalf)) (bloomsInit 1000 [])
        [(.set [97] [99], 0), (.add [98] 1 0.5 ⟨true, true⟩, 0),
          (.add [97] 32 0.5 ⟨true, true⟩, 0)] σ ∧
      ∃ T s, Run (Guarded Exclusive (ReadStep (serverEnv Libm.oneHalf)))
          (Readers.start σ none none [([97], [99]), ([98], [99])]) T s ∧
        s.requests.map Request.pc = [.done (.ok 1), .done (.ok 0)] ∧
        ∀ r ∈ s.requests, ∀ result, r.pc = .done result →
          result = alone (serverEnv Libm.oneHalf) σ r.key r.subkey := by
  have replayed := exists_run_and (E := serverEnv Libm.oneHalf) (σ := bloomsInit 1000 [])
    (T := [(.set [97] [99], 0), (.add [98] 1 0.5 ⟨true, true⟩, 0),
      (.add [97] 32 0.5 ⟨true, true⟩, 0)])
    (P := fun σ => ((reach (fun s j => if Exclusive s j then s.advance (serverEnv Libm.oneHalf) j
      else none) (Readers.start σ none none [([97], [99]), ([98], [99])])
        [0, 0, 0, 1, 1, 0, 0, 0, 0, 1, 1, 1, 0, 0, 0, 1, 1, 0, 0]).map
      fun s => s.requests.map Request.pc) = some [.done (.ok 1), .done (.ok 0)])
    (by decide +kernel)
  obtain ⟨σ, run, reads⟩ := replayed
  obtain ⟨s, reads, ends⟩ := Option.map_eq_some_iff.mp reads
  have guarded := run_of_reach (R := Guarded Exclusive (ReadStep (serverEnv Libm.oneHalf)))
    (fun s j t step => by split_ifs at step with meets; exact ⟨meets, step⟩) reads
  refine ⟨σ, run, _, s, guarded, ends, ?_⟩
  intro r mem
  exact (concurrent_reads guarded r mem).1

/-- Between the two assignments of one get another takes the cursor to a smaller filter: one
answer is wrong, and one test leaves the vector. -/
theorem concurrent_reads_clash :
    ∃ σ, Run (Returns (serverEnv Libm.oneHalf)) (bloomsInit 1000 [])
        [(.set [97] [100], 0), (.set [97] [99], 0), (.add [98] 1 0.5 ⟨true, true⟩, 0),
          (.add [97] 32 0.5 ⟨true, true⟩, 0)] σ ∧
      ∃ T s, Run (ReadStep (serverEnv Libm.oneHalf))
          (Readers.start σ none none [([97], [99]), ([97], [100]), ([98], [99])]) T s ∧
        (s.requests.map Request.pc).take 2 = [.done (.ok 0), .done (.error .outOfBounds)] ∧
        alone (serverEnv Libm.oneHalf) σ [97] [99] = .ok 1 ∧
        alone (serverEnv Libm.oneHalf) σ [97] [100] = .ok 1 := by
  have replayed := exists_run_and (E := serverEnv Libm.oneHalf) (σ := bloomsInit 1000 [])
    (T := [(.set [97] [100], 0), (.set [97] [99], 0), (.add [98] 1 0.5 ⟨true, true⟩, 0),
      (.add [97] 32 0.5 ⟨true, true⟩, 0)])
    (P := fun σ => ((reach (Readers.advance (serverEnv Libm.oneHalf))
        (Readers.start σ none none [([97], [99]), ([97], [100]), ([98], [99])])
        [0, 0, 1, 0, 1, 0, 2, 2, 2, 1, 1, 1, 0, 0, 0]).map
      fun s => (s.requests.map Request.pc).take 2) =
        some [.done (.ok 0), .done (.error .outOfBounds)] ∧
      alone (serverEnv Libm.oneHalf) σ [97] [99] = .ok 1 ∧
      alone (serverEnv Libm.oneHalf) σ [97] [100] = .ok 1)
    (by decide +kernel)
  obtain ⟨σ, run, reads, values⟩ := replayed
  obtain ⟨s, reads, ends⟩ := Option.map_eq_some_iff.mp reads
  exact ⟨σ, run, _, s, run_of_reach (fun _ _ _ step => step) reads, ends, values⟩

end BloomServer
