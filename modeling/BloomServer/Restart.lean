import BloomServer.Accounting
import BloomServer.Archive

/-! A process that continues from a dump: the loaded store answers every later
get, set and add as the dumped one would have. -/
namespace BloomServer
open LabelledRun

/-- The values a list of calls returns, up to the first call that stops. -/
def answers (E : Env) : Store → List Call → List (Except Stop Int)
  | _, [] => []
  | σ, call :: calls =>
      match call.exec E σ with
      | .error s => [.error s]
      | .ok (r, σ) => .ok r :: answers E σ calls

/-- Two maps agree on everything a dump keeps. -/
def FilterMap.Mirrors (M N : FilterMap) : Prop :=
  ∀ key, (M key).map Bloom.dumped = (N key).map Bloom.dumped

/-- Two tables agree on everything that gets, sets and additions depend on. -/
structure Mirrors (σ τ : Store) : Prop where
  left : ∃ B, Represents σ B
  right : ∃ B, Represents τ B
  contents : σ.contents.Mirrors τ.contents
  bytes : σ.blooms.bytes = τ.blooms.bytes
  maxBytes : σ.blooms.maxBytes = τ.blooms.maxBytes

/-! ### Nothing but `bytes` is lost, and setting and getting never read it -/

theorem bloomSet_dumped (E : Env) (b : Bloom) (s : CString) :
    bloomSet E b.dumped s = (bloomSet E b s).map Bloom.dumped := by
  unfold bloomSet Bloom.dumped
  cases b.vHash with
  | none => rfl
  | some map =>
      change (setLoop (E.hash s) b.m b.rounds 0 map >>= _) = _
      cases run : setLoop (E.hash s) b.m b.rounds 0 map with
      | error stop => simp only [run]; rfl
      | ok map' => simp only [run]; rfl

theorem bloomGet_dumped (E : Env) (b : Bloom) (s : CString) :
    bloomGet E b.dumped s = (bloomGet E b s).map fun got => (got.1, got.2.dumped) := by
  unfold bloomGet Bloom.dumped
  cases b.vHash with
  | none => rfl
  | some map =>
      change (getLoop (E.hash s) b.m map b.rounds 0 >>= _) = _
      cases run : getLoop (E.hash s) b.m map b.rounds 0 with
      | error stop => simp only [run]; rfl
      | ok hit =>
          cases hit with
          | true => simp only [run]; rfl
          | false => simp only [run]; rfl

theorem FilterMap.Mirrors.cases {M N : FilterMap} (same : M.Mirrors N) (key : CString) :
    (M key = none ∧ N key = none) ∨
    ∃ b c, M key = some b ∧ N key = some c ∧ b.dumped = c.dumped := by
  have here := same key
  cases left : M key with
  | none =>
      rw [left, Option.map_none, eq_comm, Option.map_eq_none_iff] at here
      exact Or.inl ⟨rfl, here⟩
  | some b =>
      rw [left, Option.map_some, eq_comm, Option.map_eq_some_iff] at here
      obtain ⟨c, right, fields⟩ := here
      exact Or.inr ⟨b, c, rfl, right, fields.symm⟩

theorem bloomInit_congr {E : Env} {blooms blooms' : Blooms} (bytes : blooms.bytes = blooms'.bytes)
    (maxBytes : blooms.maxBytes = blooms'.maxBytes) (mem : Alloc) (key : CString) (n : UInt64)
    (e : Float) : bloomInit E mem blooms key n e = bloomInit E mem blooms' key n e := by
  unfold bloomInit
  rw [bytes, maxBytes]

/-- Mirrored tables return the same value from every call. -/
theorem Mirrors.exec_value {σ τ : Store} (same : Mirrors σ τ) (E : Env) (call : Call) :
    (call.exec E σ).map Prod.fst = (call.exec E τ).map Prod.fst := by
  obtain ⟨B, rep⟩ := same.left
  obtain ⟨B', rep'⟩ := same.right
  rw [rep.exec_value, rep'.exec_value]
  cases call with
  | add key n e mem =>
      rcases same.contents.cases key with ⟨left, right⟩ | ⟨b, c, left, right, _⟩
      · simp only [FilterMap.value, left, right, bloomInit_congr same.bytes same.maxBytes]
      · simp only [FilterMap.value, left, right]
  | set key s =>
      rcases same.contents.cases key with ⟨left, right⟩ | ⟨b, c, left, right, fields⟩
      · simp only [FilterMap.value, left, right]
      · have run := (bloomSet_dumped E b s).symm.trans (fields ▸ bloomSet_dumped E c s)
        have value := congrArg (Except.map fun _ => (0 : Int)) run
        simp only [FilterMap.value, left, right]
        cases setb : bloomSet E b s <;> cases setc : bloomSet E c s <;>
          simp_all [Except.map]
  | get key s =>
      rcases same.contents.cases key with ⟨left, right⟩ | ⟨b, c, left, right, fields⟩
      · simp only [FilterMap.value, left, right]
      · have run := (bloomGet_dumped E b s).symm.trans (fields ▸ bloomGet_dumped E c s)
        simp only [FilterMap.value, left, right]
        cases getb : bloomGet E b s <;> cases getc : bloomGet E c s <;>
          simp_all [Except.map]
  | delete key =>
      rcases same.contents.cases key with ⟨left, right⟩ | ⟨b, c, left, right, _⟩
      · simp only [FilterMap.value, left, right]
      · simp only [FilterMap.value, left, right, Option.isSome_some]

/-- Steps with the same label keep two maps mirrored. -/
theorem FilterMap.Step.mirrors {E : Env} {M M' N N' : FilterMap} {ev : Event}
    (step : FilterMap.Step E M ev M') (other : FilterMap.Step E N ev N') (same : M.Mirrors N) :
    M'.Mirrors N' := by
  intro key
  by_cases elsewhere : key ≠ ev.1.key
  · rw [step.frame elsewhere, other.frame elsewhere]
    exact same key
  · cases not_not.mp elsewhere
    cases step with
    | addPresent => cases other with | addPresent => exact same _
    | addRejected => cases other with | addRejected => exact same _
    | added =>
        cases other with
        | added => rw [Call.key, Function.update_self, Function.update_self]
    | setAbsent => cases other with | setAbsent => exact same _
    | @set key s b c present run =>
        cases other with
        | @set _ _ b' c' present' run' =>
            have fields := same key
            rw [present, present', Option.map_some, Option.map_some, Option.some.injEq] at fields
            have both := (bloomSet_dumped E b s).symm.trans (fields ▸ bloomSet_dumped E b' s)
            rw [run, run'] at both
            rw [Call.key, Function.update_self, Function.update_self]
            exact congrArg some (Except.ok.inj both)
    | @getAbsent key s absent =>
        cases other with
        | getAbsent => exact same key
        | got present' =>
            have fields := same key
            rw [absent, present'] at fields
            cases fields
    | @got key s b r c present run =>
        cases other with
        | getAbsent absent =>
            have fields := same key
            rw [absent, present] at fields
            cases fields
        | @got _ _ b' _ c' present' run' =>
            have fields := same key
            rw [present, present', Option.map_some, Option.map_some, Option.some.injEq] at fields
            have both := (bloomGet_dumped E b s).symm.trans (fields ▸ bloomGet_dumped E b' s)
            rw [run, run'] at both
            rw [Call.key, Function.update_self, Function.update_self]
            exact congrArg (fun got => some got.2) (Except.ok.inj both)
    | deleteAbsent => cases other with | deleteAbsent => exact same _
    | deleted =>
        cases other with
        | deleted => rw [Call.key, Function.update_self, Function.update_self]

/-- What an event adds to `bytes`, for any call but a deletion. -/
def charge (E : Env) : Event → UInt64
  | (.add _ n e _, r) => if r = 0 then (calculate E.libm n e).bytes else 0
  | _ => 0

theorem Effect.charged {E : Env} {σ σ' : Store} {B B' : Buckets} {ev : Event}
    (eff : Effect E σ B ev σ' B') (keep : ∀ key, ev.1 ≠ .delete key) :
    σ'.blooms.bytes = σ.blooms.bytes + charge E ev := by
  cases eff with
  | addPresent | addRejected | setAbsent | set | getAbsent => exact (UInt64.add_zero _).symm
  | added => rfl
  | got held run =>
      rw [(Store.bumpGet_scalars _ _).1]
      exact (UInt64.add_zero _).symm
  | deleteAbsent | deleted => exact absurd rfl (keep _)

/-- The step lemma: the same call leaves mirrored tables mirrored. -/
theorem Mirrors.step {E : Env} {σ τ σ' τ' : Store} {ev : Event} (same : Mirrors σ τ)
    (keep : ∀ key, ev.1 ≠ .delete key) (returns : Returns E σ ev σ') (other : Returns E τ ev τ') :
    Mirrors σ' τ' := by
  obtain ⟨B, rep⟩ := same.left
  obtain ⟨C, rep'⟩ := same.right
  obtain ⟨B', eff⟩ := returns.effect rep
  obtain ⟨C', eff'⟩ := other.effect rep'
  refine ⟨⟨B', eff.represents rep⟩, ⟨C', eff'.represents rep'⟩, ?_, ?_, ?_⟩
  · exact (eff.refines rep).mirrors (eff'.refines rep') same.contents
  · rw [eff.charged keep, eff'.charged keep, same.bytes]
  · rw [eff.maxBytes, eff'.maxBytes, same.maxBytes]

theorem Mirrors.answers {E : Env} {σ τ : Store} (same : Mirrors σ τ) {calls : List Call}
    (keep : ∀ call ∈ calls, ∀ key, call ≠ .delete key) : answers E σ calls = answers E τ calls := by
  induction calls generalizing σ τ with
  | nil => rfl
  | cons call calls ih =>
      have value := same.exec_value E call
      unfold BloomServer.answers
      cases left : call.exec E σ with
      | error s =>
          rw [left] at value
          cases right : call.exec E τ with
          | error s' =>
              rw [right] at value
              cases value
              rfl
          | ok result =>
              rw [right] at value
              cases value
      | ok result =>
          rw [left] at value
          cases right : call.exec E τ with
          | error s' =>
              rw [right] at value
              cases value
          | ok result' =>
              obtain ⟨r, σ'⟩ := result
              obtain ⟨r', τ'⟩ := result'
              rw [right] at value
              cases value
              have own : Returns E σ (call, r) σ' := left
              have other : Returns E τ (call, r) τ' := right
              have next := same.step (keep call List.mem_cons_self) own other
              exact congrArg _ (ih next fun c mem => keep c (List.mem_cons_of_mem call mem))

theorem Represents.load_mirrors {σ : Store} {B : Buckets} (rep : Represents σ B)
    (heap : List Node) (junk : Nat → UInt64) : Mirrors (σ.serialize.load heap junk) σ where
  left := ⟨_, rep.load_represents heap junk⟩
  right := ⟨B, rep⟩
  contents := rep.contents_load heap junk
  bytes := rfl
  maxBytes := rfl

/-- Dump then load preserves every answer, whatever the fields left out hold after the load. -/
theorem load_preserves_answers {E : Env} {max : UInt64} {heap₀ : List Node} {T : List Event}
    {σ : Store} (run : Run (Returns E) (bloomsInit max heap₀) T σ) (heap : List Node)
    (junk : Nat → UInt64) {calls : List Call} (keep : ∀ call ∈ calls, ∀ key, call ≠ .delete key) :
    answers E (σ.serialize.load heap junk) calls = answers E σ calls := by
  obtain ⟨B, rep⟩ := reachable_represents run
  exact (rep.load_mirrors heap junk).answers keep

theorem load_preserves_answers_collision :
    ∃ σ, Run (Returns (serverEnv Libm.oneHalf)) (bloomsInit 1000 [])
      [(.set [98, 65] [121], 0), (.add [98, 65] 16 0.5 ⟨true, true⟩, 0),
        (.add [97, 98] 32 0.5 ⟨true, true⟩, 0)] σ ∧
      answers (serverEnv Libm.oneHalf) (σ.serialize.load [] fun _ => 7)
          [.get [98, 65] [121], .set [97, 98] [120], .add [99] 1 0.5 ⟨true, true⟩] =
        answers (serverEnv Libm.oneHalf) σ
          [.get [98, 65] [121], .set [97, 98] [120], .add [99] 1 0.5 ⟨true, true⟩] := by
  refine Exists.imp (fun σ run => ⟨run, ?_⟩) (exists_run (by decide +kernel))
  exact load_preserves_answers run [] _ (by simp)

end BloomServer
