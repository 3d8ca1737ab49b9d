import BloomServer.RegistryRun

/-! The registry as a finite map from keys to filters: the map a store denotes, the
steps of the map, and the simulation of one by the other. -/
namespace BloomServer
open LabelledRun LinkedChain

/-- What the registry is for, without nodes, links and buckets. -/
abbrev FilterMap := CString → Option Bloom

/-- The map a store denotes: what a search finds. -/
def Store.contents (σ : Store) : FilterMap := fun key =>
  match bloomsSearch key σ with
  | .ok (some p) => σ.bloomAt p
  | _ => none

/-- The calls on a map. When an addition is refused is left open. -/
inductive FilterMap.Step (E : Env) (M : FilterMap) : Event → FilterMap → Prop
  | addPresent {key n e mem b} (present : M key = some b) : Step E M (.add key n e mem, 1) M
  | addRejected {key n e mem} (absent : M key = none) : Step E M (.add key n e mem, 2) M
  | added {key n e mem} (absent : M key = none) (size : (calculate E.libm n e).bytes ≠ 0) :
      Step E M (.add key n e mem, 0) (Function.update M key (some (newBloom E key n e)))
  | setAbsent {key s} (absent : M key = none) : Step E M (.set key s, 1) M
  | set {key s b b'} (present : M key = some b) (run : bloomSet E b s = .ok b') :
      Step E M (.set key s, 0) (Function.update M key (some b'))
  | getAbsent {key s} (absent : M key = none) : Step E M (.get key s, -1) M
  | got {key s b r b'} (present : M key = some b) (run : bloomGet E b s = .ok (r, b')) :
      Step E M (.get key s, r) (Function.update M key (some b'))
  | deleteAbsent {key} (absent : M key = none) : Step E M (.delete key, 1) M
  | deleted {key b} (present : M key = some b) :
      Step E M (.delete key, 0) (Function.update M key none)

section Contents

variable {σ σ' : Store} {B B' : Buckets} {key : CString} {p : Addr} {b : Bloom}

theorem Represents.contents_iff (rep : Represents σ B) :
    σ.contents key = some b ↔ ∃ p, σ.Holds key p b := by
  unfold Store.contents
  rcases rep.search_cases key with ⟨q, c, found, held⟩ | ⟨none, absent⟩
  · rw [found]
    constructor
    · intro read
      have same := Option.some.inj (held.2.1.symm.trans read)
      exact ⟨q, same ▸ held⟩
    · rintro ⟨p, other⟩
      rw [(rep.holds_unique other held).2]
      exact held.2.1
  · rw [none]
    constructor
    · intro read
      cases read
    · rintro ⟨p, held⟩
      exact absurd ⟨p, b, held⟩ absent

theorem Represents.contents_of_holds (rep : Represents σ B) (held : σ.Holds key p b) :
    σ.contents key = some b :=
  rep.contents_iff.mpr ⟨p, held⟩

theorem Represents.contents_eq_none_iff (rep : Represents σ B) :
    σ.contents key = none ↔ ¬ σ.Present key := by
  rw [Option.eq_none_iff_forall_ne_some]
  constructor
  · rintro none ⟨p, b, held⟩
    exact none b (rep.contents_of_holds held)
  · intro absent b found
    obtain ⟨p, held⟩ := rep.contents_iff.mp found
    exact absent ⟨p, b, held⟩

/-- Changing what one key holds updates the map at that key. -/
theorem Represents.contents_update (rep : Represents σ B) (rep' : Represents σ' B')
    {new : Option Bloom}
    (frame : ∀ key', key' ≠ key → ∀ p b, σ'.Holds key' p b ↔ σ.Holds key' p b)
    (here : ∀ b, (∃ p, σ'.Holds key p b) ↔ new = some b) :
    σ'.contents = Function.update σ.contents key new := by
  funext key'
  apply Option.ext
  intro b
  rw [rep'.contents_iff]
  by_cases same : key' = key
  · subst same
    rw [Function.update_self]
    exact here b
  · rw [Function.update_of_ne same, rep.contents_iff]
    exact exists_congr fun p => frame key' same p b

end Contents

/-- A call leaves the filters of all other keys alone: their nodes, parameters and bits. -/
theorem Effect.frame {E : Env} {σ σ' : Store} {B B' : Buckets} {ev : Event}
    (rep : Represents σ B) (eff : Effect E σ B ev σ' B') {key : CString} (other : key ≠ ev.1.key)
    (p : Addr) (b : Bloom) : σ'.Holds key p b ↔ σ.Holds key p b := by
  cases eff with
  | addPresent | addRejected | setAbsent | getAbsent | deleteAbsent => exact Iff.rfl
  | added absent init =>
      rw [rep.holds_added absent (newBloom_live E _ _ _)]
      exact or_iff_left fun new => other new.2.2
  | @set key' s q c c' held run =>
      apply (Store.holds_congr rfl rfl).trans
      exact Represents.holds_rewritten held (bloomSet_key run).1 other
  | @got key' s q c r c' held run =>
      apply (Store.holds_congr (Store.bumpGet_heap _ _) (Store.bumpGet_scalars _ _).2.2.2.2).trans
      exact Represents.holds_rewritten held (bloomGet_key run).1 other
  | @deleted key' q c σ' held removed =>
      apply (removed.holds_iff rep).trans
      refine and_iff_left_of_imp ?_
      rintro old rfl
      exact other (old.key_eq held)

/-- Every returned call is a step of the map. -/
theorem Effect.refines {E : Env} {σ σ' : Store} {B B' : Buckets} {ev : Event}
    (rep : Represents σ B) (eff : Effect E σ B ev σ' B') :
    FilterMap.Step E σ.contents ev σ'.contents := by
  have rep' := eff.represents rep
  have update (new : Option Bloom) (here : ∀ b, (∃ p, σ'.Holds ev.1.key p b) ↔ new = some b) :
      σ'.contents = Function.update σ.contents ev.1.key new :=
    rep.contents_update rep' (fun _ other p b => eff.frame rep other p b) here
  cases eff with
  | addPresent present =>
      obtain ⟨p, b, held⟩ := present
      exact .addPresent (rep.contents_of_holds held)
  | addRejected absent _ => exact .addRejected (rep.contents_eq_none_iff.mpr absent)
  | @added key n e mem absent init =>
      rw [update (some (newBloom E key n e)) ?_]
      · exact .added (rep.contents_eq_none_iff.mpr absent) (bloomInit_eq_some init).2.1
      · intro b
        rw [Option.some.injEq]
        apply rep'.exists_holds_iff
        apply (rep.holds_added (b := newBloom E key n e) absent (newBloom_live E _ _ _)).mpr
        exact Or.inr ⟨rfl, rfl, rfl⟩
  | setAbsent absent => exact .setAbsent (rep.contents_eq_none_iff.mpr absent)
  | @set key s p b b' held run =>
      rw [update (some b') ?_]
      · exact .set (rep.contents_of_holds held) run
      · intro c
        rw [Option.some.injEq]
        apply rep'.exists_holds_iff
        apply (Store.holds_congr rfl rfl).mpr
        exact Represents.holds_setBloom_self held (bloomSet_key run).1
  | getAbsent absent => exact .getAbsent (rep.contents_eq_none_iff.mpr absent)
  | @got key s p b r b' held run =>
      rw [update (some b') ?_]
      · exact .got (rep.contents_of_holds held) run
      · intro c
        rw [Option.some.injEq]
        apply rep'.exists_holds_iff
        apply (Store.holds_congr (Store.bumpGet_heap _ _) (Store.bumpGet_scalars _ _).2.2.2.2).mpr
        exact Represents.holds_setBloom_self held (bloomGet_key run).1
  | deleteAbsent absent => exact .deleteAbsent (rep.contents_eq_none_iff.mpr absent)
  | @deleted key p b σ' held removed =>
      rw [update none ?_]
      · exact .deleted (rep.contents_of_holds held)
      · intro c
        simp only [Call.key, reduceCtorEq, iff_false]
        rintro ⟨q, other⟩
        obtain ⟨old, differ⟩ := (removed.holds_iff rep).mp other
        exact differ (rep.holds_unique old held).1

/-- A whole run of the registry is a run of the map, and it leaves a table. -/
theorem refines_run {E : Env} {σ₀ σ : Store} {B₀ : Buckets} {T : List Event}
    (rep : Represents σ₀ B₀) (run : Run (Returns E) σ₀ T σ) :
    Run (FilterMap.Step E) σ₀.contents T σ.contents := by
  induction run with
  | nil => exact .nil
  | snoc before last ih =>
      obtain ⟨B, rep⟩ := represents_of_run rep before
      obtain ⟨B', eff⟩ := last.effect rep
      exact .snoc ih (eff.refines rep)

theorem contents_bloomsInit (max : UInt64) (heap : List Node) :
    (bloomsInit max heap).contents = fun _ => none := by
  funext key
  apply (bloomsInit_represents max heap).contents_eq_none_iff.mpr
  rintro ⟨p, b, held⟩
  obtain ⟨mem, _⟩ := (bloomsInit_represents max heap).holds_iff.mp held
  cases mem

/-! ### Properties of single filters -/

section Each

variable {E : Env} {M M' : FilterMap} {ev : Event} {P : Bloom → Prop}

theorem FilterMap.Step.frame (step : FilterMap.Step E M ev M') {key : CString}
    (other : key ≠ ev.1.key) : M' key = M key := by
  cases step with
  | addPresent | addRejected | setAbsent | getAbsent | deleteAbsent => rfl
  | added | set | got | deleted => exact Function.update_of_ne other ..

/-- A property that new filters have and that `bloom_set` and `bloom_get` keep. -/
structure Kept (E : Env) (P : Bloom → Prop) : Prop where
  new : ∀ key n e, (calculate E.libm n e).bytes ≠ 0 → P (newBloom E key n e)
  set : ∀ b b' s, P b → bloomSet E b s = .ok b' → P b'
  get : ∀ b b' s r, P b → bloomGet E b s = .ok (r, b') → P b'

theorem FilterMap.Step.each (step : FilterMap.Step E M ev M') (kept : Kept E P)
    (held : ∀ key b, M key = some b → P b) : ∀ key b, M' key = some b → P b := by
  intro key b found
  by_cases other : key ≠ ev.1.key
  · exact held key b ((step.frame other).symm.trans found)
  · cases not_not.mp other
    cases step with
    | addPresent | addRejected | setAbsent | getAbsent | deleteAbsent => exact held _ b found
    | added absent size =>
        rw [Call.key, Function.update_self] at found
        cases found
        exact kept.new _ _ _ size
    | set present run =>
        rw [Call.key, Function.update_self] at found
        cases found
        exact kept.set _ _ _ (held _ _ present) run
    | got present run =>
        rw [Call.key, Function.update_self] at found
        cases found
        exact kept.get _ _ _ _ (held _ _ present) run
    | deleted =>
        rw [Call.key, Function.update_self] at found
        cases found

/-- Such a property holds of every filter of every map that calls can reach. -/
theorem each_of_run {M₀ : FilterMap} {T : List Event} (kept : Kept E P)
    (held : ∀ key b, M₀ key = some b → P b) (run : Run (FilterMap.Step E) M₀ T M) :
    ∀ key b, M key = some b → P b :=
  run.invariant (I := fun M => ∀ key b, M key = some b → P b) held
    fun _ _ _ held step => step.each kept held

end Each

/-! ### The values the operations return -/

/-- A call can return the value from a store. -/
def CanReturn (E : Env) (σ : Store) (call : Call) (r : Int) : Prop := ∃ σ', Returns E σ (call, r) σ'

namespace Represents

variable {σ : Store} {B : Buckets}

theorem add_returns (rep : Represents σ B) (E : Env) (mem : Alloc) (key : CString) (n : UInt64)
    (e : Float) (short : key.length < maxKeyLen) :
    (CanReturn E σ (.add key n e mem) 1 ↔ σ.Present key) ∧
    (CanReturn E σ (.add key n e mem) 2 ↔
      ¬ σ.Present key ∧ bloomInit E mem σ.blooms key n e = .ok none) ∧
    (CanReturn E σ (.add key n e mem) 0 ↔
      ¬ σ.Present key ∧ bloomInit E mem σ.blooms key n e ≠ .ok none ∧ mem.newVector = true) := by
  unfold CanReturn Returns
  simp only [Call.exec]
  rcases rep.add_cases E mem key n e with
    ⟨present, run⟩ | ⟨absent, rejects, run⟩ | ⟨absent, init, run⟩ | ⟨absent, s, init, run⟩
  · simp [run, present]
  · simp [run, absent, bloomInit_eq_none_iff.mpr rejects]
  · simp [run, absent, init, (bloomInit_eq_some init).2.2.2.2]
  · simp [run, absent, init, (bloomInit_eq_error init short).2]

theorem set_returns (rep : Represents σ B) (E : Env) (key s : CString) :
    CanReturn E σ (.set key s) 1 ↔ ¬ σ.Present key := by
  unfold CanReturn Returns
  simp only [Call.exec]
  rcases rep.set_cases E key s with ⟨absent, run⟩ | ⟨p, b, held, run⟩
  · simp [run, absent]
  · have present : σ.Present key := ⟨p, b, held⟩
    rw [run]
    cases bloomSet E b s <;> simp [Except.map, present]

theorem get_returns (rep : Represents σ B) (E : Env) (key s : CString) :
    CanReturn E σ (.get key s) (-1) ↔ ¬ σ.Present key := by
  unfold CanReturn Returns
  simp only [Call.exec]
  rcases rep.get_cases E key s with ⟨absent, run⟩ | ⟨p, b, held, run⟩
  · simp [run, absent]
  · have present : σ.Present key := ⟨p, b, held⟩
    rw [run]
    cases got : bloomGet E b s with
    | error stop => simp [Except.map, present]
    | ok result =>
        obtain ⟨_, ⟨one, _⟩ | ⟨zero, _⟩⟩ := bloomGet_frame got
        · simp [Except.map, present, one]
        · simp [Except.map, present, zero]

theorem delete_returns (rep : Represents σ B) (E : Env) (key : CString) :
    (CanReturn E σ (.delete key) 1 ↔ ¬ σ.Present key) ∧
    (CanReturn E σ (.delete key) 0 ↔ σ.Present key) := by
  unfold CanReturn Returns
  simp only [Call.exec]
  rcases rep.delete_cases key with ⟨absent, run⟩ | ⟨p, b, σ', held, run, _⟩
  · simp [run, absent]
  · have present : σ.Present key := ⟨p, b, held⟩
    simp [run, present]

end Represents

/-- The value of a call, as a function of the map and of the budget. -/
def FilterMap.value (E : Env) (blooms : Blooms) (M : FilterMap) : Call → Except Stop Int
  | .add key n e mem =>
      match M key with
      | some _ => .ok 1
      | none => (bloomInit E mem blooms key n e).map fun b => if b.isSome then 0 else 2
  | .set key s =>
      match M key with
      | some b => (bloomSet E b s).map fun _ => 0
      | none => .ok 1
  | .get key s =>
      match M key with
      | some b => (bloomGet E b s).map Prod.fst
      | none => .ok (-1)
  | .delete key => .ok (if (M key).isSome then 0 else 1)

theorem Represents.exec_value {σ : Store} {B : Buckets} (rep : Represents σ B) (E : Env)
    (call : Call) : (call.exec E σ).map Prod.fst = FilterMap.value E σ.blooms σ.contents call := by
  have present (key : CString) (there : σ.Present key) : ∃ b, σ.contents key = some b := by
    obtain ⟨p, b, held⟩ := there
    exact ⟨b, rep.contents_of_holds held⟩
  cases call with
  | add key n e mem =>
      simp only [Call.exec, FilterMap.value]
      rcases rep.add_cases E mem key n e with
        ⟨there, run⟩ | ⟨absent, rejects, run⟩ | ⟨absent, init, run⟩ | ⟨absent, s, init, run⟩
      · obtain ⟨b, found⟩ := present key there
        rw [run, found]
        rfl
      · rw [run, rep.contents_eq_none_iff.mpr absent, bloomInit_eq_none_iff.mpr rejects]
        rfl
      · rw [run, rep.contents_eq_none_iff.mpr absent, init]
        rfl
      · rw [run, rep.contents_eq_none_iff.mpr absent, init]
        rfl
  | set key s =>
      simp only [Call.exec, FilterMap.value]
      rcases rep.set_cases E key s with ⟨absent, run⟩ | ⟨p, b, held, run⟩
      · rw [run, rep.contents_eq_none_iff.mpr absent]
        rfl
      · rw [run, rep.contents_of_holds held]
        dsimp only
        cases bloomSet E b s <;> rfl
  | get key s =>
      simp only [Call.exec, FilterMap.value]
      rcases rep.get_cases E key s with ⟨absent, run⟩ | ⟨p, b, held, run⟩
      · rw [run, rep.contents_eq_none_iff.mpr absent]
        rfl
      · rw [run, rep.contents_of_holds held]
        dsimp only
        cases bloomGet E b s <;> rfl
  | delete key =>
      simp only [Call.exec, FilterMap.value]
      rcases rep.delete_cases key with ⟨absent, run⟩ | ⟨p, b, σ', held, run, _⟩
      · rw [run, rep.contents_eq_none_iff.mpr absent]
        rfl
      · rw [run, rep.contents_of_holds held]
        rfl

/-- A successful addition leaves the key with a filter that has no bit set. -/
theorem Represents.holds_of_added {E : Env} {σ σ' : Store} {B : Buckets} {mem : Alloc}
    {key : CString} {n : UInt64} {e : Float} (rep : Represents σ B)
    (returns : Returns E σ (.add key n e mem, 0) σ') :
    σ'.Holds key σ.heap.length (newBloom E key n e) := by
  obtain ⟨B', eff⟩ := returns.effect rep
  cases eff with
  | added absent init =>
      apply (rep.holds_added absent (newBloom_live E key n e)).mpr
      exact Or.inr ⟨rfl, rfl, rfl⟩

/-- What the chains of a store with the claimed shape look like: they end, no node occurs twice
in the table, each is in the chain of the bucket of its own key, and no key occurs twice. -/
structure Store.WellShaped (σ : Store) : Prop where
  acyclic : ∀ hv, ∃ l, Chain σ.link (σ.blooms.hashtable hv) l ∧ l.Nodup
  placed : ∀ key p b, σ.Holds key p b →
    ∀ hv, Reaches σ.link (σ.blooms.hashtable hv) p ↔ hv = σ.bucket key
  unique : ∀ key p q b c, σ.Holds key p b → σ.Holds key q c → p = q

theorem Represents.wellShaped {σ : Store} {B : Buckets} (rep : Represents σ B) : σ.WellShaped where
  acyclic hv := ⟨B hv, rep.chain hv, (rep.chain hv).nodup⟩
  placed key p b held hv := by
    obtain ⟨mem, read, same⟩ := rep.holds_iff.mp held
    rw [rep.reaches_iff, rep.bucket_eq]
    constructor
    · intro here
      rw [rep.mem_bucket here read, same]
    · rintro rfl
      exact mem
  unique key p q b c held other := (rep.holds_unique held other).1

/-- The registry refines the finite map it denotes, after any calls that returned. -/
theorem registry_refines_map {E : Env} {max : UInt64} {heap : List Node} {T : List Event}
    {σ : Store} (run : Run (Returns E) (bloomsInit max heap) T σ) :
    Run (FilterMap.Step E) (fun _ => none) T σ.contents ∧
    (∀ key b, σ.contents key = some b ↔ ∃ p, σ.Holds key p b) ∧
    σ.WellShaped ∧
    (∀ key n e mem, key.length < maxKeyLen →
      (CanReturn E σ (.add key n e mem) 1 ↔ σ.Present key) ∧
      (CanReturn E σ (.add key n e mem) 2 ↔
        ¬ σ.Present key ∧ bloomInit E mem σ.blooms key n e = .ok none) ∧
      (CanReturn E σ (.add key n e mem) 0 ↔
        ¬ σ.Present key ∧ bloomInit E mem σ.blooms key n e ≠ .ok none ∧ mem.newVector = true) ∧
      ∀ σ', Returns E σ (.add key n e mem, 0) σ' → ∃ p b words, σ'.Holds key p b ∧
        b.vHash = some (List.replicate words 0#32)) ∧
    (∀ key s, (CanReturn E σ (.set key s) 1 ↔ ¬ σ.Present key) ∧
      (CanReturn E σ (.get key s) (-1) ↔ ¬ σ.Present key)) ∧
    (∀ key, (CanReturn E σ (.delete key) 1 ↔ ¬ σ.Present key) ∧
      (CanReturn E σ (.delete key) 0 ↔ σ.Present key)) ∧
    (∀ ev σ', Returns E σ ev σ' → ∀ key, key ≠ ev.1.key →
      ∀ p b, σ'.Holds key p b ↔ σ.Holds key p b) := by
  obtain ⟨B, rep⟩ := reachable_represents run
  refine ⟨?_, fun key b => rep.contents_iff, rep.wellShaped, ?_, ?_, ?_, ?_⟩
  · have sim := refines_run (bloomsInit_represents max heap) run
    rwa [contents_bloomsInit] at sim
  · intro key n e mem short
    obtain ⟨one, two, zero⟩ := rep.add_returns E mem key n e short
    refine ⟨one, two, zero, ?_⟩
    intro σ' returns
    exact ⟨_, _, _, rep.holds_of_added returns, rfl⟩
  · intro key s
    exact ⟨rep.set_returns E key s, rep.get_returns E key s⟩
  · intro key
    exact rep.delete_returns E key
  · intro ev σ' returns key other p b
    obtain ⟨B', eff⟩ := returns.effect rep
    exact eff.frame rep other p b

/-- Two keys of one bucket, one of them deleted again. -/
theorem registry_refines_map_collision :
    bucketOf hashPower [97, 98] = bucketOf hashPower [98, 65] ∧
    ∃ σ, Run (Returns (serverEnv Libm.oneHalf)) (bloomsInit 1000 [])
      [(.delete [97, 98], 0), (.get [97, 98] [120], 1), (.set [97, 98] [120], 0),
        (.add [98, 65] 16 0.5 ⟨true, true⟩, 0), (.add [97, 98] 32 0.5 ⟨true, true⟩, 0)] σ ∧
      σ.WellShaped ∧ (CanReturn (serverEnv Libm.oneHalf) σ (.delete [98, 65]) 0 ↔
        σ.Present [98, 65]) := by
  refine ⟨by decide, Exists.imp (fun σ run => ⟨run, ?_⟩) (exists_run (by decide +kernel))⟩
  obtain ⟨_, _, shape, _, _, deletes, _⟩ := registry_refines_map run
  exact ⟨shape, (deletes [98, 65]).2⟩

end BloomServer
