import BloomServer.RegistryEffect
import BloomServer.Library.LabelledRun

/-! Sequential runs of the registry. `Effect` says once what a call that returned
can have done; every invariant of the store is a case analysis on it. -/
namespace BloomServer
open LabelledRun

/-- Everything a returned call can have done to a table with the chains `B`. -/
inductive Effect (E : Env) (σ : Store) (B : Buckets) : Event → Store → Buckets → Prop
  | addPresent {key n e mem} (present : σ.Present key) : Effect E σ B (.add key n e mem, 1) σ B
  | addRejected {key n e mem} (absent : ¬ σ.Present key) (rejects : Rejects E mem σ.blooms n e) :
      Effect E σ B (.add key n e mem, 2) σ B
  | added {key n e mem} (absent : ¬ σ.Present key)
      (init : bloomInit E mem σ.blooms key n e = .ok (some (newBloom E key n e))) :
      Effect E σ B (.add key n e mem, 0) (σ.added (newBloom E key n e))
        (Function.update B (σ.bucket key) (σ.heap.length :: B (σ.bucket key)))
  | setAbsent {key s} (absent : ¬ σ.Present key) : Effect E σ B (.set key s, 1) σ B
  | set {key s p b b'} (held : σ.Holds key p b) (run : bloomSet E b s = .ok b') :
      Effect E σ B (.set key s, 0) (σ.setBloom p b').bumpSet B
  | getAbsent {key s} (absent : ¬ σ.Present key) : Effect E σ B (.get key s, -1) σ B
  | got {key s p b r b'} (held : σ.Holds key p b) (run : bloomGet E b s = .ok (r, b')) :
      Effect E σ B (.get key s, r) ((σ.setBloom p b').bumpGet r) B
  | deleteAbsent {key} (absent : ¬ σ.Present key) : Effect E σ B (.delete key, 1) σ B
  | deleted {key p b σ'} (held : σ.Holds key p b) (removed : Removed σ B p b σ') :
      Effect E σ B (.delete key, 0) σ' (fun hv => (B hv).erase p)

theorem Returns.effect {E : Env} {σ σ' : Store} {B : Buckets} {ev : Event}
    (rep : Represents σ B) (returns : Returns E σ ev σ') : ∃ B', Effect E σ B ev σ' B' := by
  obtain ⟨call, r⟩ := ev
  cases call with
  | add key n e mem =>
      change bloomsAdd E mem key n e σ = .ok (r, σ') at returns
      rcases rep.add_cases E mem key n e with
        ⟨present, run⟩ | ⟨absent, rejects, run⟩ | ⟨absent, init, run⟩ | ⟨_, s, _, run⟩
      · rw [run] at returns; cases returns; exact ⟨B, .addPresent present⟩
      · rw [run] at returns; cases returns; exact ⟨B, .addRejected absent rejects⟩
      · rw [run] at returns; cases returns; exact ⟨_, .added absent init⟩
      · rw [run] at returns; cases returns
  | set key s =>
      change bloomsSet E key s σ = .ok (r, σ') at returns
      rcases rep.set_cases E key s with ⟨absent, run⟩ | ⟨p, b, held, run⟩
      · rw [run] at returns; cases returns; exact ⟨B, .setAbsent absent⟩
      · rw [run] at returns
        cases set : bloomSet E b s with
        | error stop => rw [set] at returns; cases returns
        | ok b' => rw [set] at returns; cases returns; exact ⟨B, .set held set⟩
  | get key s =>
      change bloomsGet E key s σ = .ok (r, σ') at returns
      rcases rep.get_cases E key s with ⟨absent, run⟩ | ⟨p, b, held, run⟩
      · rw [run] at returns; cases returns; exact ⟨B, .getAbsent absent⟩
      · rw [run] at returns
        cases got : bloomGet E b s with
        | error stop => rw [got] at returns; cases returns
        | ok result => rw [got] at returns; cases returns; exact ⟨B, .got held got⟩
  | delete key =>
      change bloomsDelete key σ = .ok (r, σ') at returns
      rcases rep.delete_cases key with ⟨absent, run⟩ | ⟨p, b, σ₁, held, run, removed⟩
      · rw [run] at returns; cases returns; exact ⟨B, .deleteAbsent absent⟩
      · rw [run] at returns; cases returns; exact ⟨_, .deleted held removed⟩

/-! ### What the filters of the table are after each effect -/

theorem Represents.exists_holds_iff {σ : Store} {B : Buckets} {key : CString} {p : Addr}
    {b c : Bloom} (rep : Represents σ B) (held : σ.Holds key p b) :
    (∃ q, σ.Holds key q c) ↔ b = c := by
  constructor
  · rintro ⟨q, other⟩
    exact (rep.holds_unique held other).2
  · rintro rfl
    exact ⟨p, held⟩

theorem Store.Holds.key_eq {σ : Store} {key key' : CString} {p : Addr} {b c : Bloom}
    (held : σ.Holds key p b) (other : σ.Holds key' p c) : key = key' := by
  have same := Option.some.inj (held.2.1.symm.trans other.2.1)
  rw [← held.2.2, same, other.2.2]

namespace Represents

variable {σ σ' : Store} {B : Buckets} {key key' : CString} {p q : Addr} {b b' c : Bloom} {r : Int}

theorem added (rep : Represents σ B) (absent : ¬ σ.Present b.key) (live : b.vHash.isSome) :
    Represents (σ.added b)
      (Function.update B (σ.bucket b.key) (σ.heap.length :: B (σ.bucket b.key))) :=
  (rep.pushNode absent live).of_same rfl rfl rfl

theorem set (rep : Represents σ B) (held : σ.Holds key p b) (sameKey : b'.key = b.key)
    (live : b'.vHash.isSome) : Represents (σ.setBloom p b').bumpSet B :=
  (rep.setBloom held sameKey live).of_same rfl rfl rfl

theorem got (rep : Represents σ B) (held : σ.Holds key p b) (sameKey : b'.key = b.key)
    (live : b'.vHash.isSome) : Represents ((σ.setBloom p b').bumpGet r) B :=
  (rep.setBloom held sameKey live).of_same (Store.bumpGet_heap _ r)
    (Store.bumpGet_scalars _ r).2.2.2.2 (Store.bumpGet_scalars _ r).2.2.2.1

theorem linked_added (rep : Represents σ B) (absent : ¬ σ.Present b.key) (live : b.vHash.isSome) :
    (σ.added b).Linked q ↔ σ.Linked q ∨ q = σ.heap.length := by
  rw [(rep.added absent live).linked_iff, rep.linked_iff]
  constructor
  · rintro ⟨hv, mem⟩
    by_cases same : hv = σ.bucket b.key
    · rw [same, Function.update_self] at mem
      rcases List.mem_cons.mp mem with rfl | old
      · exact Or.inr rfl
      · exact Or.inl ⟨_, old⟩
    · rw [Function.update_of_ne same] at mem
      exact Or.inl ⟨hv, mem⟩
  · rintro (⟨hv, mem⟩ | rfl)
    · refine ⟨hv, ?_⟩
      by_cases same : hv = σ.bucket b.key
      · subst same
        rw [Function.update_self]
        exact List.mem_cons_of_mem _ mem
      · rw [Function.update_of_ne same]
        exact mem
    · refine ⟨σ.bucket b.key, ?_⟩
      rw [Function.update_self]
      exact List.mem_cons_self

theorem linked_lt (rep : Represents σ B) (linked : σ.Linked q) : q < σ.heap.length := by
  obtain ⟨hv, mem⟩ := rep.linked_iff.mp linked
  exact rep.lt_length mem

theorem holds_added (rep : Represents σ B) (absent : ¬ σ.Present b.key) (live : b.vHash.isSome) :
    (σ.added b).Holds key q c ↔
      σ.Holds key q c ∨ (q = σ.heap.length ∧ c = b ∧ key = b.key) := by
  unfold Store.Holds
  rw [rep.linked_added absent live]
  constructor
  · rintro ⟨linked | rfl, read, same⟩
    · have old := rep.linked_lt linked
      exact Or.inl ⟨linked, (σ.pushNode_bloomAt_of_lt q _ b old).symm.trans read, same⟩
    · have new := Option.some.inj (read.symm.trans (σ.pushNode_bloomAt_new _ b))
      exact Or.inr ⟨rfl, new, by rw [← same, new]⟩
  · rintro (⟨linked, read, same⟩ | ⟨rfl, rfl, rfl⟩)
    · have old := rep.linked_lt linked
      exact ⟨Or.inl linked, (σ.pushNode_bloomAt_of_lt q _ b old).trans read, same⟩
    · exact ⟨Or.inr rfl, σ.pushNode_bloomAt_new _ c, rfl⟩

theorem holds_setBloom (held : σ.Holds key p b) (sameKey : b'.key = b.key) :
    (σ.setBloom p b').Holds key' q c ↔
      (q ≠ p ∧ σ.Holds key' q c) ∨ (q = p ∧ c = b' ∧ key' = key) := by
  have there := σ.lt_of_bloomAt p held.2.1
  unfold Store.Holds Store.Linked
  rw [Store.setBloom_link, Store.setBloom_blooms]
  constructor
  · rintro ⟨linked, read, same⟩
    by_cases here : q = p
    · subst here
      rw [σ.setBloom_bloomAt_self q b' there] at read
      have new := Option.some.inj read
      exact Or.inr ⟨rfl, new.symm, by rw [← same, ← new, sameKey, held.2.2]⟩
    · rw [σ.setBloom_bloomAt_of_ne p q b' (Ne.symm here)] at read
      exact Or.inl ⟨here, linked, read, same⟩
  · rintro (⟨here, linked, read, same⟩ | ⟨rfl, rfl, rfl⟩)
    · exact ⟨linked, (σ.setBloom_bloomAt_of_ne p q b' (Ne.symm here)).trans read, same⟩
    · exact ⟨held.1, σ.setBloom_bloomAt_self q c there, by rw [sameKey, held.2.2]⟩

theorem holds_setBloom_self (held : σ.Holds key p b) (sameKey : b'.key = b.key) :
    (σ.setBloom p b').Holds key p b' :=
  (holds_setBloom held sameKey).mpr (Or.inr ⟨rfl, rfl, rfl⟩)

/-- Rewriting one filter under its own key leaves the other keys alone. -/
theorem holds_rewritten (held : σ.Holds key p b) (sameKey : b'.key = b.key) (other : key' ≠ key) :
    (σ.setBloom p b').Holds key' q c ↔ σ.Holds key' q c := by
  rw [holds_setBloom held sameKey]
  constructor
  · rintro (⟨_, old⟩ | ⟨_, _, same⟩)
    · exact old
    · exact absurd same other
  · intro old
    refine Or.inl ⟨?_, old⟩
    rintro rfl
    exact other (old.key_eq held)

end Represents

theorem Removed.linked_iff {σ σ' : Store} {B : Buckets} {p q : Addr} {b : Bloom}
    (rep : Represents σ B) (removed : Removed σ B p b σ') :
    σ'.Linked q ↔ σ.Linked q ∧ q ≠ p := by
  rw [removed.rep.linked_iff, rep.linked_iff]
  constructor
  · rintro ⟨hv, mem⟩
    have split := (rep.chain hv).nodup.mem_erase_iff.mp mem
    exact ⟨⟨hv, split.2⟩, split.1⟩
  · rintro ⟨⟨hv, mem⟩, differ⟩
    exact ⟨hv, (rep.chain hv).nodup.mem_erase_iff.mpr ⟨differ, mem⟩⟩

theorem Removed.holds_iff {σ σ' : Store} {B : Buckets} {p q : Addr} {b c : Bloom} {key : CString}
    (rep : Represents σ B) (removed : Removed σ B p b σ') :
    σ'.Holds key q c ↔ σ.Holds key q c ∧ q ≠ p := by
  unfold Store.Holds
  rw [removed.linked_iff rep]
  constructor
  · rintro ⟨⟨linked, differ⟩, read, same⟩
    exact ⟨⟨linked, (removed.same q differ).symm.trans read, same⟩, differ⟩
  · rintro ⟨⟨linked, read, same⟩, differ⟩
    exact ⟨⟨linked, differ⟩, (removed.same q differ).trans read, same⟩

/-- `Holds` and `Linked` do not see the counters of the table. -/
theorem Store.holds_congr {σ σ' : Store} (heap : σ'.heap = σ.heap)
    (table : σ'.blooms.hashtable = σ.blooms.hashtable) {key : CString} {p : Addr} {b : Bloom} :
    σ'.Holds key p b ↔ σ.Holds key p b := by
  have links : σ'.link = σ.link := by funext q; simp only [Store.link, heap]
  have reads : σ'.bloomAt = σ.bloomAt := by funext q; simp only [Store.bloomAt, heap]
  unfold Store.Holds Store.Linked
  rw [links, reads, table]

theorem newBloom_live (E : Env) (key : CString) (n : UInt64) (e : Float) :
    (newBloom E key n e).vHash.isSome := rfl

theorem bloomSet_key {E : Env} {b b' : Bloom} {s : CString} (run : bloomSet E b s = .ok b') :
    b'.key = b.key ∧ b'.vHash.isSome := by
  obtain ⟨map, map', _, _, rfl⟩ := bloomSet_frame run
  exact ⟨rfl, rfl⟩

theorem bloomGet_key {E : Env} {b b' : Bloom} {s : CString} {r : Int}
    (run : bloomGet E b s = .ok (r, b')) : b'.key = b.key ∧ b'.vHash = b.vHash ∧ b'.vHash.isSome := by
  obtain ⟨live, ⟨_, rfl⟩ | ⟨_, rfl⟩⟩ := bloomGet_frame run
  · exact ⟨rfl, rfl, live⟩
  · exact ⟨rfl, rfl, live⟩

/-- The step lemma: every returned call leaves a table. -/
theorem Effect.represents {E : Env} {σ σ' : Store} {B B' : Buckets} {ev : Event}
    (rep : Represents σ B) (eff : Effect E σ B ev σ' B') : Represents σ' B' := by
  cases eff with
  | addPresent | addRejected | setAbsent | getAbsent | deleteAbsent => exact rep
  | added absent init => exact rep.added absent (newBloom_live E _ _ _)
  | set held run => exact rep.set held (bloomSet_key run).1 (bloomSet_key run).2
  | got held run => exact rep.got held (bloomGet_key run).1 (bloomGet_key run).2.2
  | deleted held removed => exact removed.rep

/-- The run lemma: every store that calls can reach is a table. -/
theorem represents_of_run {E : Env} {σ₀ σ : Store} {B₀ : Buckets} {T : List Event}
    (rep : Represents σ₀ B₀) (run : Run (Returns E) σ₀ T σ) : ∃ B, Represents σ B := by
  refine run.invariant (I := fun σ => ∃ B, Represents σ B) ⟨B₀, rep⟩ ?_
  rintro σ ev σ' ⟨B, rep⟩ returns
  obtain ⟨B', eff⟩ := returns.effect rep
  exact ⟨B', eff.represents rep⟩

theorem reachable_represents {E : Env} {max : UInt64} {heap : List Node} {σ : Store}
    {T : List Event} (run : Run (Returns E) (bloomsInit max heap) T σ) : ∃ B, Represents σ B :=
  represents_of_run (bloomsInit_represents max heap) run

/-! ### Running a list of calls -/

/-- The history a list of calls leaves, if none of them stops, and the store after it. -/
def replay (E : Env) : Store → List Call → Except Stop (List Event × Store)
  | σ, [] => .ok ([], σ)
  | σ, call :: calls =>
      match call.exec E σ with
      | .error s => .error s
      | .ok (r, σ) =>
          match replay E σ calls with
          | .error s => .error s
          | .ok (T, σ) => .ok (T ++ [(call, r)], σ)

theorem run_of_replay {E : Env} {σ σ' : Store} {calls : List Call} {T : List Event}
    (h : replay E σ calls = .ok (T, σ')) : Run (Returns E) σ T σ' := by
  induction calls generalizing σ T with
  | nil =>
      cases h
      exact .nil
  | cons call calls ih =>
      unfold replay at h
      split at h
      · cases h
      · rename_i r mid first
        split at h
        · cases h
        · rename_i T' last rest
          cases h
          exact (Run.single first).append (ih rest)

theorem exists_of_map_ok {ε α β : Type} {x : Except ε α} {f : α → β} {b : β}
    (h : x.map f = .ok b) : ∃ a, x = .ok a ∧ f a = b := by
  cases x with
  | error e => cases h
  | ok a => exact ⟨a, rfl, Except.ok.inj h⟩

/-- A history is that of a run if its calls, made in order, return its values. -/
theorem exists_run_and {E : Env} {σ : Store} {T : List Event} {P : Store → Prop} [DecidablePred P]
    (h : (replay E σ (T.map Prod.fst).reverse).map (fun r => (r.1, decide (P r.2))) =
      .ok (T, true)) : ∃ σ', Run (Returns E) σ T σ' ∧ P σ' := by
  obtain ⟨⟨T', σ'⟩, same, both⟩ := exists_of_map_ok h
  obtain ⟨rfl, holds⟩ := Prod.mk.inj both
  exact ⟨σ', run_of_replay same, of_decide_eq_true holds⟩

theorem exists_run {E : Env} {σ : Store} {T : List Event}
    (h : (replay E σ (T.map Prod.fst).reverse).map Prod.fst = .ok T) :
    ∃ σ', Run (Returns E) σ T σ' := by
  obtain ⟨⟨T', σ'⟩, same, rfl⟩ := exists_of_map_ok h
  exact ⟨σ', run_of_replay same⟩

end BloomServer
