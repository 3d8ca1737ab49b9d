import BloomServer.Accounting
import BloomServer.Archive

/-! The memory accounting across a dump and a load. `bloom_t::serialize` leaves out the
field that `bloom_delete` subtracts. -/
namespace BloomServer
open LabelledRun

theorem bloomSet_params {E : Env} {b b' : Bloom} {s : CString} (run : bloomSet E b s = .ok b') :
    b'.n = b.n ∧ b'.e = b.e ∧ b'.bytes = b.bytes := by
  obtain ⟨map, map', _, _, rfl⟩ := bloomSet_frame run
  exact ⟨rfl, rfl, rfl⟩

theorem bloomGet_params {E : Env} {b b' : Bloom} {s : CString} {r : Int}
    (run : bloomGet E b s = .ok (r, b')) : b'.n = b.n ∧ b'.e = b.e ∧ b'.bytes = b.bytes := by
  rcases (bloomGet_frame run).2 with ⟨_, rfl⟩ | ⟨_, rfl⟩ <;> exact ⟨rfl, rfl, rfl⟩

/-- The size computed for a filter when it was added, from the parameters it still has. -/
def Bloom.computed (E : Env) (b : Bloom) : UInt64 := (calculate E.libm b.n b.e).bytes

def Weight.computed (E : Env) : Weight E where
  of b := (b.computed E).toNat
  set b b' s run := by
    obtain ⟨n, e, _⟩ := bloomSet_params run
    simp only [Bloom.computed, n, e]
  get b b' s r run := by
    obtain ⟨n, e, _⟩ := bloomGet_params run
    simp only [Bloom.computed, n, e]
  new key n e := rfl

/-- In the process that added a filter its field `bytes` is the computed size. -/
theorem computed_kept (E : Env) : Kept E fun b => b.bytes = b.computed E where
  new key n e _ := rfl
  set b b' s held run := by
    obtain ⟨n, e, bytes⟩ := bloomSet_params run
    simp only [Bloom.computed, n, e, bytes]
    exact held
  get b b' s r held run := by
    obtain ⟨n, e, bytes⟩ := bloomGet_params run
    simp only [Bloom.computed, n, e, bytes]
    exact held

theorem Represents.total_congr {σ : Store} {B : Buckets} {w w' : Bloom → Nat}
    (rep : Represents σ B) (same : ∀ key p b, σ.Holds key p b → w b = w' b) :
    σ.total w = σ.total w' := by
  apply Finset.sum_congr rfl
  intro p mem
  obtain ⟨b, held⟩ := rep.exists_holds (rep.mem_table.mp mem)
  rw [Store.sizeAt_of_holds held, Store.sizeAt_of_holds held, same _ _ _ held]

/-- A load moves the table, and keeps every size that does not depend on `bytes`. -/
theorem Represents.load_total {σ : Store} {B : Buckets} {w : Bloom → Nat} (rep : Represents σ B)
    (heap : List Node) (junk : Nat → UInt64)
    (blind : ∀ (b : Bloom) (bytes : UInt64), w { b with bytes := bytes } = w b) :
    (σ.serialize.load heap junk).table.card = σ.table.card ∧
      (σ.serialize.load heap junk).total w = σ.total w := by
  classical
  have moved : (σ.serialize.load heap junk).table =
      σ.table.image (σ.serialize.place heap.length) := by
    ext q
    rw [(rep.load_represents heap junk).mem_table, rep.linked_load, Finset.mem_image]
    simp only [rep.mem_table]
  have inj : Set.InjOn (σ.serialize.place heap.length) σ.table := by
    intro p memp q _ same
    exact rep.place_inj heap (rep.mem_table.mp memp) same
  constructor
  · rw [moved, Finset.card_image_of_injOn inj]
  · rw [Store.total, moved, Finset.sum_image inj]
    apply Finset.sum_congr rfl
    intro p mem
    obtain ⟨b, held⟩ := rep.exists_holds (rep.mem_table.mp mem)
    rw [Store.sizeAt_of_holds held, Store.sizeAt_of_holds (rep.holds_load heap junk held), blind]

theorem load_accounted {E : Env} {max : UInt64} {heap₀ : List Node} {T : List Event} {σ : Store}
    (run : Run (Returns E) (bloomsInit max heap₀) T σ) (heap : List Node) (junk : Nat → UInt64) :
    (σ.serialize.load heap junk).Accounted (Weight.computed E).of := by
  obtain ⟨B, rep⟩ := reachable_represents run
  have acc := reachable_accounted run
  have fields : σ.total (fun b => b.bytes.toNat) = σ.total (Weight.computed E).of := by
    apply rep.total_congr
    intro key p b held
    exact congrArg UInt64.toNat (reachable_each (computed_kept E) run held)
  obtain ⟨card, sum⟩ := rep.load_total (w := (Weight.computed E).of) heap junk fun b bytes => rfl
  refine ⟨?_, acc.budget, ?_⟩
  · rw [sum, ← fields]
    exact acc.bytes
  · rw [card]
    exact acc.count

/-- Taking a share off an exact account leaves it exact only if the share is the right one. -/
theorem Removed.fair {E : Env} {σ σ' : Store} {B : Buckets} {key : CString} {p : Addr} {b : Bloom}
    (rep : Represents σ B) (held : σ.Holds key p b) (removed : Removed σ B p b σ')
    (before : σ.Exact (Weight.computed E).of) (after : σ'.Exact (Weight.computed E).of) :
    b.bytes = b.computed E := by
  obtain ⟨table, blooms⟩ := removed.blooms
  obtain ⟨_, sum⟩ := removed.table (w := (Weight.computed E).of) rep held
  have share : (Weight.computed E).of b = (b.computed E).toNat := rfl
  have old := before.bytes
  have new := after.bytes
  rw [blooms] at new
  change (σ.blooms.bytes - b.bytes).toNat = _ at new
  rw [UInt64.toNat_sub] at new
  have small := UInt64.toNat_lt b.bytes
  have bound := UInt64.toNat_lt (b.computed E)
  have top := UInt64.toNat_lt σ.blooms.bytes
  apply UInt64.toNat_inj.mp
  omega

/-- A property of every state of a run, its first and its last included. -/
def EachState (E : Env) (σ₀ : Store) (T : List Event) (P : Store → Prop) : Prop :=
  ∀ T₁ T₂ σ, T = T₂ ++ T₁ → Run (Returns E) σ₀ T₁ σ → P σ

/-- Every deletion of a run takes off the size computed for the filter it removes. -/
def FairDeletes (E : Env) (σ₀ : Store) (T : List Event) : Prop :=
  ∀ T₁ T₂ key σ p b, T = T₂ ++ (.delete key, 0) :: T₁ → Run (Returns E) σ₀ T₁ σ →
    σ.Holds key p b → b.bytes = b.computed E

/-- After a load the accounts are right in every state exactly if each deletion that finds its
key finds a filter whose field `bytes` is the computed size, and `count` does not wrap. -/
theorem restart_accounting {E : Env} {max : UInt64} {heap₀ heap : List Node}
    {junk : Nat → UInt64} {T T' : List Event} {σ τ : Store}
    (before : Run (Returns E) (bloomsInit max heap₀) T σ)
    (after : Run (Returns E) (σ.serialize.load heap junk) T' τ) :
    EachState E (σ.serialize.load heap junk) T' (Store.Exact fun b => (b.computed E).toNat) ↔
      FairDeletes E (σ.serialize.load heap junk) T' ∧
      EachState E (σ.serialize.load heap junk) T' (fun υ => υ.table.card < 2 ^ 31) := by
  obtain ⟨B, rep₀⟩ := reachable_represents before
  have rep := rep₀.load_represents heap junk
  constructor
  · intro every
    refine ⟨?_, fun T₁ T₂ υ cut run => (every T₁ T₂ υ cut run).card_lt⟩
    rintro T₁ T₂ key υ p b rfl run held
    obtain ⟨ω, upto, _⟩ := after.split
    obtain ⟨υ', run', last⟩ := upto.of_cons
    have same : υ' = υ :=
      run'.deterministic (R := Returns E) (fun _ _ _ _ h k => h.deterministic k) run
    subst same
    obtain ⟨C, rep'⟩ := represents_of_run rep run
    obtain ⟨C', eff⟩ := last.effect rep'
    cases eff with
    | @deleted _ q c _ other removed =>
        obtain ⟨rfl, rfl⟩ := rep'.holds_unique held other
        have exact₁ := every T₁ (T₂ ++ [(.delete key, 0)]) υ' (by simp) run
        have exact₂ := every ((.delete key, 0) :: T₁) T₂ ω rfl upto
        exact removed.fair rep' held exact₁ exact₂
  · rintro ⟨fair, few⟩ T₁ T₂ υ rfl run
    have acc : υ.Accounted (Weight.computed E).of := by
      apply accounted_of_run (Weight.computed E) rep (load_accounted before heap junk)
      apply run.guarded
      rintro l₁ l₂ ev ω rfl sub key p b rfl held
      exact congrArg UInt64.toNat (fair l₁ (T₂ ++ l₂) key ω p b (by simp) sub held)
    exact acc.exact_iff.mpr (few T₁ T₂ υ rfl run)

/-- A filter that was added, dumped and loaded can be deleted again. -/
theorem exists_delete_load (junk : Nat → UInt64) :
    ∃ σ τ, Run (Returns (serverEnv Libm.oneHalf)) (bloomsInit 1000 [])
        [(.add [97] 32 0.5 ⟨true, true⟩, 0)] σ ∧
      Run (Returns (serverEnv Libm.oneHalf)) (σ.serialize.load [] junk) [(.delete [97], 0)] τ ∧
      ∃ p b, (σ.serialize.load [] junk).Holds [97] p b ∧ b.computed (serverEnv Libm.oneHalf) = 144 ∧
        ∃ i, b.bytes = junk i := by
  obtain ⟨σ, run⟩ := exists_run (E := serverEnv Libm.oneHalf) (σ := bloomsInit 1000 [])
    (T := [(.add [97] 32 0.5 ⟨true, true⟩, 0)]) (by decide +kernel)
  obtain ⟨σ₀, start, added⟩ := run.of_cons
  have same := start.of_nil
  subst same
  have held := (bloomsInit_represents 1000 []).holds_of_added added
  obtain ⟨B, rep⟩ := reachable_represents run
  have loaded := rep.holds_load [] junk held
  obtain ⟨τ, delete⟩ := ((rep.load_represents [] junk).delete_returns
    (serverEnv Libm.oneHalf) [97]).2.mpr ⟨_, _, loaded⟩
  have size : (calculate Libm.oneHalf 32 0.5).bytes = 144 := by decide
  exact ⟨σ, τ, run, .single delete, _, _, loaded, size, _, rfl⟩

/-- The field comes back with the computed size, and the only deletion takes that off. -/
theorem restart_accounting_deleted :
    ∃ σ τ, Run (Returns (serverEnv Libm.oneHalf)) (bloomsInit 1000 [])
        [(.add [97] 32 0.5 ⟨true, true⟩, 0)] σ ∧
      Run (Returns (serverEnv Libm.oneHalf)) (σ.serialize.load [] fun _ => 144)
        [(.delete [97], 0)] τ ∧
      EachState (serverEnv Libm.oneHalf) (σ.serialize.load [] fun _ => 144) [(.delete [97], 0)]
        (Store.Exact fun b => (b.computed (serverEnv Libm.oneHalf)).toNat) := by
  obtain ⟨σ, τ, before, after, p, b, held, size, i, field⟩ := exists_delete_load fun _ => 144
  obtain ⟨B, rep⟩ := reachable_represents before
  have rep' := rep.load_represents [] fun _ => 144
  have loaded : (σ.serialize.load [] fun _ => 144).table.card < 2 ^ 31 := by
    rw [(rep.load_total (w := fun _ => 0) [] (fun _ => 144) fun _ _ => rfl).1]
    exact reachable_card_lt before (by decide)
  refine ⟨σ, τ, before, after, (restart_accounting before after).mpr ⟨?_, ?_⟩⟩
  · intro T₁ T₂ key υ q c cut run other
    rcases List.singleton_eq_append_iff.mp cut with ⟨_, same⟩ | ⟨_, more⟩
    · obtain ⟨same, rfl⟩ := List.cons_eq_cons.mp same
      cases same
      have start := run.of_nil
      subst start
      obtain ⟨_, rfl⟩ := rep'.holds_unique held other
      exact field.trans size.symm
    · cases more
  · intro T₁ T₂ υ cut run
    rcases List.singleton_eq_append_iff.mp cut with ⟨_, rfl⟩ | ⟨_, rfl⟩
    · obtain ⟨ω, start, delete⟩ := run.of_cons
      have same := start.of_nil
      subst same
      obtain ⟨B', eff⟩ := delete.effect rep'
      cases eff with
      | deleted other removed =>
          have fewer := (removed.table (w := fun _ => 0) rep' other).1
          omega
    · have start := run.of_nil
      subst start
      exact loaded

/-- With a restored field of zero a deletion gives nothing back, and the accounts are wrong. -/
theorem restart_loses_bytes :
    ∃ σ τ, Run (Returns (serverEnv Libm.oneHalf)) (bloomsInit 1000 [])
        [(.add [97] 32 0.5 ⟨true, true⟩, 0)] σ ∧
      Run (Returns (serverEnv Libm.oneHalf)) (σ.serialize.load [] fun _ => 0)
        [(.delete [97], 0)] τ ∧
      ¬ τ.Exact fun b => (b.computed (serverEnv Libm.oneHalf)).toNat := by
  obtain ⟨σ, τ, before, after, p, b, held, size, i, field⟩ := exists_delete_load fun _ => 0
  refine ⟨σ, τ, before, after, fun wrong => ?_⟩
  obtain ⟨B, rep⟩ := reachable_represents before
  have rep' := rep.load_represents [] fun _ => 0
  obtain ⟨υ, start, delete⟩ := after.of_cons
  have same := start.of_nil
  subst same
  obtain ⟨B', eff⟩ := delete.effect rep'
  have few : (σ.serialize.load [] fun _ => 0).table.card < 2 ^ 31 := by
    rw [(rep.load_total (w := fun _ => 0) [] (fun _ => 0) fun _ _ => rfl).1]
    exact reachable_card_lt before (by decide)
  have right := (load_accounted before [] fun _ => 0).exact_iff.mpr few
  cases eff with
  | deleted other removed =>
      obtain ⟨rfl, rfl⟩ := rep'.holds_unique held other
      have fair := removed.fair rep' held right wrong
      rw [size, field] at fair
      exact absurd fair (by decide)

end BloomServer
