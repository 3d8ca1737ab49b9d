import BloomServer.FilterMap
import Mathlib.Algebra.BigOperators.Group.Finset.Basic
import Mathlib.Algebra.Group.Action.Defs
import Mathlib.Algebra.Order.BigOperators.Group.Finset

/-! The memory accounting of the table: `bytes`, `max_bytes` and `count` against
the filters that are linked. -/
namespace BloomServer
open LabelledRun

namespace Store

open Classical in
/-- The nodes of the table. -/
noncomputable def table (σ : Store) : Finset Addr :=
  (Finset.range σ.heap.length).filter σ.Linked

/-- The size `w` of the filter at a node. -/
def sizeAt (w : Bloom → Nat) (σ : Store) (p : Addr) : Nat := (σ.bloomAt p).elim 0 w

/-- The counter `count` says how many filters there are, modulo `2 ^ 32`. -/
def Counted (σ : Store) : Prop := σ.blooms.count = Int32.ofNat σ.table.card

/-- The sizes of all filters of the table. -/
noncomputable def total (w : Bloom → Nat) (σ : Store) : Nat := ∑ p ∈ σ.table, σ.sizeAt w p

/-- The counters say what is in the table, and the budget is kept. -/
structure Accounted (w : Bloom → Nat) (σ : Store) : Prop where
  bytes : σ.blooms.bytes.toNat = σ.total w
  budget : σ.blooms.bytes ≤ σ.blooms.maxBytes
  count : σ.blooms.count = Int32.ofNat σ.table.card

/-- The same with `count` read as a number, which it is up to `2 ^ 31 - 1` filters. -/
structure Exact (w : Bloom → Nat) (σ : Store) : Prop where
  bytes : σ.blooms.bytes.toNat = σ.total w
  budget : σ.blooms.bytes ≤ σ.blooms.maxBytes
  count : σ.blooms.count.toInt = σ.table.card

theorem Exact.card_lt {w : Bloom → Nat} {σ : Store} (exact : σ.Exact w) : σ.table.card < 2 ^ 31 := by
  have high := σ.blooms.count.toInt_le
  have count := exact.count
  change _ ≤ (2 ^ 31 - 1 : Int) at high
  omega

theorem Accounted.exact_iff {w : Bloom → Nat} {σ : Store} (acc : σ.Accounted w) :
    σ.Exact w ↔ σ.table.card < 2 ^ 31 := by
  constructor
  · exact Exact.card_lt
  · intro few
    exact ⟨acc.bytes, acc.budget, by rw [acc.count, Int32.toInt_ofNat_of_lt few]⟩

theorem sizeAt_of_holds {w : Bloom → Nat} {σ : Store} {key : CString} {p : Addr} {b : Bloom}
    (held : σ.Holds key p b) : σ.sizeAt w p = w b := by
  simp only [sizeAt, held.2.1, Option.elim_some]

end Store

section Table

variable {σ σ' : Store} {B : Buckets} {key : CString} {p : Addr} {b b' : Bloom} {w : Bloom → Nat}

theorem Represents.mem_table (rep : Represents σ B) : p ∈ σ.table ↔ σ.Linked p := by
  classical
  rw [Store.table, Finset.mem_filter, Finset.mem_range]
  exact and_iff_right_of_imp rep.linked_lt

/-- Every linked node holds the filter of some key. -/
theorem Represents.exists_holds (rep : Represents σ B) (linked : σ.Linked p) :
    ∃ b, σ.Holds b.key p b := by
  obtain ⟨hv, mem⟩ := rep.linked_iff.mp linked
  obtain ⟨b, read, _⟩ := rep.placed hv p mem
  exact ⟨b, linked, read, rfl⟩

/-- Neither the table nor its sizes depend on the counters. -/
theorem Store.total_congr (heap : σ'.heap = σ.heap)
    (table : σ'.blooms.hashtable = σ.blooms.hashtable) :
    σ'.table = σ.table ∧ σ'.total w = σ.total w := by
  classical
  have links : σ'.link = σ.link := by funext q; simp only [Store.link, heap]
  have reads : σ'.bloomAt = σ.bloomAt := by funext q; simp only [Store.bloomAt, heap]
  have same : σ'.table = σ.table := by
    unfold Store.table Store.Linked
    rw [links, table, heap]
  exact ⟨same, by simp only [Store.total, Store.sizeAt, same, reads]⟩

theorem Store.total_bumpSet (σ : Store) :
    σ.bumpSet.table = σ.table ∧ σ.bumpSet.total w = σ.total w :=
  Store.total_congr rfl rfl

theorem Store.total_bumpCount (σ : Store) :
    σ.bumpCount.table = σ.table ∧ σ.bumpCount.total w = σ.total w :=
  Store.total_congr rfl rfl

theorem Represents.table_added (rep : Represents σ B) (absent : ¬ σ.Present b.key)
    (live : b.vHash.isSome) :
    (σ.added b).table.card = σ.table.card + 1 ∧ (σ.added b).total w = σ.total w + w b := by
  have fresh : σ.heap.length ∉ σ.table := by
    rw [rep.mem_table]
    intro linked
    exact Nat.lt_irrefl _ (rep.linked_lt linked)
  have grown : (σ.added b).table = insert σ.heap.length σ.table := by
    ext q
    rw [(rep.added absent live).mem_table, rep.linked_added absent live, Finset.mem_insert,
      rep.mem_table, or_comm]
  constructor
  · rw [grown, Finset.card_insert_of_notMem fresh]
  · have new : (σ.added b).sizeAt w σ.heap.length = w b := by
      simp only [Store.sizeAt, Store.added_bloomAt, Store.pushNode_bloomAt_new, Option.elim_some]
    have old : ∑ q ∈ σ.table, (σ.added b).sizeAt w q = σ.total w := by
      apply Finset.sum_congr rfl
      intro q mem
      have low := rep.linked_lt (rep.mem_table.mp mem)
      simp only [Store.sizeAt, Store.added_bloomAt, σ.pushNode_bloomAt_of_lt q _ b low]
    rw [Store.total, grown, Finset.sum_insert fresh, new, old, Nat.add_comm]

theorem Represents.table_setBloom (rep : Represents σ B) (held : σ.Holds key p b)
    (sameKey : b'.key = b.key) (live : b'.vHash.isSome) (sameSize : w b' = w b) :
    (σ.setBloom p b').table = σ.table ∧ (σ.setBloom p b').total w = σ.total w := by
  have same : (σ.setBloom p b').table = σ.table := by
    ext q
    rw [(rep.setBloom held sameKey live).mem_table, rep.mem_table]
    unfold Store.Linked
    rw [Store.setBloom_link, Store.setBloom_blooms]
  refine ⟨same, ?_⟩
  unfold Store.total
  rw [same]
  apply Finset.sum_congr rfl
  intro q _
  by_cases here : q = p
  · subst here
    rw [Store.sizeAt_of_holds held,
      Store.sizeAt_of_holds (Represents.holds_setBloom_self held sameKey), sameSize]
  · simp only [Store.sizeAt, σ.setBloom_bloomAt_of_ne p q b' (Ne.symm here)]

theorem Removed.table (rep : Represents σ B) (held : σ.Holds key p b)
    (removed : Removed σ B p b σ') :
    σ'.table.card + 1 = σ.table.card ∧ σ'.total w + w b = σ.total w := by
  have mem : p ∈ σ.table := rep.mem_table.mpr held.1
  have shrunk : σ'.table = σ.table.erase p := by
    ext q
    rw [removed.rep.mem_table, removed.linked_iff rep, Finset.mem_erase, rep.mem_table, and_comm]
  constructor
  · rw [shrunk, Finset.card_erase_add_one mem]
  · have old : ∑ q ∈ σ.table.erase p, σ'.sizeAt w q = ∑ q ∈ σ.table.erase p, σ.sizeAt w q := by
      apply Finset.sum_congr rfl
      intro q mem'
      simp only [Store.sizeAt, removed.same q (Finset.ne_of_mem_erase mem')]
    rw [Store.total, shrunk, old, ← Store.sizeAt_of_holds (w := w) held]
    exact Finset.sum_erase_add σ.table _ mem

end Table

/-- A size of filters that setting and getting leave alone, and that a new filter is charged. -/
structure Weight (E : Env) where
  of : Bloom → Nat
  set : ∀ b b' s, bloomSet E b s = .ok b' → of b' = of b
  get : ∀ b b' s r, bloomGet E b s = .ok (r, b') → of b' = of b
  new : ∀ key n e, of (newBloom E key n e) = (calculate E.libm n e).bytes.toNat

/-- The field `bytes`. -/
def Weight.field (E : Env) : Weight E where
  of b := b.bytes.toNat
  set b b' s run := by
    obtain ⟨map, map', _, _, rfl⟩ := bloomSet_frame run
    rfl
  get b b' s r run := by
    rcases (bloomGet_frame run).2 with ⟨_, rfl⟩ | ⟨_, rfl⟩ <;> rfl
  new key n e := rfl

theorem UInt64.toNat_add_of_le_sub {a b c : UInt64} (used : a ≤ c) (fits : b ≤ c - a) :
    (a + b).toNat = a.toNat + b.toNat ∧ a + b ≤ c := by
  have bound := UInt64.toNat_lt c
  rw [UInt64.le_iff_toNat_le] at used
  rw [UInt64.le_iff_toNat_le, UInt64.toNat_sub_of_le _ _ (UInt64.le_iff_toNat_le.mpr used)] at fits
  have sum : (a + b).toNat = a.toNat + b.toNat := by
    rw [UInt64.toNat_add, Nat.mod_eq_of_lt (by omega)]
  refine ⟨sum, ?_⟩
  rw [UInt64.le_iff_toNat_le, sum]
  omega

theorem Removed.counted {σ σ' : Store} {B : Buckets} {key : CString} {p : Addr} {b : Bloom}
    (rep : Represents σ B) (held : σ.Holds key p b) (removed : Removed σ B p b σ')
    (counted : σ.Counted) : σ'.Counted := by
  obtain ⟨table, blooms⟩ := removed.blooms
  obtain ⟨card, -⟩ := removed.table (w := fun _ => 0) rep held
  unfold Store.Counted at counted ⊢
  rw [blooms]
  change σ.blooms.count - 1 = _
  rw [counted, ← card, Int32.ofNat_add]
  exact Int32.add_sub_cancel _ _

/-- The step lemma for `count`. -/
theorem Effect.counted {E : Env} {σ σ' : Store} {B B' : Buckets} {ev : Event}
    (rep : Represents σ B) (eff : Effect E σ B ev σ' B') (counted : σ.Counted) : σ'.Counted := by
  cases eff with
  | addPresent | addRejected | setAbsent | getAbsent | deleteAbsent => exact counted
  | @added key n e mem absent init =>
      obtain ⟨card, -⟩ := rep.table_added (b := newBloom E key n e) (w := fun _ => 0) absent rfl
      unfold Store.Counted at counted ⊢
      rw [card, Store.added_count, counted, Int32.ofNat_add]
      rfl
  | @set key s p b b' held run =>
      obtain ⟨same, -⟩ := rep.table_setBloom (w := fun _ => 0) held (bloomSet_key run).1
        (bloomSet_key run).2 rfl
      obtain ⟨same', -⟩ := Store.total_bumpSet (w := fun _ => 0) (σ.setBloom p b')
      unfold Store.Counted
      rw [same', same]
      exact counted
  | @got key s p b r b' held run =>
      obtain ⟨same, -⟩ := rep.table_setBloom (w := fun _ => 0) held (bloomGet_key run).1
        (bloomGet_key run).2.2 rfl
      obtain ⟨-, count, -, -, table⟩ := Store.bumpGet_scalars (σ.setBloom p b') r
      obtain ⟨same', -⟩ := Store.total_congr (w := fun _ => 0) (Store.bumpGet_heap _ r) table
      unfold Store.Counted
      rw [same', same, count]
      exact counted
  | deleted held removed => exact removed.counted rep held counted

/-- The step lemma. A deletion keeps the accounts if it gives back what the filter was charged. -/
theorem Effect.accounted {E : Env} (W : Weight E) {σ σ' : Store} {B B' : Buckets} {ev : Event}
    (rep : Represents σ B) (eff : Effect E σ B ev σ' B') (acc : σ.Accounted W.of)
    (fair : ∀ key p b, ev = (.delete key, 0) → σ.Holds key p b → b.bytes.toNat = W.of b) :
    σ'.Accounted W.of := by
  have counted : σ'.Counted := eff.counted rep acc.count
  cases eff with
  | addPresent | addRejected | setAbsent | getAbsent | deleteAbsent => exact acc
  | @added key n e mem absent init =>
      obtain ⟨_, _, fits, _⟩ := bloomInit_eq_some init
      have charged : W.of (newBloom E key n e) = (newBloom E key n e).bytes.toNat := W.new key n e
      obtain ⟨sum, below⟩ := UInt64.toNat_add_of_le_sub acc.budget fits
      obtain ⟨-, grown⟩ := rep.table_added (b := newBloom E key n e) (w := W.of) absent rfl
      refine ⟨?_, below, counted⟩
      rw [grown, charged, ← acc.bytes]
      exact sum
  | @set key s p b b' held run =>
      obtain ⟨-, sum⟩ := rep.table_setBloom (w := W.of) held (bloomSet_key run).1
        (bloomSet_key run).2 (W.set _ _ _ run)
      obtain ⟨-, sum'⟩ := Store.total_bumpSet (w := W.of) (σ.setBloom p b')
      refine ⟨?_, acc.budget, counted⟩
      rw [sum', sum]
      exact acc.bytes
  | @got key s p b r b' held run =>
      obtain ⟨-, sum⟩ := rep.table_setBloom (w := W.of) held (bloomGet_key run).1
        (bloomGet_key run).2.2 (W.get _ _ _ _ run)
      obtain ⟨bytes, -, maxBytes, _, table⟩ := Store.bumpGet_scalars (σ.setBloom p b') r
      obtain ⟨-, sum'⟩ := Store.total_congr (w := W.of) (Store.bumpGet_heap _ r) table
      refine ⟨?_, ?_, counted⟩
      · rw [sum', sum, bytes]
        exact acc.bytes
      · rw [bytes, maxBytes]
        exact acc.budget
  | @deleted key p b σ' held removed =>
      obtain ⟨table, blooms⟩ := removed.blooms
      obtain ⟨-, sum⟩ := removed.table (w := W.of) rep held
      have share : b.bytes.toNat = W.of b := fair key p b rfl held
      have bytes := acc.bytes
      have within : b.bytes ≤ σ.blooms.bytes := by
        rw [UInt64.le_iff_toNat_le]
        omega
      have left : (σ.blooms.bytes - b.bytes).toNat = σ.blooms.bytes.toNat - b.bytes.toNat :=
        UInt64.toNat_sub_of_le _ _ within
      refine ⟨?_, ?_, counted⟩
      · rw [blooms]
        change (σ.blooms.bytes - b.bytes).toNat = _
        omega
      · rw [blooms, UInt64.le_iff_toNat_le]
        change (σ.blooms.bytes - b.bytes).toNat ≤ σ.blooms.maxBytes.toNat
        have budget := UInt64.le_iff_toNat_le.mp acc.budget
        omega

theorem Effect.maxBytes {E : Env} {σ σ' : Store} {B B' : Buckets} {ev : Event}
    (eff : Effect E σ B ev σ' B') : σ'.blooms.maxBytes = σ.blooms.maxBytes := by
  cases eff with
  | addPresent | addRejected | setAbsent | getAbsent | deleteAbsent | added | set => rfl
  | got held run => exact (Store.bumpGet_scalars _ _).2.2.1
  | deleted held removed =>
      obtain ⟨table, blooms⟩ := removed.blooms
      rw [blooms]

/-- The run lemma, for runs whose deletions give back what the filters were charged. -/
theorem accounted_of_run {E : Env} (W : Weight E) {σ₀ σ : Store} {B₀ : Buckets} {T : List Event}
    (rep : Represents σ₀ B₀) (acc : σ₀.Accounted W.of)
    (run : Run (Guarded (fun σ ev => ∀ key p b, ev = (.delete key, 0) → σ.Holds key p b →
      b.bytes.toNat = W.of b) (Returns E)) σ₀ T σ) : σ.Accounted W.of := by
  have both := run.invariant (I := fun σ => (∃ B, Represents σ B) ∧ σ.Accounted W.of)
    ⟨⟨B₀, rep⟩, acc⟩ ?_
  · exact both.2
  · rintro σ ev σ' ⟨⟨B, rep⟩, acc⟩ ⟨fair, returns⟩
    obtain ⟨B', eff⟩ := returns.effect rep
    exact ⟨⟨B', eff.represents rep⟩, eff.accounted W rep acc fair⟩

theorem table_bloomsInit (max : UInt64) (heap : List Node) : (bloomsInit max heap).table = ∅ := by
  ext p
  rw [(bloomsInit_represents max heap).mem_table, (bloomsInit_represents max heap).linked_iff]
  simp

theorem bloomsInit_accounted (max : UInt64) (heap : List Node) (w : Bloom → Nat) :
    (bloomsInit max heap).Accounted w where
  bytes := by
    rw [Store.total, table_bloomsInit]
    rfl
  budget := UInt64.zero_le
  count := by
    rw [table_bloomsInit]
    rfl

/-- Within one process every deletion gives back the field it is charged by. -/
theorem reachable_accounted {E : Env} {max : UInt64} {heap : List Node} {T : List Event}
    {σ : Store} (run : Run (Returns E) (bloomsInit max heap) T σ) :
    σ.Accounted fun b => b.bytes.toNat := by
  apply accounted_of_run (Weight.field E) (bloomsInit_represents max heap)
  · exact bloomsInit_accounted max heap _
  · exact run.guarded fun _ _ _ _ _ _ key p b _ _ => rfl

theorem reachable_maxBytes {E : Env} {max : UInt64} {heap : List Node} {T : List Event}
    {σ : Store} (run : Run (Returns E) (bloomsInit max heap) T σ) :
    σ.blooms.maxBytes = max := by
  have both := run.invariant (I := fun σ => (∃ B, Represents σ B) ∧ σ.blooms.maxBytes = max)
    ⟨⟨_, bloomsInit_represents max heap⟩, rfl⟩ ?_
  · exact both.2
  · rintro σ ev σ' ⟨⟨B, rep⟩, same⟩ returns
    obtain ⟨B', eff⟩ := returns.effect rep
    exact ⟨⟨B', eff.represents rep⟩, eff.maxBytes.trans same⟩

/-- The vector of a filter has the length its size says. -/
def Bloom.Sized (b : Bloom) : Prop :=
  ∃ map, b.vHash = some map ∧ b.bytes.toNat = sizeofBloom.toNat + 4 * map.length

theorem sized_kept (E : Env) : Kept E Bloom.Sized where
  new key n e size := by
    refine ⟨_, rfl, ?_⟩
    rw [List.length_replicate]
    exact calculate_bytes size
  set b b' s sized run := by
    obtain ⟨map, vector, size⟩ := sized
    obtain ⟨map₁, map₂, vector₁, length, rfl⟩ := bloomSet_frame run
    cases vector.symm.trans vector₁
    exact ⟨map₂, rfl, length ▸ size⟩
  get b b' s r sized run := by
    rcases (bloomGet_frame run).2 with ⟨_, rfl⟩ | ⟨_, rfl⟩ <;> exact sized

/-- A property of single filters, lifted to the filters of every reachable store. -/
theorem reachable_each {E : Env} {max : UInt64} {heap : List Node} {T : List Event} {σ : Store}
    {P : Bloom → Prop} (kept : Kept E P) (run : Run (Returns E) (bloomsInit max heap) T σ)
    {key : CString} {p : Addr} {b : Bloom} (held : σ.Holds key p b) : P b := by
  obtain ⟨B, rep⟩ := reachable_represents run
  have sim := refines_run (bloomsInit_represents max heap) run
  rw [contents_bloomsInit] at sim
  exact each_of_run kept (fun _ _ none => absurd none (Option.some_ne_none _).symm) sim key b
    (rep.contents_of_holds held)

/-- Every filter of the table takes at least the node. -/
theorem card_le_total {E : Env} {max : UInt64} {heap : List Node} {T : List Event} {σ : Store}
    (run : Run (Returns E) (bloomsInit max heap) T σ) :
    sizeofBloom.toNat * σ.table.card ≤ σ.total fun b => b.bytes.toNat := by
  obtain ⟨B, rep⟩ := reachable_represents run
  rw [Store.total, Nat.mul_comm, ← smul_eq_mul]
  apply Finset.card_nsmul_le_sum
  intro p mem
  obtain ⟨b, held⟩ := rep.exists_holds (rep.mem_table.mp mem)
  obtain ⟨map, _, size⟩ := reachable_each (sized_kept E) run held
  rw [Store.sizeAt_of_holds held, size]
  exact Nat.le_add_right _ _

/-- The budget bounds the number of filters. -/
theorem reachable_card_lt {E : Env} {max : UInt64} {heap : List Node} {T : List Event} {σ : Store}
    (run : Run (Returns E) (bloomsInit max heap) T σ) (low : max.toNat < 136 * 2 ^ 31) :
    σ.table.card < 2 ^ 31 := by
  have acc := reachable_accounted run
  have share := card_le_total run
  have within := UInt64.le_iff_toNat_le.mp acc.budget
  rw [acc.bytes, reachable_maxBytes run] at within
  change 136 * _ ≤ _ at share
  omega

/-- An addition or deletion that fails leaves the store alone. -/
theorem Represents.eq_of_failed {E : Env} {σ σ' : Store} {B : Buckets} {key : CString} {n : UInt64}
    {e : Float} {mem : Alloc} {r : Int} (rep : Represents σ B) (failed : r ≠ 0)
    (returns : Returns E σ (.add key n e mem, r) σ' ∨ Returns E σ (.delete key, r) σ') :
    σ' = σ := by
  rcases returns with returns | returns
  · obtain ⟨B', eff⟩ := returns.effect rep
    cases eff with
    | addPresent | addRejected => rfl
    | added => exact absurd rfl failed
  · obtain ⟨B', eff⟩ := returns.effect rep
    cases eff with
    | deleteAbsent => rfl
    | deleted => exact absurd rfl failed

end BloomServer
