import Mathlib.Data.List.Basic
import Mathlib.Data.List.Nodup
import Mathlib.Data.List.Perm.Lattice
import Mathlib.Tactic.Common

/-! Entries kept in numbered buckets, each in the one that its key goes to. -/
namespace Buckets

variable {κ ε : Type*}

/-- All entries, bucket by bucket. -/
def entries (bucket : ℕ → List ε) (n : ℕ) : List ε := (List.range n).flatMap bucket

/-- Every entry is in the bucket of its key, and no key has two entries. -/
structure Placed (key : ε → κ) (index : κ → ℕ) (bucket : ℕ → List ε) (n : ℕ) : Prop where
  within : ∀ k, index k < n
  home : ∀ i < n, ∀ e ∈ bucket i, index (key e) = i
  nodup : ((entries bucket n).map key).Nodup

variable {key : ε → κ} {index : κ → ℕ} {bucket : ℕ → List ε} {n : ℕ} {e : ε}

theorem mem_entries : e ∈ entries bucket n ↔ ∃ i < n, e ∈ bucket i := by
  rw [entries, List.mem_flatMap]
  constructor
  · rintro ⟨i, mem, held⟩
    exact ⟨i, List.mem_range.mp mem, held⟩
  · rintro ⟨i, less, held⟩
    exact ⟨i, List.mem_range.mpr less, held⟩

theorem entries_empty (n : ℕ) : entries (fun _ => ([] : List ε)) n = [] := by
  rw [entries, List.flatMap_eq_nil_iff]
  exact fun _ _ => rfl

/-- One bucket is changed, and the entries with it. -/
theorem entries_update {i : ℕ} (less : i < n) (held : List ε) :
    ∃ others, (entries bucket n).Perm (bucket i ++ others) ∧
      (entries (Function.update bucket i held) n).Perm (held ++ others) := by
  obtain ⟨before, after, split⟩ := List.append_of_mem (List.mem_range.mpr less)
  have nodup : (before ++ i :: after).Nodup := split ▸ List.nodup_range
  have apart := List.nodup_append.mp nodup
  have away : ∀ j ∈ before ++ after, j ≠ i := by
    intro j mem
    rcases List.mem_append.mp mem with mem | mem
    · exact apart.2.2 j mem i List.mem_cons_self
    · rintro rfl
      exact (List.nodup_cons.mp apart.2.1).1 mem
  have same : ∀ side : List ℕ, (∀ j ∈ side, j ∈ before ++ after) →
      side.flatMap (Function.update bucket i held) = side.flatMap bucket := fun side within =>
    List.flatMap_congr fun j mem => Function.update_of_ne (away j (within j mem)) _ _
  refine ⟨before.flatMap bucket ++ after.flatMap bucket, ?_, ?_⟩
  · rw [entries, split, List.flatMap_append, List.flatMap_cons]
    exact List.perm_append_comm_assoc _ _ _
  · rw [entries, split, List.flatMap_append, List.flatMap_cons, Function.update_self,
      same before fun j mem => List.mem_append_left _ mem, same after fun j mem => List.mem_append_right _ mem]
    exact List.perm_append_comm_assoc _ _ _

section Find

variable [DecidableEq κ]

/-- The entry of a key. -/
def find (key : ε → κ) (index : κ → ℕ) (bucket : ℕ → List ε) (k : κ) : Option ε :=
  (bucket (index k)).find? fun e => key e = k

/-- Looking in the one bucket finds what is there at all. -/
theorem Placed.find_eq_some (placed : Placed key index bucket n) {k : κ} :
    find key index bucket k = some e ↔ e ∈ entries bucket n ∧ key e = k := by
  constructor
  · intro found
    exact ⟨mem_entries.mpr ⟨_, placed.within k, List.mem_of_find?_eq_some found⟩,
      of_decide_eq_true (List.find?_some (p := fun e => decide (key e = k)) found)⟩
  · rintro ⟨mem, rfl⟩
    obtain ⟨i, less, held⟩ := mem_entries.mp mem
    have at_home := placed.home i less e held
    subst at_home
    rcases found : find key index bucket (key e) with _ | e'
    · exact absurd (List.find?_eq_none.mp found e held) (by simp)
    · have mem' : e' ∈ entries bucket n :=
        mem_entries.mpr ⟨_, placed.within (key e), List.mem_of_find?_eq_some found⟩
      have same : key e' = key e :=
        of_decide_eq_true (List.find?_some (p := fun e' => decide (key e' = key e)) found)
      rw [List.inj_on_of_nodup_map placed.nodup mem' mem same]

theorem Placed.find_eq_none (placed : Placed key index bucket n) {k : κ} :
    find key index bucket k = none ↔ ∀ e ∈ entries bucket n, key e ≠ k := by
  rw [Option.eq_none_iff_forall_ne_some]
  constructor
  · intro none e mem same
    exact none e (placed.find_eq_some.mpr ⟨mem, same⟩)
  · intro none e found
    obtain ⟨mem, same⟩ := placed.find_eq_some.mp found
    exact none e mem same

end Find

/-- A new entry joins the bucket of its key, in front or at the end. -/
theorem Placed.insert (placed : Placed key index bucket n) (new : ∀ e' ∈ entries bucket n, key e' ≠ key e)
    {held : List ε} (joined : held.Perm (e :: bucket (index (key e)))) :
    Placed key index (Function.update bucket (index (key e)) held) n ∧
      (entries (Function.update bucket (index (key e)) held) n).Perm (e :: entries bucket n) := by
  obtain ⟨others, before, after⟩ := entries_update (placed.within (key e)) held
  have grown : (entries (Function.update bucket (index (key e)) held) n).Perm (e :: entries bucket n) :=
    after.trans (((joined.append_right others).trans (List.Perm.refl _)).trans (before.symm.cons e))
  refine ⟨⟨placed.within, ?_, ?_⟩, grown⟩
  · intro i less e' mem
    by_cases here : i = index (key e)
    · subst here
      rw [Function.update_self] at mem
      rcases List.mem_cons.mp (joined.mem_iff.mp mem) with rfl | mem
      · rfl
      · exact placed.home _ less e' mem
    · rw [Function.update_of_ne here] at mem
      exact placed.home i less e' mem
  · refine ((grown.map key).nodup_iff).mpr (List.nodup_cons.mpr ⟨?_, placed.nodup⟩)
    intro mem
    obtain ⟨e', mem, same⟩ := List.mem_map.mp mem
    exact new e' mem same

/-- An entry leaves its bucket. -/
theorem Placed.erase (placed : Placed key index bucket n) {held : List ε}
    (left : (bucket (index (key e))).Perm (e :: held)) :
    Placed key index (Function.update bucket (index (key e)) held) n ∧
      (entries bucket n).Perm (e :: entries (Function.update bucket (index (key e)) held) n) := by
  obtain ⟨others, before, after⟩ := entries_update (placed.within (key e)) held
  have shrunk : (entries bucket n).Perm (e :: entries (Function.update bucket (index (key e)) held) n) :=
    before.trans ((left.append_right others).trans (after.symm.cons e))
  refine ⟨⟨placed.within, ?_, ?_⟩, shrunk⟩
  · intro i less e' mem
    by_cases here : i = index (key e)
    · subst here
      rw [Function.update_self] at mem
      exact placed.home _ less e' (left.mem_iff.mpr (List.mem_cons_of_mem _ mem))
    · rw [Function.update_of_ne here] at mem
      exact placed.home i less e' mem
  · exact (List.nodup_cons.mp ((shrunk.map key).nodup_iff.mp placed.nodup)).2

end Buckets
