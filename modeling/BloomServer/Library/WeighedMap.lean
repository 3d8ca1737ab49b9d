import Mathlib.Data.List.AList

/-! The weight of a finite map: what its values weigh together. -/
namespace WeighedMap

variable {K V : Type*} [DecidableEq K] {m : AList fun _ : K => V} {k : K} {v : V}

omit [DecidableEq K] in
def weight (f : V → ℕ) (m : AList fun _ : K => V) : ℕ :=
  m.entries.foldr (fun e total => f e.2 + total) 0

omit [DecidableEq K] in
theorem foldr_add (f : V → ℕ) (l : List (Sigma fun _ : K => V)) (n : ℕ) :
    l.foldr (fun e total => f e.2 + total) n = l.foldr (fun e total => f e.2 + total) 0 + n := by
  induction l with
  | nil => exact (Nat.zero_add n).symm
  | cons e l ih =>
      simp only [List.foldr_cons]
      rw [ih, Nat.add_assoc]

omit [DecidableEq K] in
@[simp] theorem weight_empty (f : V → ℕ) : weight f (∅ : AList fun _ : K => V) = 0 := rfl

/-- Taking a value out takes its weight away. -/
theorem weight_erase (f : V → ℕ) (here : m.lookup k = some v) :
    weight f m = f v + weight f (m.erase k) := by
  have mem : k ∈ m.entries.keys := by
    apply AList.mem_keys.mp
    rw [← AList.lookup_isSome, here]
    rfl
  obtain ⟨v', l₁, l₂, outside, split, rest⟩ := List.exists_of_kerase mem
  have same : v' = v := by
    have found : (⟨k, v'⟩ : Sigma fun _ : K => V) ∈ m.entries := by
      rw [split]
      exact List.mem_append_right _ List.mem_cons_self
    have looked := (List.mem_dlookup_iff m.nodupKeys).mpr found
    rw [AList.lookup, looked] at here
    exact Option.some.inj here
  subst same
  have erased : (m.erase k).entries = l₁ ++ l₂ := rest
  unfold weight
  rw [erased, split, List.foldr_append, List.foldr_append, foldr_add, foldr_add f l₁ (l₂.foldr _ 0),
    List.foldr_cons]
  dsimp only
  omega

theorem erase_of_lookup_none (absent : m.lookup k = none) : m.erase k = m := by
  ext1
  exact List.kerase_of_notMem_keys (AList.lookup_eq_none.mp absent)

theorem erase_insert (k : K) (v : V) (m : AList fun _ : K => V) :
    (m.insert k v).erase k = m.erase k := by
  ext1
  change List.kerase k (⟨k, v⟩ :: List.kerase k m.entries) = List.kerase k m.entries
  exact List.kerase_cons_eq rfl

end WeighedMap
