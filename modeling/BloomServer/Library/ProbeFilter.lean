import Mathlib.Data.Set.Lattice

/-! Membership filters over arbitrary keys and positions. Each key marks a set of
positions; a key is answered as present when all its positions are marked. -/
namespace ProbeFilter

variable {κ π : Type*} (probes : κ → Set π)

/-- The positions marked once the keys of a set have been inserted. -/
def marked (keys : Set κ) : Set π := ⋃ k ∈ keys, probes k

/-- A filter with the marked positions `bits` answers that `k` is present. -/
def Answers (bits : Set π) (k : κ) : Prop := probes k ⊆ bits

theorem mem_marked {keys : Set κ} {x : π} : x ∈ marked probes keys ↔ ∃ k ∈ keys, x ∈ probes k := by
  simp only [marked, Set.mem_iUnion, exists_prop]

@[simp] theorem marked_empty : marked probes ∅ = ∅ := by
  simp only [marked, Set.mem_empty_iff_false, Set.iUnion_of_empty, Set.iUnion_empty]

theorem marked_insert (k : κ) (keys : Set κ) :
    marked probes (insert k keys) = probes k ∪ marked probes keys := by
  simp only [marked, Set.biUnion_insert]

/-- The answer depends on the set of inserted keys alone, so order and repetition are immaterial. -/
theorem answers_marked_iff {keys : Set κ} {k : κ} :
    Answers probes (marked probes keys) k ↔ ∀ x ∈ probes k, ∃ k' ∈ keys, x ∈ probes k' := by
  simp only [Answers, Set.subset_def, mem_marked]

end ProbeFilter
