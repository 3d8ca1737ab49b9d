import Mathlib.Data.List.TakeWhile
import Mathlib.Order.Lattice
import Mathlib.Tactic.Common

/-! A ring of hash values with owners. A key belongs to the first value that is not below its hash
or, past the last value, to the first one. -/
namespace HashRing

variable {κ α : Type*} [LinearOrder κ]

structure Point (κ α : Type*) where
  hash : κ
  owner : α
  deriving DecidableEq

def Sorted (ring : List (Point κ α)) : Prop := ring.Pairwise fun p q => p.hash ≤ q.hash

/-- One way to sort a ring. -/
def sort (ring : List (Point κ α)) : List (Point κ α) := ring.mergeSort fun p q => p.hash ≤ q.hash

/-- The lower bound of a hash in a sorted ring, and the first point where there is none. -/
def locate (ring : List (Point κ α)) (h : κ) : Option (Point κ α) :=
  (ring.dropWhile fun p => p.hash < h).head?.or ring.head?

/-- What it is to belong to a point, whatever the order of the ring. -/
structure Holds (ring : List (Point κ α)) (h : κ) (p : Point κ α) : Prop where
  mem : p ∈ ring
  bound : ∀ q ∈ ring, h ≤ q.hash → h ≤ p.hash ∧ p.hash ≤ q.hash
  wrap : (∀ q ∈ ring, q.hash < h) → ∀ q ∈ ring, p.hash ≤ q.hash

variable {ring ring' added : List (Point κ α)} {h : κ} {p q : Point κ α}

theorem sort_perm (ring : List (Point κ α)) : (sort ring).Perm ring := List.mergeSort_perm ring _

theorem sorted_sort (ring : List (Point κ α)) : Sorted (sort ring) := by
  refine (List.pairwise_mergeSort ?_ ?_ ring).imp fun le => of_decide_eq_true le
  · intro p q r first second
    exact decide_eq_true ((of_decide_eq_true first).trans (of_decide_eq_true second))
  · intro p q
    rw [Bool.or_eq_true, decide_eq_true_eq, decide_eq_true_eq]
    exact le_total _ _

theorem locate_cons (p : Point κ α) (ring : List (Point κ α)) (h : κ) :
    locate (p :: ring) h = if p.hash < h then (ring.dropWhile fun p => p.hash < h).head?.or (some p)
      else some p := by
  unfold locate
  rw [List.dropWhile_cons]
  by_cases low : p.hash < h
  · rw [if_pos low, if_pos (decide_eq_true low)]
    rfl
  · rw [if_neg low, if_neg (by rw [decide_eq_true_eq]; exact low)]
    rfl

theorem locate_eq_none : locate ring h = none ↔ ring = [] := by
  cases ring with
  | nil => exact ⟨fun _ => rfl, fun _ => rfl⟩
  | cons p ring =>
      rw [locate_cons]
      refine ⟨fun none => ?_, fun none => (nomatch none)⟩
      split at none
      next => exact (nomatch (Option.or_eq_none_iff.mp none).2)
      next => exact (nomatch none)

/-- Locating in a sorted ring finds the point that the hash belongs to. -/
theorem holds_of_locate (sorted : Sorted ring) (found : locate ring h = some p) :
    Holds ring h p := by
  have split := List.takeWhile_append_dropWhile (p := fun p : Point κ α => p.hash < h) (l := ring)
  have front : ∀ q ∈ ring.takeWhile fun p => p.hash < h, q.hash < h := fun q mem =>
    of_decide_eq_true (p := q.hash < h) (List.mem_takeWhile_imp (p := fun p : Point κ α => p.hash < h) mem)
  rcases back : ring.dropWhile fun p => p.hash < h with _ | ⟨first, rest⟩
  · have head : ring.head? = some p := by
      unfold locate at found
      rw [back] at found
      exact found
    rw [back, List.append_nil] at split
    rw [split] at front
    obtain ⟨rest, rfl⟩ : ∃ rest, ring = p :: rest := by
      cases ring with
      | nil => exact (nomatch head)
      | cons b rest =>
          cases head
          exact ⟨rest, rfl⟩
    refine ⟨List.mem_cons_self, ?_, ?_⟩
    · intro q mem high
      exact absurd (front q mem) (not_lt.mpr high)
    · intro _ q mem
      rcases List.mem_cons.mp mem with rfl | mem
      · exact le_refl _
      · exact List.rel_of_pairwise_cons sorted mem
  · have same : first = p := by
      unfold locate at found
      rw [back] at found
      exact Option.some.inj found
    subst same
    have high : h ≤ first.hash := by
      have stop := List.head_dropWhile_not (fun p : Point κ α => p.hash < h) (l := ring)
        (by rw [back]; exact List.cons_ne_nil _ _)
      simp only [back, List.head_cons, decide_eq_false_iff_not, not_lt] at stop
      exact stop
    rw [back] at split
    refine ⟨?_, ?_, ?_⟩
    · rw [← split]
      exact List.mem_append_right _ List.mem_cons_self
    · intro q mem above
      refine ⟨high, ?_⟩
      rw [← split] at mem sorted
      rcases List.mem_append.mp mem with mem | mem
      · exact absurd (front q mem) (not_lt.mpr above)
      · rcases List.mem_cons.mp mem with rfl | mem
        · exact le_refl _
        · exact List.rel_of_pairwise_cons (List.pairwise_append.mp sorted).2.1 mem
    · intro below
      refine absurd (below first ?_) (not_lt.mpr high)
      rw [← split]
      exact List.mem_append_right _ List.mem_cons_self

/-- Points with different hashes do not share a key. -/
theorem Holds.hash_eq (first : Holds ring h p) (second : Holds ring h q) : p.hash = q.hash := by
  by_cases some : ∃ x ∈ ring, h ≤ x.hash
  · obtain ⟨x, mem, high⟩ := some
    have low := (first.bound x mem high).1
    have low' := (second.bound x mem high).1
    exact le_antisymm (first.bound q second.mem low').2 (second.bound p first.mem low).2
  · have all : ∀ x ∈ ring, x.hash < h := fun x mem =>
      lt_of_not_ge fun high => some ⟨x, mem, high⟩
    exact le_antisymm (first.wrap all q second.mem) (second.wrap all p first.mem)

/-- When points are added, a key stays at its hash value or goes to an added point. -/
theorem Holds.grow (before : Holds ring h p) (after : Holds ring' h q)
    (grown : ∀ x, x ∈ ring' ↔ x ∈ ring ∨ x ∈ added) : q ∈ added ∨ q.hash = p.hash := by
  rcases (grown q).mp after.mem with old | new
  · right
    have sub : ∀ x ∈ ring, x ∈ ring' := fun x mem => (grown x).mpr (Or.inl mem)
    by_cases some : ∃ x ∈ ring, h ≤ x.hash
    · obtain ⟨x, mem, high⟩ := some
      have low := (before.bound x mem high).1
      obtain ⟨low', le⟩ := after.bound p (sub p before.mem) low
      exact le_antisymm le (before.bound q old low').2
    · have all : ∀ x ∈ ring, x.hash < h := fun x mem =>
        lt_of_not_ge fun high => some ⟨x, mem, high⟩
      have all' : ∀ x ∈ ring', x.hash < h := fun x mem =>
        lt_of_not_ge fun high => absurd (all q old) (not_lt.mpr (after.bound x mem high).1)
      exact le_antisymm (after.wrap all' p (sub p before.mem)) (before.wrap all q old)
  · exact Or.inl new

/-- A hash that is not above any point belongs to the first one. -/
theorem locate_of_below (below : ∀ q ∈ ring, h ≤ q.hash) : locate ring h = ring.head? := by
  cases ring with
  | nil => rfl
  | cons p ring =>
      rw [locate_cons, if_neg (not_lt.mpr (below p List.mem_cons_self))]
      rfl

end HashRing
