import Mathlib.Data.List.Nodup
import Mathlib.Data.List.Perm.Basic
import Mathlib.Algebra.Order.Group.Int
import Mathlib.Tactic.Common

/-! Completion found by counting: items come in one after another, each with the total it knows of,
and whoever brings the number of those that are done up to its total calls. -/
namespace Countdown

/-- An item to come; one without a total has not been split yet into those that have one. -/
structure Item (ι : Type*) where
  key : ι
  total : Option ℤ

structure Tally (ι : Type*) where
  coming : List (Item ι)
  done : List ι
  ever : Prop
  calls : ℕ

variable {ι : Type*} {a : Tally ι} {x : Item ι} {coming : List (Item ι)} {t : ℤ}

/-- Nobody calls while items are to come, and once anything has been done the last one has called. -/
structure Fair (a : Tally ι) : Prop where
  early : a.coming ≠ [] → a.calls = 0
  once : a.calls ≤ 1
  last : a.ever → a.coming = [] → a.calls = 1
  keys : (a.coming.map Item.key ++ a.done).Nodup
  total : ∀ x ∈ a.coming, ∀ t, x.total = some t → t = a.done.length + a.coming.length
  alone : ∀ x ∈ a.coming, x.total = none → a.coming = [x] ∧ ¬ a.ever
  known : a.done ≠ [] → a.ever

/-- The order of the items does not matter. -/
theorem Fair.perm (fair : Fair a) (perm : a.coming.Perm coming) : Fair { a with coming } where
  early := by
    intro some
    apply fair.early
    intro none
    rw [none] at perm
    exact some (List.nil_perm.mp perm)
  once := fair.once
  last := by
    intro ever none
    apply fair.last ever
    change coming = [] at none
    rw [none] at perm
    exact List.perm_nil.mp perm
  keys := ((perm.map Item.key).append_right a.done).nodup_iff.mp fair.keys
  total := by
    intro x mem t is
    rw [fair.total x (perm.mem_iff.mpr mem) t is, perm.length_eq]
  alone := by
    intro x mem is
    obtain ⟨single, never⟩ := fair.alone x (perm.mem_iff.mpr mem) is
    rw [single] at perm
    exact ⟨List.singleton_perm.mp perm |>.symm, never⟩
  known := fair.known

/-- The first item has the total one, or none. -/
theorem Fair.first (key : ι) (total : Option ℤ) (one : ∀ t, total = some t → t = 1) :
    Fair (⟨[⟨key, total⟩], [], False, 0⟩ : Tally ι) where
  early := fun _ => rfl
  once := Nat.zero_le _
  last := fun ever => ever.elim
  keys := List.nodup_singleton _
  total := by
    intro x mem t is
    cases List.mem_singleton.mp mem
    exact one t is
  alone := by
    intro x mem _
    cases List.mem_singleton.mp mem
    exact ⟨rfl, id⟩
  known := fun some => absurd rfl some

/-- An item without a total is split into items that have one, their number. -/
theorem Fair.split (fair : Fair a) (single : a.coming = [x]) (unknown : x.total = none)
    (keys : (coming.map Item.key).Nodup)
    (totals : ∀ y ∈ coming, y.total = some (coming.length : ℤ)) : Fair { a with coming } := by
  have mem : x ∈ a.coming := by
    rw [single]
    exact List.mem_singleton_self x
  have never := (fair.alone x mem unknown).2
  have empty : a.done = [] := by
    by_contra filled
    exact never (fair.known filled)
  have quiet : a.calls = 0 := fair.early (List.ne_nil_of_mem mem)
  constructor
  · exact fun _ => quiet
  · exact fair.once
  · exact fun ever => absurd ever never
  · change (coming.map Item.key ++ a.done).Nodup
    rw [empty, List.append_nil]
    exact keys
  · intro y there t is
    change t = (a.done.length : ℤ) + coming.length
    rw [totals y there] at is
    cases is
    rw [empty]
    simp
  · intro y there is
    rw [totals y there] at is
    cases is
  · exact fair.known

/-- An item is done, and calls if that brings the number up to its total. -/
theorem Fair.finish (fair : Fair a) (perm : a.coming.Perm (x :: coming)) (is : x.total = some t) :
    x.key ∉ a.done ∧ Fair ⟨coming, a.done ++ [x.key], True,
      a.calls + if (a.done.length : ℤ) + 1 = t then 1 else 0⟩ := by
  have fair := fair.perm perm
  have quiet : a.calls = 0 := fair.early (List.cons_ne_nil _ _)
  have total : t = a.done.length + (coming.length + 1 : ℕ) := fair.total x List.mem_cons_self t is
  have keys : (x.key :: (coming.map Item.key ++ a.done)).Nodup := fair.keys
  have moved : (x.key :: (coming.map Item.key ++ a.done)).Perm
      (coming.map Item.key ++ (a.done ++ [x.key])) := by
    rw [← List.append_assoc]
    exact (List.perm_append_singleton ..).symm
  refine ⟨fun mem => (List.nodup_cons.mp keys).1 (List.mem_append_right _ mem), ?_⟩
  constructor
  · intro some
    change coming ≠ [] at some
    have := List.length_pos_iff.mpr some
    change a.calls + (if (a.done.length : ℤ) + 1 = t then 1 else 0) = 0
    rw [quiet, if_neg]
    push_cast at total
    omega
  · change a.calls + (if (a.done.length : ℤ) + 1 = t then 1 else 0) ≤ 1
    split_ifs <;> omega
  · intro _ none
    change coming = [] at none
    change a.calls + (if (a.done.length : ℤ) + 1 = t then 1 else 0) = 1
    subst none
    rw [quiet, if_pos]
    simpa using total.symm
  · exact moved.nodup_iff.mp keys
  · intro y mem u own
    have same := fair.total y (List.mem_cons_of_mem x mem) u own
    change u = ((a.done ++ [x.key]).length : ℤ) + coming.length
    change u = (a.done.length : ℤ) + (coming.length + 1 : ℕ) at same
    rw [List.length_append, List.length_singleton]
    push_cast at same ⊢
    omega
  · intro y mem none
    have single := (fair.alone y (List.mem_cons_of_mem x mem) none).1
    change x :: coming = [y] at single
    rw [(List.cons.inj single).2] at mem
    cases mem
  · exact fun _ => trivial

/-- The last item is given up, and has to call if anything was done. -/
theorem Fair.drop {calls : ℕ} (fair : Fair a) (single : a.coming = [x]) (low : calls ≤ 1)
    (call : a.ever → calls = 1) : Fair { a with coming := [], calls := a.calls + calls } := by
  have some : a.coming ≠ [] := by
    rw [single]
    exact List.cons_ne_nil _ _
  have quiet := fair.early some
  constructor
  · exact fun none => absurd rfl none
  · change a.calls + calls ≤ 1
    omega
  · intro ever _
    have := call ever
    change a.calls + calls = 1
    omega
  · exact fair.keys.sublist (List.sublist_append_right ..)
  · intro y mem
    cases mem
  · intro y mem
    cases mem
  · exact fair.known

/-- What was done is forgotten, once nothing is to come. -/
theorem Fair.forget (fair : Fair a) (none : a.coming = []) : Fair { a with done := [] } where
  early := fair.early
  once := fair.once
  last := fair.last
  keys := by
    change (a.coming.map Item.key ++ []).Nodup
    rw [none]
    exact List.nodup_nil
  total := by
    intro x mem
    change x ∈ a.coming at mem
    rw [none] at mem
    cases mem
  alone := fair.alone
  known := fun some => absurd rfl some

end Countdown
