import Mathlib.Data.List.Perm.Subperm
import Mathlib.Tactic.Common

/-! Singly linked chains. `next p = some q` says that the cell `p` exists and
links to `q`; `next p = none` that there is no such cell. A chain is the list of
the cells visited from a head, and exists only when the walk ends in a null link. -/
namespace LinkedChain

variable {α : Type*}

/-- The cells visited from a head to the null link, in order. -/
inductive Chain (next : α → Option (Option α)) : Option α → List α → Prop
  | nil : Chain next none []
  | cons {p : α} {q : Option α} {l : List α} :
      next p = some q → Chain next q l → Chain next (some p) (p :: l)

/-- `p` is met when the links are followed from a head, whether or not they end. -/
inductive Reaches (next : α → Option (Option α)) : Option α → α → Prop
  | head (p : α) : Reaches next (some p) p
  | step {p r : α} {q : Option α} : next p = some q → Reaches next q r → Reaches next (some p) r

variable {next next' : α → Option (Option α)} {head : Option α} {l l₁ l₂ : List α} {a b p : α}

theorem Chain.unique (h : Chain next head l₁) (k : Chain next head l₂) : l₁ = l₂ := by
  induction h generalizing l₂ with
  | nil => cases k; rfl
  | cons link _ ih =>
      cases k with
      | cons link' rest =>
          have same := Option.some.inj (link.symm.trans link')
          subst same
          exact congrArg _ (ih rest)

theorem Chain.head_eq (h : Chain next head l) : head = l.head? := by
  cases h <;> rfl

/-- Every suffix of a chain is the chain of its own first cell. -/
theorem Chain.suffix (h : Chain next head (l₁ ++ l₂)) : ∃ mid, Chain next mid l₂ := by
  induction l₁ generalizing head with
  | nil => exact ⟨head, h⟩
  | cons c l₁ ih =>
      cases h with
      | cons _ rest => exact ih rest

theorem Chain.exists_cell (h : Chain next head l) (mem : p ∈ l) : ∃ q, next p = some q := by
  induction h with
  | nil => cases mem
  | cons link _ ih =>
      rcases List.mem_cons.mp mem with rfl | later
      · exact ⟨_, link⟩
      · exact ih later

/-- Chains are acyclic: a repeated cell would be the head of two chains of different lengths. -/
theorem Chain.nodup (h : Chain next head l) : l.Nodup := by
  induction h with
  | nil => exact List.nodup_nil
  | @cons p q l link rest ih =>
      refine List.nodup_cons.mpr ⟨?_, ih⟩
      intro again
      obtain ⟨s, t, rfl⟩ := List.append_of_mem again
      obtain ⟨mid, tail⟩ := rest.suffix
      have start : mid = some p := tail.head_eq
      subst start
      have same := tail.unique (.cons link rest)
      have lengths := congrArg List.length same
      simp only [List.length_cons, List.length_append] at lengths
      omega

theorem Chain.reaches_iff (h : Chain next head l) : Reaches next head p ↔ p ∈ l := by
  induction h with
  | nil =>
      constructor
      · intro r; cases r
      · intro mem; cases mem
  | @cons c q l link _ ih =>
      rw [List.mem_cons, ← ih]
      constructor
      · intro r
        cases r with
        | head => exact Or.inl rfl
        | step link' rest =>
            have same := Option.some.inj (link.symm.trans link')
            subst same
            exact Or.inr rest
      · rintro (rfl | rest)
        · exact .head p
        · exact .step link rest

/-- Frame rule: a chain only depends on the links of its own cells. -/
theorem Chain.congr (h : Chain next head l) (same : ∀ q ∈ l, next' q = next q) :
    Chain next' head l := by
  induction h with
  | nil => exact .nil
  | @cons c q l link _ ih =>
      refine .cons ((same c List.mem_cons_self).trans link) (ih ?_)
      exact fun r mem => same r (List.mem_cons_of_mem c mem)

/-- Moving the cells of a chain, and their links with them. -/
theorem Chain.map {β : Type*} {next' : β → Option (Option β)} (f : α → β) (h : Chain next head l)
    (moved : ∀ q ∈ l, ∀ r, next q = some r → next' (f q) = some (r.map f)) :
    Chain next' (head.map f) (l.map f) := by
  induction h with
  | nil => exact .nil
  | @cons c q l link _ ih =>
      refine .cons (moved c List.mem_cons_self q link) (ih ?_)
      exact fun r mem => moved r (List.mem_cons_of_mem c mem)

/-- Pushing a cell at the head. -/
theorem Chain.push (h : Chain next head l) (link : next' p = some head)
    (same : ∀ q ∈ l, next' q = next q) : Chain next' (some p) (p :: l) :=
  .cons link (h.congr same)

/-- Dropping the head cell. -/
theorem Chain.pop (h : Chain next head (a :: l)) : ∃ q, next a = some q ∧ Chain next q l := by
  cases h with
  | cons link rest => exact ⟨_, link, rest⟩

/-- Unlinking `b` by letting its predecessor `a` take over its link. -/
theorem Chain.unlink (h : Chain next head (l₁ ++ a :: b :: l₂)) (link : next' a = next b)
    (same : ∀ q ∈ l₁ ++ l₂, next' q = next q) : Chain next' head (l₁ ++ a :: l₂) := by
  induction l₁ generalizing head with
  | nil =>
      cases h with
      | cons _ rest =>
          cases rest with
          | cons linkb tail => exact .cons (link.trans linkb) (tail.congr same)
  | cons c l₁ ih =>
      cases h with
      | cons linkc rest =>
          refine .cons ((same c (by simp)).trans linkc) (ih rest ?_)
          exact fun q mem => same q (List.mem_cons_of_mem c mem)

/-- Inside a chain the link of a cell is the cell after it. -/
theorem Chain.next_eq (h : Chain next head (l₁ ++ a :: l₂)) : next a = some l₂.head? := by
  induction l₁ generalizing head with
  | nil =>
      cases h with
      | cons link rest => rw [link, rest.head_eq]
  | cons c l₁ ih =>
      cases h with
      | cons _ rest => exact ih rest

/-- A chain through cells numbered below `n` has at most `n` cells. -/
theorem Chain.length_le {next : ℕ → Option (Option ℕ)} {head : Option ℕ} {l : List ℕ} {n : ℕ}
    (h : Chain next head l) (bound : ∀ p q, next p = some q → p < n) : l.length ≤ n := by
  have sub : l ⊆ List.range n := by
    intro p mem
    obtain ⟨q, link⟩ := h.exists_cell mem
    exact List.mem_range.mpr (bound p q link)
  simpa only [List.length_range] using (h.nodup.subperm sub).length_le

end LinkedChain
