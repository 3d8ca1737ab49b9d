import Mathlib.Data.List.Basic
import Mathlib.Data.List.Infix
import Mathlib.Tactic.Common

/-! Quoted text, in which a quote is written twice. -/
namespace QuotedText

variable {α : Type*} [DecidableEq α] {q : α} {text value rest : List α}

/-- What stands before the quote that closes the text, and what is behind it. -/
def unquote (q : α) : List α → Option (List α × List α)
  | [] => none
  | [c] => if c = q then some ([], []) else none
  | c :: d :: rest =>
      if c = q then
        if d = q then (unquote q rest).map fun p => (q :: p.1, p.2) else some ([], d :: rest)
      else (unquote q (d :: rest)).map fun p => (c :: p.1, p.2)

theorem unquote_cons {c : α} (other : c ≠ q) (text : List α) :
    unquote q (c :: text) = (unquote q text).map fun p => (c :: p.1, p.2) := by
  cases text with
  | nil => exact if_neg other
  | cons d text => rw [unquote, if_neg other]

/-- A text without quotes is read to its end. -/
theorem unquote_append (away : q ∉ text) (closed : rest.head? ≠ some q) :
    unquote q (text ++ q :: rest) = some (text, rest) := by
  induction text with
  | nil =>
      cases rest with
      | nil => exact if_pos rfl
      | cons d rest =>
          have other : d ≠ q := fun same => closed (congrArg some same)
          rw [List.nil_append, unquote, if_pos rfl, if_neg other]
  | cons c text ih =>
      have other : c ≠ q := fun same => away (same ▸ List.mem_cons_self)
      rw [List.cons_append, unquote_cons other, ih fun mem => away (List.mem_cons_of_mem c mem)]
      rfl

/-- Each quote in the value has taken two. -/
theorem length_of_unquote (read : unquote q text = some (value, rest)) :
    text.length = value.length + value.count q + 1 + rest.length := by
  induction text using unquote.induct q generalizing value with
  | case1 => cases read
  | case2 =>
      rw [unquote, if_pos rfl] at read
      cases read
      rfl
  | case3 c other =>
      rw [unquote, if_neg other] at read
      cases read
  | case4 text ih =>
      rw [unquote, if_pos rfl, if_pos rfl] at read
      obtain ⟨⟨value', rest'⟩, read', same⟩ := Option.map_eq_some_iff.mp read
      cases same
      have sizes := ih read'
      simp only [List.length_cons, List.count_cons_self] at sizes ⊢
      omega
  | case5 d text other =>
      rw [unquote, if_pos rfl, if_neg other] at read
      cases read
      simp only [List.length_cons, List.length_nil, List.count_nil]
      omega
  | case6 c d text other ih =>
      rw [unquote, if_neg other] at read
      obtain ⟨⟨value', rest'⟩, read', same⟩ := Option.map_eq_some_iff.mp read
      cases same
      have sizes := ih read'
      simp only [List.length_cons, List.count_cons_of_ne other] at sizes ⊢
      omega

/-- A text is read back as it is exactly when there is no quote in it. -/
theorem unquote_eq_iff (closed : rest.head? ≠ some q) :
    unquote q (text ++ q :: rest) = some (text, rest) ↔ q ∉ text := by
  constructor
  · intro read
    have sizes := length_of_unquote read
    rw [List.length_append, List.length_cons] at sizes
    rw [← List.count_eq_zero]
    omega
  · intro away
    exact unquote_append away closed

end QuotedText
