import Mathlib.Data.List.Basic
import Mathlib.Tactic.Common

/-! Finite runs of a labelled step relation. The labels are kept newest first,
so that a run grows by `cons` and its history is available to invariants. -/
namespace LabelledRun

variable {σ α : Type*}

/-- `Run R s l t`: the steps labelled by `l`, newest first, lead from `s` to `t`. -/
inductive Run (R : σ → α → σ → Prop) (s : σ) : List α → σ → Prop
  | nil : Run R s [] s
  | snoc {l : List α} {t u : σ} {a : α} : Run R s l t → R t a u → Run R s (a :: l) u

/-- The steps of `R` that start in a state and with a label accepted by `G`. -/
def Guarded (G : σ → α → Prop) (R : σ → α → σ → Prop) : σ → α → σ → Prop :=
  fun s a t => G s a ∧ R s a t

variable {R : σ → α → σ → Prop} {s t u : σ} {l l₁ l₂ : List α} {a : α}

/-- An invariant may speak about the labels seen so far. -/
theorem Run.history {I : List α → σ → Prop} (run : Run R s l t) (start : I [] s)
    (step : ∀ l t a u, I l t → R t a u → I (a :: l) u) : I l t := by
  induction run with
  | nil => exact start
  | snoc _ last ih => exact step _ _ _ _ ih last

theorem Run.invariant {I : σ → Prop} (run : Run R s l t) (start : I s)
    (step : ∀ t a u, I t → R t a u → I u) : I t :=
  run.history (I := fun _ => I) start (fun _ t a u held last => step t a u held last)

theorem Run.single (step : R s a t) : Run R s [a] t := .snoc .nil step

theorem Run.append (first : Run R s l₁ t) (rest : Run R t l₂ u) : Run R s (l₂ ++ l₁) u := by
  induction rest with
  | nil => exact first
  | snoc _ last ih => exact .snoc ih last

/-- A run can be cut at every point of its history. -/
theorem Run.split (run : Run R s (l₂ ++ l₁) u) : ∃ t, Run R s l₁ t ∧ Run R t l₂ u := by
  induction l₂ generalizing u with
  | nil => exact ⟨u, run, .nil⟩
  | cons a l₂ ih =>
      cases run with
      | snoc before last =>
          obtain ⟨t, first, rest⟩ := ih before
          exact ⟨t, first, .snoc rest last⟩

theorem Run.of_nil (run : Run R s [] t) : t = s := by
  cases run with
  | nil => rfl

theorem Run.of_cons (run : Run R s (a :: l) u) : ∃ t, Run R s l t ∧ R t a u := by
  cases run with
  | snoc before last => exact ⟨_, before, last⟩

theorem Run.mono {Q : σ → α → σ → Prop} (sub : ∀ s a t, R s a t → Q s a t)
    (run : Run R s l t) : Run Q s l t := by
  induction run with
  | nil => exact .nil
  | snoc _ last ih => exact .snoc ih (sub _ _ _ last)

/-- Steps that determine their successor make whole runs deterministic. -/
theorem Run.deterministic (det : ∀ s a t t', R s a t → R s a t' → t = t')
    (run : Run R s l t) (other : Run R s l u) : t = u := by
  induction run generalizing u with
  | nil => exact other.of_nil.symm
  | snoc _ last ih =>
      obtain ⟨v, before, last'⟩ := other.of_cons
      have same := ih before
      subst same
      exact det _ _ _ _ last last'

/-- Steps that are simulated one by one make whole runs simulated. -/
theorem Run.simulated {τ : Type*} {Q : τ → α → τ → Prop} {S : σ → τ → Prop}
    (step : ∀ s a s' t, S s t → R s a s' → ∃ t', Q t a t' ∧ S s' t') (run : Run R s l u) {t : τ}
    (start : S s t) : ∃ t', Run Q t l t' ∧ S u t' := by
  induction run with
  | nil => exact ⟨t, .nil, start⟩
  | snoc _ last ih =>
      obtain ⟨t₁, before, related⟩ := ih
      obtain ⟨t₂, after, related⟩ := step _ _ _ _ related last
      exact ⟨t₂, .snoc before after, related⟩

/-- A run whose steps all meet the guard is a run of the guarded relation. -/
theorem Run.guarded {G : σ → α → Prop} (run : Run R s l t)
    (meets : ∀ l₁ l₂ a t, l = l₂ ++ a :: l₁ → Run R s l₁ t → G t a) :
    Run (Guarded G R) s l t := by
  induction run with
  | nil => exact .nil
  | @snoc l t u a before last ih =>
      refine .snoc (ih ?_) ⟨meets l [] a t rfl before, last⟩
      intro l₁ l₂ b v same sub
      exact meets l₁ (a :: l₂) b v (by rw [same]; rfl) sub

/-- The state that a step function reaches by the labels, newest first. -/
def reach (f : σ → α → Option σ) (s : σ) : List α → Option σ
  | [] => some s
  | a :: l => (reach f s l).bind fun t => f t a

theorem run_of_reach {f : σ → α → Option σ} (sound : ∀ s a t, f s a = some t → R s a t)
    (h : reach f s l = some t) : Run R s l t := by
  induction l generalizing t with
  | nil =>
      cases h
      exact .nil
  | cons a l ih =>
      obtain ⟨u, before, last⟩ := Option.bind_eq_some_iff.mp h
      exact .snoc (ih before) (sound u a t last)

end LabelledRun
