import Mathlib.Tactic.Common

/-! Sequences of calls, oldest first, of which each may be undefined in the state it finds. -/
namespace CallSequence

variable {σ α : Type*}

/-- Every state that the calls come through, with the first one, has the property. -/
def Always (f : σ → α → Option σ) (P : σ → Prop) (s : σ) : List α → Prop
  | [] => P s
  | c :: rest => P s ∧ ∀ s', f s c = some s' → Always f P s' rest

/-- Every call meets a condition in the state that it finds. -/
def Each (f : σ → α → Option σ) (M : σ → α → Prop) (s : σ) : List α → Prop
  | [] => True
  | c :: rest => ∀ s', f s c = some s' → M s c ∧ Each f M s' rest

/-- Every call, also the one that ends the sequence by being undefined, meets a condition in the
state that it finds. -/
def Throughout (f : σ → α → Option σ) (M : σ → α → Prop) (s : σ) : List α → Prop
  | [] => True
  | c :: rest => M s c ∧ ∀ s', f s c = some s' → Throughout f M s' rest

/-- Every call is defined, and every state with the first one has the property. -/
def Safe (f : σ → α → Option σ) (P : σ → Prop) (s : σ) : List α → Prop
  | [] => P s
  | c :: rest => P s ∧ ∃ s', f s c = some s' ∧ Safe f P s' rest

variable {f : σ → α → Option σ} {P : σ → Prop} {M N : σ → α → Prop} {s : σ}

/-- Conditions that are the same for each single call are the same for whole sequences. -/
theorem throughout_congr {calls : List α} (same : ∀ s, ∀ c ∈ calls, (M s c ↔ N s c)) :
    Throughout f M s calls ↔ Throughout f N s calls := by
  induction calls generalizing s with
  | nil => exact Iff.rfl
  | cons c rest ih =>
      have later : ∀ s, ∀ d ∈ rest, (M s d ↔ N s d) :=
        fun s d mem => same s d (List.mem_cons_of_mem c mem)
      unfold Throughout
      refine and_congr (same s c List.mem_cons_self) ?_
      exact forall_congr' fun s' => imp_congr_right fun _ => ih later

theorem Always.start {calls : List α} (all : Always f P s calls) : P s := by
  cases calls with
  | nil => exact all
  | cons c rest => exact all.1

/-- A condition that decides what one call does to a property decides it for all of them, next to
what all calls keep anyway. -/
theorem always_iff_each_of_invariant {I : σ → Prop}
    (stays : ∀ s c s', I s → f s c = some s' → I s')
    (keeps : ∀ s c s', I s → P s → f s c = some s' → (P s' ↔ M s c)) (inv : I s) (start : P s)
    (calls : List α) : Always f P s calls ↔ Each f M s calls := by
  induction calls generalizing s with
  | nil => exact iff_of_true start trivial
  | cons c rest ih =>
      unfold Always Each
      rw [and_iff_right start]
      apply forall_congr'
      intro s'
      apply imp_congr_right
      intro run
      have step := keeps s c s' inv start run
      have after := stays s c s' inv run
      constructor
      · intro all
        have next : P s' := all.start
        exact ⟨step.mp next, (ih after next).mp all⟩
      · rintro ⟨meets, all⟩
        exact (ih after (step.mpr meets)).mpr all

theorem always_iff_each (keeps : ∀ s c s', P s → f s c = some s' → (P s' ↔ M s c)) (start : P s)
    (calls : List α) : Always f P s calls ↔ Each f M s calls :=
  always_iff_each_of_invariant (fun _ _ _ _ _ => trivial) (fun s c s' _ => keeps s c s') trivial
    start calls

theorem Safe.start {calls : List α} (safe : Safe f P s calls) : P s := by
  cases calls with
  | nil => exact safe
  | cons c rest => exact safe.1

/-- A condition that decides of one call whether it is defined and keeps a property decides it of
all of them, next to what all calls keep anyway. -/
theorem safe_iff_throughout {I : σ → Prop} (stays : ∀ s c s', I s → P s → f s c = some s' → I s')
    (decides : ∀ s c, I s → P s → ((∃ s', f s c = some s' ∧ P s') ↔ M s c)) (inv : I s)
    (start : P s) (calls : List α) : Safe f P s calls ↔ Throughout f M s calls := by
  induction calls generalizing s with
  | nil => exact iff_of_true start trivial
  | cons c rest ih =>
      unfold Safe Throughout
      rw [and_iff_right start, ← decides s c inv start]
      constructor
      · rintro ⟨s', run, safe⟩
        refine ⟨⟨s', run, safe.start⟩, fun t run' => ?_⟩
        obtain rfl := Option.some.inj (run.symm.trans run')
        exact (ih (stays s c s' inv start run) safe.start).mp safe
      · rintro ⟨⟨s', run, next⟩, later⟩
        exact ⟨s', run, (ih (stays s c s' inv start run) next).mpr (later s' run)⟩

/-- The condition holds of the call that follows some others. -/
theorem Throughout.after {s' : σ} {first rest : List α} {c : α}
    (all : Throughout f M s (first ++ c :: rest)) (run : first.foldlM f s = some s') : M s' c := by
  induction first generalizing s with
  | nil =>
      cases run
      exact all.1
  | cons d first ih =>
      rw [List.foldlM_cons] at run
      obtain ⟨t, step, later⟩ := Option.bind_eq_some_iff.mp run
      exact ih (all.2 t step) later

/-- The same call again and again, along states that it leads through. -/
theorem Always.iterate {S : ℕ → σ} {c : α} {n : ℕ} {rest : List α}
    (step : ∀ k < n, f (S k) c = some (S (k + 1)))
    (all : Always f P (S 0) (List.replicate n c ++ rest)) : Always f P (S n) rest := by
  induction n generalizing S with
  | zero => exact all
  | succ n ih =>
      have next := all.2 _ (step 0 n.succ_pos)
      apply ih (S := fun k => S (k + 1))
      · intro k below
        exact step (k + 1) (Nat.succ_lt_succ below)
      · exact next

end CallSequence
