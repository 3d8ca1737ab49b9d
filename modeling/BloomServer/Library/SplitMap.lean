import Mathlib.Data.List.Basic
import Mathlib.Logic.Function.Basic

/-! A finite map whose keys are spread over parts, each key in one part at most. -/
namespace SplitMap

variable {ι κ β : Type*} {parts parts' : List ι} {c c' : ι → κ → Option β} {m : κ → Option β}
  {f : ι} {k : κ} {v : β}

/-- The parts of a map: what each of them maps the keys to. -/
structure Split (parts : List ι) (c : ι → κ → Option β) (m : κ → Option β) : Prop where
  single : ∀ f ∈ parts, ∀ g ∈ parts, ∀ k, (c f k).isSome = true → (c g k).isSome = true → f = g
  found : ∀ k v, m k = some v ↔ ∃ f ∈ parts, c f k = some v

namespace Split

theorem empty : Split [] c fun _ => none where
  single _ mem := nomatch mem
  found k v := by
    constructor
    · intro held
      cases held
    · rintro ⟨f, mem, _⟩
      cases mem

theorem eq_of_isSome (s : Split parts c m) (mem : f ∈ parts) (held : (c f k).isSome = true) :
    m k = c f k := by
  obtain ⟨v, same⟩ := Option.isSome_iff_exists.mp held
  rw [same]
  exact (s.found k v).mpr ⟨f, mem, same⟩

theorem isSome_iff (s : Split parts c m) :
    (m k).isSome = true ↔ ∃ f ∈ parts, (c f k).isSome = true := by
  constructor
  · intro held
    obtain ⟨v, same⟩ := Option.isSome_iff_exists.mp held
    obtain ⟨f, mem, there⟩ := (s.found k v).mp same
    exact ⟨f, mem, Option.isSome_iff_exists.mpr ⟨v, there⟩⟩
  · rintro ⟨f, mem, there⟩
    rwa [s.eq_of_isSome mem there]

theorem congr (s : Split parts c m) (same : ∀ f ∈ parts, c' f = c f) : Split parts c' m where
  single f mem g mem' k held held' := by
    rw [same f mem] at held
    rw [same g mem'] at held'
    exact s.single f mem g mem' k held held'
  found k v := by
    rw [s.found k v]
    constructor
    · rintro ⟨f, mem, there⟩
      exact ⟨f, mem, by rw [same f mem, there]⟩
    · rintro ⟨f, mem, there⟩
      exact ⟨f, mem, by rw [← same f mem, there]⟩

/-- A new part is empty. -/
theorem insert (s : Split parts c m) (grown : ∀ g, g ∈ parts' ↔ g = f ∨ g ∈ parts)
    (empty : c f = fun _ => none) : Split parts' c m := by
  have old : ∀ {g k}, g ∈ parts' → (c g k).isSome = true → g ∈ parts := by
    intro g k mem held
    rcases (grown g).mp mem with same | there
    · rw [same, empty] at held
      cases held
    · exact there
  constructor
  · intro g mem g' mem' k held held'
    exact s.single g (old mem held) g' (old mem' held') k held held'
  · intro k v
    rw [s.found k v]
    constructor
    · rintro ⟨g, mem, there⟩
      exact ⟨g, (grown g).mpr (Or.inr mem), there⟩
    · rintro ⟨g, mem, there⟩
      exact ⟨g, old mem (Option.isSome_iff_exists.mpr ⟨v, there⟩), there⟩

variable [DecidableEq ι] [DecidableEq κ]

/-- A key is written in one part while no other holds it. -/
theorem write (s : Split parts c m) (mem : f ∈ parts) (value : Option β)
    (clear : ∀ g ∈ parts, g ≠ f → c g k = none) :
    Split parts (Function.update c f (Function.update (c f) k value))
      (Function.update m k value) := by
  have here : Function.update c f (Function.update (c f) k value) f k = value := by
    rw [Function.update_self, Function.update_self]
  have only : ∀ g ∈ parts, ∀ w,
      Function.update c f (Function.update (c f) k value) g k = some w → g = f := by
    intro g there w held
    by_contra other
    rw [Function.update_of_ne other, clear g there other] at held
    cases held
  have keeps : ∀ g l, l ≠ k →
      Function.update c f (Function.update (c f) k value) g l = c g l := by
    intro g l other
    by_cases same : g = f
    · rw [same, Function.update_self, Function.update_of_ne other]
    · rw [Function.update_of_ne same]
  constructor
  · intro g there g' there' l held held'
    by_cases same : l = k
    · subst same
      obtain ⟨w, holds⟩ := Option.isSome_iff_exists.mp held
      obtain ⟨w', holds'⟩ := Option.isSome_iff_exists.mp held'
      exact (only g there w holds).trans (only g' there' w' holds').symm
    · rw [keeps _ l same] at held held'
      exact s.single g there g' there' l held held'
  · intro l w
    by_cases same : l = k
    · subst same
      rw [Function.update_self]
      constructor
      · intro is
        exact ⟨f, mem, here.trans is⟩
      · rintro ⟨g, there, held⟩
        rw [only g there w held, here] at held
        exact held
    · rw [Function.update_of_ne same, s.found l w]
      simp only [keeps _ l same]

/-- A key is lost in one part. -/
theorem drop (s : Split parts c m) (mem : f ∈ parts) :
    ∃ m', (m' = m ∨ m' = Function.update m k none) ∧
      Split parts (Function.update c f (Function.update (c f) k none)) m' := by
  by_cases held : (c f k).isSome = true
  · refine ⟨_, Or.inr rfl, s.write mem none ?_⟩
    intro g there other
    by_contra some
    exact other (s.single g there f mem k (Option.isSome_iff_ne_none.mpr some) held)
  · have none : c f k = none := Option.not_isSome_iff_eq_none.mp held
    refine ⟨m, Or.inl rfl, ?_⟩
    rwa [← none, Function.update_eq_self, Function.update_eq_self]

end Split
end SplitMap
