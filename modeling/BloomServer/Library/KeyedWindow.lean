import Mathlib.Logic.Function.Basic
import Mathlib.Tactic.Common

/-! Threads that are each between two steps for a key, or between none: a check and the action that
relies on it are safe against one another if no two threads are there for one key. -/
namespace KeyedWindow

variable {T K : Type*} {w : T → Option K} {t u : T} {k : K}

/-- Of the threads at most one is in the window of a key. -/
def Alone (w : T → Option K) : Prop := ∀ t u k, w t = some k → w u = some k → t = u

/-- No thread is in the window of a key with a property. -/
def Outside (w : T → Option K) (P : K → Prop) : Prop := ∀ t k, w t = some k → ¬ P k

theorem Alone.other (alone : Alone w) (here : w t = some k) (ne : u ≠ t) : w u ≠ some k :=
  fun there => ne (alone u t k there here)

theorem Outside.mono {P Q : K → Prop} (out : Outside w P) (sub : ∀ k, Q k → P k) : Outside w Q :=
  fun t k here holds => out t k here (sub k holds)

/-- A property may come to hold of a key if the only thread in its window is known. -/
theorem Outside.extend {P : K → Prop} (out : Outside w P) (free : ∀ u, w u ≠ some k) :
    Outside w (fun k' => k' = k ∨ P k') := by
  rintro u k' there (rfl | holds)
  · exact free u there
  · exact out u k' there holds

variable [DecidableEq T]

theorem Alone.enter (alone : Alone w) (free : ∀ u, w u ≠ some k) :
    Alone (Function.update w t (some k)) := by
  have outside : ∀ u k', Function.update w t (some k) u = some k' → u ≠ t → k' ≠ k := by
    rintro u k' there ne rfl
    rw [Function.update_of_ne ne] at there
    exact free u there
  intro u v k' first second
  by_cases here : u = t
  · subst here
    rw [Function.update_self] at first
    cases first
    by_contra ne
    exact outside v k second (Ne.symm ne) rfl
  · by_cases there : v = t
    · subst there
      rw [Function.update_self] at second
      cases second
      exact absurd rfl (outside u k first here)
    · rw [Function.update_of_ne here] at first
      rw [Function.update_of_ne there] at second
      exact alone u v k' first second

theorem update_none (there : Function.update w t none u = some k) : u ≠ t ∧ w u = some k := by
  by_cases same : u = t
  · subst same
    rw [Function.update_self] at there
    cases there
  · rw [Function.update_of_ne same] at there
    exact ⟨same, there⟩

theorem Alone.leave (alone : Alone w) : Alone (Function.update w t none) := by
  intro u v k first second
  exact alone u v k (update_none first).2 (update_none second).2

theorem Outside.enter {P : K → Prop} (out : Outside w P) (clear : ¬ P k) :
    Outside (Function.update w t (some k)) P := by
  intro u k' there
  by_cases same : u = t
  · subst same
    rw [Function.update_self] at there
    cases there
    exact clear
  · rw [Function.update_of_ne same] at there
    exact out u k' there

theorem Outside.leave {P : K → Prop} (out : Outside w P) :
    Outside (Function.update w t none) P :=
  fun u k there => out u k (update_none there).2

/-- Once a thread has left the window of a key, nobody is in it. -/
theorem Alone.free_after (alone : Alone w) (here : w t = some k) (u : T) :
    Function.update w t none u ≠ some k := by
  intro there
  obtain ⟨ne, old⟩ := update_none there
  exact alone.other here ne old

end KeyedWindow
