import Mathlib.Logic.Function.Basic
import Mathlib.Tactic.Common

/-! What a thread does to locks, in the order it does it, and how often it holds each of them. -/
namespace LockTrace

variable {L : Type*} [DecidableEq L]

inductive LockOp (L : Type*)
  | lock (x : L)
  | unlock (x : L)
  deriving DecidableEq

abbrev Holds (L : Type*) := L → ℕ

def free : Holds L := fun _ => 0

/-- Giving up a lock that is not held has no result. -/
def step (held : Holds L) : LockOp L → Option (Holds L)
  | .lock x => some (Function.update held x (held x + 1))
  | .unlock x => if held x = 0 then none else some (Function.update held x (held x - 1))

def replay (held : Holds L) : List (LockOp L) → Option (Holds L)
  | [] => some held
  | op :: ops => (step held op).bind fun held => replay held ops

/-- One section under a lock. -/
def bracket (x : L) (ops : List (LockOp L)) : List (LockOp L) := .lock x :: ops ++ [.unlock x]

/-- Whatever a thread holds before, it holds afterwards. -/
def Neutral (ops : List (LockOp L)) : Prop := ∀ held, replay held ops = some held

variable {held : Holds L} {ops ops' : List (LockOp L)} {x : L}

theorem replay_append (held : Holds L) (ops ops' : List (LockOp L)) :
    replay held (ops ++ ops') = (replay held ops).bind fun held => replay held ops' := by
  induction ops generalizing held with
  | nil => rfl
  | cons op ops ih =>
      rw [List.cons_append, replay, replay]
      cases step held op with
      | none => rfl
      | some held => exact ih held

@[simp] theorem Neutral.nil : Neutral ([] : List (LockOp L)) := fun _ => rfl

theorem Neutral.append (first : Neutral ops) (second : Neutral ops') : Neutral (ops ++ ops') := by
  intro held
  rw [replay_append, first]
  exact second held

theorem Neutral.bracket (inside : Neutral ops) (x : L) :
    Neutral (LockTrace.bracket x ops) := by
  intro held
  have taken : replay held (LockTrace.bracket x ops) =
      replay (Function.update held x (held x + 1)) (ops ++ [.unlock x]) := rfl
  rw [taken, replay_append, inside]
  simp [replay, step]

/-- A release beyond what is held shows, whatever comes before it. -/
theorem Neutral.replay_unlock (before : Neutral ops) (x : L) :
    replay free (ops ++ .unlock x :: ops') = none := by
  rw [replay_append, before]
  rfl

/-- A loop whose rounds are neutral. -/
theorem Neutral.flatMap {α : Type*} {f : α → List (LockOp L)} (l : List α)
    (round : ∀ a ∈ l, Neutral (f a)) : Neutral (l.flatMap f) := by
  induction l with
  | nil => exact .nil
  | cons a l ih =>
      rw [List.flatMap_cons]
      apply (round a List.mem_cons_self).append
      exact ih fun b mem => round b (List.mem_cons_of_mem _ mem)

end LockTrace
