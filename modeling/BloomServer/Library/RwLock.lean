import Mathlib.Data.List.Basic
import Mathlib.Tactic.Common

/-! A reader-writer lock, with threads of any type. Taking it yields `none` where the
caller has to wait; the thread that holds it for writing is refused and goes on. -/

structure RwLock (Thread : Type*) where
  writer : Option Thread
  readers : List Thread
  deriving DecidableEq

namespace RwLock

variable {Thread : Type*} [DecidableEq Thread]

def free : RwLock Thread := ⟨none, []⟩

def wrLock (t : Thread) (l : RwLock Thread) : Option (RwLock Thread) :=
  if l.writer = some t then some l
  else if l.writer = none ∧ l.readers = [] then some ⟨some t, []⟩
  else none

def rdLock (t : Thread) (l : RwLock Thread) : Option (RwLock Thread) :=
  if l.writer = some t then some l
  else if l.writer = none then some ⟨none, t :: l.readers⟩
  else none

def unlock (t : Thread) (l : RwLock Thread) : RwLock Thread :=
  if l.writer = some t then ⟨none, l.readers⟩ else ⟨l.writer, l.readers.erase t⟩

def HeldBy (t : Thread) (l : RwLock Thread) : Prop := l.writer = some t ∨ t ∈ l.readers

instance (t : Thread) (l : RwLock Thread) : Decidable (l.HeldBy t) := by
  unfold HeldBy
  infer_instance

variable (t : Thread)

omit [DecidableEq Thread] in
@[simp] theorem not_heldBy_free : ¬ (free : RwLock Thread).HeldBy t := by
  rintro (writer | reader)
  · cases writer
  · cases reader

@[simp] theorem wrLock_free : (free : RwLock Thread).wrLock t = some ⟨some t, []⟩ := rfl

@[simp] theorem rdLock_free : (free : RwLock Thread).rdLock t = some ⟨none, [t]⟩ := rfl

@[simp] theorem unlock_writer : (⟨some t, []⟩ : RwLock Thread).unlock t = free := by
  simp only [unlock, if_true, free]

@[simp] theorem unlock_reader : (⟨none, [t]⟩ : RwLock Thread).unlock t = free := by
  simp [unlock, free]

end RwLock
