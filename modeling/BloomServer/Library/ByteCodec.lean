import Mathlib.Algebra.Group.Nat.Defs
import Mathlib.Tactic.Common

/-! Writing records into byte buffers and reading them back: little-endian numbers, and readers
that consume a prefix of their input. -/
namespace ByteCodec

/-- The `n` low bytes of a number, least significant first. -/
def toBytes : ℕ → ℕ → List UInt8
  | 0, _ => []
  | n + 1, v => UInt8.ofNat v :: toBytes n (v / 256)

/-- The number that bytes denote, least significant first. -/
def ofBytes : List UInt8 → ℕ
  | [] => 0
  | b :: bs => b.toNat + 256 * ofBytes bs

@[simp] theorem length_toBytes (n v : ℕ) : (toBytes n v).length = n := by
  induction n generalizing v with
  | zero => rfl
  | succ n ih => rw [toBytes, List.length_cons, ih]

theorem ofBytes_toBytes {n v : ℕ} (fits : v < 256 ^ n) : ofBytes (toBytes n v) = v := by
  induction n generalizing v with
  | zero => exact (Nat.lt_one_iff.mp fits).symm
  | succ n ih =>
      have high : v / 256 < 256 ^ n := by
        apply Nat.div_lt_of_lt_mul
        rw [← Nat.pow_succ']
        exact fits
      rw [toBytes, ofBytes, ih high, UInt8.toNat_ofNat']
      exact Nat.mod_add_div v 256

/-- A reader takes what it reads from the front of its input; `none` is a read past the end. -/
abbrev Reader (α : Type) := StateT (List UInt8) Option α

def take (n : ℕ) : Reader (List UInt8) := fun input =>
  if n ≤ input.length then some (input.take n, input.drop n) else none

/-- Whatever follows `bytes`, the reader takes exactly these and returns `a`. -/
def Reads {α : Type} (r : Reader α) (bytes : List UInt8) (a : α) : Prop :=
  ∀ rest, r (bytes ++ rest) = some (a, rest)

theorem bind_apply {σ α β : Type} (w : StateM σ α) (f : α → StateM σ β) (s : σ) :
    (w >>= f) s = f (w s).1 (w s).2 := rfl

theorem pure_apply {σ α : Type} (a : α) (s : σ) : (pure a : StateM σ α) s = (a, s) := rfl

/-- Read as many records as asked for. -/
def readMany {α : Type} (r : Reader α) : ℕ → Reader (List α)
  | 0 => pure []
  | n + 1 => do
      let a ← r
      let as ← readMany r n
      return a :: as

namespace Reads

variable {α β : Type} {r : Reader α} {a : α} {b : β} {bytes bytes' : List UInt8}

theorem pure (a : α) : Reads (Pure.pure a) [] a := fun _ => rfl

theorem bind {f : α → Reader β} (first : Reads r bytes a) (rest : Reads (f a) bytes' b) :
    Reads (r >>= f) (bytes ++ bytes') b := by
  intro tail
  change (r (bytes ++ bytes' ++ tail)).bind (fun p => f p.1 p.2) = _
  rw [List.append_assoc, first]
  exact rest tail

/-- The last step of a reader may compute without reading. -/
theorem bind_nil {f : α → Reader β} (first : Reads r bytes a) (rest : Reads (f a) [] b) :
    Reads (r >>= f) bytes b := by
  have whole := first.bind rest
  rw [List.append_nil] at whole
  exact whole

theorem lift {x : Option α} (value : x = some a) : Reads (liftM x) [] a := by
  intro rest
  rw [value]
  rfl

theorem unique (one : Reads r bytes a) {a' : α} (other : Reads r bytes a') : a = a' :=
  (Prod.mk.inj (Option.some.inj ((one []).symm.trans (other [])))).1

theorem take {n : ℕ} (size : bytes.length = n) : Reads (take n) bytes bytes := by
  intro rest
  have inside : n ≤ (bytes ++ rest).length := by
    rw [List.length_append]
    omega
  rw [ByteCodec.take, if_pos inside, List.take_left' size, List.drop_left' size]

/-- Records written one after another are read back one after another. -/
theorem many {γ : Type} {write : γ → List UInt8} {value : γ → α} (as : List γ)
    (each : ∀ a ∈ as, Reads r (write a) (value a)) :
    Reads (readMany r as.length) (as.flatMap write) (as.map value) := by
  induction as with
  | nil => exact .pure []
  | cons a as ih =>
      have rest := ih fun b mem => each b (List.mem_cons_of_mem a mem)
      exact (each a List.mem_cons_self).bind (rest.bind_nil (.pure _))

end Reads

end ByteCodec
