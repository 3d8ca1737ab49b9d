import Mathlib.Data.Nat.Size
import Mathlib.Tactic.Ring
import Mathlib.Tactic.Common

/-! Rounding of natural numbers to `p` significant binary digits, to nearest with
ties to even, as the conversion to a binary floating-point format does. -/
namespace BinaryRounding

/-- The number of low binary digits that do not fit in `p` significant ones. -/
def excess (p x : ℕ) : ℕ := x.size - p

/-- Nearest value with `p` significant binary digits, ties to even. -/
def roundTo (p x : ℕ) : ℕ :=
  let unit := 2 ^ excess p x
  let low := x / unit
  let rest := x % unit
  if unit < 2 * rest ∨ (unit = 2 * rest ∧ low % 2 = 1) then (low + 1) * unit else low * unit

theorem excess_eq_zero {p x : ℕ} (h : x < 2 ^ p) : excess p x = 0 :=
  Nat.sub_eq_zero_of_le (Nat.size_le.mpr h)

theorem excess_le {p k x : ℕ} (h : x < 2 ^ k) : excess p x ≤ k - p :=
  Nat.sub_le_sub_right (Nat.size_le.mpr h) p

/-- Numbers of at most `p` binary digits are representable. -/
theorem roundTo_of_lt {p x : ℕ} (h : x < 2 ^ p) : roundTo p x = x := by
  simp [roundTo, excess_eq_zero h, Nat.mod_one]

/-- Rounding loses less than one unit in the last place. -/
theorem lt_roundTo_add {p k x : ℕ} (h : x < 2 ^ k) : x < roundTo p x + 2 ^ (k - p) := by
  have small : 2 ^ excess p x ≤ 2 ^ (k - p) := Nat.pow_le_pow_right (by decide) (excess_le h)
  have positive : 0 < 2 ^ excess p x := Nat.pow_pos (by decide)
  have cut := Nat.div_add_mod x (2 ^ excess p x)
  have rest := Nat.mod_lt x positive
  have scale : 2 ^ excess p x * (x / 2 ^ excess p x) = x / 2 ^ excess p x * 2 ^ excess p x :=
    Nat.mul_comm _ _
  have bump : (x / 2 ^ excess p x + 1) * 2 ^ excess p x =
      x / 2 ^ excess p x * 2 ^ excess p x + 2 ^ excess p x := Nat.succ_mul _ _
  unfold roundTo
  dsimp only
  split_ifs <;> omega

/-- Rounding gains at most half a unit in the last place. -/
theorem roundTo_le_add {p k x : ℕ} (h : x < 2 ^ k) : roundTo p x ≤ x + 2 ^ (k - p) := by
  have small : 2 ^ excess p x ≤ 2 ^ (k - p) := Nat.pow_le_pow_right (by decide) (excess_le h)
  have cut := Nat.div_add_mod x (2 ^ excess p x)
  have scale : 2 ^ excess p x * (x / 2 ^ excess p x) = x / 2 ^ excess p x * 2 ^ excess p x :=
    Nat.mul_comm _ _
  have bump : (x / 2 ^ excess p x + 1) * 2 ^ excess p x =
      x / 2 ^ excess p x * 2 ^ excess p x + 2 ^ excess p x := Nat.succ_mul _ _
  unfold roundTo
  dsimp only
  split_ifs <;> omega

end BinaryRounding
