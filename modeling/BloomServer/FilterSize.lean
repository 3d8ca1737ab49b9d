import BloomServer.FilterStore
import BloomServer.Library.BinaryRounding
import Mathlib.Data.Nat.Bitwise
import Mathlib.Data.UInt

/-! `calculate`: how many bits, probes and bytes a filter gets. -/
namespace BloomServer
open BinaryRounding (roundTo roundTo_of_lt lt_roundTo_add)

/-- The functions of the C mathematics library that `calculate` calls. -/
structure Libm where
  log : Float → Float
  exp : Float → Float
  ceil : Float → Float
  pow : Float → Float → Float

/-- `(int)f`, which C defines where the truncated value fits in an `int`. -/
def castInt (f : Float) : Int32 :=
  if f < 0 then -(-f).toUInt64.toUInt32.toInt32 else f.toUInt64.toUInt32.toInt32

/-- `(int)ceil(x * log(2))`. -/
def probeCount (L : Libm) (x : Nat) : Int32 := castInt (L.ceil (x.toFloat * L.log 2))

/-- `pow((1 - exp((double)(-kk) / x)), kk)`. -/
def falseRate (L : Libm) (x : Nat) (kk : Int32) : Float :=
  L.pow (1 - L.exp (Float.ofInt (-kk).toInt / x.toFloat)) (Float.ofInt kk.toInt)

/-- `for(x = 2; te > e && x < 100; x++)`, for at most `fuel` more rounds. -/
def sizingLoop (L : Libm) (e : Float) : Nat → Nat → Int32 → Float → Nat × Int32 × Float
  | 0, x, kk, te => (x, kk, te)
  | fuel + 1, x, kk, te =>
      if te > e ∧ x < 100 then
        let kk := probeCount L x
        sizingLoop L e fuel (x + 1) kk (falseRate L x kk)
      else (x, kk, te)

/-- `x`, `kk` and `te` after the loop; 98 rounds bring `x` from 2 to 100. -/
def sizing (L : Libm) (e : Float) : Nat × Int32 × Float := sizingLoop L e 98 2 0 1

structure Size where
  bytes : UInt64
  m : UInt64
  k : Int32
  e2 : Float

/-- What `bloom_init` passes in and `calculate` leaves alone when it returns 0. -/
def Size.refused : Size := ⟨0, 0, 0, 1⟩

/-- `(double)(x - 1) * n > (UINT64_RC)(-1)`; a double holds 53 significant bits. -/
def overflows (x : Nat) (n : UInt64) : Bool :=
  roundTo 53 (2 ^ 64 - 1) < roundTo 53 ((x - 1) * roundTo 53 n.toNat)

/-- `((mm + 0x1F) & (~0x1FULL)) >> 3`. -/
def bitBytes (mm : UInt64) : UInt64 := ((mm + 0x1F) &&& ~~~0x1F) >>> 3

def calculate (L : Libm) (n : UInt64) (e : Float) : Size :=
  let (x, kk, te) := sizing L e
  if overflows x n then Size.refused
  else
    let mm := UInt64.ofNat (x - 1) * n
    let bytes := bitBytes mm + sizeofBloom
    if bytes > 0xFFFFFFFFFFFFFFFF then Size.refused
    else ⟨bytes, mm, kk, te⟩

/-- The library on the arguments `calculate` passes for a false rate of one half: one round of
the loop, with `x = 2` and two probes. -/
def Libm.oneHalf : Libm where
  log _ := 0.6931471805599453
  exp _ := 0.36787944117144233
  ceil _ := 2
  pow _ _ := 0.39957640089372803

/-- The number of words `bloom_init` allocates for a filter of `bytes` bytes. -/
def wordsOf (bytes : UInt64) : Nat := ((bytes - sizeofBloom) / 4).toNat

theorem sizingLoop_bounds (L : Libm) (e : Float) (fuel x : Nat) (kk : Int32) (te : Float) :
    x ≤ (sizingLoop L e fuel x kk te).1 ∧ (sizingLoop L e fuel x kk te).1 ≤ x + fuel := by
  induction fuel generalizing x kk te with
  | zero => exact ⟨Nat.le_refl x, Nat.le_refl x⟩
  | succ fuel ih =>
      unfold sizingLoop
      split_ifs with continues
      · have rest := ih (x + 1) (probeCount L x) (falseRate L x (probeCount L x))
        constructor
        · exact (Nat.le_succ x).trans rest.1
        · exact rest.2.trans (by omega)
      · exact ⟨Nat.le_refl x, Nat.le_add_right x (fuel + 1)⟩

theorem sizing_bounds (L : Libm) (e : Float) : 2 ≤ (sizing L e).1 ∧ (sizing L e).1 ≤ 100 :=
  sizingLoop_bounds L e 98 2 0 1

theorem and_not_low_bits {y : Nat} (hy : y < 2 ^ 64) : y &&& (2 ^ 64 - 32) = y / 32 * 32 := by
  apply Nat.eq_of_testBit_eq
  intro i
  have mask : (2 ^ 64 - 32).testBit i = (decide (i < 64) && !decide (i < 5)) := by
    have := Nat.testBit_two_pow_sub_succ (x := 31) (n := 64) (by decide) i
    rw [show (31 : Nat) = 2 ^ 5 - 1 from rfl, Nat.testBit_two_pow_sub_one] at this
    exact this
  rw [Nat.testBit_and, mask, show (32 : Nat) = 2 ^ 5 from rfl, Nat.testBit_mul_two_pow,
    Nat.testBit_div_two_pow]
  by_cases low : i < 5
  · simp [low]
  · have high : 5 ≤ i := by omega
    rw [Nat.sub_add_cancel high]
    by_cases inside : i < 64
    · simp [low, high, inside]
    · have outside : y.testBit i = false :=
        Nat.testBit_lt_two_pow (hy.trans_le (Nat.pow_le_pow_right (by decide) (by omega)))
      simp [outside]

/-- The bytes of the bit vector: four for each started group of 32 bits, with the wrap of `mm + 0x1F`. -/
theorem toNat_bitBytes (mm : UInt64) : (bitBytes mm).toNat = 4 * ((mm + 0x1F).toNat / 32) := by
  have bound : (mm + 0x1F).toNat < 2 ^ 64 := UInt64.toNat_lt _
  have mask : (~~~(0x1F : UInt64)).toNat = 2 ^ 64 - 32 := by decide
  rw [bitBytes, UInt64.toNat_shiftRight, UInt64.toNat_and, mask, and_not_low_bits bound,
    Nat.shiftRight_eq_div_pow]
  change (mm + 0x1F).toNat / 32 * 32 / 8 = _
  omega

/-- `(x - 1) * n` as the code computes it, modulo `2^64`. -/
def bitsFor (L : Libm) (n : UInt64) (e : Float) : UInt64 :=
  UInt64.ofNat ((sizing L e).1 - 1) * n

theorem calculate_of_overflows {L : Libm} {n : UInt64} {e : Float}
    (h : overflows (sizing L e).1 n = true) : calculate L n e = Size.refused := by
  simp only [calculate, h, if_true]

theorem calculate_of_not_overflows {L : Libm} {n : UInt64} {e : Float}
    (h : overflows (sizing L e).1 n = false) :
    calculate L n e =
      ⟨bitBytes (bitsFor L n e) + sizeofBloom, bitsFor L n e, (sizing L e).2.1, (sizing L e).2.2⟩ := by
  have top : ¬ bitBytes (bitsFor L n e) + sizeofBloom > 0xFFFFFFFFFFFFFFFF := by
    intro above
    have lt := UInt64.lt_iff_toNat_lt.mp above
    have bound := UInt64.toNat_lt (bitBytes (bitsFor L n e) + sizeofBloom)
    change 2 ^ 64 - 1 < _ at lt
    omega
  unfold bitsFor at top
  simp only [calculate, h, Bool.false_eq_true, if_false, if_neg top, bitsFor]

/-- The size `calculate` returns never wraps: it is that of the `bloom_t` and of whole words. -/
theorem toNat_sizeBytes (mm : UInt64) :
    (bitBytes mm + sizeofBloom).toNat = 136 + 4 * ((mm + 0x1F).toNat / 32) := by
  have bound : (mm + 0x1F).toNat < 2 ^ 64 := UInt64.toNat_lt _
  rw [UInt64.toNat_add, toNat_bitBytes]
  change (4 * ((mm + 0x1F).toNat / 32) + 136) % 2 ^ 64 = _
  omega

theorem wordsOf_sizeBytes (mm : UInt64) :
    wordsOf (bitBytes mm + sizeofBloom) = (mm + 0x1F).toNat / 32 := by
  have back : bitBytes mm + sizeofBloom - sizeofBloom = bitBytes mm := by
    exact UInt64.add_sub_cancel _ _
  rw [wordsOf, back, UInt64.toNat_div, toNat_bitBytes]
  change 4 * ((mm + 0x1F).toNat / 32) / 4 = _
  omega

/-- Every size `calculate` accepts is that of the node plus its words, whatever wrapped before. -/
theorem calculate_bytes {L : Libm} {n : UInt64} {e : Float} (h : (calculate L n e).bytes ≠ 0) :
    (calculate L n e).bytes.toNat = 136 + 4 * wordsOf (calculate L n e).bytes := by
  cases large : overflows (sizing L e).1 n with
  | true => exact absurd (by rw [calculate_of_overflows large]; rfl) h
  | false => rw [calculate_of_not_overflows large, toNat_sizeBytes, wordsOf_sizeBytes]

/-- Sizes asked for with a positive `int` never overflow, in the comparison or in the product. -/
theorem calculate_of_small {L : Libm} {n : UInt64} {e : Float} (positive : 0 < n)
    (small : n < 2 ^ 31) :
    (calculate L n e).m ≠ 0 ∧
      (calculate L n e).m.toNat ≤ 32 * wordsOf (calculate L n e).bytes := by
  obtain ⟨low, high⟩ := sizing_bounds L e
  have lt : n.toNat < 2 ^ 31 := UInt64.lt_iff_toNat_lt.mp small
  have pos : 0 < n.toNat := UInt64.lt_iff_toNat_lt.mp positive
  have product : ((sizing L e).1 - 1) * n.toNat < 2 ^ 38 := by
    have step : ((sizing L e).1 - 1) * n.toNat ≤ 99 * n.toNat := Nat.mul_le_mul_right _ (by omega)
    omega
  have fits : overflows (sizing L e).1 n = false := by
    rw [overflows, roundTo_of_lt (lt.trans (by decide)), roundTo_of_lt (product.trans (by decide))]
    have top : 2 ^ 38 < roundTo 53 (2 ^ 64 - 1) := by decide
    exact decide_eq_false (by omega)
  have bits : (bitsFor L n e).toNat = ((sizing L e).1 - 1) * n.toNat := by
    rw [bitsFor, UInt64.toNat_mul, UInt64.toNat_ofNat']
    rw [Nat.mod_eq_of_lt (by omega : (sizing L e).1 - 1 < 2 ^ 64), Nat.mod_eq_of_lt (by omega)]
  have some : 0 < (bitsFor L n e).toNat := by
    rw [bits]
    exact Nat.mul_pos (by omega) pos
  rw [calculate_of_not_overflows fits]
  refine ⟨fun zero => ?_, ?_⟩
  · change bitsFor L n e = 0 at zero
    rw [zero] at some
    cases some
  · change (bitsFor L n e).toNat ≤ 32 * wordsOf (bitBytes (bitsFor L n e) + sizeofBloom)
    rw [wordsOf_sizeBytes, UInt64.toNat_add]
    change _ ≤ 32 * (((bitsFor L n e).toNat + 31) % 2 ^ 64 / 32)
    omega

end BloomServer
