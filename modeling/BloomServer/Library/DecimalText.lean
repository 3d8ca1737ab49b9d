import Mathlib.Data.List.TakeWhile
import Mathlib.Data.Nat.Log
import Mathlib.Tactic.Common
import Mathlib.Tactic.IntervalCases

/-! Decimal numbers as ASCII text: printing them, padding them to a width, and scanning them
back from the front of a longer text. -/
namespace DecimalText

def digit (d : ℕ) : UInt8 := UInt8.ofNat (48 + d)

def isDigit (b : UInt8) : Bool := 48 ≤ b && b ≤ 57

/-- `isspace` in the C locale. -/
def isBlank (b : UInt8) : Bool := b == 32 || (9 ≤ b && b ≤ 13)

/-- The decimal digits of a number, without leading zeros. -/
def decimal (n : ℕ) : List UInt8 := (Nat.toDigits 10 n).map fun c => UInt8.ofNat c.toNat

/-- The number that digits denote. -/
def value (text : List UInt8) : ℕ := text.foldl (fun v b => 10 * v + (b.toNat - 48)) 0

/-- `%d`: a sign for the negative numbers only. -/
def printInt (z : ℤ) : List UInt8 := if z < 0 then 45 :: decimal z.natAbs else decimal z.natAbs

/-- The text with blanks in front of it, up to a width. -/
def padLeft (width : ℕ) (text : List UInt8) : List UInt8 :=
  List.replicate (width - text.length) 32 ++ text

/-- The digits in front of a text, at most `limit` of them. -/
def digitsOf (limit : Option ℕ) (text : List UInt8) : List UInt8 :=
  limit.elim (text.takeWhile isDigit) fun width => (text.takeWhile isDigit).take width

/-- An unsigned number in front of a text, and what follows it. -/
def scanNat (limit : Option ℕ) (text : List UInt8) : Option (ℕ × List UInt8) :=
  let digits := digitsOf limit text
  if digits = [] then none else some (value digits, text.drop digits.length)

/-- `strtol` on the front of a text: blanks, a sign, digits. -/
def scanInt (limit : Option ℕ) (text : List UInt8) : Option (ℤ × List UInt8) :=
  match text.dropWhile isBlank with
  | [] => none
  | b :: rest =>
      if b = 45 then (scanNat (limit.map (· - 1)) rest).map fun p => (-(p.1 : ℤ), p.2)
      else if b = 43 then (scanNat (limit.map (· - 1)) rest).map fun p => ((p.1 : ℤ), p.2)
      else (scanNat limit (b :: rest)).map fun p => ((p.1 : ℤ), p.2)

theorem digitChar_eq {d : ℕ} (small : d < 10) : UInt8.ofNat (Nat.digitChar d).toNat = digit d := by
  interval_cases d <;> rfl

/-- The last digit comes off the end. -/
theorem decimal_eq (n : ℕ) :
    decimal n = if n < 10 then [digit n] else decimal (n / 10) ++ [digit (n % 10)] := by
  rw [decimal, Nat.toDigits_eq_if (by decide)]
  split_ifs with small
  · rw [List.map_singleton, digitChar_eq small]
  · rw [List.map_append, List.map_singleton, digitChar_eq (Nat.mod_lt n (by decide))]
    rfl

theorem toNat_digit {d : ℕ} (small : d < 10) : (digit d).toNat = 48 + d := by
  rw [digit, UInt8.toNat_ofNat']
  omega

theorem isDigit_digit {d : ℕ} (small : d < 10) : isDigit (digit d) = true := by
  simp only [isDigit, Bool.and_eq_true, decide_eq_true_eq, UInt8.le_iff_toNat_le, toNat_digit small]
  change 48 ≤ 48 + d ∧ 48 + d ≤ 57
  omega

theorem decimal_ne_nil (n : ℕ) : decimal n ≠ [] := by
  rw [decimal_eq]
  split_ifs <;> simp

theorem isDigit_of_mem_decimal {n : ℕ} {b : UInt8} (mem : b ∈ decimal n) : isDigit b = true := by
  induction n using Nat.strong_induction_on with
  | _ n ih =>
      rw [decimal_eq] at mem
      split_ifs at mem with small
      · rw [List.mem_singleton.mp mem]
        exact isDigit_digit small
      · rcases List.mem_append.mp mem with front | last
        · exact ih (n / 10) (by omega) front
        · rw [List.mem_singleton.mp last]
          exact isDigit_digit (Nat.mod_lt n (by decide))

theorem value_concat (text : List UInt8) {d : ℕ} (small : d < 10) :
    value (text ++ [digit d]) = 10 * value text + d := by
  simp only [value, List.foldl_append, List.foldl_cons, List.foldl_nil, toNat_digit small,
    Nat.add_sub_cancel_left]

theorem value_decimal (n : ℕ) : value (decimal n) = n := by
  induction n using Nat.strong_induction_on with
  | _ n ih =>
      rw [decimal_eq]
      split_ifs with small
      · exact (value_concat [] small).trans (Nat.zero_add n)
      · rw [value_concat _ (Nat.mod_lt n (by decide)), ih (n / 10) (by omega)]
        exact Nat.div_add_mod n 10

/-- Digits in front of a text count for more by its length. -/
theorem value_append (front text : List UInt8) :
    value (front ++ text) = value front * 10 ^ text.length + value text := by
  have general (v : ℕ) : text.foldl (fun v b => 10 * v + (b.toNat - 48)) v =
      v * 10 ^ text.length + value text := by
    unfold value
    induction text generalizing v with
    | nil => simp
    | cons b text ih =>
        rw [List.foldl_cons, List.foldl_cons, ih (10 * v + _), ih (10 * 0 + _), List.length_cons,
          Nat.pow_succ, Nat.add_mul, Nat.add_mul, Nat.mul_zero, Nat.zero_mul, Nat.zero_add,
          ← Nat.add_assoc, Nat.mul_comm 10 v, Nat.mul_assoc v 10, Nat.mul_comm 10]
  rw [value, List.foldl_append]
  exact general _

/-- So many digits make a number below the power of ten. -/
theorem value_lt {text : List UInt8} (digits : ∀ b ∈ text, isDigit b = true) :
    value text < 10 ^ text.length := by
  induction text with
  | nil => decide
  | cons b text ih =>
      have rest := ih fun c mem => digits c (List.mem_cons_of_mem b mem)
      have first := digits b List.mem_cons_self
      simp only [isDigit, Bool.and_eq_true, decide_eq_true_eq, UInt8.le_iff_toNat_le] at first
      have high : b.toNat ≤ 57 := first.2
      have one : value [b] ≤ 9 := by
        change 10 * 0 + (b.toNat - 48) ≤ 9
        omega
      have whole := value_append [b] text
      calc
        value (b :: text) = value [b] * 10 ^ text.length + value text := whole
        _ < value [b] * 10 ^ text.length + 10 ^ text.length := Nat.add_lt_add_left rest _
        _ = (value [b] + 1) * 10 ^ text.length := (Nat.succ_mul _ _).symm
        _ ≤ 10 * 10 ^ text.length := Nat.mul_le_mul_right _ (Nat.succ_le_succ one)
        _ = 10 ^ (b :: text).length := (Nat.pow_succ').symm

/-- Digits that are cut off at the end divide the number. -/
theorem value_take_decimal (n k : ℕ) :
    value ((decimal n).take ((decimal n).length - k)) = n / 10 ^ k := by
  induction k generalizing n with
  | zero => rw [Nat.sub_zero, List.take_length, value_decimal, Nat.pow_zero, Nat.div_one]
  | succ k ih =>
      rw [decimal_eq]
      split_ifs with small
      · have none : [digit n].length - (k + 1) = 0 := Nat.sub_eq_zero_of_le (Nat.le_add_left 1 k)
        rw [none, List.take_zero, Nat.pow_succ, Nat.div_eq_of_lt]
        · rfl
        · have one : 1 ≤ 10 ^ k := Nat.one_le_pow _ _ (by decide)
          omega
      · have shorter : (decimal (n / 10) ++ [digit (n % 10)]).length - (k + 1) =
            (decimal (n / 10)).length - k := by
          rw [List.length_append, List.length_singleton]
          omega
        rw [shorter, List.take_append_of_le_length (Nat.sub_le _ _), ih, Nat.div_div_eq_div_mul,
          ← Nat.pow_succ']

theorem length_decimal_le_iff {n k : ℕ} (positive : 0 < k) :
    (decimal n).length ≤ k ↔ n < 10 ^ k := by
  induction k generalizing n with
  | zero => cases positive
  | succ k ih =>
      rw [decimal_eq, Nat.pow_succ]
      split_ifs with small
      · have one : 1 ≤ 10 ^ k := Nat.one_le_pow _ _ (by decide)
        simp only [List.length_singleton, Nat.le_add_left, true_iff]
        omega
      · rw [List.length_append, List.length_singleton, Nat.add_le_add_iff_right]
        by_cases last : k = 0
        · subst last
          have some := List.length_pos_iff.mpr (decimal_ne_nil (n / 10))
          omega
        · rw [ih (Nat.pos_of_ne_zero last)]
          omega

theorem length_decimal_pos (n : ℕ) : 0 < (decimal n).length :=
  List.length_pos_iff.mpr (decimal_ne_nil n)

theorem length_padLeft {width : ℕ} {text : List UInt8} (fits : text.length ≤ width) :
    (padLeft width text).length = width := by
  rw [padLeft, List.length_append, List.length_replicate]
  omega

theorem takeWhile_decimal (n : ℕ) {c : UInt8} (stop : isDigit c = false) (rest : List UInt8) :
    (decimal n ++ c :: rest).takeWhile isDigit = decimal n := by
  rw [List.takeWhile_append_of_pos fun b mem => isDigit_of_mem_decimal mem,
    List.takeWhile_cons_of_neg (by rw [stop]; decide), List.append_nil]

/-- The digits behind the last character that is none. -/
theorem takeWhile_reverse_decimal (front : List UInt8) (n : ℕ) {c : UInt8}
    (stop : isDigit c = false) :
    (front ++ [c] ++ decimal n).reverse.takeWhile isDigit = (decimal n).reverse := by
  rw [List.reverse_append, List.reverse_append, List.reverse_singleton, List.singleton_append,
    List.takeWhile_append_of_pos, List.takeWhile_cons_of_neg (by rw [stop]; decide),
    List.append_nil]
  intro b mem
  exact isDigit_of_mem_decimal (List.mem_reverse.mp mem)

/-- A number at the end of a text can be told from every other one. -/
theorem eq_of_append_decimal {front front' : List UInt8} {n n' : ℕ} {c : UInt8}
    (stop : isDigit c = false)
    (same : front ++ [c] ++ decimal n = front' ++ [c] ++ decimal n') : n = n' := by
  have digits := takeWhile_reverse_decimal front n stop
  rw [same, takeWhile_reverse_decimal front' n' stop, List.reverse_inj] at digits
  rw [← value_decimal n, ← digits, value_decimal]

/-- A number in front of a character that is no digit is scanned as a whole. -/
theorem scanNat_decimal (limit : Option ℕ) (n : ℕ) {c : UInt8} (stop : isDigit c = false)
    (rest : List UInt8) (fits : ∀ width ∈ limit, (decimal n).length ≤ width) :
    scanNat limit (decimal n ++ c :: rest) = some (n, c :: rest) := by
  have all : digitsOf limit (decimal n ++ c :: rest) = decimal n := by
    cases limit with
    | none => exact takeWhile_decimal n stop rest
    | some width =>
        change ((decimal n ++ c :: rest).takeWhile isDigit).take width = _
        rw [takeWhile_decimal n stop rest]
        exact List.take_of_length_le (fits width rfl)
  unfold scanNat
  dsimp only
  rw [all, if_neg (decimal_ne_nil n), value_decimal, List.drop_left]

theorem isBlank_of_isDigit {b : UInt8} (h : isDigit b = true) :
    isBlank b = false ∧ b ≠ 45 ∧ b ≠ 43 := by
  simp only [isDigit, Bool.and_eq_true, decide_eq_true_eq, UInt8.le_iff_toNat_le] at h
  have low : 48 ≤ b.toNat := h.1
  refine ⟨?_, ?_, ?_⟩
  · simp only [isBlank, Bool.or_eq_false_iff, beq_eq_false_iff_ne, Bool.and_eq_false_iff,
      decide_eq_false_iff_not, UInt8.le_iff_toNat_le]
    refine ⟨?_, Or.inr ?_⟩
    · rintro rfl
      cases low
      contradiction
    · change ¬ b.toNat ≤ 13
      omega
  · rintro rfl
    exact absurd low (by decide)
  · rintro rfl
    exact absurd low (by decide)

theorem scanInt_digits {text : List UInt8} (digits : ∀ b ∈ text, isDigit b = true)
    (some : text ≠ []) (rest : List UInt8) :
    scanInt none (text ++ rest) = .some ((value (text ++ rest.takeWhile isDigit) : ℤ),
      (text ++ rest).drop (text ++ rest.takeWhile isDigit).length) := by
  have all : digitsOf none (text ++ rest) = text ++ rest.takeWhile isDigit :=
    List.takeWhile_append_of_pos digits
  have scanned : scanNat none (text ++ rest) = .some (value (text ++ rest.takeWhile isDigit),
      (text ++ rest).drop (text ++ rest.takeWhile isDigit).length) := by
    unfold scanNat
    dsimp only
    rw [all, if_neg (List.append_ne_nil_of_left_ne_nil some _)]
  cases text with
  | nil => exact absurd rfl some
  | cons b text =>
      obtain ⟨blank, minus, plus⟩ := isBlank_of_isDigit (digits b List.mem_cons_self)
      unfold scanInt
      rw [List.cons_append] at scanned ⊢
      rw [List.dropWhile_cons_of_neg (by rw [blank]; decide)]
      dsimp only
      rw [if_neg minus, if_neg plus, scanned, Option.map_some]

/-- The text of an integer is scanned back, also behind blanks. -/
theorem scanInt_printInt (limit : Option ℕ) (z : ℤ) {c : UInt8} (stop : isDigit c = false)
    (blanks : ℕ) (rest : List UInt8) (fits : ∀ width ∈ limit, (printInt z).length ≤ width) :
    scanInt limit (List.replicate blanks 32 ++ printInt z ++ c :: rest) = some (z, c :: rest) := by
  have skip (text : List UInt8) : (List.replicate blanks 32 ++ text).dropWhile isBlank =
      text.dropWhile isBlank := by
    apply List.dropWhile_append_of_pos
    intro b mem
    rw [List.eq_of_mem_replicate mem]
    rfl
  unfold scanInt
  rw [List.append_assoc, skip]
  unfold printInt at fits ⊢
  split_ifs at fits ⊢ with negative
  · have shorter : ∀ width ∈ limit.map (· - 1), (decimal z.natAbs).length ≤ width := by
      intro width mem
      obtain ⟨wide, there, rfl⟩ := Option.map_eq_some_iff.mp mem
      have room := fits wide there
      rw [List.length_cons] at room
      omega
    change ((scanNat (limit.map (· - 1)) (decimal z.natAbs ++ c :: rest)).map
      fun p => (-(p.1 : ℤ), p.2)) = _
    rw [scanNat_decimal _ z.natAbs stop rest shorter, Option.map_some]
    congr 2
    omega
  · cases shape : decimal z.natAbs with
    | nil => exact absurd shape (decimal_ne_nil _)
    | cons b digits =>
        have first : isDigit b = true := by
          apply isDigit_of_mem_decimal (n := z.natAbs)
          rw [shape]
          exact List.mem_cons_self
        obtain ⟨blank, minus, plus⟩ := isBlank_of_isDigit first
        have back := scanNat_decimal limit z.natAbs stop rest fits
        rw [shape] at back
        rw [List.cons_append] at back ⊢
        rw [List.dropWhile_cons_of_neg (by rw [blank]; decide)]
        dsimp only
        rw [if_neg minus, if_neg plus, back, Option.map_some]
        congr 2
        omega

/-- A padded integer is scanned back with the width it was padded to. -/
theorem scanInt_padLeft {width : ℕ} {z : ℤ} (fits : (printInt z).length ≤ width) {c : UInt8}
    (stop : isDigit c = false) (rest : List UInt8) :
    scanInt (some width) (padLeft width (printInt z) ++ c :: rest) = some (z, c :: rest) := by
  apply scanInt_printInt (some width) z stop
  intro w mem
  cases mem
  exact fits

end DecimalText
