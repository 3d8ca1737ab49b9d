import Mathlib.Data.Set.Insert
import Mathlib.Tactic.Common

/-! Sets of natural numbers kept as lists of `w`-bit words: position `i` is bit
`i % w` of word `i / w`. Positions past the last word are never members. -/
namespace WordBitmap

variable {w : ℕ}

/-- Read one position. -/
def test (ws : List (BitVec w)) (i : ℕ) : Bool :=
  match ws[i / w]? with
  | some word => word.getLsbD (i % w)
  | none => false

/-- The mask of bit `i % w`. -/
def mask (w i : ℕ) : BitVec w := 1#w <<< (i % w)

/-- Set one position. -/
def insert (ws : List (BitVec w)) (i : ℕ) : List (BitVec w) :=
  ws.modify (i / w) (fun word => word ||| mask w i)

/-- Clear one position. -/
def erase (ws : List (BitVec w)) (i : ℕ) : List (BitVec w) :=
  ws.modify (i / w) (fun word => word &&& ~~~mask w i)

/-- The positions a list of words denotes. -/
def members (ws : List (BitVec w)) : Set ℕ := { i | test ws i = true }

@[simp] theorem mem_members {ws : List (BitVec w)} {i : ℕ} :
    i ∈ members ws ↔ test ws i = true := Iff.rfl

@[simp] theorem length_insert (ws : List (BitVec w)) (i : ℕ) :
    (insert ws i).length = ws.length := by
  simp only [insert, List.length_modify]

theorem getLsbD_mask (i j : ℕ) (hw : 0 < w) :
    (mask w i).getLsbD (j % w) = decide (j % w = i % w) := by
  have hj := Nat.mod_lt j hw
  have hi := Nat.mod_lt i hw
  simp only [mask, BitVec.getLsbD_shiftLeft, BitVec.getLsbD_one]
  by_cases same : j % w = i % w
  · simp [same, hi, hw]
  · by_cases below : j % w < i % w
    · simp [same, below]
    · have apart : j % w - i % w ≠ 0 := by omega
      simp [same, below, apart]

theorem div_mod_inj {i j : ℕ} (hd : i / w = j / w) (hm : i % w = j % w) : i = j := by
  rw [← Nat.div_add_mod i w, ← Nat.div_add_mod j w, hd, hm]

/-- Writing a position inside the words adds exactly that position. -/
theorem test_insert {ws : List (BitVec w)} {i : ℕ} (hi : i < w * ws.length) (j : ℕ) :
    test (insert ws i) j = (decide (j = i) || test ws j) := by
  have hw : 0 < w := Nat.pos_of_ne_zero (by rintro rfl; simp at hi)
  have slot : i / w < ws.length := Nat.div_lt_of_lt_mul hi
  unfold test insert
  by_cases same : i / w = j / w
  · rw [← same, List.getElem?_modify_eq, List.getElem?_eq_getElem slot]
    simp only [Option.map_eq_map, Option.map_some, BitVec.getLsbD_or, getLsbD_mask i j hw]
    by_cases eq : j = i
    · simp [eq]
    · have differ : j % w ≠ i % w := fun hm => eq (div_mod_inj same.symm hm)
      simp [eq, differ]
  · have eq : j ≠ i := fun h => same (by rw [h])
    rw [List.getElem?_modify_ne _ _ same]
    simp [eq]

theorem members_insert {ws : List (BitVec w)} {i : ℕ} (hi : i < w * ws.length) :
    members (insert ws i) = Insert.insert i (members ws) := by
  ext j
  simp only [mem_members, Set.mem_insert_iff, test_insert hi, Bool.or_eq_true, decide_eq_true_eq]

@[simp] theorem length_erase (ws : List (BitVec w)) (i : ℕ) :
    (erase ws i).length = ws.length := by
  simp only [erase, List.length_modify]

/-- Clearing a position inside the words removes exactly that position. -/
theorem test_erase {ws : List (BitVec w)} {i : ℕ} (hi : i < w * ws.length) (j : ℕ) :
    test (erase ws i) j = (!decide (j = i) && test ws j) := by
  have hw : 0 < w := Nat.pos_of_ne_zero (by rintro rfl; simp at hi)
  have slot : i / w < ws.length := Nat.div_lt_of_lt_mul hi
  have bound := Nat.mod_lt j hw
  unfold test erase
  by_cases same : i / w = j / w
  · rw [← same, List.getElem?_modify_eq, List.getElem?_eq_getElem slot]
    simp only [Option.map_eq_map, Option.map_some, BitVec.getLsbD_and, BitVec.getLsbD_not,
      getLsbD_mask i j hw]
    by_cases eq : j = i
    · simp [eq]
    · have differ : j % w ≠ i % w := fun hm => eq (div_mod_inj same.symm hm)
      simp [eq, differ, bound]
  · have eq : j ≠ i := fun h => same (by rw [h])
    rw [List.getElem?_modify_ne _ _ same]
    simp [eq]

theorem members_erase {ws : List (BitVec w)} {i : ℕ} (hi : i < w * ws.length) :
    members (erase ws i) = members ws \ {i} := by
  ext j
  simp only [mem_members, Set.mem_sdiff, Set.mem_singleton_iff, test_erase hi, Bool.and_eq_true,
    Bool.not_eq_true', decide_eq_false_iff_not, and_comm]

@[simp] theorem test_replicate_zero (n i : ℕ) :
    test (List.replicate n (0#w)) i = false := by
  unfold test
  rw [List.getElem?_replicate]
  split_ifs <;> simp

@[simp] theorem members_replicate_zero (n : ℕ) :
    members (List.replicate n (0#w)) = ∅ := by
  ext i
  simp only [mem_members, test_replicate_zero, Set.mem_empty_iff_false, Bool.false_eq_true]

/-- Masking the word of a position leaves a non-zero value exactly when the position is set. -/
theorem and_mask_ne_zero_iff (word : BitVec w) (i : ℕ) (hw : 0 < w) :
    word &&& mask w i ≠ 0#w ↔ word.getLsbD (i % w) = true := by
  have hi := Nat.mod_lt i hw
  constructor
  · intro nonzero
    by_contra unset
    apply nonzero
    apply BitVec.eq_of_getLsbD_eq
    intro j hj
    have bit := getLsbD_mask i j hw
    rw [Nat.mod_eq_of_lt hj] at bit
    rw [BitVec.getLsbD_and, bit]
    by_cases eq : j = i % w
    · rw [eq]
      simp [Bool.not_eq_true _ ▸ unset]
    · simp [eq]
  · intro set zero
    have bit := congrArg (fun v => v.getLsbD (i % w)) zero
    simp [BitVec.getLsbD_and, set, getLsbD_mask i i hw] at bit

end WordBitmap
