import Mathlib.Data.List.TakeWhile
import Mathlib.Tactic.Common

/-! Texts cut up at a delimiter: its first place, and the token in front of it, as `strchr` and
`strtok_r` find them. -/
namespace Tokens

variable {α : Type*} [DecidableEq α]

/-- Where `d` occurs first. -/
def strchr (d : α) : List α → Option ℕ
  | [] => none
  | b :: text => if b = d then some 0 else (strchr d text).map (· + 1)

/-- The token that starts behind the delimiters in front, and what follows the delimiter that ends it. -/
def strtokR (d : α) (text : List α) : Option (List α) × List α :=
  if text.dropWhile (· = d) = [] then (none, [])
  else (some ((text.dropWhile (· = d)).takeWhile (· ≠ d)),
    ((text.dropWhile (· = d)).dropWhile (· ≠ d)).drop 1)

/-- The tokens that are taken one after another; `token` is the beginning of the next. -/
def tokens (d : α) (token : List α) : List α → List (List α)
  | [] => if token = [] then [] else [token]
  | b :: text =>
      if b = d then if token = [] then tokens d [] text else token :: tokens d [] text
      else tokens d (token ++ [b]) text

/-- One place is before another; a place that there is not comes before every place that there is. -/
def before : Option ℕ → Option ℕ → Bool
  | _, none => false
  | none, some _ => true
  | some i, some j => i < j

section Places

variable {d : α} {front text : List α}

@[simp] theorem before_none (i : Option ℕ) : before i none = false := by cases i <;> rfl

@[simp] theorem before_some (i j : ℕ) : before (some i) (some j) = decide (i < j) := rfl

@[simp] theorem none_before (j : ℕ) : before none (some j) = true := rfl

theorem strchr_eq_none : strchr d text = none ↔ d ∉ text := by
  induction text with
  | nil => simp [strchr]
  | cons b text ih =>
      rw [strchr]
      split_ifs with here
      · simp [here]
      · rw [Option.map_eq_none_iff, ih, List.mem_cons, not_or]
        exact ⟨fun away => ⟨fun same => here same.symm, away⟩, fun away => away.2⟩

theorem strchr_append (away : d ∉ front) (text : List α) :
    strchr d (front ++ text) = (strchr d text).map (· + front.length) := by
  induction front with
  | nil => simp
  | cons b front ih =>
      have apart : b ≠ d := fun same => away (same ▸ List.mem_cons_self)
      rw [List.cons_append, strchr, if_neg apart, ih fun mem => away (List.mem_cons_of_mem b mem),
        Option.map_map]
      rfl

theorem strchr_cons_self (d : α) (text : List α) : strchr d (d :: text) = some 0 := if_pos rfl

/-- Where the delimiter occurs first, if it is this one. -/
theorem strchr_of_append (away : d ∉ front) (text : List α) :
    strchr d (front ++ d :: text) = some front.length := by
  rw [strchr_append away, strchr_cons_self, Option.map_some, Nat.zero_add]

/-- The place lies in the front part when the delimiter does. -/
theorem strchr_lt (mem : d ∈ front) (text : List α) :
    ∃ i < front.length, strchr d (front ++ text) = some i := by
  obtain ⟨near, far, rfl, away⟩ := List.eq_append_cons_of_mem mem
  refine ⟨near.length, ?_, ?_⟩
  · rw [List.length_append, List.length_cons]
    omega
  · rw [List.append_assoc, List.cons_append, strchr_of_append away]

theorem strchr_append_of_mem (mem : d ∈ front) (text : List α) : strchr d (front ++ text) = strchr d front := by
  obtain ⟨near, far, rfl, away⟩ := List.eq_append_cons_of_mem mem
  rw [List.append_assoc, List.cons_append, strchr_of_append away, strchr_of_append away]

theorem ne_of_mem (away : d ∉ text) {b : α} (mem : b ∈ text) : decide (b ≠ d) = true := by
  apply decide_eq_true
  rintro rfl
  exact away mem

theorem takeWhile_away (away : d ∉ text) : text.takeWhile (· ≠ d) = text :=
  List.takeWhile_eq_self_iff.mpr fun _ mem => ne_of_mem away mem

theorem skip_nothing (some : front ≠ []) (away : d ∉ front) (text : List α) :
    (front ++ text).dropWhile (· = d) = front ++ text := by
  cases front with
  | nil => exact absurd rfl some
  | cons b front =>
      have apart := of_decide_eq_true (ne_of_mem away List.mem_cons_self)
      exact List.dropWhile_cons_of_neg (by simpa using apart)

theorem strtokR_of_append (some : front ≠ []) (away : d ∉ front) (text : List α) :
    strtokR d (front ++ d :: text) = (.some front, text) := by
  have token : (front ++ d :: text).takeWhile (· ≠ d) = front := by
    rw [List.takeWhile_append_of_pos fun b mem => ne_of_mem away mem]
    simp
  have rest : (front ++ d :: text).dropWhile (· ≠ d) = d :: text := by
    rw [List.dropWhile_append_of_pos fun b mem => ne_of_mem away mem]
    simp
  rw [strtokR, skip_nothing some away, token, rest, if_neg (List.append_ne_nil_of_left_ne_nil some _)]
  rfl

theorem strtokR_whole (some : text ≠ []) (away : d ∉ text) : strtokR d text = (.some text, []) := by
  have stays := skip_nothing some away []
  rw [List.append_nil] at stays
  have rest : text.dropWhile (· ≠ d) = [] := List.dropWhile_eq_nil_iff.mpr fun b mem => ne_of_mem away mem
  rw [strtokR, stays, takeWhile_away away, rest, if_neg some]
  rfl

/-- The token goes on up to the next delimiter. -/
theorem tokens_append {token : List α} (away : d ∉ front) (text : List α) :
    tokens d token (front ++ text) = tokens d (token ++ front) text := by
  induction front generalizing token with
  | nil => rw [List.nil_append, List.append_nil]
  | cons b front ih =>
      have apart := of_decide_eq_true (ne_of_mem away List.mem_cons_self)
      rw [List.cons_append, tokens, if_neg apart, ih fun mem => away (List.mem_cons_of_mem b mem),
        List.append_assoc]
      rfl

theorem tokens_cons (some : front ≠ []) (away : d ∉ front) (text : List α) :
    tokens d [] (front ++ d :: text) = front :: tokens d [] text := by
  rw [tokens_append away, List.nil_append, tokens, if_pos rfl, if_neg some]

theorem tokens_replicate (d : α) (n : ℕ) (text : List α) :
    tokens d [] (List.replicate n d ++ text) = tokens d [] text := by
  induction n with
  | zero => rfl
  | succ n ih =>
      rw [List.replicate_succ, List.cons_append, tokens, if_pos rfl, if_pos rfl]
      exact ih

/-- The last token, with delimiters behind it or none. -/
theorem tokens_last (some : front ≠ []) (away : d ∉ front) (n : ℕ) :
    tokens d [] (front ++ List.replicate n d) = [front] := by
  cases n with
  | zero => rw [tokens_append away, List.nil_append, List.replicate_zero, tokens, if_neg some]
  | succ n =>
      have rest := tokens_replicate d n []
      rw [List.append_nil] at rest
      rw [List.replicate_succ, tokens_cons some away, rest]
      rfl

/-- What is in front of the first place, and what follows from it. -/
theorem split_of_strchr {i : ℕ} (found : strchr d text = some i) :
    text.take i = text.takeWhile (· ≠ d) ∧ text.drop i = text.dropWhile (· ≠ d) := by
  have mem : d ∈ text := by
    by_contra away
    rw [strchr_eq_none.mpr away] at found
    cases found
  obtain ⟨near, far, rfl, away⟩ := List.eq_append_cons_of_mem mem
  rw [strchr_of_append away] at found
  cases found
  have kept : ∀ b ∈ near, decide (b ≠ d) = true := fun b mem => ne_of_mem away mem
  rw [List.take_left, List.drop_left, List.takeWhile_append_of_pos kept, List.dropWhile_append_of_pos kept]
  simp

theorem mem_of_strchr {i : ℕ} (found : strchr d text = some i) : d ∈ text := by
  by_contra away
  rw [strchr_eq_none.mpr away] at found
  cases found

theorem isSome_strchr : (strchr d text).isSome = true ↔ d ∈ text := by
  rw [Option.isSome_iff_ne_none, Ne, strchr_eq_none, not_not]

/-- One delimiter is found in front of another exactly when it is not only behind it. -/
theorem before_strchr {e : α} : before (strchr d text) (strchr e text) = true ↔
    e ∈ text ∧ (d ∈ text → d ∈ text.takeWhile (· ≠ e)) := by
  by_cases mem : e ∈ text
  · obtain ⟨near, far, rfl, away⟩ := List.eq_append_cons_of_mem mem
    have front : (near ++ e :: far).takeWhile (· ≠ e) = near := by
      rw [List.takeWhile_append_of_pos fun b mem => ne_of_mem away mem]
      simp
    rw [strchr_of_append away, front]
    by_cases first : d ∈ near
    · obtain ⟨i, low, there⟩ := strchr_lt first (e :: far)
      rw [there, before_some]
      exact iff_of_true (decide_eq_true low) ⟨mem, fun _ => first⟩
    · rw [strchr_append first]
      cases later : strchr d (e :: far) with
      | none =>
          have absent := strchr_eq_none.mp later
          refine iff_of_true rfl ⟨mem, fun found => ?_⟩
          exact absurd found (by rw [List.mem_append, not_or]; exact ⟨first, absent⟩)
      | some i =>
          rw [Option.map_some, before_some, decide_eq_true_iff]
          exact iff_of_false (by omega) fun both =>
            first (both.2 (List.mem_append_right _ (mem_of_strchr later)))
  · rw [strchr_eq_none.mpr mem, before_none]
    exact iff_of_false Bool.false_ne_true fun both => mem both.1

/-- A token is not empty. -/
theorem strtokR_ne_nil {token : List α} (is : (strtokR d text).1 = some token) : token ≠ [] := by
  rw [strtokR] at is
  split_ifs at is with none
  cases is
  obtain ⟨b, rest, shape⟩ := List.exists_cons_of_ne_nil none
  have stop := List.head?_dropWhile_not (fun c => decide (c = d)) text
  rw [shape] at stop ⊢
  have other : b ≠ d := of_decide_eq_false stop
  rw [List.takeWhile_cons_of_pos (by simpa using other)]
  exact List.cons_ne_nil _ _

/-- A token has no delimiter in it. -/
theorem not_mem_of_strtokR {token : List α} (is : (strtokR d text).1 = some token) : d ∉ token := by
  rw [strtokR] at is
  split_ifs at is with none
  cases is
  intro mem
  simpa using List.mem_takeWhile_imp mem

end Places

end Tokens
