import Mathlib.Data.List.Basic

/-! Searching a text for a pattern. -/
namespace TextSearch

variable {α : Type*} [DecidableEq α]

/-- Where the pattern occurs first. -/
def find (pattern : List α) : List α → Option ℕ
  | [] => if pattern = [] then some 0 else none
  | c :: text => if pattern <+: c :: text then some 0 else (find pattern text).map (· + 1)

/-- The first of the alternatives that a text starts with. -/
def firstMatch (patterns : List (List α)) (text : List α) : Option (List α) :=
  patterns.find? fun pattern => pattern <+: text

/-- Every match of one of the alternatives, from the left, is replaced; `skip` elements of a match are
still to be passed over. -/
def replaceFrom (patterns : List (List α)) (out : List α) (skip : ℕ) : List α → List α
  | [] => []
  | c :: text =>
      match skip with
      | skip + 1 => replaceFrom patterns out skip text
      | 0 =>
          match firstMatch patterns (c :: text) with
          | some pattern => out ++ replaceFrom patterns out (pattern.length - 1) text
          | none => c :: replaceFrom patterns out 0 text

section Search

variable {pattern text out : List α} {patterns : List (List α)} {b c : α}

theorem find_eq_none (missing : ∃ b ∈ pattern, b ∉ text) : find pattern text = none := by
  obtain ⟨b, mem, away⟩ := missing
  induction text with
  | nil => exact if_neg (List.ne_nil_of_mem mem)
  | cons c text ih =>
      rw [find, if_neg fun lead => away (lead.subset mem), ih fun there => away (List.mem_cons_of_mem c there)]
      rfl

theorem find_eq_some_iff {i : ℕ} : find pattern text = some i ↔
    pattern <+: text.drop i ∧ i ≤ text.length ∧ ∀ j < i, ¬ pattern <+: text.drop j := by
  induction text generalizing i with
  | nil =>
      rw [find, List.drop_nil, List.prefix_nil]
      split_ifs with nil
      · constructor
        · rintro ⟨⟩
          exact ⟨nil, Nat.le_refl 0, fun j below => absurd below (Nat.not_lt_zero j)⟩
        · rintro ⟨-, low, -⟩
          rw [Nat.le_zero.mp low]
      · exact iff_of_false (by simp) fun lead => nil lead.1
  | cons c text ih =>
      rw [find]
      split_ifs with lead
      · constructor
        · rintro ⟨⟩
          exact ⟨lead, Nat.zero_le _, fun j below => absurd below (Nat.not_lt_zero j)⟩
        · rintro ⟨-, -, first⟩
          cases i with
          | zero => rfl
          | succ i => exact absurd lead (first 0 (Nat.zero_lt_succ i))
      · constructor
        · intro found
          obtain ⟨k, here, rfl⟩ := Option.map_eq_some_iff.mp found
          obtain ⟨there, low, first⟩ := ih.mp here
          refine ⟨there, Nat.succ_le_succ low, fun j below => ?_⟩
          cases j with
          | zero => exact lead
          | succ j => exact first j (Nat.lt_of_succ_lt_succ below)
        · rintro ⟨there, low, first⟩
          cases i with
          | zero => exact absurd there lead
          | succ i =>
              have later (j : ℕ) (below : j < i) := first (j + 1) (Nat.succ_lt_succ below)
              rw [ih.mpr ⟨there, Nat.le_of_succ_le_succ low, later⟩]
              rfl

/-- A text is cut in three at the first occurrence. -/
theorem split_of_find {i : ℕ} (found : find pattern text = some i) :
    ∃ front rest, text = front ++ pattern ++ rest ∧ front.length = i := by
  obtain ⟨⟨rest, lead⟩, low, -⟩ := find_eq_some_iff.mp found
  refine ⟨text.take i, rest, ?_, by rw [List.length_take, Nat.min_eq_left low]⟩
  rw [List.append_assoc, lead, List.take_append_drop]

theorem find_at_start (lead : pattern <+: text) : find pattern text = some 0 :=
  find_eq_some_iff.mpr ⟨lead, Nat.zero_le _, fun j below => absurd below (Nat.not_lt_zero j)⟩

/-- Where the text goes on does not matter for what is found in it, if no match reaches over its end. -/
theorem find_append {rest : List α} {i : ℕ} (inside : i < text.length)
    (cut : ∀ j < text.length, pattern <+: (text ++ rest).drop j → pattern <+: text.drop j) :
    find pattern (text ++ rest) = some i ↔ find pattern text = some i := by
  have same : ∀ j < text.length, (pattern <+: (text ++ rest).drop j ↔ pattern <+: text.drop j) := by
    intro j below
    refine ⟨cut j below, fun lead => ?_⟩
    rw [List.drop_append_of_le_length (Nat.le_of_lt below)]
    exact lead.trans (List.prefix_append _ _)
  rw [find_eq_some_iff, find_eq_some_iff, same i inside, List.length_append]
  refine and_congr_right fun _ => and_congr (iff_of_true (by omega) (Nat.le_of_lt inside)) ?_
  exact forall₂_congr fun j below => not_congr (same j (Nat.lt_trans below inside))

/-- Places that are counted from further and further in front. -/
theorem map_add_map_add (place : Option ℕ) (i j : ℕ) :
    (place.map (j + ·)).map (i + ·) = place.map (i + j + ·) := by
  cases place with
  | none => rfl
  | some k => exact congrArg some (Nat.add_assoc i j k).symm

theorem find_cons_of_not (other : ¬ pattern <+: c :: text) :
    find pattern (c :: text) = (find pattern text).map (1 + ·) := by
  rw [find, if_neg other]
  cases find pattern text with
  | none => rfl
  | some k => exact congrArg some (Nat.add_comm k 1)

/-- What is in front of the first place where the pattern may begin is passed over. -/
theorem find_skip (away : b ∉ text) (rest : List α) :
    find (b :: pattern) (text ++ rest) = (find (b :: pattern) rest).map (text.length + ·) := by
  induction text with
  | nil => simp
  | cons c text ih =>
      have other : ¬ b :: pattern <+: c :: (text ++ rest) := by
        intro lead
        exact away (List.mem_cons.mpr (Or.inl (List.cons_prefix_cons.mp lead).1))
      rw [List.cons_append, find_cons_of_not other, ih fun mem => away (List.mem_cons_of_mem c mem),
        map_add_map_add, List.length_cons, Nat.add_comm 1]

omit [DecidableEq α] in
/-- Behind an element that no pattern has, nothing is matched. -/
theorem prefix_append_cons (away : c ∉ pattern) {rest : List α} :
    pattern <+: text ++ c :: rest ↔ pattern <+: text := by
  constructor
  · intro lead
    rcases List.prefix_or_prefix_of_prefix lead (List.prefix_append text (c :: rest)) with short | long
    · exact short
    · obtain ⟨more, rfl⟩ := long
      rw [List.prefix_append_right_inj] at lead
      cases more with
      | nil => simp
      | cons d more =>
          have same := (List.cons_prefix_cons.mp lead).1
          exact absurd (List.mem_append_right _ (same ▸ List.mem_cons_self)) away
  · intro lead
    exact lead.trans (List.prefix_append _ _)

/-- What a pattern does not have cuts a text in which it does not occur from the rest. -/
theorem find_append_cons (away : c ∉ pattern) (missing : find pattern text = none) (rest : List α) :
    find pattern (text ++ c :: rest) = (find pattern rest).map (text.length + 1 + ·) := by
  induction text with
  | nil =>
      have other : ¬ pattern <+: c :: rest := by
        intro lead
        cases pattern with
        | nil => cases missing
        | cons d pattern =>
            rw [(List.cons_prefix_cons.mp lead).1] at away
            exact away List.mem_cons_self
      exact find_cons_of_not other
  | cons d text ih =>
      have other : ¬ pattern <+: d :: text := by
        intro lead
        rw [find_at_start lead] at missing
        cases missing
      rw [find, if_neg other, Option.map_eq_none_iff] at missing
      have apart : ¬ pattern <+: d :: (text ++ c :: rest) := fun lead =>
        other ((prefix_append_cons away).mp (List.cons_append ▸ lead))
      rw [List.cons_append, find_cons_of_not apart, ih missing, map_add_map_add, List.length_cons,
        Nat.add_comm 1]

theorem firstMatch_append_cons (away : ∀ pattern ∈ patterns, c ∉ pattern) {rest : List α} :
    firstMatch patterns (text ++ c :: rest) = firstMatch patterns text := by
  unfold firstMatch
  induction patterns with
  | nil => rfl
  | cons pattern patterns ih =>
      have same : pattern <+: text ++ c :: rest ↔ pattern <+: text :=
        prefix_append_cons (away pattern List.mem_cons_self)
      rw [List.find?_cons, List.find?_cons, ih fun p mem => away p (List.mem_cons_of_mem _ mem)]
      simp only [same]

theorem lead_of_firstMatch (found : firstMatch patterns text = some pattern) :
    pattern ∈ patterns ∧ pattern <+: text := by
  have lead := List.find?_some found
  exact ⟨List.mem_of_find?_eq_some found, of_decide_eq_true lead⟩

theorem firstMatch_eq_none : firstMatch patterns text = none ↔ ∀ pattern ∈ patterns, ¬ pattern <+: text := by
  rw [firstMatch, List.find?_eq_none]
  simp only [decide_eq_true_eq]

theorem replaceFrom_none (none : firstMatch patterns (c :: text) = none) :
    replaceFrom patterns out 0 (c :: text) = c :: replaceFrom patterns out 0 text := by
  rw [replaceFrom, none]

theorem replaceFrom_some (found : firstMatch patterns (c :: text) = some pattern) :
    replaceFrom patterns out 0 (c :: text) = out ++ replaceFrom patterns out (pattern.length - 1) text := by
  rw [replaceFrom, found]

/-- An element that no pattern has cuts the text in two. -/
theorem replaceFrom_append (some : ∀ pattern ∈ patterns, pattern ≠ [])
    (away : ∀ pattern ∈ patterns, c ∉ pattern) {skip : ℕ} (low : skip ≤ text.length) (rest : List α) :
    replaceFrom patterns out skip (text ++ c :: rest) =
      replaceFrom patterns out skip text ++ c :: replaceFrom patterns out 0 rest := by
  induction text generalizing skip with
  | nil =>
      cases Nat.le_zero.mp low
      have none : firstMatch patterns (c :: rest) = none := by
        have same := @firstMatch_append_cons _ _ [] patterns c away rest
        rw [List.nil_append] at same
        rw [same, firstMatch_eq_none]
        intro pattern mem lead
        exact some pattern mem (List.prefix_nil.mp lead)
      exact replaceFrom_none none
  | cons b text ih =>
      cases skip with
      | succ skip => exact ih (Nat.le_of_succ_le_succ low)
      | zero =>
          have same := @firstMatch_append_cons _ _ (b :: text) patterns c away rest
          rw [List.cons_append] at same ⊢
          cases found : firstMatch patterns (b :: text) with
          | none =>
              rw [replaceFrom_none (same.trans found), replaceFrom_none found, ih (Nat.zero_le _)]
              rfl
          | some pattern =>
              have short := (lead_of_firstMatch found).2.length_le
              rw [List.length_cons] at short
              rw [replaceFrom_some (same.trans found), replaceFrom_some found,
                ih (Nat.sub_le_of_le_add short), List.append_assoc]

/-- Every match changes the length by the same, when all patterns are of one length. -/
theorem length_replaceFrom {n : ℕ} (size : ∀ pattern ∈ patterns, pattern.length = n) (some : 0 < n)
    {skip : ℕ} (inside : skip ≤ text.length) :
    ∃ k, (replaceFrom patterns out skip text).length + skip + k * n = text.length + k * out.length := by
  induction text generalizing skip with
  | nil => exact ⟨0, by simpa [replaceFrom] using inside⟩
  | cons c text ih =>
      cases skip with
      | succ skip =>
          obtain ⟨k, total⟩ := ih (Nat.le_of_succ_le_succ inside)
          refine ⟨k, ?_⟩
          rw [replaceFrom, List.length_cons]
          omega
      | zero =>
          cases found : firstMatch patterns (c :: text) with
          | none =>
              obtain ⟨k, total⟩ := ih (Nat.zero_le _)
              refine ⟨k, ?_⟩
              rw [replaceFrom_none found, List.length_cons, List.length_cons]
              omega
          | some pattern =>
              obtain ⟨mem, lead⟩ := lead_of_firstMatch found
              have short := lead.length_le
              rw [size pattern mem, List.length_cons] at short
              have rest : n - 1 ≤ text.length := by omega
              obtain ⟨k, total⟩ := ih rest
              refine ⟨k + 1, ?_⟩
              rw [replaceFrom_some found, size pattern mem, List.length_append, List.length_cons,
                Nat.succ_mul, Nat.succ_mul]
              omega

theorem le_length_replaceFrom (some : pattern ≠ []) (grow : pattern.length ≤ out.length) :
    text.length ≤ (replaceFrom [pattern] out 0 text).length := by
  have size : ∀ other ∈ [pattern], other.length = pattern.length := by simp
  obtain ⟨k, total⟩ : ∃ k, (replaceFrom [pattern] out 0 text).length + 0 + k * pattern.length = _ :=
    length_replaceFrom size (List.length_pos_iff.mpr some) (Nat.zero_le _)
  have more := Nat.mul_le_mul_left k grow
  omega

/-- What is to be passed over is passed over. -/
theorem replaceFrom_skip (front rest : List α) :
    replaceFrom patterns out front.length (front ++ rest) = replaceFrom patterns out 0 rest := by
  induction front with
  | nil => rfl
  | cons c front ih => exact ih

/-- Where the pattern occurs nowhere, nothing is replaced. -/
theorem replaceFrom_of_find_none (missing : find pattern text = none) :
    replaceFrom [pattern] out 0 text = text := by
  induction text with
  | nil => rfl
  | cons c text ih =>
      rw [find] at missing
      split_ifs at missing with lead
      have none : firstMatch [pattern] (c :: text) = none := by
        rw [firstMatch_eq_none]
        intro other mem
        rwa [List.mem_singleton.mp mem]
      rw [replaceFrom_none none, ih (Option.map_eq_none_iff.mp missing)]

/-- The first occurrence is replaced, and the scan goes on behind it. -/
theorem replaceFrom_of_find (some : pattern ≠ []) {front rest : List α}
    (found : find pattern (front ++ pattern ++ rest) = .some front.length) :
    replaceFrom [pattern] out 0 (front ++ pattern ++ rest) =
      front ++ out ++ replaceFrom [pattern] out 0 rest := by
  induction front with
  | nil =>
      obtain ⟨c, tail, rfl⟩ := List.exists_cons_of_ne_nil some
      have match' : firstMatch [c :: tail] (c :: (tail ++ rest)) = .some (c :: tail) := by
        rw [firstMatch, List.find?_cons_of_pos]
        exact decide_eq_true ⟨rest, rfl⟩
      change replaceFrom [c :: tail] out 0 (c :: (tail ++ rest)) = out ++ _
      rw [replaceFrom_some match', List.length_cons, Nat.add_sub_cancel, replaceFrom_skip]
  | cons c front ih =>
      simp only [List.cons_append, List.length_cons] at found ⊢
      rw [find] at found
      split_ifs at found with lead
      · cases found
      have none : firstMatch [pattern] (c :: (front ++ pattern ++ rest)) = none := by
        rw [firstMatch_eq_none]
        intro other mem
        rwa [List.mem_singleton.mp mem]
      obtain ⟨i, place, next⟩ := Option.map_eq_some_iff.mp found
      rw [replaceFrom_none none, ih (place.trans (congrArg Option.some (Nat.succ.inj next)))]

theorem mem_of_replaceFrom {skip : ℕ} (mem : b ∈ replaceFrom patterns out skip text) :
    b ∈ text ∨ b ∈ out := by
  induction text generalizing skip with
  | nil => cases mem
  | cons c text ih =>
      cases skip with
      | succ skip => exact (ih mem).imp_left (List.mem_cons_of_mem c)
      | zero =>
          cases found : firstMatch patterns (c :: text) with
          | none =>
              rw [replaceFrom_none found] at mem
              rcases List.mem_cons.mp mem with rfl | mem
              · exact Or.inl List.mem_cons_self
              · exact (ih mem).imp_left (List.mem_cons_of_mem c)
          | some pattern =>
              rw [replaceFrom_some found] at mem
              rcases List.mem_append.mp mem with mem | mem
              · exact Or.inr mem
              · exact (ih mem).imp_left (List.mem_cons_of_mem c)

/-- Where a pattern begins with an element of the text only if it is that element, they are replaced
one by one. -/
theorem replaceFrom_eq_flatMap (some : ∀ pattern ∈ patterns, pattern ≠ [])
    (single : ∀ b ∈ text, ∀ pattern ∈ patterns, pattern.head? = .some b → pattern = [b]) :
    replaceFrom patterns out 0 text = text.flatMap fun b => if [b] ∈ patterns then out else [b] := by
  induction text with
  | nil => rfl
  | cons b text ih =>
      have alone {pattern : List α} (there : pattern ∈ patterns) (lead : pattern <+: b :: text) :
          pattern = [b] := by
        obtain ⟨c, rest, rfl⟩ := List.exists_cons_of_ne_nil (some pattern there)
        have same := (List.cons_prefix_cons.mp lead).1
        exact single b List.mem_cons_self _ there (congrArg _ same)
      rw [List.flatMap_cons, ← ih fun b mem => single b (List.mem_cons_of_mem _ mem)]
      cases found : firstMatch patterns (b :: text) with
      | none =>
          have away : [b] ∉ patterns := fun mem =>
            firstMatch_eq_none.mp found [b] mem (List.prefix_append [b] text)
          rw [replaceFrom_none found, if_neg away]
          rfl
      | some pattern =>
          obtain ⟨there, lead⟩ := lead_of_firstMatch found
          have same := alone there lead
          subst same
          rw [replaceFrom_some found, if_pos there]
          rfl

end Search

end TextSearch
