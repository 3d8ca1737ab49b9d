import BloomServer.Library.DecimalText
import Mathlib.Data.List.Basic
import Mathlib.Tactic.Common

/-! Extended regular expressions of POSIX without alternatives: what they match, how short a match is, and how
they are read from bytes. -/
namespace PosixEre
open DecimalText

/-- The expressions, with the anchors `^` and `$`. -/
inductive Ere (α : Type*)
  | nil
  | one (p : α → Bool)
  | start
  | stop
  | cat (e f : Ere α)
  | rep (e : Ere α) (lo : ℕ) (hi : Option ℕ)

section Meaning

variable {α : Type*}

/-- A relation between a text and what is in front of it and behind it, so many times in a row. -/
def Iter (R : List α → List α → List α → Prop) : ℕ → List α → List α → List α → Prop
  | 0, _, w, _ => w = []
  | n + 1, front, w, behind =>
      ∃ u v, w = u ++ v ∧ R front u (v ++ behind) ∧ Iter R n (front ++ u) v behind

theorem le_of_iter {R : List α → List α → List α → Prop} {k n : ℕ} {front w behind : List α}
    (each : ∀ front w behind, R front w behind → k ≤ w.length) (iter : Iter R n front w behind) :
    n * k ≤ w.length := by
  induction n generalizing front w with
  | zero =>
      rw [Nat.zero_mul]
      exact Nat.zero_le _
  | succ n ih =>
      obtain ⟨u, v, rfl, first, second⟩ := iter
      have one := each _ _ _ first
      have rest := ih second
      rw [List.length_append, Nat.succ_mul]
      omega

namespace Ere

/-- A text is matched between what is in front of it and what is behind it. -/
def Matches : Ere α → List α → List α → List α → Prop
  | nil, _, w, _ => w = []
  | one p, _, w, _ => ∃ c, p c = true ∧ w = [c]
  | start, front, w, _ => front = [] ∧ w = []
  | stop, _, w, behind => behind = [] ∧ w = []
  | cat e f, front, w, behind =>
      ∃ u v, w = u ++ v ∧ e.Matches front u (v ++ behind) ∧ f.Matches (front ++ u) v behind
  | rep e lo hi, front, w, behind => ∃ n, lo ≤ n ∧ (∀ m ∈ hi, n ≤ m) ∧ Iter e.Matches n front w behind

/-- There is a match somewhere in a text. -/
def Finds (e : Ere α) (text : List α) : Prop :=
  ∃ front w behind, text = front ++ (w ++ behind) ∧ e.Matches front w behind

/-- The length of the shortest match, if there is a match. -/
def least : Ere α → ℕ
  | nil => 0
  | one _ => 1
  | start => 0
  | stop => 0
  | cat e f => e.least + f.least
  | rep e lo _ => lo * e.least

variable {e f : Ere α} {front w behind : List α}

theorem least_le (found : e.Matches front w behind) : e.least ≤ w.length := by
  induction e generalizing front w behind with
  | nil => exact Nat.zero_le _
  | one p =>
      obtain ⟨c, -, rfl⟩ := found
      exact Nat.le_refl 1
  | start => exact Nat.zero_le _
  | stop => exact Nat.zero_le _
  | cat e f ihe ihf =>
      obtain ⟨u, v, rfl, first, second⟩ := found
      rw [List.length_append]
      exact Nat.add_le_add (ihe first) (ihf second)
  | rep e lo hi ih =>
      obtain ⟨n, low, -, iter⟩ := found
      exact (Nat.mul_le_mul_right _ low).trans (le_of_iter (fun _ _ _ => ih) iter)

/-- A text matched whatever is around it, as long as nothing appears where there was nothing. -/
def Serves (e : Ere α) (front behind w : List α) : Prop :=
  ∀ front' behind', (front = [] → front' = []) → (behind = [] → behind' = []) → e.Matches front' w behind'

theorem nil_of_least {text text' : List α} (empty : text = []) (short : text'.length ≤ text.length) :
    text' = [] := by
  rw [empty] at short
  exact List.eq_nil_of_length_eq_zero (Nat.le_zero.mp short)

/-- The first few of the texts matched in a row, each made as short as it can be. -/
theorem exists_iter_least
    (each : ∀ {front w behind}, e.Matches front w behind →
      ∃ w', w'.length = e.least ∧ e.Serves front behind w')
    {n lo : ℕ} (low : lo ≤ n) (iter : Iter e.Matches n front w behind) :
    ∃ w', w'.length = lo * e.least ∧ ∀ front' behind', (front = [] → front' = []) →
      (behind = [] → behind' = []) → Iter e.Matches lo front' w' behind' := by
  induction lo generalizing n front w with
  | zero => exact ⟨[], by rw [Nat.zero_mul]; rfl, fun _ _ _ _ => rfl⟩
  | succ lo ih =>
      cases n with
      | zero => cases low
      | succ n =>
          obtain ⟨u, v, rfl, first, second⟩ := iter
          obtain ⟨u', shortU, servesU⟩ := each first
          obtain ⟨v', shortV, servesV⟩ := ih (Nat.le_of_succ_le_succ low) second
          have enough := le_of_iter (fun _ _ _ => least_le) second
          have fewer := Nat.mul_le_mul_right e.least (Nat.le_of_succ_le_succ low)
          refine ⟨u' ++ v', ?_, fun front' behind' before after => ?_⟩
          · rw [List.length_append, shortU, shortV, Nat.succ_mul, Nat.add_comm]
          · refine ⟨u', v', rfl, servesU _ _ before fun nothing => ?_, servesV _ _ (fun nothing => ?_) after⟩
            · obtain ⟨emptyV, emptyB⟩ := List.append_eq_nil_iff.mp nothing
              rw [nil_of_least emptyV (shortV.le.trans (fewer.trans enough)), after emptyB]
              rfl
            · obtain ⟨emptyF, emptyU⟩ := List.append_eq_nil_iff.mp nothing
              rw [nil_of_least emptyU (shortU.le.trans (least_le first)), before emptyF]
              rfl

/-- What is matched at all is matched by a text of the least length, in the place of the other. -/
theorem exists_least (found : e.Matches front w behind) :
    ∃ w', w'.length = e.least ∧ e.Serves front behind w' := by
  induction e generalizing front w behind with
  | nil => exact ⟨[], rfl, fun _ _ _ _ => rfl⟩
  | one p =>
      obtain ⟨c, accepted, -⟩ := found
      exact ⟨[c], rfl, fun _ _ _ _ => ⟨c, accepted, rfl⟩⟩
  | start =>
      obtain ⟨nothing, -⟩ := found
      exact ⟨[], rfl, fun _ _ before _ => ⟨before nothing, rfl⟩⟩
  | stop =>
      obtain ⟨nothing, -⟩ := found
      exact ⟨[], rfl, fun _ _ _ after => ⟨after nothing, rfl⟩⟩
  | cat e f ihe ihf =>
      obtain ⟨u, v, rfl, first, second⟩ := found
      obtain ⟨u', shortU, servesU⟩ := ihe first
      obtain ⟨v', shortV, servesV⟩ := ihf second
      refine ⟨u' ++ v', by rw [List.length_append, shortU, shortV]; rfl, fun front' behind' before after => ?_⟩
      refine ⟨u', v', rfl, servesU _ _ before fun nothing => ?_, servesV _ _ (fun nothing => ?_) after⟩
      · obtain ⟨emptyV, emptyB⟩ := List.append_eq_nil_iff.mp nothing
        rw [nil_of_least emptyV (shortV.le.trans (least_le second)), after emptyB]
        rfl
      · obtain ⟨emptyF, emptyU⟩ := List.append_eq_nil_iff.mp nothing
        rw [nil_of_least emptyU (shortU.le.trans (least_le first)), before emptyF]
        rfl
  | rep e lo hi ih =>
      obtain ⟨n, low, high, iter⟩ := found
      obtain ⟨w', short, serves⟩ := exists_iter_least (fun found => ih found) low iter
      refine ⟨w', short, fun front' behind' before after => ?_⟩
      exact ⟨lo, Nat.le_refl lo, fun m mem => low.trans (high m mem), serves _ _ before after⟩

/-- Expressions one after another. -/
def seq : List (Ere α) → Ere α
  | [] => nil
  | e :: es => cat e (seq es)

variable {es fs : List (Ere α)}

theorem matches_seq_append : (seq (es ++ fs)).Matches front w behind ↔
    ∃ u v, w = u ++ v ∧ (seq es).Matches front u (v ++ behind) ∧ (seq fs).Matches (front ++ u) v behind := by
  induction es generalizing front w with
  | nil =>
      constructor
      · intro found
        exact ⟨[], w, rfl, rfl, by rw [List.append_nil]; exact found⟩
      · rintro ⟨u, v, rfl, rfl, found⟩
        rw [List.append_nil] at found
        exact found
  | cons e es ih =>
      constructor
      · rintro ⟨u, rest, rfl, first, others⟩
        obtain ⟨v, x, rfl, second, third⟩ := ih.mp others
        refine ⟨u ++ v, x, (List.append_assoc u v x).symm, ⟨u, v, rfl, ?_, second⟩, ?_⟩
        · rwa [List.append_assoc] at first
        · rwa [List.append_assoc] at third
      · rintro ⟨-, x, rfl, ⟨u, v, rfl, first, second⟩, third⟩
        refine ⟨u, v ++ x, List.append_assoc u v x, ?_, ih.mpr ⟨v, x, rfl, second, ?_⟩⟩
        · rwa [List.append_assoc]
        · rwa [List.append_assoc]

theorem matches_seq_singleton : (seq [e]).Matches front w behind ↔ e.Matches front w behind := by
  constructor
  · rintro ⟨u, v, rfl, found, rfl⟩
    rw [List.append_nil]
    exact found
  · intro found
    exact ⟨w, [], (List.append_nil w).symm, found, rfl⟩

/-- Single characters in a row are a text of such characters. -/
theorem iter_one {p : α → Bool} {n : ℕ} :
    Iter (one p).Matches n front w behind ↔ w.length = n ∧ ∀ c ∈ w, p c = true := by
  induction n generalizing front w with
  | zero =>
      constructor
      · rintro rfl
        exact ⟨rfl, fun c absent => absurd absent List.not_mem_nil⟩
      · rintro ⟨empty, -⟩
        exact List.eq_nil_of_length_eq_zero empty
  | succ n ih =>
      constructor
      · rintro ⟨-, v, rfl, ⟨c, accepted, rfl⟩, rest⟩
        obtain ⟨length, all⟩ := ih.mp rest
        exact ⟨congrArg (· + 1) length, List.forall_mem_cons.mpr ⟨accepted, all⟩⟩
      · rintro ⟨length, all⟩
        cases w with
        | nil => cases length
        | cons c w =>
            obtain ⟨accepted, all⟩ := List.forall_mem_cons.mp all
            exact ⟨[c], w, rfl, ⟨c, accepted, rfl⟩, ih.mpr ⟨Nat.succ.inj length, all⟩⟩

/-- Between the anchors the whole text is matched. -/
theorem finds_anchored {text : List α} :
    (seq (start :: (es ++ [stop]))).Finds text ↔ (seq es).Matches [] text [] := by
  constructor
  · rintro ⟨front, -, behind, rfl, -, rest, rfl, ⟨rfl, rfl⟩, others⟩
    obtain ⟨u, v, rfl, found, -, x, rfl, ⟨nothing, rfl⟩, last⟩ := matches_seq_append.mp others
    cases last
    cases nothing
    simpa only [List.append_nil, List.nil_append] using found
  · intro found
    refine ⟨[], text, [], by simp, [], text, rfl, ⟨rfl, rfl⟩, matches_seq_append.mpr ?_⟩
    exact ⟨text, [], (List.append_nil text).symm, found, [], [], rfl, ⟨rfl, rfl⟩, rfl⟩

theorem least_seq_append : (seq (es ++ fs)).least = (seq es).least + (seq fs).least := by
  induction es with
  | nil => exact (Nat.zero_add _).symm
  | cons e es ih => exact (congrArg (e.least + ·) ih).trans (Nat.add_assoc _ _ _).symm

end Ere

end Meaning

/-! ### Reading an expression -/

section Reading

/-- What is written at a place: an expression that can be repeated, an anchor, a number of repetitions, or a
bracket of a group. -/
inductive Mark
  | item (e : Ere UInt8)
  | anchor (e : Ere UInt8)
  | dup (lo : ℕ) (hi : Option ℕ)
  | opening
  | closing

/-- The ends of the ranges in a bracket expression; a byte of its own is a range. -/
def ranges : List UInt8 → List (UInt8 × UInt8)
  | a :: dash :: b :: rest =>
      if dash = 45 then (a, b) :: ranges rest else (a, a) :: ranges (dash :: b :: rest)
  | a :: rest => (a, a) :: ranges rest
  | [] => []

/-- A bracket expression behind its `'['`, in the order of the bytes, and its length up to the `']'`, which
stands for itself where it comes first. Classes with a name are left out. -/
def bracket (text : List UInt8) : Option (Mark × ℕ) :=
  let negated := text.head? = some 94
  let text := if negated then text.drop 1 else text
  let items := text.take 1 ++ (text.drop 1).takeWhile (· ≠ 93)
  if items.length < text.length ∧ 91 ∉ items then
    some (.item (.one fun c => xor negated ((ranges items).any fun r => r.1 ≤ c && c ≤ r.2)),
      (if negated then 1 else 0) + items.length + 1)
  else none

/-- The bounds behind a `'{'`, and their length up to the `'}'`. -/
def interval (text : List UInt8) : Option (Mark × ℕ) :=
  let bounds := text.takeWhile (· ≠ 125)
  let lo := bounds.takeWhile isDigit
  let hi := bounds.dropWhile isDigit
  if lo = [] ∨ bounds.length = text.length then none
  else if hi = [] then some (.dup (value lo) (some (value lo)), bounds.length + 1)
  else if hi = [44] then some (.dup (value lo) none, bounds.length + 1)
  else if hi.head? = some 44 ∧ (hi.drop 1).all isDigit then
    some (.dup (value lo) (some (value (hi.drop 1))), bounds.length + 1)
  else none

/-- What a byte in front of others writes, and how many of these belong to it. -/
def markAt (c : UInt8) (rest : List UInt8) : Option (Mark × ℕ) :=
  if c = 92 then rest.head?.map fun d => (.item (.one (· = d)), 1)
  else if c = 46 then some (.item (.one fun _ => true), 0)
  else if c = 42 then some (.dup 0 none, 0)
  else if c = 43 then some (.dup 1 none, 0)
  else if c = 63 then some (.dup 0 (some 1), 0)
  else if c = 123 then interval rest
  else if c = 91 then bracket rest
  else if c = 40 then some (.opening, 0)
  else if c = 41 then some (.closing, 0)
  else if c = 94 then some (.anchor .start, 0)
  else if c = 36 then some (.anchor .stop, 0)
  else if c = 124 then none
  else some (.item (.one (· = c)), 0)

/-- What has been read of the group that is open, with a flag where it can be repeated, and of the groups
around it. -/
structure Groups where
  inner : List (Bool × Ere UInt8)
  outer : List (List (Bool × Ere UInt8))

/-- Neither an anchor nor nothing at all can be repeated, and a group is not empty. -/
def Groups.step (g : Groups) : Mark → Option Groups
  | .item e => some { g with inner := g.inner ++ [(true, e)] }
  | .anchor e => some { g with inner := g.inner ++ [(false, e)] }
  | .dup lo hi =>
      match g.inner.getLast? with
      | some (true, e) => some { g with inner := g.inner.dropLast ++ [(true, .rep e lo hi)] }
      | _ => none
  | .opening => some ⟨[], g.inner :: g.outer⟩
  | .closing =>
      match g.outer with
      | around :: outer =>
          if g.inner = [] then none else some ⟨around ++ [(true, .seq (g.inner.map Prod.snd))], outer⟩
      | [] => none

/-- What is repeated is the last that has been read, and no anchor. -/
theorem Groups.step_dup {g g' : Groups} {lo : ℕ} {hi : Option ℕ} (step : g.step (.dup lo hi) = some g') :
    ∃ before e, g.inner = before ++ [(true, e)] ∧
      g' = { g with inner := before ++ [(true, .rep e lo hi)] } := by
  unfold Groups.step at step
  rcases List.eq_nil_or_concat' g.inner with empty | ⟨before, ⟨again, e⟩, is⟩
  · rw [empty] at step
    cases step
  · dsimp only at step
    rw [is, List.getLast?_concat, List.dropLast_concat] at step
    cases again with
    | false => cases step
    | true =>
        cases step
        exact ⟨before, e, is, rfl⟩

/-- Reading on, with some bytes that have been read already. -/
def Groups.read : ℕ → List UInt8 → Groups → Option Groups
  | _, [], g => some g
  | skip + 1, _ :: text, g => read skip text g
  | 0, c :: text, g => (markAt c text).bind fun m => (g.step m.1).bind (read m.2 text)

/-- The expression that a text writes, if it writes one of these. -/
def parse (text : List UInt8) : Option (Ere UInt8) :=
  (Groups.read 0 text ⟨[], []⟩).bind fun g =>
    if g.outer = [] ∧ g.inner ≠ [] then some (.seq (g.inner.map Prod.snd)) else none

end Reading

end PosixEre
