import BloomServer.DateTime

/-! Whether `ParseDateTime` reads a printed date back, with tags and blanks around and between its date and
its time. -/
namespace BloomServer
open DecimalText TextSearch Tokens

/-! ### Printed dates -/

def isBlankByte (b : UInt8) : Bool := b = 32 || b = 9 || b = 13 || b = 10

/-- A tag, without a `'<'` or a `'>'` inside, or a blank. -/
inductive Wrap
  | tag (body : List UInt8) (plain : 60 ∉ body ∧ 62 ∉ body)
  | blank (b : UInt8) (is : isBlankByte b = true)

def Wrap.text : Wrap → List UInt8
  | .tag body _ => 60 :: (body ++ [62])
  | .blank b _ => [b]

/-- What is left of it without tags. -/
def Wrap.shown : Wrap → UInt8
  | .tag _ _ => 32
  | .blank b _ => b

def daysOfMonth (year month : ℕ) : ℕ :=
  if month = 2 then if year % 4 = 0 ∧ (year % 100 ≠ 0 ∨ year % 400 = 0) then 29 else 28
  else if month = 4 ∨ month = 6 ∨ month = 9 ∨ month = 11 then 30
  else 31

/-- `%02d` below a hundred. -/
def twoDigits (n : ℕ) : List UInt8 := [digit (n / 10), digit (n % 10)]

/-- `%Y` of a year of four digits. -/
def fourDigits (n : ℕ) : List UInt8 := twoDigits (n / 100) ++ twoDigits (n % 100)

/-- A date and a time, and what its text is wrapped in. -/
structure PrintedDate where
  year : ℕ
  month : ℕ
  day : ℕ
  hour : ℕ
  minute : ℕ
  second : ℕ
  front : List Wrap
  between : List Wrap
  behind : List Wrap
  year_range : 1930 ≤ year ∧ year ≤ 2029
  month_range : 1 ≤ month ∧ month ≤ 12
  day_range : 1 ≤ day ∧ day ≤ daysOfMonth year month
  hour_range : hour < 24
  minute_range : minute < 60
  second_range : second < 60
  between_ne_nil : between ≠ []

namespace PrintedDate

variable (p : PrintedDate)

/-- `%Y-%m-%d`. -/
def date : List UInt8 := fourDigits p.year ++ 45 :: (twoDigits p.month ++ 45 :: twoDigits p.day)

/-- `%H:%M:%S`. -/
def time : List UInt8 := twoDigits p.hour ++ 58 :: (twoDigits p.minute ++ 58 :: twoDigits p.second)

def text : List UInt8 :=
  p.front.flatMap Wrap.text ++ p.date ++ p.between.flatMap Wrap.text ++ p.time ++
    p.behind.flatMap Wrap.text

/-- Its `struct tm`. -/
def tm : DateTm := ⟨p.year - 1900, p.month - 1, p.day, p.hour, p.minute, p.second⟩

def ParsesBack (env : DateEnv) (c : CDateTime) : Prop :=
  (c.parseDateTime env p.text).1 = true ∧ (c.parseDateTime env p.text).2.sTm = p.tm

/-- The month and the day are not taken for too large; or a December the 12th comes out by coincidence, as
its year is taken for the month, counted on from the year that the object has. -/
def Readable (c : CDateTime) : Prop :=
  (p.month ≠ 12 ∧ p.day ≠ 31) ∨
    (p.month = 12 ∧ p.day = 12 ∧ (p.year - 1901) % 12 = 11 ∧
      c.sTm.year + ((p.year - 1901) / 12 : ℕ) = p.year - 1900)

end PrintedDate

/-- A date of the calendar and a time of the day. -/
structure DateTm.Valid (t : DateTm) : Prop where
  mon : 0 ≤ t.mon ∧ t.mon < 12
  mday : 1 ≤ t.mday ∧ t.mday ≤ daysOfMonth (t.year + 1900).toNat (t.mon + 1).toNat
  hour : 0 ≤ t.hour ∧ t.hour < 24
  min : 0 ≤ t.min ∧ t.min < 60
  sec : 0 ≤ t.sec ∧ t.sec < 60

/-! ### Digits -/

section Digits

variable {n : ℕ} {b : UInt8}

/-- A digit, `'-'`, `':'` or a blank. -/
def isDateByte (b : UInt8) : Bool := isDigit b || b = 45 || b = 58 || isBlankByte b

theorem isDigit_twoDigits (small : n < 100) (mem : b ∈ twoDigits n) : isDigit b = true := by
  rcases List.mem_cons.mp mem with rfl | last
  · exact isDigit_digit (by omega)
  · rw [List.mem_singleton.mp last]
    exact isDigit_digit (Nat.mod_lt n (by decide))

theorem twoDigits_ne_nil (n : ℕ) : twoDigits n ≠ [] := List.cons_ne_nil _ _

theorem fourDigits_ne_nil (n : ℕ) : fourDigits n ≠ [] :=
  List.append_ne_nil_of_left_ne_nil (twoDigits_ne_nil _) _

theorem isDigit_fourDigits (small : n < 10000) (mem : b ∈ fourDigits n) : isDigit b = true := by
  rcases List.mem_append.mp mem with front | back
  · exact isDigit_twoDigits (by omega) front
  · exact isDigit_twoDigits (by omega) back

theorem value_twoDigits (small : n < 100) : value (twoDigits n) = n := by
  have first := value_concat [] (show n / 10 < 10 by omega)
  have both := value_concat ([] ++ [digit (n / 10)]) (Nat.mod_lt n (show 0 < 10 by decide))
  rw [first] at both
  change value (twoDigits n) = _ at both
  rw [both]
  change 10 * (10 * 0 + n / 10) + n % 10 = n
  omega

theorem value_fourDigits (small : n < 10000) : value (fourDigits n) = n := by
  rw [fourDigits, value_append, value_twoDigits (by omega), value_twoDigits (by omega)]
  change n / 100 * 10 ^ 2 + n % 100 = n
  omega

theorem atoi_twoDigits (small : n < 100) : atoi (twoDigits n) = n := by
  have is := value_twoDigits small
  rw [atoi_digits (fun b => isDigit_twoDigits small) (List.cons_ne_nil _ _) (by omega), is]

theorem atoi_fourDigits (small : n < 10000) : atoi (fourDigits n) = n := by
  have is := value_fourDigits small
  rw [atoi_digits (fun b => isDigit_fourDigits small) (List.cons_ne_nil _ _) (by omega), is]

end Digits

/-! ### Tags -/

section Tags

variable {text rest : List UInt8} {b : UInt8}

/-- The tags go, and the wide character in them does not matter. -/
def plainText (text : List UInt8) : List UInt8 :=
  filteTag false (replaceSpace [[181, 227]] [202, 177] text)

theorem plainText_cons (text : List UInt8) (plain : b ≠ 60 ∧ b ≠ 181) :
    plainText (b :: text) = b :: plainText text := by
  have none : firstMatch [[181, 227]] (b :: text) = none := by
    rw [firstMatch_eq_none]
    intro pattern mem lead
    rw [List.mem_singleton.mp mem] at lead
    exact plain.2 (List.cons_prefix_cons.mp lead).1.symm
  unfold plainText replaceSpace
  rw [replaceFrom_none none, filteTag, if_neg (by decide), if_neg plain.1]

theorem plainText_append (front : List UInt8) (plain : ∀ b ∈ front, b ≠ 60 ∧ b ≠ 181) (text : List UInt8) :
    plainText (front ++ text) = front ++ plainText text := by
  induction front with
  | nil => rfl
  | cons b front ih =>
      rw [List.cons_append, plainText_cons _ (plain b List.mem_cons_self),
        ih fun c mem => plain c (List.mem_cons_of_mem b mem)]
      rfl

theorem plainText_tag {body : List UInt8} (away : 62 ∉ body) (text : List UInt8) :
    plainText (60 :: (body ++ 62 :: text)) = 32 :: plainText text := by
  have some : ∀ pattern ∈ [([181, 227] : List UInt8)], pattern ≠ [] := by decide
  have close : ∀ pattern ∈ [([181, 227] : List UInt8)], 62 ∉ pattern := by decide
  have opening : ∀ pattern ∈ [([181, 227] : List UInt8)], 60 ∉ pattern := by decide
  have cut := @replaceFrom_append _ _ [] [202, 177] _ 60 some opening 0 (Nat.le_refl _) (body ++ 62 :: text)
  rw [List.nil_append, replaceFrom_append some close (Nat.zero_le _)] at cut
  have kept : 62 ∉ replaceFrom [[181, 227]] [202, 177] 0 body := by
    intro mem
    rcases mem_of_replaceFrom mem with own | out
    · exact away own
    · revert out
      decide
  unfold plainText replaceSpace
  rw [cut]
  change 32 :: filteTag _ _ = _
  rw [decide_eq_true (List.mem_append_right _ List.mem_cons_self), filteTag_close _ kept]

theorem plainText_wraps (wraps : List Wrap) (text : List UInt8) :
    plainText (wraps.flatMap Wrap.text ++ text) = wraps.map Wrap.shown ++ plainText text := by
  induction wraps with
  | nil => rfl
  | cons w wraps ih =>
      rw [List.flatMap_cons, List.append_assoc]
      cases w with
      | tag body plain =>
          have shape : Wrap.text (.tag body plain) ++ (wraps.flatMap Wrap.text ++ text) =
              60 :: (body ++ 62 :: (wraps.flatMap Wrap.text ++ text)) := by
            simp [Wrap.text]
          rw [shape, plainText_tag plain.2, ih]
          rfl
      | blank b is =>
          have other : b ≠ 60 ∧ b ≠ 181 := by
            constructor <;> (rintro rfl; cases is)
          rw [Wrap.text, List.singleton_append, plainText_cons _ other, ih]
          rfl

end Tags

/-! ### The text without tags -/

section Line

variable {p : PrintedDate} {b : UInt8} {text : List UInt8}

theorem isDateByte_of_isDigit (is : isDigit b = true) : isDateByte b = true := by
  rw [isDateByte, is]
  rfl

namespace PrintedDate

theorem year_small (p : PrintedDate) : p.year < 10000 := by
  have := p.year_range
  omega

theorem month_small (p : PrintedDate) : p.month < 100 := by
  have := p.month_range
  omega

theorem day_small (p : PrintedDate) : p.day < 32 := by
  have := p.day_range
  have : daysOfMonth p.year p.month ≤ 31 := by
    unfold daysOfMonth
    split_ifs <;> decide
  omega

/-- No digit is a delimiter. -/
theorem digit_ne {b c : UInt8} (is : isDigit b = true) (other : isDigit c = false) : b ≠ c := by
  rintro rfl
  rw [other] at is
  cases is

theorem date_bytes (p : PrintedDate) {b : UInt8} (mem : b ∈ p.date) : isDigit b = true ∨ b = 45 := by
  have day := p.day_small
  rcases List.mem_append.mp mem with year | mem
  · exact Or.inl (isDigit_fourDigits p.year_small year)
  · rcases List.mem_cons.mp mem with rfl | mem
    · exact Or.inr rfl
    · rcases List.mem_append.mp mem with month | mem
      · exact Or.inl (isDigit_twoDigits p.month_small month)
      · rcases List.mem_cons.mp mem with rfl | day
        · exact Or.inr rfl
        · exact Or.inl (isDigit_twoDigits (by omega) day)

theorem time_bytes (p : PrintedDate) {b : UInt8} (mem : b ∈ p.time) : isDigit b = true ∨ b = 58 := by
  have hour := p.hour_range
  have minute := p.minute_range
  have second := p.second_range
  rcases List.mem_append.mp mem with own | mem
  · exact Or.inl (isDigit_twoDigits (by omega) own)
  · rcases List.mem_cons.mp mem with rfl | mem
    · exact Or.inr rfl
    · rcases List.mem_append.mp mem with own | mem
      · exact Or.inl (isDigit_twoDigits (by omega) own)
      · rcases List.mem_cons.mp mem with rfl | own
        · exact Or.inr rfl
        · exact Or.inl (isDigit_twoDigits (by omega) own)

/-- The date and the time with blanks around them and between them. -/
def line (p : PrintedDate) (blank : UInt8) : List UInt8 :=
  List.replicate p.front.length blank ++ (p.date ++ (List.replicate p.between.length blank ++
    (p.time ++ List.replicate p.behind.length blank)))

theorem plainText_text (p : PrintedDate) : plainText p.text =
    p.front.map Wrap.shown ++ (p.date ++ (p.between.map Wrap.shown ++
      (p.time ++ p.behind.map Wrap.shown))) := by
  have date : ∀ b ∈ p.date, b ≠ 60 ∧ b ≠ 181 := by
    intro b mem
    rcases p.date_bytes mem with digit | rfl
    · exact ⟨digit_ne digit rfl, digit_ne digit rfl⟩
    · decide
  have time : ∀ b ∈ p.time, b ≠ 60 ∧ b ≠ 181 := by
    intro b mem
    rcases p.time_bytes mem with digit | rfl
    · exact ⟨digit_ne digit rfl, digit_ne digit rfl⟩
    · decide
  have last := plainText_wraps p.behind []
  rw [List.append_nil] at last
  have nil : plainText [] = [] := rfl
  rw [nil, List.append_nil] at last
  rw [text, List.append_assoc, List.append_assoc, List.append_assoc, plainText_wraps,
    plainText_append _ date, plainText_wraps, plainText_append _ time, last]

end PrintedDate

/-- Blanks are replaced, and bytes that begin no pattern stay. -/
theorem replaceSpace_line (patterns : List (List UInt8)) (out : List UInt8) (text : List UInt8)
    (bytes : ∀ b ∈ text, isDateByte b = true)
    (single : ∀ pattern ∈ patterns, pattern ≠ [] ∧
      (pattern.length = 1 ∨ isDateByte (pattern.headD 0) = false)) :
    replaceSpace patterns out text = text.flatMap fun b => if [b] ∈ patterns then out else [b] := by
  apply replaceFrom_eq_flatMap fun pattern mem => (single pattern mem).1
  intro b mem pattern there lead
  rcases (single pattern there).2 with one | other
  · obtain ⟨c, rfl⟩ := List.length_eq_one_iff.mp one
    cases lead
    rfl
  · rw [List.headD_eq_head?_getD, lead, Option.getD_some, bytes b mem] at other
    cases other

theorem flatMap_same {f : UInt8 → List UInt8} (same : ∀ b ∈ text, f b = [b]) : text.flatMap f = text := by
  induction text with
  | nil => rfl
  | cons b text ih =>
      rw [List.flatMap_cons, same b List.mem_cons_self, ih fun c mem => same c (List.mem_cons_of_mem b mem)]
      rfl

theorem flatMap_replicate {f : UInt8 → List UInt8} {c : UInt8} (same : ∀ b ∈ text, f b = [c]) :
    text.flatMap f = List.replicate text.length c := by
  induction text with
  | nil => rfl
  | cons b text ih =>
      rw [List.flatMap_cons, same b List.mem_cons_self, ih fun d mem => same d (List.mem_cons_of_mem b mem)]
      rfl

theorem isBlankByte_shown (w : Wrap) : isBlankByte w.shown = true := by
  cases w with
  | tag body plain => rfl
  | blank b is => exact is

theorem digit_single {patterns : List (List UInt8)} (is : isDigit b = true)
    (others : ∀ pattern ∈ patterns, isDigit (pattern.headD 0) = false) : [b] ∉ patterns := by
  intro mem
  have other : isDigit b = false := others [b] mem
  rw [other] at is
  cases is

theorem blank_single (is : isBlankByte b = true) : [b] ∈ spacePatterns := by
  simp only [isBlankByte, Bool.or_eq_true, decide_eq_true_eq] at is
  rcases is with ((rfl | rfl) | rfl) | rfl <;> decide

namespace PrintedDate

theorem line_bytes (p : PrintedDate) {b : UInt8} (mem : b ∈ p.line 32) : isDateByte b = true := by
  have blank {n : ℕ} (mem : b ∈ List.replicate n 32) : isDateByte b = true := by
    rw [List.eq_of_mem_replicate mem]
    rfl
  rcases List.mem_append.mp mem with own | mem
  · exact blank own
  · rcases List.mem_append.mp mem with own | mem
    · rcases p.date_bytes own with digit | rfl
      · exact isDateByte_of_isDigit digit
      · rfl
    · rcases List.mem_append.mp mem with own | mem
      · exact blank own
      · rcases List.mem_append.mp mem with own | own
        · rcases p.time_bytes own with digit | rfl
          · exact isDateByte_of_isDigit digit
          · rfl
        · exact blank own

theorem plainText_bytes (p : PrintedDate) {b : UInt8} (mem : b ∈ plainText p.text) :
    isDateByte b = true := by
  have blank {wraps : List Wrap} (mem : b ∈ wraps.map Wrap.shown) : isDateByte b = true := by
    obtain ⟨w, -, rfl⟩ := List.mem_map.mp mem
    rw [isDateByte, isBlankByte_shown, Bool.or_true]
  rw [p.plainText_text] at mem
  rcases List.mem_append.mp mem with own | mem
  · exact blank own
  · rcases List.mem_append.mp mem with own | mem
    · rcases p.date_bytes own with digit | rfl
      · exact isDateByte_of_isDigit digit
      · rfl
    · rcases List.mem_append.mp mem with own | mem
      · exact blank own
      · rcases List.mem_append.mp mem with own | own
        · rcases p.time_bytes own with digit | rfl
          · exact isDateByte_of_isDigit digit
          · rfl
        · exact blank own

theorem spacePatterns_single : ∀ pattern ∈ spacePatterns, pattern ≠ [] ∧
    (pattern.length = 1 ∨ isDateByte (pattern.headD 0) = false) := by
  decide

theorem strtime_eq (p : PrintedDate) : replaceSpace spacePatterns [32] (plainText p.text) = p.line 32 := by
  have blank (wraps : List Wrap) : ((wraps.map Wrap.shown).flatMap fun b =>
      if [b] ∈ spacePatterns then [32] else [b]) = List.replicate wraps.length 32 := by
    have all := @flatMap_replicate (wraps.map Wrap.shown)
      (fun b => if [b] ∈ spacePatterns then [32] else [b]) 32 (by
        intro b mem
        obtain ⟨w, -, rfl⟩ := List.mem_map.mp mem
        exact if_pos (blank_single (isBlankByte_shown w)))
    rw [all, List.length_map]
  have digit {b : UInt8} (is : isDigit b = true) :
      (if [b] ∈ spacePatterns then [32] else [b]) = [b] := if_neg (digit_single is (by decide))
  have date : (p.date.flatMap fun b => if [b] ∈ spacePatterns then [32] else [b]) = p.date := by
    apply flatMap_same
    intro b mem
    rcases p.date_bytes mem with is | rfl
    · exact digit is
    · decide
  have time : (p.time.flatMap fun b => if [b] ∈ spacePatterns then [32] else [b]) = p.time := by
    apply flatMap_same
    intro b mem
    rcases p.time_bytes mem with is | rfl
    · exact digit is
    · decide
  rw [replaceSpace_line _ _ _ (fun b => p.plainText_bytes) spacePatterns_single, p.plainText_text]
  simp only [List.flatMap_append, blank, date, time]
  rfl

end PrintedDate

end Line

/-! ### The steps that find nothing -/

section Steps

variable (env : DateEnv) (c : CDateTime) {p : PrintedDate} {text : List UInt8}

theorem holds_eq_false {word : List UInt8} (bytes : ∀ b ∈ text, isDateByte b = true)
    (other : ∃ b ∈ word, isDateByte b = false) : holds word text = false := by
  obtain ⟨b, mem, not⟩ := other
  unfold holds
  rw [find_eq_none ⟨b, mem, fun there => absurd (bytes b there) (by rw [not]; decide)⟩]
  rfl

theorem parseStepFirst_eq (bytes : ∀ b ∈ text, isDateByte b = true) :
    c.parseStepFirst env text = (false, c) := by
  have kept : ∀ b ∈ replaceSpace spacePatterns [] text, isDateByte b = true := by
    intro b mem
    rcases mem_of_replaceFrom mem with own | out
    · exact bytes b own
    · cases out
  have none (word : List UInt8) (other : ∃ b ∈ word, isDateByte b = false) :=
    holds_eq_false kept other
  simp only [CDateTime.parseStepFirst, none [189, 241, 204, 236] (by decide),
    none [215, 242, 204, 236] (by decide), none [199, 176, 204, 236] (by decide),
    none [183, 214, 214, 211, 199, 176] (by decide), none [208, 161, 202, 177, 199, 176] (by decide),
    none [204, 236, 199, 176] (by decide), none [214, 220, 199, 176] (by decide), Bool.false_eq_true,
    if_false]

theorem isLetter_eq_false {b : UInt8} (is : isDateByte b = true) : CDateTime.isLetter b = false := by
  by_contra letter
  rw [Bool.not_eq_false] at letter
  simp only [isDateByte, isBlankByte, isDigit, CDateTime.isLetter, Bool.or_eq_true, Bool.and_eq_true,
    decide_eq_true_eq, UInt8.le_iff_toNat_le, ← UInt8.toNat_inj] at is letter
  simp at is letter
  omega

theorem indexOfIgoreCase_eq (str : List UInt8) (i : ℕ) (word : Bool)
    (bytes : ∀ b ∈ text, isDateByte b = true) : CDateTime.indexOfIgoreCase str i word text = none := by
  induction text generalizing i word with
  | nil => rfl
  | cons b text ih =>
      rw [CDateTime.indexOfIgoreCase, isLetter_eq_false (bytes b List.mem_cons_self),
        if_neg Bool.false_ne_true]
      exact ih (i + 1) false fun c mem => bytes c (List.mem_cons_of_mem b mem)

theorem parseStepSecond_eq (bytes : ∀ b ∈ text, isDateByte b = true) :
    c.parseStepSecond env text = (false, c) := by
  have none : (CDateTime.monthNames.zipIdx.findSome? fun p =>
      (CDateTime.indexOfIgoreCase p.1 0 false text).map fun at' => ((p.2 : ℤ), at')) = none := by
    rw [List.findSome?_eq_none_iff]
    intro p _
    rw [indexOfIgoreCase_eq _ _ _ bytes]
    rfl
  have english : c.parseEnglish text = (false, c) := by
    rw [CDateTime.parseEnglish, none]
  rw [CDateTime.parseStepSecond, english]
  rfl

end Steps

/-! ### Hour, minute and second -/

section Time

variable (c : CDateTime) {p : PrintedDate}

theorem findColon_append {front rest before : List UInt8} (away : 58 ∉ front) :
    CDateTime.findColon before (front ++ rest) = CDateTime.findColon (front.reverse ++ before) rest := by
  induction front generalizing before with
  | nil => rfl
  | cons b front ih =>
      have apart := of_decide_eq_true (ne_of_mem away List.mem_cons_self)
      rw [List.cons_append, CDateTime.findColon, if_neg fun colon => apart colon.1,
        ih fun mem => away (List.mem_cons_of_mem b mem), List.reverse_cons, List.append_assoc]
      rfl

/-- What is in front of the time in the line. -/
def PrintedDate.beforeTime (p : PrintedDate) : List UInt8 :=
  List.replicate p.front.length 32 ++ (p.date ++ List.replicate p.between.length 32)

theorem PrintedDate.beforeTime_bytes (p : PrintedDate) {b : UInt8} (mem : b ∈ p.beforeTime) :
    isDigit b = true ∨ b = 45 ∨ b = 32 := by
  rcases List.mem_append.mp mem with own | mem
  · exact Or.inr (Or.inr (List.eq_of_mem_replicate own))
  · rcases List.mem_append.mp mem with own | own
    · exact (p.date_bytes own).imp_right Or.inl
    · exact Or.inr (Or.inr (List.eq_of_mem_replicate own))

theorem PrintedDate.colon_beforeTime (p : PrintedDate) : 58 ∉ p.beforeTime := by
  intro mem
  rcases p.beforeTime_bytes mem with digit | dash | blank
  · cases digit
  · cases dash
  · cases blank

theorem colon_twoDigits {n : ℕ} (small : n < 100) : 58 ∉ twoDigits n := by
  intro mem
  cases isDigit_twoDigits small mem

/-- The twenty bytes that are read. -/
theorem window_eq (p : PrintedDate) : ∃ front : List UInt8, front.length = 2 ∧
    (∀ b ∈ front, b ∈ p.beforeTime) ∧
    ((p.line 32).drop (p.beforeTime.length + 2 - 4)).take 20 =
      front ++ (p.time ++ List.replicate (min p.behind.length 10) 32) := by
  have long : 10 ≤ p.beforeTime.length := by
    simp [PrintedDate.beforeTime, PrintedDate.date, fourDigits, twoDigits]
    omega
  have whole : p.line 32 = p.beforeTime ++ (p.time ++ List.replicate p.behind.length 32) := by
    simp [PrintedDate.line, PrintedDate.beforeTime]
  have cut := List.take_append_drop (p.beforeTime.length - 2) p.beforeTime
  have short : (p.beforeTime.drop (p.beforeTime.length - 2)).length = 2 := by
    rw [List.length_drop]
    omega
  refine ⟨p.beforeTime.drop (p.beforeTime.length - 2), short, fun b => List.mem_of_mem_drop, ?_⟩
  have time : p.time.length = 8 := rfl
  have place : p.beforeTime.length + 2 - 4 = p.beforeTime.length - 2 := by omega
  rw [whole, place, List.drop_append_of_le_length (Nat.sub_le _ _), List.take_append, short,
    List.take_of_length_le (by rw [short]; decide), List.take_append, time,
    List.take_of_length_le (by rw [time]; decide), List.take_replicate]
  rw [Nat.min_comm]

theorem findColon_line (p : PrintedDate) : CDateTime.findColon [] (p.line 32) =
    some ((p.beforeTime ++ twoDigits p.hour).reverse,
      twoDigits p.minute ++ 58 :: (twoDigits p.second ++ List.replicate p.behind.length 32)) := by
  have hour := p.hour_range
  have whole : p.line 32 = (p.beforeTime ++ twoDigits p.hour) ++ 58 :: (twoDigits p.minute ++
      58 :: (twoDigits p.second ++ List.replicate p.behind.length 32)) := by
    simp [PrintedDate.line, PrintedDate.beforeTime, PrintedDate.time]
  have away : 58 ∉ p.beforeTime ++ twoDigits p.hour :=
    List.not_mem_append p.colon_beforeTime (colon_twoDigits (by omega))
  have shape : (p.beforeTime ++ twoDigits p.hour).reverse ++ [] =
      digit (p.hour % 10) :: (p.beforeTime ++ [digit (p.hour / 10)]).reverse := by
    simp [twoDigits]
  have last := isDigit_digit (Nat.mod_lt p.hour (show 0 < 10 by decide))
  have first := isDigit_twoDigits (show p.minute < 100 by have := p.minute_range; omega) List.mem_cons_self
  have some : (p.beforeTime ++ twoDigits p.hour).reverse ++ [] ≠ [] := by
    rw [shape]
    exact List.cons_ne_nil _ _
  rw [whole, findColon_append away, CDateTime.findColon, if_pos ⟨rfl, some⟩,
    if_neg (List.append_ne_nil_of_left_ne_nil (twoDigits_ne_nil _) _), if_pos]
  · rw [List.append_nil]
  · rw [shape]
    simpa [twoDigits] using ⟨last, first⟩

/-- The tokens that are read of the window. -/
theorem setHMS_window (tm : DateTm) {front : List UInt8} (away : 58 ∉ front) (n : ℕ) :
    CDateTime.setHMS tm false false (tokens 58 [] (front ++ (p.time ++ List.replicate n 32))) =
      { tm with hour := p.hour, min := p.minute, sec := p.second } := by
  have hour := p.hour_range
  have minute := p.minute_range
  have second := p.second_range
  have shape : front ++ (p.time ++ List.replicate n 32) = (front ++ twoDigits p.hour) ++ 58 ::
      (twoDigits p.minute ++ 58 :: (twoDigits p.second ++ List.replicate n 32)) := by
    simp [PrintedDate.time]
  have first : 58 ∉ front ++ twoDigits p.hour := List.not_mem_append away (colon_twoDigits (by omega))
  have last : 58 ∉ twoDigits p.second ++ List.replicate n 32 := by
    apply List.not_mem_append (colon_twoDigits (by omega))
    intro mem
    cases List.eq_of_mem_replicate mem
  have end' := tokens_last (List.append_ne_nil_of_left_ne_nil (twoDigits_ne_nil _) _) last 0
  rw [List.replicate_zero, List.append_nil] at end'
  have digits : ∀ b ∈ twoDigits p.hour, (!isDigit b) = false := by
    intro b mem
    rw [isDigit_twoDigits (by omega) mem]
    rfl
  have number : ((front ++ twoDigits p.hour).drop ((front ++ twoDigits p.hour).length - 2)).dropWhile
      (fun b => !isDigit b) = twoDigits p.hour := by
    have length : (front ++ twoDigits p.hour).length - 2 = front.length := by
      rw [List.length_append]
      exact Nat.add_sub_cancel front.length 2
    rw [length, List.drop_left]
    exact List.dropWhile_cons_of_neg (by simpa using digits _ List.mem_cons_self)
  rw [shape, tokens_cons (List.append_ne_nil_of_right_ne_nil _ (twoDigits_ne_nil _)) first,
    tokens_cons (twoDigits_ne_nil _) (colon_twoDigits (by omega)), end']
  change ({ tm with
    hour := atoi (((front ++ twoDigits p.hour).drop ((front ++ twoDigits p.hour).length - 2)).dropWhile
      fun b => !isDigit b)
    min := atoi (twoDigits p.minute)
    sec := atoi (twoDigits p.second) } : DateTm) = _
  rw [number, atoi_twoDigits (by omega), atoi_twoDigits (by omega), atoi_twoDigits (by omega)]

theorem getHMS_line (p : PrintedDate) : c.getHMS (p.line 32) =
    (true, { c with sTm := { c.sTm with hour := p.hour, min := p.minute, sec := p.second } }) := by
  have same (patterns : List (List UInt8)) (out : List UInt8) (text : List UInt8)
      (others : ∀ pattern ∈ patterns, pattern ≠ [] ∧ isDateByte (pattern.headD 0) = false)
      (bytes : ∀ b ∈ text, isDateByte b = true) : replaceSpace patterns out text = text := by
    rw [replaceSpace_line patterns out text bytes fun pattern mem => (others pattern mem).imp_right Or.inr]
    apply flatMap_same
    intro b mem
    refine if_neg fun there => ?_
    have other : isDateByte b = false := (others [b] there).2
    rw [bytes b mem] at other
    cases other
  have bytes : ∀ b ∈ p.line 32, isDateByte b = true := fun b => p.line_bytes
  have first := same [[202, 177], [183, 214]] [58] _ (by decide) bytes
  have second := same [[195, 235]] [32] _ (by decide) bytes
  obtain ⟨front, short, inside, window⟩ := window_eq p
  have length : (p.beforeTime ++ twoDigits p.hour).reverse.length = p.beforeTime.length + 2 := by
    rw [List.length_reverse, List.length_append]
    rfl
  have kept : ∀ b ∈ front ++ (p.time ++ List.replicate (min p.behind.length 10) 32),
      isDateByte b = true := by
    intro b mem
    rw [← window] at mem
    exact bytes b (List.mem_of_mem_drop (List.mem_of_mem_take mem))
  have none (word : List UInt8) (other : ∃ b ∈ word, isDateByte b = false) := holds_eq_false kept other
  have third := same (["a", "A", "p", "P", "m", "M"].map ascii) [] _ (by decide) kept
  have away : 58 ∉ front := fun mem => p.colon_beforeTime (inside 58 mem)
  unfold CDateTime.getHMS
  simp only [first, second, findColon_line p, length, window, none (ascii "am") (by decide),
    none (ascii "AM") (by decide), none (ascii "pm") (by decide), none (ascii "PM") (by decide),
    Bool.or_self, Bool.false_eq_true, if_false, third, setHMS_window _ away]

end Time

/-! ### Year, month and day -/

section Date

variable (c : CDateTime) {p : PrintedDate}

/-- Zeros behind a year and a month or a day change nothing. -/
theorem pickYMD_zeros {year month day : ℤ} (some : year ≠ 0) (either : month ≠ 0 ∨ day ≠ 0) (n : ℕ) :
    CDateTime.pickYMD year month day (List.replicate n 0) = (year, month, day) := by
  induction n with
  | zero => rfl
  | succ n ih =>
      rw [List.replicate_succ, CDateTime.pickYMD, if_neg fun none => some none.1,
        if_neg fun none => either.elim (fun h => h none.1) fun h => h none.2.2]
      split_ifs with none
      · rw [none.1] at ih
        rw [none.1, ih]
      · rfl
      · exact ih

/-- The year is the first number; a month is below 12 and a day below 31, or the month is a day. -/
theorem pickYMD_eq (p : PrintedDate) (n : ℕ) :
    CDateTime.pickYMD 0 0 0 ((p.year : ℤ) :: p.month :: p.day :: List.replicate n 0) =
      if p.month < 12 then ((p.year : ℤ) - 1900, (p.month : ℤ), if p.day < 31 then (p.day : ℤ) else 0)
      else ((p.year : ℤ) - 1900, 0, 12) := by
  have year := p.year_range
  have month := p.month_range
  have day := p.day_range
  have century : (p.year : ℤ) > 1900 := by omega
  have some : (p.year : ℤ) - 1900 ≠ 0 := by omega
  rw [CDateTime.pickYMD, if_pos ⟨rfl, Or.inl century⟩, if_pos century, CDateTime.pickYMD,
    if_neg fun none => some none.1]
  by_cases small : p.month < 12
  · have early : (0 : ℤ) = 0 ∧ (p.month : ℤ) < 12 ∧ (0 : ℤ) = 0 := ⟨rfl, by omega, rfl⟩
    have named : (p.month : ℤ) ≠ 0 := by omega
    rw [if_pos early, if_pos small, CDateTime.pickYMD, if_neg fun none => some none.1,
      if_neg fun none => named none.1]
    by_cases low : p.day < 31
    · have own : (0 : ℤ) = 0 ∧ (p.day : ℤ) < 31 ∧ ((p.year : ℤ) - 1900 ≠ 0 ∨ (p.month : ℤ) ≠ 0) :=
        ⟨rfl, by omega, Or.inl some⟩
      rw [if_pos own, if_pos low]
      exact pickYMD_zeros some (Or.inl named) n
    · have missed : ¬ ((p.day : ℤ) < 31) := by omega
      rw [if_neg fun own => missed own.2.1, if_neg fun all => all.2.2 rfl, if_neg low]
      exact pickYMD_zeros some (Or.inl named) n
  · have last : p.month = 12 := by omega
    have day : (0 : ℤ) = 0 ∧ ((12 : ℕ) : ℤ) < 31 ∧ ((p.year : ℤ) - 1900 ≠ 0 ∨ (0 : ℤ) ≠ 0) :=
      ⟨rfl, by decide, Or.inl some⟩
    have twelve : ((12 : ℕ) : ℤ) ≠ 0 := by decide
    rw [if_neg small, last, if_neg fun own => absurd own.2.1 (by decide), if_pos day, CDateTime.pickYMD,
      if_neg fun none => some none.1, if_neg fun none => twelve none.2.2, if_neg fun none => twelve none.1,
      if_neg fun all => all.2.1 rfl]
    exact pickYMD_zeros some (Or.inr twelve) n

theorem dateNumber_digits {text : List UInt8} {n : ℕ} (digits : ∀ b ∈ text, isDigit b = true)
    (some : text ≠ []) (is : atoi text = n) : CDateTime.dateNumber text = .some (n : ℤ) := by
  have away : 58 ∉ text := fun mem => by cases digits 58 mem
  obtain ⟨b, rest, rfl⟩ := List.exists_cons_of_ne_nil some
  have first := digits b List.mem_cons_self
  have any : (b :: rest).any isDigit = true := by
    rw [List.any_cons, first]
    rfl
  rw [CDateTime.dateNumber, if_pos ⟨any, away⟩, List.dropWhile_cons_of_neg (by rw [first]; decide), is]

theorem replaced_eq (p : PrintedDate) : replaceSpace CDateTime.datePatterns [47] (p.line 32) =
    List.replicate p.front.length 47 ++ (fourDigits p.year ++ 47 :: (twoDigits p.month ++ 47 ::
      (twoDigits p.day ++ (List.replicate p.between.length 47 ++
        (p.time ++ List.replicate p.behind.length 47))))) := by
  have day := p.day_small
  have blank (n : ℕ) : ((List.replicate n 32).flatMap fun b =>
      if [b] ∈ CDateTime.datePatterns then [47] else [b]) = List.replicate n 47 := by
    have all := @flatMap_replicate (List.replicate n 32)
      (fun b => if [b] ∈ CDateTime.datePatterns then [47] else [b]) 47 (by
        intro b mem
        rw [List.eq_of_mem_replicate mem]
        decide)
    rw [all, List.length_replicate]
  have digit {b : UInt8} (is : isDigit b = true) :
      (if [b] ∈ CDateTime.datePatterns then [47] else [b]) = [b] := if_neg (digit_single is (by decide))
  have two {n : ℕ} (small : n < 100) : ((twoDigits n).flatMap fun b =>
      if [b] ∈ CDateTime.datePatterns then [47] else [b]) = twoDigits n :=
    flatMap_same fun b mem => digit (isDigit_twoDigits small mem)
  have four : ((fourDigits p.year).flatMap fun b =>
      if [b] ∈ CDateTime.datePatterns then [47] else [b]) = fourDigits p.year :=
    flatMap_same fun b mem => digit (isDigit_fourDigits p.year_small mem)
  have dash : (if [45] ∈ CDateTime.datePatterns then [47] else [45]) = ([47] : List UInt8) := by decide
  have time : (p.time.flatMap fun b => if [b] ∈ CDateTime.datePatterns then [47] else [b]) = p.time := by
    apply flatMap_same
    intro b mem
    rcases p.time_bytes mem with is | rfl
    · exact digit is
    · decide
  rw [replaceSpace_line _ _ _ (fun b => p.line_bytes) (by decide), PrintedDate.line, PrintedDate.date]
  simp only [List.flatMap_append, List.flatMap_cons, blank, time, four, two p.month_small,
    two (show p.day < 100 by omega), dash, List.append_assoc, List.singleton_append]
  rfl

theorem parseYMD_line (p : PrintedDate) : c.parseYMD (p.line 32) =
    (true, { c with sTm := { c.sTm with
      year := if p.month < 12 then (p.year : ℤ) - 1900 else c.sTm.year
      mon := if p.month < 12 then (p.month : ℤ) - 1 else (p.year : ℤ) - 1901
      mday := if p.month < 12 then if p.day < 31 then (p.day : ℤ) else 1 else 12 } }) := by
  have day := p.day_small
  have slash {n : ℕ} (small : n < 100) : 47 ∉ twoDigits n := fun mem => by
    cases isDigit_twoDigits small mem
  have slash_year : 47 ∉ fourDigits p.year := fun mem => by cases isDigit_fourDigits p.year_small mem
  have slash_time : 47 ∉ p.time := by
    intro mem
    rcases p.time_bytes mem with digit | colon
    · cases digit
    · cases colon
  have time_some : p.time ≠ [] := List.append_ne_nil_of_left_ne_nil (twoDigits_ne_nil _) _
  have parts : tokens 47 [] (replaceSpace CDateTime.datePatterns [47] (p.line 32)) =
      [fourDigits p.year, twoDigits p.month, twoDigits p.day, p.time] := by
    obtain ⟨k, some⟩ := Nat.exists_eq_succ_of_ne_zero (List.length_pos_iff.mpr p.between_ne_nil).ne'
    rw [replaced_eq, tokens_replicate, tokens_cons (fourDigits_ne_nil _) slash_year,
      tokens_cons (twoDigits_ne_nil _) (slash p.month_small), some, List.replicate_succ, List.cons_append,
      tokens_cons (twoDigits_ne_nil _) (slash (by omega)), tokens_replicate,
      tokens_last time_some slash_time]
  have time : CDateTime.dateNumber p.time = none :=
    if_neg fun both => both.2 (List.mem_append_right _ List.mem_cons_self)
  have year := dateNumber_digits (fun b => isDigit_fourDigits p.year_small) (fourDigits_ne_nil _)
    (atoi_fourDigits p.year_small)
  have month := dateNumber_digits (fun b => isDigit_twoDigits p.month_small) (twoDigits_ne_nil _)
    (atoi_twoDigits p.month_small)
  have mday := dateNumber_digits (fun b => isDigit_twoDigits (show p.day < 100 by omega)) (twoDigits_ne_nil _)
    (atoi_twoDigits (show p.day < 100 by omega))
  have found : ((tokens 47 [] (replaceSpace CDateTime.datePatterns [47] (p.line 32))).take 10).map
      CDateTime.dateNumber = [some (p.year : ℤ), some (p.month : ℤ), some (p.day : ℤ), none] := by
    rw [parts]
    change [CDateTime.dateNumber _, CDateTime.dateNumber _, CDateTime.dateNumber _, CDateTime.dateNumber _] = _
    rw [year, month, mday, time]
  have picked := pickYMD_eq p 7
  have range := p.year_range
  have months := p.month_range
  have days := p.day_range
  have three : ¬ ([some (p.year : ℤ), some (p.month : ℤ), some (p.day : ℤ), none].filter
      Option.isSome).length < 2 := by
    simp
  have dates : ([some (p.year : ℤ), some (p.month : ℤ), some (p.day : ℤ), none] ++
      List.replicate (10 - [some (p.year : ℤ), some (p.month : ℤ), some (p.day : ℤ), none].length) none).map
        (fun d : Option ℤ => d.getD 0) = (p.year : ℤ) :: p.month :: p.day :: List.replicate 7 0 := rfl
  unfold CDateTime.parseYMD
  dsimp only
  rw [found, if_neg three, dates, picked]
  by_cases early : p.month < 12
  · simp only [early, if_true]
    have both : (p.year : ℤ) - 1900 ≠ 0 ∧ (p.month : ℤ) ≠ 0 := by omega
    have full : CDateTime.fullYear ((p.year : ℤ) - 1900) = p.year - 1900 := if_pos (by omega)
    have positive : (p.month : ℤ) > 0 := by omega
    have own : (if (if p.day < 31 then (p.day : ℤ) else 0) = 0 then 1 else
        if p.day < 31 then (p.day : ℤ) else 0) = if p.day < 31 then (p.day : ℤ) else 1 := by
      split_ifs with low zero
      · omega
      · rfl
      · rfl
      · omega
    rw [if_pos (Or.inl both), full, if_pos positive, own]
  · simp only [early, if_false]
    have none : ¬ (((p.year : ℤ) - 1900 ≠ 0 ∧ (0 : ℤ) ≠ 0) ∨ ((0 : ℤ) ≠ 0 ∧ (12 : ℤ) ≠ 0)) := by omega
    have other : (p.year : ℤ) - 1900 ≠ 0 ∧ (12 : ℤ) ≠ 0 := by omega
    have positive : (p.year : ℤ) - 1900 > 0 := by omega
    have counted : (p.year : ℤ) - 1900 - 1 = p.year - 1901 := by omega
    rw [if_neg none, if_pos other, if_pos positive, counted]
    rfl

end Date

/-! ### Printed dates read back -/

section ReadBack

variable {env : DateEnv} {c : CDateTime} {p : PrintedDate}

/-- What `mktime` is handed. -/
def PrintedDate.found (p : PrintedDate) (c : CDateTime) : DateTm where
  year := if p.month < 12 then (p.year : ℤ) - 1900 else c.sTm.year
  mon := if p.month < 12 then (p.month : ℤ) - 1 else (p.year : ℤ) - 1901
  mday := if p.month < 12 then if p.day < 31 then (p.day : ℤ) else 1 else 12
  hour := p.hour
  min := p.minute
  sec := p.second

theorem parseDateTime_text (env : DateEnv) (c : CDateTime) (p : PrintedDate) :
    (c.parseDateTime env p.text).1 = true ∧
      (c.parseDateTime env p.text).2.sTm = (env.mktime (p.found c)).1 := by
  have bytes : ∀ b ∈ p.line 32, isDateByte b = true := fun b => p.line_bytes
  have mem : digit (p.hour / 10) ∈ p.time := List.mem_cons_self
  have some : p.text ≠ [] := List.ne_nil_of_mem (List.mem_append_left _ (List.mem_append_right _ mem))
  have some' : p.line 32 ≠ [] :=
    List.ne_nil_of_mem (List.mem_append_right _ (List.mem_append_right _ (List.mem_append_right _
      (List.mem_append_left _ mem))))
  have line : replaceSpace spacePatterns [32]
      (filteTag false (replaceSpace [[181, 227]] [202, 177] p.text)) = p.line 32 := p.strtime_eq
  have third : c.parseStepThird env (p.line 32) =
      (true, { c with sTm := (env.mktime (p.found c)).1, sStamp := (env.mktime (p.found c)).2 }) := by
    rw [CDateTime.parseStepThird, parseYMD_line, CDateTime.thenHMS, if_pos rfl, getHMS_line]
    rfl
  unfold CDateTime.parseDateTime
  rw [if_neg some]
  dsimp only
  rw [line, if_neg some', parseStepFirst_eq env c bytes, if_neg Bool.false_ne_true]
  dsimp only
  rw [parseStepSecond_eq env c bytes, if_neg Bool.false_ne_true]
  dsimp only
  rw [third, if_pos rfl]
  exact ⟨rfl, rfl⟩

theorem daysOfMonth_le (year month : ℕ) : 28 ≤ daysOfMonth year month := by
  unfold daysOfMonth
  split_ifs <;> decide

/-- In front of December the date is one of the calendar. -/
theorem PrintedDate.found_valid (c : CDateTime) (early : p.month < 12) : (p.found c).Valid := by
  have year := p.year_range
  have month := p.month_range
  have day := p.day_range
  have hour := p.hour_range
  have minute := p.minute_range
  have second := p.second_range
  have same_year : ((p.year : ℤ) - 1900 + 1900).toNat = p.year := by omega
  have same_month : ((p.month : ℤ) - 1 + 1).toNat = p.month := by omega
  have long := daysOfMonth_le p.year p.month
  constructor
  · simp only [found, early, if_true]
    omega
  · simp only [found, early, if_true, same_year, same_month]
    split_ifs <;> omega
  · change 0 ≤ (p.hour : ℤ) ∧ (p.hour : ℤ) < 24
    omega
  · change 0 ≤ (p.minute : ℤ) ∧ (p.minute : ℤ) < 60
    omega
  · change 0 ≤ (p.second : ℤ) ∧ (p.second : ℤ) < 60
    omega

/-- A December that is counted as months from the year of the object on. -/
def PrintedDate.counted (p : PrintedDate) (c : CDateTime) : DateTm :=
  ⟨c.sTm.year + ((p.year : ℤ) - 1901) / 12, ((p.year : ℤ) - 1901) % 12, 12, p.hour, p.minute, p.second⟩

theorem PrintedDate.counted_valid (p : PrintedDate) (c : CDateTime) : (p.counted c).Valid := by
  have hour := p.hour_range
  have minute := p.minute_range
  have second := p.second_range
  have long := daysOfMonth_le ((p.counted c).year + 1900).toNat ((p.counted c).mon + 1).toNat
  constructor
  · change 0 ≤ ((p.year : ℤ) - 1901) % 12 ∧ ((p.year : ℤ) - 1901) % 12 < 12
    omega
  · change (1 : ℤ) ≤ 12 ∧ (12 : ℤ) ≤ _
    omega
  · change 0 ≤ (p.hour : ℤ) ∧ (p.hour : ℤ) < 24
    omega
  · change 0 ≤ (p.minute : ℤ) ∧ (p.minute : ℤ) < 60
    omega
  · change 0 ≤ (p.second : ℤ) ∧ (p.second : ℤ) < 60
    omega

theorem PrintedDate.found_eq_iff (c : CDateTime) (early : p.month < 12) :
    p.found c = p.tm ↔ p.Readable c := by
  have day := p.day_small
  have shape : p.found c = { p.tm with mday := if p.day < 31 then (p.day : ℤ) else 1 } := by
    simp only [found, tm, early, if_true]
  rw [shape]
  constructor
  · intro same
    have own := congrArg DateTm.mday same
    change (if p.day < 31 then (p.day : ℤ) else 1) = p.day at own
    refine Or.inl ⟨Nat.ne_of_lt early, ?_⟩
    split_ifs at own with low <;> omega
  · rintro (⟨-, low⟩ | ⟨last, -⟩)
    · rw [if_pos (by omega)]
      rfl
    · omega

theorem PrintedDate.counted_eq_iff (c : CDateTime) (last : p.month = 12) :
    p.counted c = p.tm ↔ p.Readable c := by
  have year := p.year_range
  constructor
  · intro same
    have own_year := congrArg DateTm.year same
    have own_mon := congrArg DateTm.mon same
    have own_day := congrArg DateTm.mday same
    change c.sTm.year + ((p.year : ℤ) - 1901) / 12 = p.year - 1900 at own_year
    change ((p.year : ℤ) - 1901) % 12 = p.month - 1 at own_mon
    change (12 : ℤ) = p.day at own_day
    rw [last] at own_mon
    exact Or.inr ⟨last, by omega, by omega, by omega⟩
  · rintro (⟨other, -⟩ | ⟨-, day, rest, own⟩)
    · exact absurd last other
    · have same_year : c.sTm.year + ((p.year : ℤ) - 1901) / 12 = p.year - 1900 := by omega
      have same_mon : ((p.year : ℤ) - 1901) % 12 = p.month - 1 := by
        rw [last]
        omega
      have same_day : (12 : ℤ) = p.day := by omega
      rw [counted, tm, same_year, same_mon, same_day]

end ReadBack

/-- A printed date is read back exactly when its month is not taken for a day, and its day not for too
large. -/
theorem printed_date_read_iff (env : DateEnv) (c : CDateTime) (p : PrintedDate)
    (valid : ∀ t : DateTm, t.Valid → (env.mktime t).1 = t)
    (months : ∀ t : DateTm, 12 ≤ t.mon →
      (env.mktime t).1 = (env.mktime { t with year := t.year + t.mon / 12, mon := t.mon % 12 }).1) :
    p.ParsesBack env c ↔ p.Readable c := by
  obtain ⟨ret, tm⟩ := parseDateTime_text env c p
  have year := p.year_range
  have month := p.month_range
  unfold PrintedDate.ParsesBack
  rw [and_iff_right ret, tm]
  by_cases early : p.month < 12
  · rw [valid _ (PrintedDate.found_valid c early)]
    exact PrintedDate.found_eq_iff c early
  · have last : p.month = 12 := by omega
    have late : 12 ≤ (p.found c).mon := by
      simp only [PrintedDate.found, early, if_false]
      omega
    have counted : { p.found c with
        year := (p.found c).year + (p.found c).mon / 12
        mon := (p.found c).mon % 12 } = p.counted c := by
      simp only [PrintedDate.found, PrintedDate.counted, early, if_false]
    rw [months _ late, counted, valid _ (p.counted_valid c)]
    exact PrintedDate.counted_eq_iff c last

/-- A calendar that carries months over into years. -/
def carryMonths (t : DateTm) : DateTm := { t with year := t.year + t.mon / 12, mon := t.mon % 12 }

def monthEnv : DateEnv :=
  ⟨0, fun _ => ⟨70, 0, 1, 0, 0, 0⟩, fun t => (carryMonths t, 0), fun _ => none, [], [], [], []⟩

theorem carryMonths_valid (t : DateTm) (valid : t.Valid) : carryMonths t = t := by
  have mon := valid.mon
  have year : t.year + t.mon / 12 = t.year := by omega
  have same : t.mon % 12 = t.mon := by omega
  rw [carryMonths, year, same]

theorem carryMonths_months (t : DateTm) (_ : 12 ≤ t.mon) :
    carryMonths t = carryMonths { t with year := t.year + t.mon / 12, mon := t.mon % 12 } := by
  have year : t.year + t.mon / 12 + t.mon % 12 / 12 = t.year + t.mon / 12 := by omega
  have mon : t.mon % 12 % 12 = t.mon % 12 := by omega
  simp only [carryMonths, year, mon]

def newDate : CDateTime := ⟨70, 0, 1, 0, ⟨70, 0, 1, 0, 0, 0⟩⟩

/-- `2009-MM-03 09:30:15`. -/
def printedThird (month : ℕ) (range : 1 ≤ month ∧ month ≤ 12) : PrintedDate where
  year := 2009
  month := month
  day := 3
  hour := 9
  minute := 30
  second := 15
  front := []
  between := [.blank 32 rfl]
  behind := []
  year_range := of_decide_eq_true rfl
  month_range := range
  day_range := ⟨of_decide_eq_true rfl, Nat.le_trans (of_decide_eq_true rfl) (daysOfMonth_le 2009 month)⟩
  hour_range := of_decide_eq_true rfl
  minute_range := of_decide_eq_true rfl
  second_range := of_decide_eq_true rfl
  between_ne_nil := List.cons_ne_nil _ _

/-- `<td>2009-11-03</b> <i><b>09:30:15</b>` and a line end. -/
def taggedThird : PrintedDate :=
  { printedThird 11 (by decide) with
    front := [.tag [116, 100] (by decide)]
    between := [.tag [47, 98] (by decide), .blank 32 rfl, .tag [105] (by decide), .tag [98] (by decide)]
    behind := [.tag [47, 98] (by decide), .blank 10 rfl]
    between_ne_nil := List.cons_ne_nil _ _ }

theorem printed_november_read : taggedThird.ParsesBack monthEnv newDate :=
  (printed_date_read_iff monthEnv newDate _ carryMonths_valid carryMonths_months).mpr
    (Or.inl ⟨by decide, by decide⟩)

/-- A third of December. -/
theorem not_printed_date_read : ¬ ∀ (env : DateEnv) (c : CDateTime) (p : PrintedDate),
    (∀ t : DateTm, t.Valid → (env.mktime t).1 = t) →
    (∀ t : DateTm, 12 ≤ t.mon →
      (env.mktime t).1 = (env.mktime { t with year := t.year + t.mon / 12, mon := t.mon % 12 }).1) →
    p.ParsesBack env c := by
  intro claim
  have read := claim monthEnv newDate (printedThird 12 (by decide)) carryMonths_valid carryMonths_months
  rcases (printed_date_read_iff monthEnv newDate _ carryMonths_valid carryMonths_months).mp read with
    ⟨other, -⟩ | ⟨-, day, -⟩
  · exact other rfl
  · cases day

end BloomServer
