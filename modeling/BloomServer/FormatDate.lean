import BloomServer.DatePrinted
import BloomServer.RealHtml
import Mathlib.Logic.Function.Basic

/-! `CDateTime::parseFormatDate`: a date read by a format of field letters and separators. -/
namespace BloomServer
open DecimalText

/-- The fields of a format. -/
inductive Field
  | year
  | month
  | day
  | hour
  | minutes
  | second
  deriving DecidableEq

/-- The labels of the `switch`. -/
def fieldOf (cf : UInt8) : Option Field :=
  if cf = 89 ∨ cf = 121 then some .year
  else if cf = 77 then some .month
  else if cf = 68 ∨ cf = 100 then some .day
  else if cf = 72 ∨ cf = 104 then some .hour
  else if cf = 109 then some .minutes
  else if cf = 83 ∨ cf = 115 then some .second
  else none

/-- The texts that the digits are collected in, one for each field. -/
abbrev Groups := Field → List UInt8

/-- `while(ISDIGIT(c0))`; `i` is the place of the next byte. -/
def digitLoop (s : List UInt8) (slen : ℤ) : ℕ → UInt8 → ℕ → List UInt8 → Option (List UInt8 × ℕ)
  | 0, _, _, _ => none
  | rounds + 1, c0, i, group =>
      if isDigit c0 then
        if i < slen then do
          let next ← s[i]?
          digitLoop s slen rounds next (i + 1) (group ++ [c0])
        else some (group ++ [c0], i)
      else some (group, i)

/-- `while(j<plen && cf == ...)`; the letter that ends it is passed over. -/
def letterLoop (pattern : List UInt8) (plen : ℤ) (f : Field) : ℕ → UInt8 → ℕ → Option ℕ
  | 0, _, _ => none
  | rounds + 1, cf, j =>
      if j < plen ∧ fieldOf cf = some f then do
        let cf ← pattern[j]?
        letterLoop pattern plen f rounds cf (j + 1)
      else some j

/-- The next letter of the pattern and the place behind it; behind a `'\''` it is the one after the next.
No letter means that `false` is returned. -/
def nextLetter (pattern : List UInt8) (plen : ℤ) (j : ℕ) : Option (Option (UInt8 × ℕ)) := do
  let cf ← pattern[j]?
  if cf = 39 then
    if (j + 2 : ℕ) ≥ plen then return none
    else
      let cf ← pattern[j + 2]?
      return some (cf, j + 2)
  else return some (cf, j + 1)

/-- The loop over both texts. No groups means that `false` is returned. -/
def formatDateLoop (s pattern : List UInt8) (slen plen : ℤ) : ℕ → ℕ → ℕ → Groups → Option (Option Groups)
  | 0, i, _, groups => if i < slen then none else some (some groups)
  | rounds + 1, i, j, groups =>
      if i < slen then do
        let c0 ← s[i]?
        match ← nextLetter pattern plen j with
        | none => return none
        | some letter =>
            match fieldOf letter.1 with
            | some f =>
                let found ← digitLoop s slen (s.length + 1) c0 (i + 1) (groups f)
                let j ← letterLoop pattern plen f (pattern.length + 1) letter.1 letter.2
                let groups := Function.update groups f found.1
                if j ≥ pattern.length then return some groups
                else formatDateLoop s pattern slen plen rounds found.2 j groups
            | none =>
                if c0 ≠ letter.1 then return none
                else if letter.2 ≥ pattern.length then return some groups
                else formatDateLoop s pattern slen plen rounds (i + 1) letter.2 groups
      else some (some groups)

/-- What a group that is not empty is kept in. The year and the month go through members of 16 and of 8
bits. -/
def CDateTime.setField (c : CDateTime) (f : Field) (group : List UInt8) : CDateTime :=
  if group = [] then c
  else
    match f with
    | .year =>
        let sYear := UInt16.ofInt (atoi group)
        let year : ℤ := sYear.toNat
        { c with sYear
                 sTm := { c.sTm with year := fullYear (if year > 1900 then year - 1900 else year) } }
    | .month =>
        let sMonth := UInt8.ofInt (atoi group)
        let month : ℤ := sMonth.toNat
        { c with sMonth
                 sTm := { c.sTm with mon := if month > 0 then month - 1 else 0 } }
    | .day => { c with sTm := { c.sTm with mday := atoi group } }
    | .hour => { c with sTm := { c.sTm with hour := atoi group } }
    | .minutes => { c with sTm := { c.sTm with min := atoi group } }
    | .second => { c with sTm := { c.sTm with sec := atoi group } }

/-- All of them, in the order of the source. -/
def fields : List Field := [.year, .month, .day, .hour, .minutes, .second]

/-- `parseFormatDate`. There is no result where `at` throws. -/
def CDateTime.parseFormatDate (env : DateEnv) (c : CDateTime) (s pattern : List UInt8) :
    Option (Bool × CDateTime) := do
  match ← formatDateLoop s pattern (cInt s.length) (cInt pattern.length) s.length 0 0 (fun _ => []) with
  | none => return (false, c)
  | some groups =>
      let c := fields.foldl (fun c f => c.setField f (groups f)) c
      let (tm, stamp) := env.mktime c.sTm
      return (true, { c with sTm := tm, sStamp := stamp })

/-! ### Dates in a format -/

/-- The letter of a field in a format. -/
def Field.letter : Field → UInt8
  | .year => 121
  | .month => 77
  | .day => 100
  | .hour => 72
  | .minutes => 109
  | .second => 115

/-- A field with the number of its letters, less one, and its digits. -/
structure DateField where
  field : Field
  width : ℕ
  group : List UInt8
  some : group ≠ []
  digits : ∀ b ∈ group, isDigit b = true

def DateField.letters (d : DateField) : List UInt8 := List.replicate (d.width + 1) d.field.letter

/-- Fields one after the other, each but the last with a separator in the format and one in the text. -/
inductive FormattedDate
  | last (d : DateField)
  | more (d : DateField) (sep between : UInt8) (rest : FormattedDate)

namespace FormattedDate

def pattern : FormattedDate → List UInt8
  | last d => d.letters
  | more d sep _ rest => d.letters ++ sep :: rest.pattern

def text : FormattedDate → List UInt8
  | last d => d.group
  | more d _ between rest => d.group ++ between :: rest.text

def parts : FormattedDate → List DateField
  | last d => [d]
  | more d _ _ rest => d :: rest.parts

/-- Where a field ends can be seen, in the format and in the text. -/
def Separated : FormattedDate → Prop
  | last _ => True
  | more d sep between rest => fieldOf sep ≠ some d.field ∧ isDigit between = false ∧ rest.Separated

end FormattedDate

/-! ### The two inner loops -/

section Loops

variable {s pre rest : List UInt8} {rounds : ℕ}

theorem getElem?_behind (pre : List UInt8) (b : UInt8) (rest : List UInt8) :
    (pre ++ b :: rest)[pre.length]? = some b := by
  rw [List.getElem?_append_right (Nat.le_refl _), Nat.sub_self]
  rfl

/-- The digits are taken, and the byte behind them if there is one. -/
theorem digitLoop_eq {c0 : UInt8} {more group : List UInt8} (digits : ∀ b ∈ c0 :: more, isDigit b = true)
    (stop : ∀ b ∈ rest.head?, isDigit b = false) (enough : more.length + 2 ≤ rounds) :
    digitLoop (pre ++ c0 :: (more ++ rest)) (pre ++ c0 :: (more ++ rest)).length rounds c0 (pre.length + 1) group =
      some (group ++ c0 :: more,
        min (pre ++ c0 :: (more ++ rest)).length (pre.length + more.length + 2)) := by
  induction more generalizing c0 pre group rounds with
  | nil =>
      obtain ⟨rounds, rfl⟩ : ∃ r, rounds = r + 2 := ⟨rounds - 2, by simp at enough; omega⟩
      rw [digitLoop, if_pos (digits c0 List.mem_cons_self)]
      cases rest with
      | nil => simp
      | cons t rest =>
          have next : (pre ++ c0 :: ([] ++ t :: rest))[pre.length + 1]? = some t := by simp
          rw [if_pos (by simp), next, Option.bind_eq_bind, Option.bind_some, digitLoop,
            if_neg (by simp [stop t rfl])]
          simp
  | cons d more ih =>
      obtain ⟨rounds, rfl⟩ : ∃ r, rounds = r + 1 := ⟨rounds - 1, by omega⟩
      have next : (pre ++ c0 :: (d :: more ++ rest))[pre.length + 1]? = some d := by simp
      have later : digitLoop ((pre ++ [c0]) ++ d :: (more ++ rest)) _ rounds d ((pre ++ [c0]).length + 1)
          (group ++ [c0]) = _ :=
        ih (fun b mem => digits b (List.mem_cons_of_mem c0 mem)) (by simp at enough; omega)
      rw [digitLoop, if_pos (digits c0 List.mem_cons_self), if_pos (by simp; omega), next]
      simpa [Nat.add_assoc, Nat.add_comm, Nat.add_left_comm] using later

/-- The letters are passed over, and the one behind them if there is one. -/
theorem letterLoop_eq {f : Field} {cf : UInt8} {more : List UInt8}
    (letters : ∀ b ∈ cf :: more, fieldOf b = some f) (stop : ∀ b ∈ rest.head?, fieldOf b ≠ some f)
    (enough : more.length + 2 ≤ rounds) :
    letterLoop (pre ++ cf :: (more ++ rest)) (pre ++ cf :: (more ++ rest)).length f rounds cf (pre.length + 1) =
      some (min (pre ++ cf :: (more ++ rest)).length (pre.length + more.length + 2)) := by
  induction more generalizing cf pre rounds with
  | nil =>
      obtain ⟨rounds, rfl⟩ : ∃ r, rounds = r + 2 := ⟨rounds - 2, by simp at enough; omega⟩
      rw [letterLoop]
      cases rest with
      | nil => simp
      | cons t rest =>
          have next : (pre ++ cf :: ([] ++ t :: rest))[pre.length + 1]? = some t := by simp
          rw [if_pos ⟨by simp, letters cf List.mem_cons_self⟩, next, Option.bind_eq_bind, Option.bind_some,
            letterLoop, if_neg fun goes => stop t rfl goes.2]
          simp
  | cons d more ih =>
      obtain ⟨rounds, rfl⟩ : ∃ r, rounds = r + 1 := ⟨rounds - 1, by omega⟩
      have next : (pre ++ cf :: (d :: more ++ rest))[pre.length + 1]? = some d := by simp
      have later : letterLoop ((pre ++ [cf]) ++ d :: (more ++ rest)) _ f rounds d ((pre ++ [cf]).length + 1) = _ :=
        ih (fun b mem => letters b (List.mem_cons_of_mem cf mem)) (by simp at enough; omega)
      rw [letterLoop, if_pos ⟨by simp; omega, letters cf List.mem_cons_self⟩, next]
      simpa [Nat.add_assoc, Nat.add_comm, Nat.add_left_comm] using later

theorem fieldOf_letter (f : Field) : fieldOf f.letter = some f := by cases f <;> rfl

theorem letter_ne_quote (f : Field) : f.letter ≠ 39 := by cases f <;> decide

/-- One round of the outer loop takes a field of both texts, and what separates it from the next. -/
theorem formatDateLoop_field (d : DateField) (pre front : List UInt8) {rest rest' : List UInt8}
    (groups : Groups) (stop : ∀ b ∈ rest.head?, isDigit b = false) (stop' : ∀ b ∈ rest'.head?, fieldOf b ≠ some d.field)
    (rounds : ℕ) :
    formatDateLoop (pre ++ (d.group ++ rest)) (front ++ (d.letters ++ rest'))
        (pre ++ (d.group ++ rest)).length (front ++ (d.letters ++ rest')).length (rounds + 1) pre.length
        front.length groups =
      if rest'.length ≤ 1 then some (some (Function.update groups d.field (groups d.field ++ d.group)))
      else
        formatDateLoop (pre ++ (d.group ++ rest)) (front ++ (d.letters ++ rest'))
          (pre ++ (d.group ++ rest)).length (front ++ (d.letters ++ rest')).length rounds
          (min (pre ++ (d.group ++ rest)).length (pre.length + d.group.length + 1))
          (min (front ++ (d.letters ++ rest')).length (front.length + d.letters.length + 1))
          (Function.update groups d.field (groups d.field ++ d.group)) := by
  obtain ⟨c0, more, group⟩ := List.exists_cons_of_ne_nil d.some
  have letters : d.letters = d.field.letter :: List.replicate d.width d.field.letter := rfl
  have all : ∀ b ∈ d.field.letter :: List.replicate d.width d.field.letter, fieldOf b = some d.field := by
    intro b mem
    rw [← List.replicate_succ] at mem
    rw [List.eq_of_mem_replicate mem, fieldOf_letter]
  have digits : ∀ b ∈ c0 :: more, isDigit b = true := fun b mem => d.digits b (group ▸ mem)
  have inside : (pre.length : ℤ) < (pre ++ (d.group ++ rest)).length := by
    rw [group]
    simp only [List.length_append, List.length_cons]
    omega
  have here : (pre ++ (d.group ++ rest))[pre.length]? = some c0 := by
    rw [group]
    exact getElem?_behind pre c0 (more ++ rest)
  have letter : nextLetter (front ++ (d.letters ++ rest')) (front ++ (d.letters ++ rest')).length front.length =
      some (some (d.field.letter, front.length + 1)) := by
    rw [nextLetter, letters, List.cons_append, getElem?_behind, Option.bind_eq_bind, Option.bind_some,
      if_neg (letter_ne_quote _)]
    rfl
  have found : digitLoop (pre ++ (d.group ++ rest)) (pre ++ (d.group ++ rest)).length
      ((pre ++ (d.group ++ rest)).length + 1) c0 (pre.length + 1) (groups d.field) =
        some (groups d.field ++ d.group,
          min (pre ++ (d.group ++ rest)).length (pre.length + d.group.length + 1)) := by
    rw [group]
    exact digitLoop_eq digits stop (by simp only [List.length_append, List.length_cons]; omega)
  have passed : letterLoop (front ++ (d.letters ++ rest')) (front ++ (d.letters ++ rest')).length d.field
      ((front ++ (d.letters ++ rest')).length + 1) d.field.letter (front.length + 1) =
        some (min (front ++ (d.letters ++ rest')).length (front.length + d.letters.length + 1)) := by
    rw [letters]
    exact letterLoop_eq all stop' (by simp only [List.length_append, List.length_cons]; omega)
  have last : min (front ++ (d.letters ++ rest')).length (front.length + d.letters.length + 1) ≥
      (front ++ (d.letters ++ rest')).length ↔ rest'.length ≤ 1 := by
    simp only [List.length_append]
    omega
  rw [formatDateLoop, if_pos inside, here]
  simp only [Option.bind_eq_bind, Option.bind_some, letter, fieldOf_letter, found, passed, last]
  rfl

/-- The groups behind those that there are. -/
def FormattedDate.collect : FormattedDate → Groups → Groups
  | last d, groups => Function.update groups d.field (groups d.field ++ d.group)
  | more d _ _ rest, groups => rest.collect (Function.update groups d.field (groups d.field ++ d.group))

theorem FormattedDate.length_pattern_pos (date : FormattedDate) : 0 < date.pattern.length := by
  cases date <;> simp [FormattedDate.pattern, DateField.letters]

theorem FormattedDate.length_parts_le (date : FormattedDate) : date.parts.length ≤ date.text.length := by
  induction date with
  | last d => exact List.length_pos_iff.mpr d.some
  | more d sep between rest ih =>
      have some := List.length_pos_iff.mpr d.some
      simp only [FormattedDate.parts, FormattedDate.text, List.length_append, List.length_cons]
      omega

/-- The outer loop takes one field after the other. -/
theorem formatDateLoop_eq {date : FormattedDate} (sound : date.Separated) {front : List UInt8} {groups : Groups}
    (enough : date.parts.length ≤ rounds) :
    formatDateLoop (pre ++ date.text) (front ++ date.pattern) (pre ++ date.text).length
        (front ++ date.pattern).length rounds pre.length front.length groups =
      some (some (date.collect groups)) := by
  induction date generalizing pre front groups rounds with
  | last d =>
      obtain ⟨rounds, rfl⟩ : ∃ r, rounds = r + 1 := ⟨rounds - 1, (Nat.sub_add_cancel enough).symm⟩
      have stop : ∀ b ∈ ([] : List UInt8).head?, isDigit b = false := by simp
      have stop' : ∀ b ∈ ([] : List UInt8).head?, fieldOf b ≠ some d.field := by simp
      have step := formatDateLoop_field d pre front groups stop stop' rounds
      simp only [List.append_nil] at step
      exact step.trans (if_pos (Nat.zero_le 1))
  | more d sep between rest ih =>
      obtain ⟨differs, stops, sound⟩ := sound
      obtain ⟨rounds, rfl⟩ : ∃ r, rounds = r + 1 := ⟨rounds - 1, (Nat.sub_add_cancel (Nat.one_le_of_lt enough)).symm⟩
      have stop : ∀ b ∈ (between :: rest.text).head?, isDigit b = false := by simpa using stops
      have stop' : ∀ b ∈ (sep :: rest.pattern).head?, fieldOf b ≠ some d.field := by simpa using differs
      have positive := rest.length_pattern_pos
      have text : pre ++ (d.group ++ between :: rest.text) = pre ++ d.group ++ [between] ++ rest.text := by simp
      have pattern : front ++ (d.letters ++ sep :: rest.pattern) =
          front ++ d.letters ++ [sep] ++ rest.pattern := by simp
      have place : min (pre ++ (d.group ++ between :: rest.text)).length (pre.length + d.group.length + 1) =
          (pre ++ d.group ++ [between]).length := by
        simp only [List.length_append, List.length_cons, List.length_nil]
        omega
      have place' : min (front ++ (d.letters ++ sep :: rest.pattern)).length
          (front.length + d.letters.length + 1) = (front ++ d.letters ++ [sep]).length := by
        simp only [List.length_append, List.length_cons, List.length_nil]
        omega
      refine (formatDateLoop_field d pre front groups stop stop' rounds).trans ?_
      rw [if_neg (by rw [List.length_cons]; omega), place, place', text, pattern]
      exact ih sound (Nat.le_of_succ_le_succ enough)

end Loops

/-! ### What is kept of the groups -/

section Values

variable {c : CDateTime} {f f' : Field} {group : List UInt8} {groups : Groups}

/-- A number of a date, as it is written. -/
def DateTm.number (t : DateTm) : Field → ℤ
  | .year => t.year + 1900
  | .month => t.mon + 1
  | .day => t.mday
  | .hour => t.hour
  | .minutes => t.min
  | .second => t.sec

theorem DateTm.ext_number {t t' : DateTm} (same : ∀ f, t.number f = t'.number f) : t = t' := by
  cases t
  cases t'
  rw [DateTm.mk.injEq]
  exact ⟨add_right_cancel (same .year), add_right_cancel (same .month), same .day, same .hour,
    same .minutes, same .second⟩

/-- A number that its field takes for itself: years of two digits and month 0 are read as others, and of
larger ones only the low bits are kept. -/
def Field.Takes (f : Field) (v : ℕ) : Prop :=
  v < 2 ^ 31 ∧ (f = .year → 1930 ≤ v ∧ v < 2 ^ 16) ∧ (f = .month → 1 ≤ v ∧ v < 2 ^ 8)

theorem toNat_ofInt16 {v : ℕ} (small : v < 2 ^ 16) : (UInt16.ofInt v).toNat = v := by
  rw [UInt16.ofInt, UInt16.toNat_ofNat']
  omega

theorem toNat_ofInt8 {v : ℕ} (small : v < 2 ^ 8) : (UInt8.ofInt v).toNat = v := by
  rw [UInt8.ofInt, UInt8.toNat_ofNat']
  omega

theorem setField_number (some : group ≠ []) (digits : ∀ b ∈ group, isDigit b = true)
    (takes : f.Takes (value group)) : (c.setField f group).sTm.number f = value group := by
  obtain ⟨small, year, month⟩ := takes
  have number := atoi_digits digits some small
  unfold CDateTime.setField
  rw [if_neg some]
  cases f with
  | year =>
      obtain ⟨late, fits⟩ := year rfl
      have behind : (value group : ℤ) > 1900 := by omega
      have fourDigits : (value group : ℤ) - 1900 > 29 := by omega
      simp only [DateTm.number, number, toNat_ofInt16 fits, if_pos behind, CDateTime.fullYear,
        if_pos fourDigits]
      omega
  | month =>
      obtain ⟨first, fits⟩ := month rfl
      have positive : (value group : ℤ) > 0 := by exact_mod_cast first
      simp only [DateTm.number, number, toNat_ofInt8 fits, if_pos positive]
      omega
  | day | hour | minutes | second => simpa only [DateTm.number] using number

theorem setField_number_of_ne (other : f' ≠ f) : (c.setField f group).sTm.number f' = c.sTm.number f' := by
  unfold CDateTime.setField
  by_cases nothing : group = []
  · rw [if_pos nothing]
  · rw [if_neg nothing]
    cases f <;> cases f' <;> first | rfl | exact absurd rfl other

theorem foldl_number_of_not_mem {l : List Field} (away : f ∉ l) :
    (l.foldl (fun c f => c.setField f (groups f)) c).sTm.number f = c.sTm.number f := by
  induction l generalizing c with
  | nil => rfl
  | cons f' l ih =>
      rw [List.mem_cons, not_or] at away
      rw [List.foldl_cons, ih away.2, setField_number_of_ne away.1]

/-- A field of the list gets the number of its group if there is one. -/
theorem foldl_number {l : List Field} (once : l.Nodup) (mem : f ∈ l)
    (digits : ∀ b ∈ groups f, isDigit b = true) (takes : groups f ≠ [] → f.Takes (value (groups f))) :
    (l.foldl (fun c f => c.setField f (groups f)) c).sTm.number f =
      if groups f = [] then c.sTm.number f else value (groups f) := by
  induction l generalizing c with
  | nil => cases mem
  | cons f' l ih =>
      rw [List.nodup_cons] at once
      rw [List.foldl_cons]
      by_cases same : f = f'
      · subst same
        rw [foldl_number_of_not_mem once.1]
        split_ifs with nothing
        · unfold CDateTime.setField
          rw [if_pos nothing]
        · exact setField_number nothing digits (takes nothing)
      · rw [ih once.2 ((List.mem_cons.mp mem).resolve_left same), setField_number_of_ne same]

/-- Each field of a date has its own group, as no other part has it. -/
theorem FormattedDate.collect_eq {date : FormattedDate} (once : (date.parts.map DateField.field).Nodup) :
    (∀ d ∈ date.parts, date.collect groups d.field = groups d.field ++ d.group) ∧
      ∀ f, f ∉ date.parts.map DateField.field → date.collect groups f = groups f := by
  induction date generalizing groups with
  | last d =>
      constructor
      · intro d' mem
        obtain rfl := List.mem_singleton.mp mem
        exact Function.update_self _ _ _
      · intro f away
        exact Function.update_of_ne (fun same => away (List.mem_singleton.mpr same)) _ _
  | more d sep between rest ih =>
      obtain ⟨first, once⟩ := List.nodup_cons.mp once
      obtain ⟨named, others⟩ := @ih (Function.update groups d.field (groups d.field ++ d.group)) once
      constructor
      · intro d' mem
        rcases List.mem_cons.mp mem with rfl | mem
        · exact (others _ first).trans (Function.update_self _ _ _)
        · have apart : d'.field ≠ d.field := fun same => first (same ▸ List.mem_map_of_mem mem)
          refine (named d' mem).trans ?_
          rw [Function.update_of_ne apart]
      · intro f away
        rw [FormattedDate.parts, List.map_cons, List.mem_cons, not_or] at away
        exact (others f away.2).trans (Function.update_of_ne away.1 _ _)

end Values

theorem daysOfMonth_le_31 (year month : ℕ) : daysOfMonth year month ≤ 31 := by
  unfold daysOfMonth
  split_ifs <;> decide

/-- The numbers of a valid date are taken for themselves if its year is. -/
theorem takes_of_valid {t : DateTm} (valid : t.Valid) {f : Field} {v : ℕ} (is : t.number f = v)
    (year : f = .year → 1930 ≤ v ∧ v < 2 ^ 16) : f.Takes v := by
  have long := daysOfMonth_le_31 (t.year + 1900).toNat (t.mon + 1).toNat
  have mon := valid.mon
  have mday := valid.mday
  have hour := valid.hour
  have min := valid.min
  have sec := valid.sec
  unfold Field.Takes
  cases f <;> simp [DateTm.number] at is year ⊢ <;> omega

theorem fields_nodup : fields.Nodup := by decide

theorem mem_fields (f : Field) : f ∈ fields := by cases f <;> decide

/-- A text in a format sets the fields that the format names, each to the number of its group, and no
other, when they and the numbers the object has give a valid date. -/
theorem parseFormatDate_sets (env : DateEnv) (normal : ∀ t : DateTm, t.Valid → (env.mktime t).1 = t)
    (c : CDateTime) (date : FormattedDate) (sound : date.Separated)
    (once : (date.parts.map DateField.field).Nodup) (short : date.text.length < 2 ^ 31)
    (shortPattern : date.pattern.length < 2 ^ 31)
    (year : ∀ d ∈ date.parts, d.field = .year → 1930 ≤ value d.group ∧ value d.group < 2 ^ 16)
    (t : DateTm) (valid : t.Valid) (named : ∀ d ∈ date.parts, t.number d.field = value d.group)
    (others : ∀ f, f ∉ date.parts.map DateField.field → t.number f = c.sTm.number f) :
    ∃ c', c.parseFormatDate env date.text date.pattern = some (true, c') ∧ c'.sTm = t := by
  have run : formatDateLoop ([] ++ date.text) ([] ++ date.pattern) ([] ++ date.text).length
      ([] ++ date.pattern).length date.text.length ([] : List UInt8).length ([] : List UInt8).length
      (fun _ => []) = some (some (date.collect fun _ => [])) :=
    formatDateLoop_eq sound date.length_parts_le
  obtain ⟨own, none⟩ := @FormattedDate.collect_eq (fun _ => []) date once
  have set : (fields.foldl (fun c f => c.setField f (date.collect (fun _ => []) f)) c).sTm = t := by
    refine DateTm.ext_number fun f => ?_
    by_cases mem : f ∈ date.parts.map DateField.field
    · obtain ⟨d, inParts, rfl⟩ := List.mem_map.mp mem
      have group : date.collect (fun _ => []) d.field = d.group := own d inParts
      have takes := takes_of_valid valid (named d inParts) (year d inParts)
      rw [foldl_number fields_nodup (mem_fields _) (by rw [group]; exact d.digits)
        (by rw [group]; exact fun _ => takes), group, if_neg d.some, named d inParts]
    · have nothing := none f mem
      rw [foldl_number fields_nodup (mem_fields f) (by rw [nothing]; simp)
        (fun some => absurd nothing some), if_pos nothing, others f mem]
  simp only [List.nil_append, List.length_nil] at run
  refine ⟨{ fields.foldl (fun c f => c.setField f (date.collect (fun _ => []) f)) c with
    sTm := (env.mktime t).1, sStamp := (env.mktime t).2 }, ?_, normal t valid⟩
  rw [CDateTime.parseFormatDate, cInt_small short, cInt_small shortPattern, run, Option.bind_eq_bind,
    Option.bind_some]
  simp only [set]
  rfl

/-- `5.3.2009` by the format `d.MM.y`. -/
def shortDate : FormattedDate :=
  .more ⟨.day, 0, [53], by decide, by decide +kernel⟩ 46 46
    (.more ⟨.month, 1, [51], by decide, by decide +kernel⟩ 46 46
      (.last ⟨.year, 0, [50, 48, 48, 57], by decide, by decide +kernel⟩))

theorem parseFormatDate_sets_shortDate :
    ∃ c', newDate.parseFormatDate monthEnv (ascii "5.3.2009") (ascii "d.MM.y") = some (true, c') ∧
      c'.sTm = ⟨109, 2, 5, 0, 0, 0⟩ :=
  parseFormatDate_sets monthEnv carryMonths_valid newDate shortDate
    ⟨by decide, by decide, by decide, by decide, trivial⟩ (by decide) (by decide) (by decide) (by decide)
    ⟨109, 2, 5, 0, 0, 0⟩ ⟨by decide, by decide, by decide, by decide, by decide⟩ (by decide)
    (fun f away => by cases f <;> first | rfl | exact absurd (by decide) away)

/-- The separators of the format are no letters of a field and no digits. -/
def FormattedDate.SeparatedByOthers : FormattedDate → Prop
  | last _ => True
  | more _ sep between rest =>
      (∀ f : Field, sep ≠ f.letter) ∧ isDigit sep = false ∧ isDigit between = false ∧ rest.SeparatedByOthers

/-- `2009-12` by the format `yYM`: the `'Y'` is one more letter of the year, and the `'M'` ends them. -/
theorem parseFormatDate_upper :
    ¬ ∀ (env : DateEnv) (c : CDateTime) (date : FormattedDate) (t : DateTm),
      (∀ t : DateTm, t.Valid → (env.mktime t).1 = t) → date.SeparatedByOthers →
      (date.parts.map DateField.field).Nodup →
      (∀ d ∈ date.parts, d.field = .year → 1930 ≤ value d.group ∧ value d.group < 2 ^ 16) → t.Valid →
      (∀ d ∈ date.parts, t.number d.field = value d.group) →
      (∀ f, f ∉ date.parts.map DateField.field → t.number f = c.sTm.number f) →
        ∃ c', c.parseFormatDate env date.text date.pattern = some (true, c') ∧ c'.sTm = t := by
  intro claim
  have december := claim monthEnv newDate
    (.more ⟨.year, 0, [50, 48, 48, 57], by decide, by decide +kernel⟩ 89 45
      (.last ⟨.month, 0, [49, 50], by decide, by decide +kernel⟩))
    ⟨109, 11, 1, 0, 0, 0⟩ carryMonths_valid ⟨fun f => by cases f <;> decide, by decide, by decide, trivial⟩
    (by decide) (by decide) ⟨by decide, by decide, by decide, by decide, by decide⟩ (by decide)
    (fun f away => by cases f <;> first | rfl | exact absurd (by decide) away)
  obtain ⟨c', run, set⟩ := december
  have kept : ((newDate.parseFormatDate monthEnv (ascii "2009-12") (ascii "yYM")).map fun r => r.2.sTm.mon) =
      some 0 := by decide
  have mon : some c'.sTm.mon = some 0 :=
    (congrArg (Option.map fun r : Bool × CDateTime => r.2.sTm.mon) run).symm.trans kept
  rw [set] at mon
  cases mon

end BloomServer
