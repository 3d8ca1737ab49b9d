import BloomServer.Library.TextSearch
import BloomServer.Library.Tokens
import BloomServer.UrlParse
import Mathlib.Data.List.DropRight
import Mathlib.Logic.Relation

/-! `ExternalManager::get_real_html`: pages one after the other in a buffer, each behind a head that
gives its length. -/
namespace BloomServer
open DecimalText TextSearch Tokens

/-- A page as it is handed on. -/
structure HtmlDes where
  url : List UInt8
  charset : List UInt8
  length : ℤ
  htmlcontent : List UInt8
  taskId : ℤ
  sitename : List UInt8
  deriving DecidableEq

/-- A `std::length_error`, what is written or read behind `len_str[32]`, and what is read behind the
end of the buffer. -/
inductive HtmlFault
  | lengthError
  | lenStr
  | outside
  deriving DecidableEq

/-- What is left of a `size_t` in an `int`. -/
def cInt (n : ℕ) : ℤ := Int.bmod n (2 ^ 32)

def trimmed (b : UInt8) : Bool := b = 32 || b = 9 || b = 10 || b = 13

/-- `strtrim` without a list of characters. -/
def strtrim (text : List UInt8) : List UInt8 := (text.rdropWhile trimmed).dropWhile trimmed

def marker : List UInt8 := ascii "##!!!##"
def urlTag : List UInt8 := ascii "url:"
def charsetTag : List UInt8 := ascii "charset:"
def lengthTag : List UInt8 := ascii "length:"
def siteNameTag : List UInt8 := ascii "site_name:"
def siteIdTag : List UInt8 := ascii "site_id:"

/-- What is behind a tag up to the end of its line, if the tag begins in front of a limit and the
line ends there at the latest. -/
def lineOf (tag text : List UInt8) (limit : ℕ) : Option (List UInt8) :=
  match find tag text with
  | some begin =>
      if begin < limit then
        match strchr 10 (text.drop begin) with
        | some stop =>
            if begin + stop ≤ limit then some (((text.drop begin).take stop).drop tag.length) else none
        | none => none
      else none
  | none => none

/-- A member that is a string: `append` with an `int` for the length, and `stringstrim`. -/
def stringField (tag text : List UInt8) (limit : ℕ) : Except HtmlFault (List UInt8) :=
  match lineOf tag text limit with
  | some line =>
      if cInt line.length < 0 then .error .lengthError
      else .ok (strtrim (line.take (cInt line.length).toNat))
  | none => .ok []

/-- `strncpy` into `len_str`, and `atoi`. -/
def lenStr (line : List UInt8) : Except HtmlFault ℤ :=
  if 0 ≤ cInt line.length ∧ cInt line.length < 32 then .ok (atoi (strtrim (line.take (cInt line.length).toNat)))
  else .error .lenStr

/-- `html.length`, for a head and the number of bytes behind it. -/
def htmlLength (tmp : List UInt8) (finalpos left : ℕ) : Except HtmlFault ℤ :=
  match lineOf lengthTag tmp finalpos with
  | some line => (lenStr line).map fun length => if length > cInt left then cInt left else length
  | none => .ok 0

/-- The first byte in which the name and the number of the site are searched. -/
def backBytes (length : ℤ) : ℕ := if length > 100 then (length - 100).toNat else 0

/-- The body of the loop. Without a line for it the number of the site is 0, as `atoi` makes of no
digits. -/
def readBlock (tmp : List UInt8) (finalpos : ℕ) : Except HtmlFault HtmlDes := do
  let url ← stringField urlTag tmp finalpos
  let charset ← stringField charsetTag tmp finalpos
  let body := tmp.drop finalpos
  let length ← htmlLength tmp finalpos body.length
  let back := body.drop (backBytes length)
  let limit := (length - backBytes length).toNat
  let sitename ← stringField siteNameTag back limit
  let siteId ← stringField siteIdTag back limit
  if length < 0 then .error .lengthError
  else if body.length < length then .error .outside
  else return ⟨url, charset, length, body.take length.toNat, atoi siteId, sitename⟩

/-- The next head: what the buffer holds from it on, and where it ends in that. -/
def nextBlock (middleBuf : List UInt8) : Option (List UInt8 × ℕ) :=
  match find marker middleBuf with
  | some begin => (find [10, 10, 10] (middleBuf.drop begin)).map fun stop => (middleBuf.drop begin, stop + 3)
  | none => none

def realHtmlLoop : ℕ → List UInt8 → Option (Except HtmlFault (List HtmlDes))
  | 0, _ => none
  | fuel + 1, middleBuf =>
      match nextBlock middleBuf with
      | some (tmp, finalpos) =>
          match readBlock tmp finalpos with
          | .ok html =>
              (realHtmlLoop fuel (tmp.drop (finalpos + html.length.toNat))).map fun htmls =>
                htmls.map fun htmls => html :: htmls
          | .error fault => some (.error fault)
      | none => some (.ok [])

/-- `get_real_html`, for the bytes of the buffer in front of its NUL. -/
def getRealHtml (buf : List UInt8) : Option (Except HtmlFault (List HtmlDes)) :=
  realHtmlLoop (buf.length + 1) buf

/-! ### One head -/

/-- The number that a head gives for its page, none that is above what is left. -/
def claimedLength (tmp : List UInt8) (finalpos : ℕ) : ℤ :=
  match lineOf lengthTag tmp finalpos with
  | some line => min (atoi (strtrim (line.take (cInt line.length).toNat))) (cInt (tmp.length - finalpos))
  | none => 0

/-- The lines of a head are shorter than an `int` counts, the one for the length is shorter than
`len_str`, and what it denotes is not negative. -/
structure HeadSound (tmp : List UInt8) (finalpos : ℕ) : Prop where
  url : ∀ line, lineOf urlTag tmp finalpos = some line → 0 ≤ cInt line.length
  charset : ∀ line, lineOf charsetTag tmp finalpos = some line → 0 ≤ cInt line.length
  length : ∀ line, lineOf lengthTag tmp finalpos = some line → 0 ≤ cInt line.length ∧ cInt line.length < 32
  claimed : 0 ≤ claimedLength tmp finalpos

variable {tmp text tag : List UInt8} {finalpos : ℕ}

theorem cInt_le (n : ℕ) : cInt n ≤ n := by
  unfold cInt
  rw [Int.bmod_def]
  split_ifs <;> omega

theorem cInt_small {n : ℕ} (small : n < 2 ^ 31) : cInt n = n := by
  unfold cInt
  rw [Int.bmod_eq_of_le (by omega) (by omega)]

theorem cInt_eq_self {n : ℕ} : cInt n = n ↔ n < 2 ^ 31 := by
  refine ⟨fun same => ?_, cInt_small⟩
  have below : Int.bmod n (2 ^ 32) < (2 ^ 32 + 1) / 2 := Int.bmod_lt (by decide)
  unfold cInt at same
  omega

theorem length_strtrim (text : List UInt8) : (strtrim text).length ≤ text.length := by
  have front : (strtrim text).length ≤ (text.rdropWhile trimmed).length := (List.dropWhile_suffix _).length_le
  exact front.trans (List.rdropWhile_prefix _ _).length_le

theorem length_lineOf {limit : ℕ} {line : List UInt8} (is : lineOf tag text limit = some line) :
    line.length ≤ limit := by
  unfold lineOf at is
  split at is
  · split_ifs at is
    split at is
    · split_ifs at is
      cases is
      rw [List.length_drop, List.length_take]
      omega
    · cases is
  · cases is

/-- The string that a line holds. -/
def stringValue (tag text : List UInt8) (limit : ℕ) : List UInt8 :=
  ((lineOf tag text limit).map fun line => strtrim (line.take (cInt line.length).toNat)).getD []

theorem stringField_sound {limit : ℕ}
    (sound : ∀ line, lineOf tag text limit = some line → 0 ≤ cInt line.length) :
    stringField tag text limit = .ok (stringValue tag text limit) := by
  unfold stringField stringValue
  cases is : lineOf tag text limit with
  | none => rfl
  | some line =>
      dsimp only
      rw [if_neg (Int.not_lt.mpr (sound line is)), Option.map_some, Option.getD_some]

theorem stringField_unsound {limit : ℕ} {line : List UInt8} (is : lineOf tag text limit = some line)
    (negative : ¬ 0 ≤ cInt line.length) : stringField tag text limit = .error .lengthError := by
  unfold stringField
  rw [is]
  dsimp only
  rw [if_pos (Int.not_le.mp negative)]

/-- The string of a line about the site, in the last hundred bytes of a page. -/
def siteValue (tag body : List UInt8) (length : ℤ) : List UInt8 :=
  stringValue tag (body.drop (backBytes length)) (length - backBytes length).toNat

theorem stringField_site (tag body : List UInt8) (length : ℤ) :
    stringField tag (body.drop (backBytes length)) (length - backBytes length).toNat =
      .ok (siteValue tag body length) := by
  apply stringField_sound
  intro line is
  have short := length_lineOf is
  have limit : (length - backBytes length).toNat ≤ 100 := by
    unfold backBytes
    split_ifs <;> omega
  rw [cInt_small (by omega)]
  omega

theorem readBlock_eq {url charset : List UInt8} {length : ℤ} (urlIs : stringField urlTag tmp finalpos = .ok url)
    (charsetIs : stringField charsetTag tmp finalpos = .ok charset)
    (lengthIs : htmlLength tmp finalpos (tmp.drop finalpos).length = .ok length) :
    readBlock tmp finalpos =
      if length < 0 then .error .lengthError
      else if (tmp.drop finalpos).length < length then .error .outside
      else .ok ⟨url, charset, length, (tmp.drop finalpos).take length.toNat,
        atoi (siteValue siteIdTag (tmp.drop finalpos) length),
        siteValue siteNameTag (tmp.drop finalpos) length⟩ := by
  unfold readBlock
  simp only [urlIs, charsetIs, lengthIs, stringField_site, bind, Except.bind, pure, Except.pure]

theorem htmlLength_sound
    (sound : ∀ line, lineOf lengthTag tmp finalpos = some line → 0 ≤ cInt line.length ∧ cInt line.length < 32) :
    htmlLength tmp finalpos (tmp.drop finalpos).length = .ok (claimedLength tmp finalpos) := by
  unfold htmlLength claimedLength
  cases is : lineOf lengthTag tmp finalpos with
  | none => rfl
  | some line =>
      dsimp only
      rw [lenStr, if_pos (sound line is), List.length_drop]
      refine congrArg Except.ok ?_
      dsimp only
      split_ifs <;> omega

theorem claimedLength_le (tmp : List UInt8) (finalpos : ℕ) :
    claimedLength tmp finalpos ≤ (tmp.drop finalpos).length := by
  unfold claimedLength
  rw [List.length_drop]
  split
  · exact (min_le_right _ _).trans (cInt_le _)
  · omega

/-- A sound head is read with the length that it claims. -/
theorem readBlock_sound (sound : HeadSound tmp finalpos) :
    ∃ html, readBlock tmp finalpos = .ok html ∧ html.length = claimedLength tmp finalpos := by
  rw [readBlock_eq (stringField_sound sound.url) (stringField_sound sound.charset)
      (htmlLength_sound sound.length), if_neg (Int.not_lt.mpr sound.claimed), if_neg (Int.not_lt.mpr (claimedLength_le tmp finalpos))]
  exact ⟨_, rfl, rfl⟩

/-- Any other one ends the run, before the cursor moves. -/
theorem readBlock_unsound (unsound : ¬ HeadSound tmp finalpos) :
    ∃ fault, fault ≠ .outside ∧ readBlock tmp finalpos = .error fault := by
  by_cases url : ∀ line, lineOf urlTag tmp finalpos = some line → 0 ≤ cInt line.length
  · by_cases charset : ∀ line, lineOf charsetTag tmp finalpos = some line → 0 ≤ cInt line.length
    · by_cases length : ∀ line, lineOf lengthTag tmp finalpos = some line →
          0 ≤ cInt line.length ∧ cInt line.length < 32
      · have negative : claimedLength tmp finalpos < 0 := by
          by_contra claimed
          exact unsound ⟨url, charset, length, Int.not_lt.mp claimed⟩
        rw [readBlock_eq (stringField_sound url) (stringField_sound charset) (htmlLength_sound length),
          if_pos negative]
        exact ⟨.lengthError, by decide, rfl⟩
      · push Not at length
        obtain ⟨line, is, long⟩ := length
        have fault : htmlLength tmp finalpos (tmp.drop finalpos).length = .error .lenStr := by
          unfold htmlLength lenStr
          rw [is]
          dsimp only
          rw [if_neg fun both => Int.not_lt.mpr (long both.1) both.2]
          rfl
        unfold readBlock
        rw [stringField_sound url, stringField_sound charset]
        simp only [fault, bind, Except.bind]
        exact ⟨.lenStr, by decide, rfl⟩
    · push Not at charset
      obtain ⟨line, is, negative⟩ := charset
      unfold readBlock
      rw [stringField_sound url, stringField_unsound is (Int.not_le.mpr negative)]
      exact ⟨.lengthError, by decide, rfl⟩
  · push Not at url
    obtain ⟨line, is, negative⟩ := url
    unfold readBlock
    rw [stringField_unsound is (Int.not_le.mpr negative)]
    exact ⟨.lengthError, by decide, rfl⟩

/-! ### Runs -/

/-- Where the cursor goes from one place. -/
def NextPlace (text text' : List UInt8) : Prop :=
  ∃ tmp finalpos, nextBlock text = some (tmp, finalpos) ∧
    text' = tmp.drop (finalpos + (claimedLength tmp finalpos).toNat)

/-- Every head that the scan of a buffer comes to is sound. -/
def Sane (buf : List UInt8) : Prop :=
  ∀ text, Relation.ReflTransGen NextPlace buf text → ∀ tmp finalpos, nextBlock text = some (tmp, finalpos) →
    HeadSound tmp finalpos

theorem nextBlock_bounds (is : nextBlock text = some (tmp, finalpos)) :
    0 < finalpos ∧ finalpos ≤ tmp.length ∧ tmp.length ≤ text.length := by
  unfold nextBlock at is
  split at is
  · rename_i begin _
    obtain ⟨stop, found, same⟩ := Option.map_eq_some_iff.mp is
    cases same
    obtain ⟨lead, -, -⟩ := find_eq_some_iff.mp found
    have size := lead.length_le
    simp only [List.length_drop, List.length_cons, List.length_nil] at size ⊢
    omega
  · cases is

theorem sane_of_none (none : nextBlock text = none) : Sane text := by
  intro place comes tmp finalpos is
  rcases comes.cases_head with rfl | ⟨next, ⟨tmp', finalpos', some, -⟩, -⟩
  · rw [none] at is
    cases is
  · rw [none] at some
    cases some

theorem sane_iff (is : nextBlock text = some (tmp, finalpos)) :
    Sane text ↔ HeadSound tmp finalpos ∧ Sane (tmp.drop (finalpos + (claimedLength tmp finalpos).toNat)) := by
  constructor
  · intro sane
    refine ⟨sane text .refl tmp finalpos is, fun place comes => ?_⟩
    exact sane place (comes.head ⟨tmp, finalpos, is, rfl⟩)
  · rintro ⟨sound, rest⟩ place comes tmp' finalpos' is'
    rcases comes.cases_head with rfl | ⟨next, ⟨tmp₁, finalpos₁, some, rfl⟩, later⟩
    · rw [is] at is'
      cases is'
      exact sound
    · rw [is] at some
      cases some
      exact rest place later tmp' finalpos' is'

/-- With fuel for each byte the scan ends, inside the buffer, and with pages exactly when the heads
that it comes to are sound. -/
theorem realHtmlLoop_iff {fuel : ℕ} (enough : text.length < fuel) :
    ∃ out, realHtmlLoop fuel text = some out ∧ out ≠ .error .outside ∧
      ((∃ htmls, out = .ok htmls) ↔ Sane text) := by
  induction fuel generalizing text with
  | zero => omega
  | succ fuel ih =>
      unfold realHtmlLoop
      cases is : nextBlock text with
      | none => exact ⟨.ok [], rfl, by simp, iff_of_true ⟨[], rfl⟩ (sane_of_none is)⟩
      | some p =>
          obtain ⟨tmp, finalpos⟩ := p
          rw [sane_iff is]
          dsimp only
          by_cases sound : HeadSound tmp finalpos
          · obtain ⟨html, read, length⟩ := readBlock_sound sound
            obtain ⟨forward, inside, suffix⟩ := nextBlock_bounds is
            have shorter : (tmp.drop (finalpos + (claimedLength tmp finalpos).toNat)).length < fuel := by
              rw [List.length_drop]
              omega
            obtain ⟨out, run, inside, ends⟩ := ih shorter
            rw [read]
            dsimp only
            rw [length, run]
            refine ⟨out.map fun htmls => html :: htmls, rfl, ?_, ?_⟩
            · cases out with
              | ok htmls => simp [Except.map]
              | error fault => exact inside
            · rw [and_iff_right sound, ← ends]
              cases out with
              | ok htmls => exact iff_of_true ⟨_, rfl⟩ ⟨_, rfl⟩
              | error fault =>
                  exact iff_of_false (by rintro ⟨_, same⟩; cases same) (by rintro ⟨_, same⟩; cases same)
          · obtain ⟨fault, inside, read⟩ := readBlock_unsound sound
            rw [read]
            exact ⟨.error fault, rfl, fun same => inside (by injection same), iff_of_false
              (by rintro ⟨_, same⟩; cases same) fun both => sound both.1⟩

end BloomServer
