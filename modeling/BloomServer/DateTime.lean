import BloomServer.UrlParse
import Mathlib.Data.List.DropRight

/-! `CDateTime::ParseDateTime`: a date and a time found in a text of any form. The texts and the patterns
of the source are in GB18030. -/
namespace BloomServer
open DecimalText TextSearch Tokens

/-- The members of a `struct tm` that are used. -/
structure DateTm where
  year : ℤ
  mon : ℤ
  mday : ℤ
  hour : ℤ
  min : ℤ
  sec : ℤ

/-- What is not computed here: the clock, the functions of `time.h`, the search for the regular expression
of `ParseSteFourth`, with the texts of its three groups, and the tables of `StrToStamp.h`. -/
structure DateEnv where
  now : ℤ
  localtime : ℤ → DateTm
  mktime : DateTm → DateTm × ℤ
  remaining : List UInt8 → Option (Option (List UInt8) × Option (List UInt8) × Option (List UInt8))
  stringminstamp : List (List UInt8 × ℤ)
  stringhourstamp : List (List UInt8 × ℤ)
  stringdaystamp : List (List UInt8 × ℤ)
  stringweekstamp : List (List UInt8 × ℤ)

structure CDateTime where
  sYear : UInt16
  sMonth : UInt8
  sDay : UInt8
  sStamp : ℤ
  sTm : DateTm

/-! ### Texts -/

/-- `ReplaceSpace`, with the alternatives of its pattern. -/
def replaceSpace (patterns : List (List UInt8)) (out str : List UInt8) : List UInt8 :=
  replaceFrom patterns out 0 str

/-- The pattern when there is none: blanks, brackets, `;` and `,`, the same two as wide characters,
`&nbsp` and a wide blank. -/
def spacePatterns : List (List UInt8) :=
  [[32], [9], [13], [10], [40], [41], [91], [93], [59], [44], [163, 187], [163, 172], ascii "&nbsp", [161, 161]]

/-- `FilteTag`: every tag becomes a blank. Inside a tag all is passed over up to its `'>'`; where none
follows, what follows the `'<'` is text. -/
def filteTag (tag : Bool) : List UInt8 → List UInt8
  | [] => []
  | b :: rest =>
      if tag then filteTag (b ≠ 62) rest
      else if b = 60 then 32 :: filteTag (62 ∈ rest) rest
      else b :: filteTag false rest

theorem filteTag_close {rest : List UInt8} (text : List UInt8) (away : 62 ∉ text) :
    filteTag true (text ++ 62 :: rest) = filteTag false rest := by
  induction text with
  | nil => rfl
  | cons b text ih =>
      have apart : decide (b ≠ 62) = true := ne_of_mem away List.mem_cons_self
      rw [List.cons_append, filteTag, if_pos rfl, apart]
      exact ih fun mem => away (List.mem_cons_of_mem b mem)

/-- Outside the tags a text is kept. -/
theorem filteTag_append (front : List UInt8) (away : 60 ∉ front) (rest : List UInt8) :
    filteTag false (front ++ rest) = front ++ filteTag false rest := by
  induction front with
  | nil => rfl
  | cons b front ih =>
      have apart : b ≠ 60 := fun same => away (same ▸ List.mem_cons_self)
      rw [List.cons_append, filteTag, if_neg (by decide), if_neg apart,
        ih fun mem => away (List.mem_cons_of_mem b mem), List.cons_append]

/-- `text.find(word) != string::npos`. -/
def holds (word text : List UInt8) : Bool := (find word text).isSome

/-- `findDigit`. A place below zero is none in the text. -/
def findDigit (text : List UInt8) (begin' : ℤ) : ℤ :=
  if begin' < 0 then -1
  else (((text.drop begin'.toNat).findIdx? isDigit).map fun i => begin' + i).getD (-1)

/-- `findNonDigit`: 0 for a colon. -/
def findNonDigit (text : List UInt8) (begin' : ℤ) : ℤ :=
  if begin' < 0 then -1
  else
    match (text.drop begin'.toNat).findIdx? fun b => !isDigit b with
    | some i => if text[begin'.toNat + i]? = some 58 then 0 else begin' + i
    | none => -1

/-- `atoi(text.substr(p).c_str())`. -/
def atoiFrom (text : List UInt8) (p : ℤ) : ℤ := atoi (text.drop p.toNat)

/-! ### Relative dates -/

namespace CDateTime

variable (env : DateEnv) (c : CDateTime)

def setStamp (stamp : ℤ) : CDateTime := { c with sStamp := stamp, sTm := env.localtime stamp }

def clearHourMinuteSecond : CDateTime := { c with sTm := { c.sTm with hour := 0, min := 0, sec := 0 } }

/-- `Findstr`. -/
def findstr (timestr : List UInt8) (stringtostamp : List (List UInt8 × ℤ)) : Bool × CDateTime :=
  match stringtostamp.find? fun p => holds p.1 timestr with
  | some p => (true, c.setStamp env (env.now - (p.2 + 1)))
  | none => (false, c)

/-- `ParseStepFirst`, for the words that say how long ago. -/
def parseStepFirst (text : List UInt8) : Bool × CDateTime :=
  let timestr := replaceSpace spacePatterns [] text
  if holds [189, 241, 204, 236] timestr then
    (true, (c.setStamp env env.now).clearHourMinuteSecond)
  else if holds [215, 242, 204, 236] timestr then
    (true, (c.setStamp env (env.now - 86400)).clearHourMinuteSecond)
  else if holds [199, 176, 204, 236] timestr then
    (true, (c.setStamp env (env.now - 86400 * 2)).clearHourMinuteSecond)
  else if holds [183, 214, 214, 211, 199, 176] timestr then c.findstr env timestr env.stringminstamp
  else if holds [208, 161, 202, 177, 199, 176] timestr then c.findstr env timestr env.stringhourstamp
  else if holds [204, 236, 199, 176] timestr then
    let (ret, c) := c.findstr env timestr env.stringdaystamp
    (ret, c.clearHourMinuteSecond)
  else if holds [214, 220, 199, 176] timestr then
    let (ret, c) := c.findstr env timestr env.stringweekstamp
    (ret, c.clearHourMinuteSecond)
  else (false, c)

/-- `ParseSteFourth`, for the words that say how long from now. -/
def parseSteFourth (text : List UInt8) : Bool × CDateTime :=
  match env.remaining text with
  | some (days, hours, minutes) =>
      let stamp := c.sStamp + (days.map fun t => atoi t * 86400).getD 0 +
        (hours.map fun t => atoi t * 3600).getD 0 + (minutes.map fun t => atoi t * 60).getD 0
      (days.isSome || hours.isSome || minutes.isSome, c.setStamp env stamp)
  | none => (false, c)

/-! ### English months -/

/-- `matchWordIgoreCase`; a text that ends early matches too. -/
def matchWordIgoreCase (text str : List UInt8) : Bool :=
  (text.zip str).all fun p => p.1 = p.2 || p.1.toNat + 32 = p.2.toNat

def isLetter (b : UInt8) : Bool := (97 ≤ b && b ≤ 122) || (65 ≤ b && b ≤ 90)

/-- `indexOfIgoreCase`, from place `i` on; `word` says that the letter before belongs to the same word. -/
def indexOfIgoreCase (str : List UInt8) (i : ℕ) (word : Bool) : List UInt8 → Option ℕ
  | [] => none
  | b :: rest =>
      if isLetter b then
        if !word && matchWordIgoreCase (b :: rest) str then some i
        else indexOfIgoreCase str (i + 1) true rest
      else indexOfIgoreCase str (i + 1) false rest

/-- `getHeaderDigit`: the number right in front of place `p`. -/
def getHeaderDigit (text : List UInt8) (p : ℕ) : ℤ :=
  if p < 1 then -1
  else
    let text := replaceSpace spacePatterns [] (text.take p)
    let digits := text.rtakeWhile isDigit
    if digits = [] ∧ text ≠ [] then -1 else atoi digits

/-- A year of two digits is one of this century up to 29. -/
def fullYear (year : ℤ) : ℤ := if year > 29 then year else year + 100

/-- `getYMD`. -/
def getYMD (text : List UInt8) (month : ℤ) (p : ℕ) : Bool × CDateTime :=
  let year := getHeaderDigit text p
  let p0 := findDigit text p
  if p0 = -1 ∧ year = -1 then (false, c)
  else
    let p1 := findNonDigit text p0
    if p0 = -1 ∧ p1 = -1 then (false, c)
    else
      let day := if p1 ≠ 0 ∧ p0 ≠ -1 then atoiFrom text p0 else -1
      let p2 := findDigit text p1
      let year := if year = -1 ∧ p1 ≠ -1 ∧ p0 ≠ -1 ∧ p2 ≠ -1 ∧ findNonDigit text p2 = -1
        then atoiFrom text p2 else year
      let (year, day) := if day > 31 ∨ (year ≥ 0 ∧ day = -1) then (day, year) else (year, day)
      let tm := if year ≠ -1 then { c.sTm with year := fullYear (if year < 1900 then year else year - 1900) }
        else c.sTm
      (true, { c with sTm := { tm with mon := month, mday := if day ≠ -1 then day else 1 } })

/-- `month[]`. -/
def monthNames : List (List UInt8) :=
  ["jan", "feb", "mar", "apr", "may", "jun", "jul", "aug", "sep", "oct", "nov", "dec"].map ascii

/-- `parse_english`: the first month whose name begins a word. -/
def parseEnglish (text : List UInt8) : Bool × CDateTime :=
  match monthNames.zipIdx.findSome? fun p => (indexOfIgoreCase p.1 0 false text).map fun at' => (p.2, at') with
  | some (month, at') => c.getYMD text month at'
  | none => (false, c)

/-! ### Hour, minute and second -/

/-- The first colon between two digits, as what is before it, backwards, and what is behind it; none, too,
where the search comes to a colon at the end. -/
def findColon (before : List UInt8) : List UInt8 → Option (List UInt8 × List UInt8)
  | [] => none
  | b :: rest =>
      if b = 58 ∧ before ≠ [] then
        if rest = [] then none
        else if (before.head?.map isDigit).getD false && (rest.head?.map isDigit).getD false then
          some (before, rest)
        else findColon (b :: before) rest
      else findColon (b :: before) rest

/-- The three tokens that are read, the hour off the last two bytes of the first. -/
def setHMS (tm : DateTm) (isam ispm : Bool) (parts : List (List UInt8)) : DateTm :=
  let tm := match parts[0]? with
    | some strnum =>
        let number := atoi ((strnum.drop (strnum.length - 2)).dropWhile fun b => !isDigit b)
        let hour := if isam then |if number = 12 then 0 else number|
          else if ispm then number + 12 else number
        { tm with hour := hour }
    | none => tm
  let tm := match parts[1]? with
    | some strnum => { tm with min := atoi strnum }
    | none => tm
  match parts[2]? with
  | some strnum => { tm with sec := atoi (strnum.take 2) }
  | none => tm

/-- `getHMS`: from four bytes in front of the colon on, twenty bytes are read. -/
def getHMS (text : List UInt8) : Bool × CDateTime :=
  let text := replaceSpace [[202, 177], [183, 214]] [58] text
  let text := replaceSpace [[195, 235]] [32] text
  match findColon [] text with
  | some (before, _) =>
      let str := (text.drop (before.length - 4)).take 20
      let isam := holds (ascii "am") str || holds (ascii "AM") str
      let ispm := holds (ascii "pm") str || holds (ascii "PM") str
      let tm := if isam then { c.sTm with hour := -12 } else c.sTm
      let tm := if ispm then { tm with hour := 12 } else tm
      let str := replaceSpace (["a", "A", "p", "P", "m", "M"].map ascii) [] str
      (true, { c with sTm := setHMS tm isam ispm (tokens 58 [] str) })
  | none => (false, c)

/-! ### Year, month and day -/

/-- The number in a token with a digit and without a colon. -/
def dateNumber (token : List UInt8) : Option ℤ :=
  if token.any isDigit ∧ 58 ∉ token then some (atoi (token.dropWhile fun b => !isDigit b)) else none

/-- The loop over `date`. -/
def pickYMD (year month day : ℤ) : List ℤ → ℤ × ℤ × ℤ
  | [] => (year, month, day)
  | d :: date =>
      if year = 0 ∧ (d > 1900 ∨ (d > 0 ∧ d < 99)) then
        pickYMD (if d > 1900 then d - 1900 else d) month day date
      else if month = 0 ∧ d < 12 ∧ day = 0 then pickYMD year d day date
      else if day = 0 ∧ d < 31 ∧ (year ≠ 0 ∨ month ≠ 0) then pickYMD year month d date
      else if year ≠ 0 ∧ month ≠ 0 ∧ day ≠ 0 then (year, month, day)
      else pickYMD year month day date

/-- A blank, `.`, `-`, `\`, a wide `-` and the words for year, month and day. -/
def datePatterns : List (List UInt8) :=
  [[32], [46], [45], [92], [163, 173], [196, 234], [212, 194], [200, 213]]

/-- `parseYMD`, with the numbers of the first ten tokens. -/
def parseYMD (text : List UInt8) : Bool × CDateTime :=
  let text := replaceSpace datePatterns [47] text
  let found := ((tokens 47 [] text).take 10).map dateNumber
  if (found.filter Option.isSome).length < 2 then (false, c)
  else
    let date := (found ++ List.replicate (10 - found.length) none).map fun d : Option ℤ => d.getD 0
    let (year, month, day) := pickYMD 0 0 0 date
    let mday := if day = 0 then 1 else day
    if (year ≠ 0 ∧ month ≠ 0) ∨ (month ≠ 0 ∧ day ≠ 0) then
      (true, { c with sTm := { c.sTm with
        year := fullYear year, mon := if month > 0 then month - 1 else 0, mday := mday } })
    else if year ≠ 0 ∧ day ≠ 0 then
      (true, { c with sTm := { c.sTm with mon := if year > 0 then year - 1 else 0, mday := mday } })
    else (false, c)

/-! ### The steps -/

/-- `getHMS` and `mktime`, behind a date that was found. -/
def thenHMS (found : Bool × CDateTime) (text : List UInt8) : Bool × CDateTime :=
  if found.1 then
    let c := (found.2.getHMS text).2
    let (tm, stamp) := env.mktime c.sTm
    (true, { c with sTm := tm, sStamp := stamp })
  else found

def parseStepSecond (text : List UInt8) : Bool × CDateTime := thenHMS env (c.parseEnglish text) text

def parseStepThird (text : List UInt8) : Bool × CDateTime := thenHMS env (c.parseYMD text) text

/-- `ParseDateTime` without a format. `defaultparse` and `ParseSteFifth` find nothing. -/
def parseDateTime (timeinputstr : List UInt8) : Bool × CDateTime :=
  if timeinputstr = [] then (false, c)
  else
    let strtime := replaceSpace [[181, 227]] [202, 177] timeinputstr
    let strtime := replaceSpace spacePatterns [32] (filteTag false strtime)
    if strtime = [] then (false, c)
    else
      let first := c.parseStepFirst env strtime
      if first.1 then first
      else
        let second := first.2.parseStepSecond env strtime
        if second.1 then second
        else
          let third := second.2.parseStepThird env strtime
          if third.1 then third
          else
            let fourth := third.2.parseSteFourth env strtime
            if fourth.1 then fourth
            else
              let last := fourth.2.getHMS strtime
              if last.1 then
                let c := last.2
                (true, { c with sTm := { c.sTm with
                  year := c.sYear.toNat, mon := c.sMonth.toNat, mday := c.sDay.toNat } })
              else last

end CDateTime

end BloomServer
