import Mathlib.Data.List.Basic
import BloomServer.Library.TextSearch

/-! `DbManager::checkFinalPageFormat`: the pattern of a final page as a regular expression. The results
of `find`, a `size_t`, are kept in an `unsigned int`. -/
namespace BloomServer
open TextSearch

/-- `std::string::find` of one character. -/
def findByte (c : UInt8) (s : List UInt8) : UInt64 := ((find [c] s).map UInt64.ofNat).getD npos
where
  npos : UInt64 := 0xFFFFFFFFFFFFFFFF

/-- `"[^ ]+"`. -/
def anyWord : List UInt8 := [91, 94, 32, 93, 43]

/-- What a round of the loop comes to. -/
inductive FormatRound
  | returned (url : List UInt8)
  | goesOn (urltmp1 : List UInt8)
  | outOfRange

/-- A round of the loop; `len` is the length of the text that was handed in. -/
def formatRound (len : UInt32) (urltmp1 : List UInt8) : FormatRound :=
  let start := (findByte 60 urltmp1).toUInt32
  if start.toUInt64 = findByte.npos then .returned urltmp1
  else
    let stop := (findByte 62 urltmp1).toUInt32
    if stop.toUInt64 = findByte.npos then .returned urltmp1
    else
      let urltmp := urltmp1.take start.toNat ++ anyWord
      if stop + 1 < len then
        if urltmp1.length < (stop + 1).toNat then .outOfRange
        else .goesOn (urltmp ++ urltmp1.drop (stop + 1).toNat)
      else .goesOn urltmp

/-- The text that is returned within so many rounds. -/
def formatLoop (len : UInt32) : ℕ → List UInt8 → Option (List UInt8)
  | 0, _ => none
  | n + 1, urltmp1 =>
      match formatRound len urltmp1 with
      | .returned url => some url
      | .goesOn urltmp1 => formatLoop len n urltmp1
      | .outOfRange => none

def checkFinalPageFormat (rounds : ℕ) (url : List UInt8) : Option (List UInt8) :=
  formatLoop (UInt32.ofNat url.length) rounds url

/-- The text with `anyWord` for each span from a `<` to the first `>` behind it; `inside` such a span,
up to its end. -/
def convertSpans (inside : Bool) : List UInt8 → List UInt8
  | [] => []
  | c :: rest =>
      if inside then convertSpans (c ≠ 62) rest
      else if c = 60 ∧ 62 ∈ rest then anyWord ++ convertSpans true rest
      else c :: convertSpans false rest

/-- `"a<b>c><"`. -/
example : convertSpans false [97, 60, 98, 62, 99, 62, 60] = [97] ++ anyWord ++ [99, 62, 60] := by
  decide

/-- The loop ends, with the spans converted. -/
def Converts (url : List UInt8) : Prop :=
  ∃ rounds, checkFinalPageFormat rounds url = some (convertSpans false url)

/-- A number that has gone through an `unsigned int` is not `npos`. -/
theorem narrow_ne_npos (pos : UInt64) : pos.toUInt32.toUInt64 ≠ findByte.npos := by
  intro same
  have value := congrArg UInt64.toNat same
  have small := pos.toUInt32.toNat_lt
  rw [UInt32.toNat_toUInt64] at value
  have top : findByte.npos.toNat = 2 ^ 64 - 1 := rfl
  omega

theorem find_lt {c : UInt8} {s : List UInt8} {i : ℕ} (found : find [c] s = some i) : i < s.length := by
  induction s generalizing i with
  | nil => cases found
  | cons d rest ih =>
      unfold find at found
      split_ifs at found with here
      · cases found
        exact Nat.succ_pos _
      · obtain ⟨j, later, rfl⟩ := Option.map_eq_some_iff.mp found
        exact Nat.succ_lt_succ (ih later)

/-- Behind the `>` that was found there is at least the end of the text; without one, `end + 1`
is 0. -/
theorem findByte_succ_le (c : UInt8) (s : List UInt8) :
    ((findByte c s).toUInt32 + 1).toNat ≤ s.length := by
  unfold findByte
  cases found : find [c] s with
  | none => exact Nat.zero_le _
  | some i =>
      have within := find_lt found
      have narrow : ((UInt64.ofNat i).toUInt32 + 1).toNat ≤ i + 1 := by
        rw [UInt32.toNat_add, UInt64.toNat_toUInt32, UInt64.toNat_ofNat']
        have one : (1 : UInt32).toNat = 1 := rfl
        omega
      exact Nat.le_trans narrow within

/-- Every round goes on. -/
theorem formatRound_goesOn (len : UInt32) (urltmp1 : List UInt8) :
    ∃ next, formatRound len urltmp1 = .goesOn next := by
  unfold formatRound
  dsimp only
  rw [if_neg (narrow_ne_npos _), if_neg (narrow_ne_npos _),
    if_neg (Nat.not_lt.mpr (findByte_succ_le 62 urltmp1))]
  split_ifs <;> exact ⟨_, rfl⟩

theorem formatLoop_none (len : UInt32) (rounds : ℕ) (urltmp1 : List UInt8) :
    formatLoop len rounds urltmp1 = none := by
  induction rounds generalizing urltmp1 with
  | zero => rfl
  | succ n ih =>
      obtain ⟨next, goesOn⟩ := formatRound_goesOn len urltmp1
      rw [formatLoop, goesOn]
      exact ih next

/-- The loop never ends, whatever the text. -/
theorem finalPageFormat_not_converted (url : List UInt8) : ¬ Converts url := by
  rintro ⟨rounds, result⟩
  rw [checkFinalPageFormat, formatLoop_none] at result
  cases result

/-- `"a<b>c"`. -/
theorem not_converts_every_format : ¬ ∀ url : List UInt8, Converts url :=
  fun claim => finalPageFormat_not_converted [97, 60, 98, 62, 99] (claim _)

end BloomServer
