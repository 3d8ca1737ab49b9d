import BloomServer.Library.DecimalText
import Mathlib.Data.UInt

/-! `CheckpointManager`: the counter for the ids of URLs, the number that a checkpoint writes, and what
a restart makes of it. -/
namespace BloomServer
open DecimalText

/-- The file of a checkpoint; besides the number in it, the ids handed out before and how often the
counter had gone up. -/
structure UrlIdDump where
  file : List UInt8
  maxid : UInt64
  before : List UInt64
  calls : ℕ

structure UrlIds where
  maxurlid : UInt64
  issued : List UInt64
  calls : ℕ
  dumped : Option UrlIdDump

inductive UrlIdEvent
  | getMaxUrlId
  | dump

namespace UrlIds

def start (maxurlid : UInt64) : UrlIds := ⟨maxurlid, [], 0, none⟩

def getMaxUrlId (s : UrlIds) : UInt64 × UrlIds :=
  (s.maxurlid, { s with maxurlid := s.maxurlid + 1, calls := s.calls + 1 })

/-- The checkpoint takes an id of its own and prints it. -/
def dump (s : UrlIds) : UrlIds :=
  let (maxid, t) := s.getMaxUrlId
  { t with dumped := some ⟨decimal maxid.toNat, maxid, s.issued, s.calls⟩ }

def step (s : UrlIds) : UrlIdEvent → UrlIds
  | .getMaxUrlId =>
      let (maxid, s) := s.getMaxUrlId
      { s with issued := maxid :: s.issued }
  | .dump => s.dump

end UrlIds

/-- A number that is too large becomes the largest one. -/
def strtoull (z : ℤ) : UInt64 := if z.natAbs < 2 ^ 64 then UInt64.ofInt z else -1

/-- `sscanf` with `%llu`, on the memory from the start of the text on. -/
def scanLlu (text : List UInt8) : Option UInt64 := (scanInt none text).map fun p => strtoull p.1

/-- `retrieveMaxUrlId`. The first byte of the buffer is set to 0; what lies behind it is what was
there before, and `fread` writes at most `sizeof(ulonglong)` bytes over it. -/
def retrieveMaxUrlId (behind : List UInt8) (file : Option (List UInt8)) (maxurlid : UInt64) : UInt64 :=
  match file with
  | none => maxurlid
  | some text =>
      let read := text.take 8
      let maxidbuf := read ++ (0 :: behind).drop read.length
      (scanLlu maxidbuf).getD maxurlid + 1

/-- After a restart the next id is above every id handed out before the checkpoint. -/
def RestoresIds (behind : List UInt8) (d : UrlIdDump) (maxurlid : UInt64) : Prop :=
  ∀ id ∈ d.before,
    id < (UrlIds.start (retrieveMaxUrlId behind (some d.file) maxurlid)).getMaxUrlId.1

/-- The digits that happen to lie behind those that are read. -/
def strayDigits (behind : List UInt8) (d : UrlIdDump) : List UInt8 :=
  ((0 :: behind).drop (d.file.take 8).length).takeWhile isDigit

/-- The number of a checkpoint, cut off behind its eighth digit, with the stray digits. -/
def numberRead (behind : List UInt8) (d : UrlIdDump) : ℕ :=
  d.maxid.toNat / 10 ^ ((decimal d.maxid.toNat).length - 8) * 10 ^ (strayDigits behind d).length +
    value (strayDigits behind d)

/-- The counter had not wrapped around, its number has at most the eight digits that are read, and at
most 19 together with those that happen to lie behind them. -/
structure FewDigits (n : UInt64) (behind : List UInt8) (d : UrlIdDump) : Prop where
  straight : n.toNat + d.calls < 2 ^ 64
  read : (decimal d.maxid.toNat).length ≤ 8
  stray : (decimal d.maxid.toNat).length + (strayDigits behind d).length ≤ 19

section Restart

variable {n id : UInt64} {behind : List UInt8} {d : UrlIdDump} {s : UrlIds} {events : List UrlIdEvent}

/-! ### What is read -/

theorem numberRead_eq (printed : d.file = decimal d.maxid.toNat) (behind : List UInt8) :
    value (d.file.take 8 ++ strayDigits behind d) = numberRead behind d := by
  have cut : d.file.take 8 = (decimal d.maxid.toNat).take
      ((decimal d.maxid.toNat).length - ((decimal d.maxid.toNat).length - 8)) := by
    rw [printed, List.take_eq_take_iff]
    omega
  rw [value_append, numberRead, cut, value_take_decimal]

/-- What the restart makes of a file that a checkpoint wrote. -/
theorem retrieve_eq (printed : d.file = decimal d.maxid.toNat) (behind : List UInt8)
    (maxurlid : UInt64) : retrieveMaxUrlId behind (some d.file) maxurlid =
      strtoull (numberRead behind d : ℕ) + 1 := by
  have digits : ∀ b ∈ d.file.take 8, isDigit b = true := by
    intro b mem
    have whole := List.mem_of_mem_take mem
    rw [printed] at whole
    exact isDigit_of_mem_decimal whole
  have some : d.file.take 8 ≠ [] := by
    rw [printed]
    intro empty
    rcases List.take_eq_nil_iff.mp empty with impossible | none
    · cases impossible
    · exact decimal_ne_nil _ none
  unfold retrieveMaxUrlId scanLlu
  dsimp only
  rw [scanInt_digits digits some, Option.map_some, Option.getD_some, ← numberRead_eq printed]
  rfl

theorem toNat_strtoull {n : ℕ} (small : n < 2 ^ 64) : (strtoull (n : ℤ)).toNat = n := by
  rw [strtoull, Int.natAbs_natCast, if_pos small, UInt64.ofInt, UInt64.toNat_ofNat']
  omega

theorem next_of_small (small : numberRead behind d + 1 < 2 ^ 64) :
    (strtoull (numberRead behind d : ℕ) + 1).toNat = numberRead behind d + 1 := by
  rw [UInt64.toNat_add, toNat_strtoull (Nat.lt_of_succ_lt small)]
  exact Nat.mod_eq_of_lt small

/-- The next id is never further on than behind the number that is read. -/
theorem next_le : (strtoull (numberRead behind d : ℕ) + 1).toNat ≤ numberRead behind d + 1 := by
  by_cases small : numberRead behind d < 2 ^ 64
  · rw [UInt64.toNat_add, toNat_strtoull small]
    exact Nat.mod_le _ _
  · have below := (strtoull (numberRead behind d : ℕ) + 1).toNat_lt
    omega

/-- The number that is read has no more digits than eight and the stray ones. -/
theorem numberRead_lt (printed : d.file = decimal d.maxid.toNat) (behind : List UInt8) :
    numberRead behind d <
      10 ^ (min 8 (decimal d.maxid.toNat).length + (strayDigits behind d).length) := by
  have digits : ∀ b ∈ d.file.take 8 ++ strayDigits behind d, isDigit b = true := by
    intro b mem
    rcases List.mem_append.mp mem with front | stray
    · have whole := List.mem_of_mem_take front
      rw [printed] at whole
      exact isDigit_of_mem_decimal whole
    · exact List.mem_takeWhile_imp stray
  have bound := value_lt digits
  rwa [numberRead_eq printed, List.length_append, List.length_take, printed] at bound

/-! ### What the process hands out -/

/-- Every id is the number of the call that took it, counted from the first value. -/
def Counted (n : UInt64) (calls : ℕ) (ids : List UInt64) : Prop :=
  ∀ id ∈ ids, ∃ j < calls, id.toNat = (n.toNat + j) % 2 ^ 64

structure CountsUp (n : UInt64) (s : UrlIds) : Prop where
  counter : s.maxurlid.toNat = (n.toNat + s.calls) % 2 ^ 64
  issued : Counted n s.calls s.issued
  dumped : ∀ d, s.dumped = some d → d.file = decimal d.maxid.toNat ∧
    d.maxid.toNat = (n.toNat + d.calls) % 2 ^ 64 ∧ Counted n d.calls d.before

theorem Counted.mono {calls : ℕ} {ids : List UInt64} (counted : Counted n calls ids) :
    Counted n (calls + 1) ids := by
  intro id mem
  obtain ⟨j, before, same⟩ := counted id mem
  exact ⟨j, Nat.lt_succ_of_lt before, same⟩

theorem CountsUp.succ (counts : CountsUp n s) :
    (s.maxurlid + 1).toNat = (n.toNat + (s.calls + 1)) % 2 ^ 64 := by
  rw [UInt64.toNat_add, counts.counter]
  change ((n.toNat + s.calls) % 2 ^ 64 + 1) % 2 ^ 64 = _
  omega

theorem CountsUp.step (counts : CountsUp n s) (event : UrlIdEvent) : CountsUp n (s.step event) := by
  cases event with
  | getMaxUrlId =>
      refine ⟨counts.succ, fun id mem => ?_, counts.dumped⟩
      rcases List.mem_cons.mp mem with same | old
      · rw [same]
        exact ⟨s.calls, Nat.lt_succ_self _, counts.counter⟩
      · exact counts.issued.mono id old
  | dump =>
      refine ⟨counts.succ, counts.issued.mono, fun d same => ?_⟩
      cases same
      exact ⟨rfl, counts.counter, counts.issued⟩

theorem countsUp_run (n : UInt64) (events : List UrlIdEvent) :
    CountsUp n (events.foldl UrlIds.step (.start n)) := by
  have general (s : UrlIds) (counts : CountsUp n s) : CountsUp n (events.foldl UrlIds.step s) := by
    induction events generalizing s with
    | nil => exact counts
    | cons event events ih => exact ih (s.step event) (counts.step event)
  apply general
  refine ⟨?_, fun id impossible => ?_, fun d impossible => ?_⟩
  · exact (Nat.mod_eq_of_lt n.toNat_lt).symm
  · cases impossible
  · cases impossible

/-- Without a wrap-around the ids are below the number of the checkpoint. -/
theorem below_maxid {calls : ℕ} {ids : List UInt64} (counted : Counted n calls ids)
    (straight : n.toNat + calls < 2 ^ 64) : ∀ id ∈ ids, id.toNat < n.toNat + calls := by
  intro id mem
  obtain ⟨j, before, same⟩ := counted id mem
  omega

/-- A number of at most eight digits is read whole, so what is read is no less. -/
theorem maxid_le_numberRead (few : (decimal d.maxid.toNat).length ≤ 8) (behind : List UInt8) :
    d.maxid.toNat ≤ numberRead behind d := by
  have short : (decimal d.maxid.toNat).length - 8 = 0 := Nat.sub_eq_zero_of_le few
  rw [numberRead, short, Nat.pow_zero, Nat.div_one]
  have one : 1 ≤ 10 ^ (strayDigits behind d).length := Nat.one_le_pow _ _ (by decide)
  exact (Nat.le_mul_of_pos_right _ one).trans (Nat.le_add_right _ _)

/-- Few digits are read whole, and the ids go on above the old ones. -/
theorem FewDigits.restores (few : FewDigits n behind d) (printed : d.file = decimal d.maxid.toNat)
    (number : d.maxid.toNat = (n.toNat + d.calls) % 2 ^ 64) (counted : Counted n d.calls d.before)
    (maxurlid : UInt64) : RestoresIds behind d maxurlid := by
  intro id mem
  have next : (UrlIds.start (retrieveMaxUrlId behind (some d.file) maxurlid)).getMaxUrlId.1 =
      strtoull (numberRead behind d : ℕ) + 1 := retrieve_eq printed behind maxurlid
  have digits : min 8 (decimal d.maxid.toNat).length + (strayDigits behind d).length ≤ 19 := by
    have stray := few.stray
    omega
  have small : numberRead behind d + 1 < 2 ^ 64 := by
    have read := numberRead_lt printed behind
    have most : numberRead behind d < 10 ^ 19 :=
      read.trans_le (Nat.pow_le_pow_right (by decide) digits)
    omega
  rw [next, UInt64.lt_iff_toNat_lt, next_of_small small]
  have lower := below_maxid counted few.straight id mem
  have upper := maxid_le_numberRead few.read behind
  rw [Nat.mod_eq_of_lt few.straight] at number
  omega

/-- An id of more digits than are read is not below the next one. -/
theorem not_restores_of_long (printed : d.file = decimal d.maxid.toNat) (maxurlid : UInt64)
    (mem : id ∈ d.before) (long : 8 + (strayDigits behind d).length < (decimal id.toNat).length) :
    ¬ RestoresIds behind d maxurlid := by
  intro restores
  have next : (UrlIds.start (retrieveMaxUrlId behind (some d.file) maxurlid)).getMaxUrlId.1 =
      strtoull (numberRead behind d : ℕ) + 1 := retrieve_eq printed behind maxurlid
  have above := restores id mem
  rw [next, UInt64.lt_iff_toNat_lt] at above
  have large : 10 ^ (8 + (strayDigits behind d).length) ≤ id.toNat := by
    refine Nat.le_of_not_lt fun below => ?_
    have short := (length_decimal_le_iff (Nat.add_pos_left (by decide) _)).mpr below
    omega
  have read : numberRead behind d < 10 ^ (8 + (strayDigits behind d).length) :=
    (numberRead_lt printed behind).trans_le (Nat.pow_le_pow_right (by decide) (by omega))
  have most : (strtoull (numberRead behind d : ℕ) + 1).toNat ≤ numberRead behind d + 1 := next_le
  omega

/-- In every run the ids go on above the old ones if the number of the checkpoint has few digits, or no
id was handed out before it. They do not where an id has more digits than the restart reads. -/
theorem few_ids_restored (n : UInt64) (events : List UrlIdEvent) {d : UrlIdDump}
    (dumped : (events.foldl UrlIds.step (.start n)).dumped = some d) (behind : List UInt8)
    (maxurlid : UInt64) :
    (d.before = [] ∨ FewDigits n behind d → RestoresIds behind d maxurlid) ∧
    (∀ id ∈ d.before, 8 + (strayDigits behind d).length < (decimal id.toNat).length →
      ¬ RestoresIds behind d maxurlid) := by
  obtain ⟨printed, number, counted⟩ := (countsUp_run n events).dumped d dumped
  refine ⟨?_, fun id mem long => not_restores_of_long printed maxurlid mem long⟩
  rintro (none | few)
  · rw [RestoresIds, none]
    exact fun id impossible => absurd impossible List.not_mem_nil
  · exact few.restores printed number counted maxurlid

end Restart

/-- One id and a checkpoint. -/
def idAndDump : List UrlIdEvent := [.getMaxUrlId, .dump]

/-- Id 41 is handed out, 42 is written, and the ids go on with 43. -/
theorem few_ids_restored_small : ∃ d, (idAndDump.foldl UrlIds.step (.start 41)).dumped = some d ∧
    d.before = [41] ∧ RestoresIds (List.replicate 31 0) d 0 := by
  refine ⟨_, rfl, rfl, (few_ids_restored 41 idAndDump rfl (List.replicate 31 0) 0).1 (Or.inr ?_)⟩
  exact ⟨by decide, by decide, by decide⟩

/-- Id 123456788 is handed out, 123456789 is written and 12345678 read back. -/
theorem not_ids_restored : ∃ d,
    (idAndDump.foldl UrlIds.step (.start 123456788)).dumped = some d ∧ d.before = [123456788] ∧
      ¬ RestoresIds (List.replicate 31 0) d 0 := by
  refine ⟨_, rfl, rfl, fun restores => ?_⟩
  have above := restores 123456788 List.mem_cons_self
  exact absurd above (by decide)

end BloomServer
