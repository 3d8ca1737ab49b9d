import BloomServer.Library.Receiving
import BloomServer.MemCacheRing

/-! `ServerSocket`, and the replies of a server as `MemCacheClient` reads them. -/
namespace BloomServer
open DecimalText Receiving Tokens

namespace MemCache

/-- The buffer and the socket of a `ServerSocket`. -/
abbrev ServerSocket := Reader

namespace ServerSocket

def maxBuf : ℕ := 1024

/-- How often an interrupted `recv` is repeated. -/
def retries : ℕ := 20

/-- `GetByte`; without a value it throws. -/
def getByte (s : ServerSocket) : Option UInt8 × ServerSocket := s.next maxBuf retries

/-- What `ReceiveBytes` returns or throws, straight from the socket. -/
def received : Received × List Answer → Option (List UInt8) × ServerSocket
  | (.got seg, net) => (some seg, ⟨[], net⟩)
  | (_, net) => (none, ⟨[], net⟩)

def getBytes (s : ServerSocket) (size : ℕ) : Option (List UInt8) × ServerSocket :=
  if s.unread ≠ [] then (some (s.unread.take size), { s with unread := s.unread.drop size })
  else received (receive size retries s.net)

/-- The buffer of `DiscardBytes` after it has been filled where it was empty. -/
def refill (s : ServerSocket) : Option ServerSocket :=
  if s.unread ≠ [] then some s
  else
    match received (receive maxBuf retries s.net) with
    | (some seg, s) => some ⟨seg, s.net⟩
    | (none, _) => none

end ServerSocket

/-- The loop of `ReceiveLine`. -/
def receiveLineFrom (value : List UInt8) (s : ServerSocket) : Option (List UInt8) × ServerSocket :=
  match _run : s.getByte with
  | (none, s') => (none, s')
  | (some c, s') => if c = 10 then (some (value ++ [c]), s') else receiveLineFrom (value ++ [c]) s'
termination_by s.measure
decreasing_by
  have less := (Reader.measure_next s ServerSocket.maxBuf ServerSocket.retries).2
  have read : s.next ServerSocket.maxBuf ServerSocket.retries = _ := _run
  rw [read] at less
  exact less (Option.some_ne_none c)

def receiveLine (s : ServerSocket) : Option (List UInt8) × ServerSocket := receiveLineFrom [] s

/-- The loop that receives the data of a value, with what it has got when it fails; what it gets is
never empty. -/
def receiveData (nBytes : ℕ) (data : List UInt8) (s : ServerSocket) :
    Bool × List UInt8 × ServerSocket :=
  if nBytes = 0 then (true, data, s)
  else
    match s.getBytes nBytes with
    | (none, s) => (false, data, s)
    | (some [], s) => (false, data, s)
    | (some (b :: seg), s) => receiveData (nBytes - (seg.length + 1)) (data ++ b :: seg) s
termination_by nBytes

def discardBytes (nBytes : ℕ) (s : ServerSocket) : Option Unit × ServerSocket :=
  if nBytes = 0 then (some (), s)
  else
    match s.refill with
    | none => (none, s)
    | some ⟨[], net⟩ => (none, ⟨[], net⟩)
    | some ⟨b :: unread, net⟩ =>
        if nBytes < unread.length + 1 then (some (), ⟨(b :: unread).drop nBytes, net⟩)
        else discardBytes (nBytes - (unread.length + 1)) ⟨[], net⟩
termination_by nBytes

variable {s : ServerSocket} {tail : List UInt8}

/-- Nothing but data comes on the connection, in whatever pieces. -/
def ServerSocket.Calm (s : ServerSocket) : Prop :=
  Receiving.Calm ServerSocket.retries ServerSocket.retries s.net

theorem getByte_calm {c : UInt8} (calm : s.Calm) (bytes : s.bytes = c :: tail) :
    ∃ s' : ServerSocket, s.getByte = (some c, s') ∧ s'.bytes = tail ∧ s'.Calm := by
  obtain ⟨read, left, calm'⟩ := Reader.next_cons calm (by decide : 0 < ServerSocket.maxBuf) bytes
  exact ⟨_, Prod.ext read rfl, left, calm'⟩

theorem receiveLineFrom_calm {line : List UInt8} (calm : s.Calm) (bytes : s.bytes = line ++ 10 :: tail)
    (one : 10 ∉ line) (value : List UInt8) : ∃ s' : ServerSocket,
      receiveLineFrom value s = (some (value ++ line ++ [10]), s') ∧ s'.bytes = tail ∧ s'.Calm := by
  induction line generalizing s value with
  | nil =>
      obtain ⟨s', read, left, calm'⟩ := getByte_calm calm bytes
      refine ⟨s', ?_, left, calm'⟩
      rw [receiveLineFrom]
      split
      all_goals
        rename_i same
        rw [read] at same
        cases same
      rw [if_pos rfl, List.append_nil]
  | cons c line ih =>
      obtain ⟨s', read, left, calm'⟩ := getByte_calm calm bytes
      have other : c ≠ 10 := by
        rintro rfl
        exact one List.mem_cons_self
      obtain ⟨s'', rest, left', calm''⟩ :=
        ih calm' left (fun mem => one (List.mem_cons_of_mem _ mem)) (value ++ [c])
      refine ⟨s'', ?_, left', calm''⟩
      rw [receiveLineFrom]
      split
      all_goals
        rename_i same
        rw [read] at same
        cases same
      rw [if_neg other, rest, List.append_assoc value, List.singleton_append]

theorem getBytes_calm {size : ℕ} (calm : s.Calm) (positive : 0 < size) (some : s.bytes ≠ []) :
    ∃ seg, ∃ s' : ServerSocket, s.getBytes size = (.some seg, s') ∧ seg ≠ [] ∧ seg.length ≤ size ∧
      s.bytes = seg ++ s'.bytes ∧ s'.Calm := by
  obtain ⟨unread, net⟩ := s
  by_cases held : unread = []
  · subst held
    rcases Receiving.Calm.receive calm (Nat.le_refl _) positive with
      ⟨none, _⟩ | ⟨seg, rest, run, nonempty, most, split, calm'⟩
    · exact absurd none some
    · refine ⟨seg, ⟨[], rest⟩, ?_, nonempty, most, split, calm'⟩
      rw [ServerSocket.getBytes, if_neg fun some => some rfl, run]
      rfl
  · have length := List.length_pos_iff.mpr held
    refine ⟨unread.take size, ⟨unread.drop size, net⟩, if_pos held, ?_, List.length_take_le _ _,
      ?_, calm⟩
    · apply List.ne_nil_of_length_pos
      rw [List.length_take]
      omega
    · change unread ++ delivered net = unread.take size ++ (unread.drop size ++ delivered net)
      rw [← List.append_assoc, List.take_append_drop]

theorem receiveData_calm {rest : List UInt8} (calm : s.Calm) (bytes : s.bytes = rest ++ tail)
    (data : List UInt8) : ∃ s' : ServerSocket,
      receiveData rest.length data s = (true, data ++ rest, s') ∧ s'.bytes = tail ∧ s'.Calm := by
  induction long : rest.length using Nat.strong_induction_on generalizing s rest data with
  | _ n ih =>
      subst long
      by_cases zero : rest = []
      · subst zero
        refine ⟨s, ?_, bytes, calm⟩
        rw [receiveData, List.append_nil]
        rfl
      · have length := List.length_pos_iff.mpr zero
        obtain ⟨seg, s', run, some, most, split, calm'⟩ := getBytes_calm calm length (by
          rw [bytes]
          exact List.append_ne_nil_of_left_ne_nil zero _)
        rcases seg with _ | ⟨b, seg⟩
        · exact absurd rfl some
        rw [List.length_cons] at most
        have front : (b :: seg) = rest.take (seg.length + 1) ∧ s'.bytes = rest.drop (seg.length + 1) ++ tail := by
          have same := split.symm.trans bytes
          rw [← List.take_append_drop (seg.length + 1) rest, List.append_assoc] at same
          refine List.append_inj same ?_
          rw [List.length_take, List.length_cons]
          omega
        have left : (rest.drop (seg.length + 1)).length = rest.length - (seg.length + 1) :=
          List.length_drop
        obtain ⟨s'', last, left', calm''⟩ := ih _ (by omega) calm' front.2 (data ++ b :: seg) rfl
        refine ⟨s'', ?_, left', calm''⟩
        rw [receiveData, if_neg (by omega), run]
        dsimp only
        rw [← left, last, List.append_assoc, front.1, List.take_append_drop]

/-- `strtoul` and `strtoull`: the number, and where it ends. -/
def strtoul (text : List UInt8) : ℕ × List UInt8 :=
  (scanInt none text).elim (0, text) fun (z, rest) =>
    (if 2 ^ 64 ≤ z.natAbs then 2 ^ 64 - 1 else (z % 2 ^ 64).toNat, rest)

/-- What the line of a value says. -/
structure ValueLine where
  key : List UInt8
  flags : ℕ
  nBytes : ℕ
  after : List UInt8

/-- A line that starts with `VALUE`, taken apart as far as its size. -/
def parseValue (line : List UInt8) : Option ValueLine :=
  if line.take 6 ≠ ascii "VALUE " then none
  else
    (strchr 32 (line.drop 6)).bind fun n =>
      let (flags, after) := strtoul (line.drop (6 + n + 1))
      if after.head? ≠ some 32 then none
      else
        let (nBytes, after) := strtoul after.tail
        if after.head? ≠ some 32 ∧ after.head? ≠ some 13 then none
        else some ⟨(line.drop 6).take n, flags % 2 ^ 32, nBytes % 2 ^ 32, after⟩

theorem strtoul_decimal {n : ℕ} (small : n < 2 ^ 64) {c : UInt8} (stop : isDigit c = false)
    (rest : List UInt8) : strtoul (decimal n ++ c :: rest) = (n, c :: rest) := by
  have back := scanInt_printInt none n stop 0 rest (fun _ mem => (nomatch mem))
  have print : printInt n = decimal n := if_neg (by omega)
  rw [print, List.replicate_zero, List.nil_append] at back
  rw [strtoul, back]
  change ((if 2 ^ 64 ≤ (n : ℤ).natAbs then 2 ^ 64 - 1 else ((n : ℤ) % 2 ^ 64).toNat), c :: rest) = _
  rw [Int.natAbs_natCast, if_neg (Nat.not_le.mpr small), Int.emod_eq_of_lt (by omega) (by omega),
    Int.toNat_natCast]

/-- A value as a server holds it. -/
structure Value where
  key : List UInt8
  flags : ℕ
  data : List UInt8

/-- A key without blanks and line ends, flags and a size that fit their types. -/
structure Value.Valid (v : Value) : Prop where
  key : ∀ b ∈ v.key, 32 < b
  flags : v.flags < 2 ^ 32
  size : v.data.length + 2 < 2 ^ 31

namespace Value

/-- The line of a value in a reply, up to its end. -/
def line (v : Value) : List UInt8 :=
  ascii "VALUE " ++ (v.key ++ 32 :: (decimal v.flags ++ 32 :: (decimal v.data.length ++ [13])))

/-- A value in a reply. -/
def text (v : Value) : List UInt8 := v.line ++ 10 :: (v.data ++ [13, 10])

variable {v : Value}

theorem not_mem_key (valid : v.Valid) {b : UInt8} (blank : b ≤ 32) : b ∉ v.key := fun mem =>
  absurd (valid.key b mem) (UInt8.not_lt.mpr blank)

theorem not_mem_decimal {n : ℕ} {b : UInt8} (other : isDigit b = false) : b ∉ decimal n := fun mem =>
  absurd (isDigit_of_mem_decimal mem) (by rw [other]; decide)

theorem not_mem_line (valid : v.Valid) : 10 ∉ v.line := by
  unfold line
  simp only [List.mem_append, List.mem_cons, List.not_mem_nil]
  rintro (lead | key | blank | flags | blank | size | last | none)
  · exact absurd lead (by decide)
  · exact not_mem_key valid (by decide) key
  · exact absurd blank (by decide)
  · exact not_mem_decimal (by decide) flags
  · exact absurd blank (by decide)
  · exact not_mem_decimal (by decide) size
  · exact absurd last (by decide)
  · exact none

theorem line_ne_end (v : Value) : v.line ++ [10] ≠ ascii "END\r\n" := by
  intro same
  have first : some (86 : UInt8) = some 69 := congrArg List.head? same
  exact absurd first (by decide)

theorem parseValue_line (valid : v.Valid) :
    parseValue (v.line ++ [10]) = some ⟨v.key, v.flags, v.data.length, [13, 10]⟩ := by
  have flags := valid.flags
  have size := valid.size
  have whole : v.line ++ [10] =
      ascii "VALUE " ++ (v.key ++ 32 :: (decimal v.flags ++ 32 :: (decimal v.data.length ++ [13, 10]))) := by
    rw [line, List.append_assoc, List.append_assoc, List.cons_append, List.append_assoc,
      List.cons_append, List.append_assoc]
    rfl
  have six : (ascii "VALUE ").length = 6 := by decide
  have back : (v.line ++ [10]).drop 6 =
      v.key ++ 32 :: (decimal v.flags ++ 32 :: (decimal v.data.length ++ [13, 10])) := by
    rw [whole, ← six, List.drop_left]
  have lead : (v.line ++ [10]).take 6 = ascii "VALUE " := by
    rw [whole, ← six, List.take_left]
  have after : (v.line ++ [10]).drop (6 + v.key.length + 1) =
      decimal v.flags ++ 32 :: (decimal v.data.length ++ [13, 10]) := by
    rw [Nat.add_assoc, ← List.drop_drop, back, ← List.drop_drop, List.drop_left]
    rfl
  rw [parseValue, if_neg fun differs => differs lead, back,
    strchr_of_append (not_mem_key valid (by decide)), Option.bind_some, after,
    strtoul_decimal (by omega) (by decide)]
  dsimp only
  rw [if_neg fun differs => differs rfl, List.tail_cons, strtoul_decimal (by omega) (by decide)]
  dsimp only
  rw [if_neg fun differs => differs.2 rfl, List.take_left, Nat.mod_eq_of_lt flags,
    Nat.mod_eq_of_lt (by omega)]

end Value

end MemCache

end BloomServer
