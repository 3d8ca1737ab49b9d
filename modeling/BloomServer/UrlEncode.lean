import BloomServer.Library.CharBuffer
import BloomServer.Murmur

/-! `URLencode`, `MyURLencode` and `MyURLBlankencode`: a text with escapes, written into a buffer. -/
namespace BloomServer
open CharBuffer

/-- The hexadecimal digit of the lower four bits. -/
def bin2hex (ch : Int8) : Int8 :=
  let ch := (ch &&& 0x0f) + 48
  if ch > 57 then ch + 7 else ch

def alphaNumeric (ch : Int8) : Bool :=
  (97 ≤ ch && ch ≤ 122) || (65 ≤ ch && ch ≤ 90) || (48 ≤ ch && ch ≤ 57)

/-- `'%'`, `bin2hex (ch >> 4)` and `bin2hex (ch)`. -/
def hexEscape (ch : Int8) : List UInt8 :=
  [37, (bin2hex (ch >>> 4)).toUInt8, (bin2hex ch).toUInt8]

/-- The loop, with what it writes for a character and the last place that leaves room for three more
and the NUL. What comes back with the buffer says whether the loop was left at the limit: the number
of bytes returned otherwise is counted from a pointer that was never set. -/
def encodeLoop (written : Int8 → List UInt8) (limit : ℕ) :
    CString → ℕ → List UInt8 → Option (Bool × List UInt8)
  | [], encode, mem => do
      let mem ← put mem encode [0]
      return (false, mem)
  | ch :: plain, encode, mem => do
      let mem ← put mem encode (written ch.toInt8)
      let encode := encode + (written ch.toInt8).length
      if encode > limit then
        let mem ← put mem encode [0]
        return (true, mem)
      else encodeLoop written limit plain encode mem

def URLencodeChar (ch : Int8) : List UInt8 :=
  if ch = 32 then [43] else if alphaNumeric ch then [ch.toUInt8] else hexEscape ch

/-- Just the characters outside ASCII. -/
def MyURLencodeChar (ch : Int8) : List UInt8 := if ch < 0 then hexEscape ch else [ch.toUInt8]

/-- The characters outside ASCII and blanks. -/
def MyURLBlankencodeChar (ch : Int8) : List UInt8 :=
  if ch < 0 then hexEscape ch else if ch = 32 then [37, 50, 48] else [ch.toUInt8]

def URLencode (plain : CString) (encode : List UInt8) (maxlen : ℕ) : Option (Bool × List UInt8) :=
  encodeLoop URLencodeChar (maxlen - 4) plain 0 encode

def MyURLencode (plain : CString) (encode : List UInt8) (maxlen : ℕ) : Option (Bool × List UInt8) :=
  encodeLoop MyURLencodeChar (maxlen - 4) plain 0 encode

def MyURLBlankencode (plain : CString) (encode : List UInt8) (maxlen : ℕ) :
    Option (Bool × List UInt8) :=
  encodeLoop MyURLBlankencodeChar (maxlen - 4) plain 0 encode

/-- A text written in whole escapes. -/
def escaped (written : Int8 → List UInt8) (text : CString) : List UInt8 :=
  text.flatMap fun b => written b.toInt8

theorem escaped_cons (written : Int8 → List UInt8) (b : UInt8) (text : CString) :
    escaped written (b :: text) = written b.toInt8 ++ escaped written text := List.flatMap_cons

theorem escaped_clean {written : Int8 → List UInt8} (clean : ∀ b : UInt8, b ≠ 0 → 0 ∉ written b.toInt8)
    {text : CString} (nul : 0 ∉ text) : 0 ∉ escaped written text := by
  intro mem
  obtain ⟨b, inText, inEscape⟩ := List.mem_flatMap.mp mem
  exact clean b (fun zero => nul (zero ▸ inText)) inEscape

/-- Where the loop stops: some whole characters, the NUL behind them, nothing else. -/
structure Stopped (written : Int8 → List UInt8) (limit : ℕ) (plain : CString) (front rest : List UInt8)
    (cut : Bool) (done : CString) (mem : List UInt8) : Prop where
  memory : mem = front ++ (escaped written done ++ 0 :: rest.drop ((escaped written done).length + 1))
  lead : done <+: plain
  fits : front.length + (escaped written done).length ≤ limit + 3
  whole : cut = false → done = plain
  full : cut = true → limit < front.length + (escaped written done).length
  began : ∀ p b, done = p ++ [b] → front.length + (escaped written p).length ≤ limit

theorem encodeLoop_spec {written : Int8 → List UInt8} (three : ∀ ch, (written ch).length ≤ 3)
    {limit : ℕ} (plain : CString) (front rest : List UInt8) (start : front.length ≤ limit)
    (room : limit + 4 ≤ front.length + rest.length) :
    ∃ cut done mem, encodeLoop written limit plain front.length (front ++ rest) = some (cut, mem) ∧
      Stopped written limit plain front rest cut done mem := by
  induction plain generalizing front rest with
  | nil =>
      have nul : put (front ++ rest) front.length [0] = some (front ++ ([0] ++ rest.drop 1)) :=
        put_append _ _ (by rw [List.length_singleton]; omega)
      have run : encodeLoop written limit [] front.length (front ++ rest) =
          some (false, front ++ ([0] ++ rest.drop 1)) := by
        rw [encodeLoop, nul]
        rfl
      refine ⟨false, [], _, run, rfl, List.prefix_rfl, start.trans (Nat.le_add_right limit 3), fun _ => rfl,
        fun cut => Bool.noConfusion cut, fun p b is => ?_⟩
      cases p <;> cases is
  | cons ch plain ih =>
      have size := three ch.toInt8
      have write : put (front ++ rest) front.length (written ch.toInt8) =
          some ((front ++ written ch.toInt8) ++ rest.drop (written ch.toInt8).length) := by
        rw [put_append _ _ (by omega), List.append_assoc]
      have next : front.length + (written ch.toInt8).length = (front ++ written ch.toInt8).length :=
        List.length_append.symm
      have one : escaped written [ch] = written ch.toInt8 := List.flatMap_singleton _ _
      by_cases behind : front.length + (written ch.toInt8).length > limit
      · have left : [(0 : UInt8)].length ≤ (rest.drop (written ch.toInt8).length).length := by
          rw [List.length_singleton, List.length_drop]
          omega
        have nul := put_append (front ++ written ch.toInt8) [0] left
        have run : encodeLoop written limit (ch :: plain) front.length (front ++ rest) =
            some (true, front ++ written ch.toInt8 ++
              ([0] ++ (rest.drop (written ch.toInt8).length).drop 1)) := by
          rw [encodeLoop, write]
          change (if _ > limit then _ else _) = _
          rw [if_pos behind, next, nul]
          rfl
        refine ⟨true, [ch], _, run, ?_, ⟨plain, rfl⟩, ?_, fun cut => Bool.noConfusion cut, fun _ => ?_,
          fun p b is => ?_⟩
        · rw [one, List.append_assoc, List.drop_drop]
          rfl
        · rw [one]
          omega
        · rw [one]
          exact behind
        · cases p with
          | nil => exact start
          | cons c p => cases p <;> cases is
      · obtain ⟨cut, done, mem, run, stopped⟩ := ih (front ++ written ch.toInt8)
          (rest.drop (written ch.toInt8).length) (by omega) (by rw [List.length_drop]; omega)
        have total : (front ++ written ch.toInt8).length + (escaped written done).length =
            front.length + (escaped written (ch :: done)).length := by
          rw [escaped_cons, List.length_append, List.length_append, Nat.add_assoc]
        refine ⟨cut, ch :: done, mem, ?_, ?_, ?_, ?_, ?_, ?_, fun p b is => ?_⟩
        · rw [encodeLoop, write]
          change (if _ > limit then _ else _) = _
          rw [if_neg behind, next, run]
        · rw [stopped.memory, List.append_assoc, List.drop_drop, escaped_cons, List.append_assoc,
            List.length_append, Nat.add_assoc]
        · exact List.cons_prefix_cons.mpr ⟨rfl, stopped.lead⟩
        · rw [← total]
          exact stopped.fits
        · exact fun left => congrArg (ch :: ·) (stopped.whole left)
        · rw [← total]
          exact stopped.full
        · cases p with
          | nil => exact start
          | cons c p =>
              cases is
              have low := stopped.began p b rfl
              rw [escaped_cons, List.length_append]
              rw [List.length_append] at low
              omega

/-! ### What a buffer holds after a call -/

/-- Some whole characters in front of a NUL inside the first `maxlen` bytes, nothing else touched. All
characters are there, or so many that the next one and the NUL may not fit. -/
structure Encoded (written : Int8 → List UInt8) (plain : CString) (encode : List UInt8) (maxlen : ℕ)
    (cut : Bool) (done : CString) (mem : List UInt8) : Prop where
  text : textAt 0 mem 0 = some (escaped written done)
  inside : (escaped written done).length < maxlen
  rest : mem.drop ((escaped written done).length + 1) = encode.drop ((escaped written done).length + 1)
  lead : done <+: plain
  whole : cut = false → done = plain
  full : cut = true → maxlen - 4 < (escaped written done).length

theorem encoded_of_stopped {written : Int8 → List UInt8}
    (clean : ∀ b : UInt8, b ≠ 0 → 0 ∉ written b.toInt8) {plain encode : List UInt8} (nul : 0 ∉ plain)
    {maxlen : ℕ} (margin : 4 ≤ maxlen) {cut : Bool} {done mem : List UInt8}
    (stopped : Stopped written (maxlen - 4) plain [] encode cut done mem) :
    Encoded written plain encode maxlen cut done mem := by
  have away := escaped_clean clean fun mem => nul (stopped.lead.subset mem)
  have fits := stopped.fits
  have memory := stopped.memory
  rw [List.nil_append] at memory
  rw [List.length_nil] at fits
  have full := stopped.full
  rw [List.length_nil, Nat.zero_add] at full
  refine ⟨?_, by omega, ?_, stopped.lead, stopped.whole, full⟩
  · rw [memory]
    exact textAt_zero away _
  · rw [memory, ← List.drop_drop, List.drop_left]
    rfl

theorem encodeLoop_encoded {written : Int8 → List UInt8} (three : ∀ ch, (written ch).length ≤ 3)
    (clean : ∀ b : UInt8, b ≠ 0 → 0 ∉ written b.toInt8) {plain encode : List UInt8} (nul : 0 ∉ plain)
    {maxlen : ℕ} (margin : 4 ≤ maxlen) (room : maxlen ≤ encode.length) :
    ∃ cut done mem, encodeLoop written (maxlen - 4) plain 0 encode = some (cut, mem) ∧
      Encoded written plain encode maxlen cut done mem := by
  have start : ([] : List UInt8).length ≤ maxlen - 4 := Nat.zero_le _
  obtain ⟨cut, done, mem, run, stopped⟩ := encodeLoop_spec three plain [] encode start
    (by rw [List.length_nil]; omega)
  exact ⟨cut, done, mem, run, encoded_of_stopped clean nul margin stopped⟩

theorem length_hexEscape (ch : Int8) : (hexEscape ch).length = 3 := rfl

theorem length_URLencodeChar (ch : Int8) : (URLencodeChar ch).length ≤ 3 := by
  unfold URLencodeChar
  split_ifs <;> simp [length_hexEscape]

theorem length_MyURLencodeChar (ch : Int8) : (MyURLencodeChar ch).length ≤ 3 := by
  unfold MyURLencodeChar
  split_ifs <;> simp [length_hexEscape]

theorem length_MyURLBlankencodeChar (ch : Int8) : (MyURLBlankencodeChar ch).length ≤ 3 := by
  unfold MyURLBlankencodeChar
  split_ifs <;> simp [length_hexEscape]

/-- A fact about every byte, checked byte by byte. -/
theorem forall_byte {P : UInt8 → Prop} (all : ∀ n : Fin 256, P (UInt8.ofFin n)) (b : UInt8) : P b :=
  all b.toFin

theorem URLencodeChar_clean : ∀ b : UInt8, b ≠ 0 → 0 ∉ URLencodeChar b.toInt8 :=
  forall_byte (by decide +kernel)

theorem MyURLencodeChar_clean : ∀ b : UInt8, b ≠ 0 → 0 ∉ MyURLencodeChar b.toInt8 :=
  forall_byte (by decide +kernel)

theorem MyURLBlankencodeChar_clean : ∀ b : UInt8, b ≠ 0 → 0 ∉ MyURLBlankencodeChar b.toInt8 :=
  forall_byte (by decide +kernel)

/-! ### Reading an encoded text -/

/-- The value of a hexadecimal digit, in either case. -/
def hexValue (b : UInt8) : UInt8 := if b ≤ 57 then b - 48 else if b ≤ 70 then b - 55 else b - 87

/-- `%` and two digits stand for a byte, `'+'` for a blank. -/
def percentDecode : List UInt8 → List UInt8
  | a :: high :: low :: rest =>
      if a = 37 then (16 * hexValue high + hexValue low) :: percentDecode rest
      else (if a = 43 then 32 else a) :: percentDecode (high :: low :: rest)
  | a :: rest => (if a = 43 then 32 else a) :: percentDecode rest
  | [] => []

theorem percentDecode_cons {a : UInt8} (other : a ≠ 37) (rest : List UInt8) :
    percentDecode (a :: rest) = (if a = 43 then 32 else a) :: percentDecode rest := by
  cases rest with
  | nil => rfl
  | cons high rest =>
      cases rest with
      | nil => rfl
      | cons low rest => rw [percentDecode, if_neg other]

theorem percentDecode_hexEscape (b : UInt8) (rest : List UInt8) :
    percentDecode (hexEscape b.toInt8 ++ rest) = b :: percentDecode rest := by
  have digits : ∀ b : UInt8,
      (16 : UInt8) * hexValue (bin2hex (b.toInt8 >>> 4)).toUInt8 + hexValue (bin2hex b.toInt8).toUInt8 = b :=
    forall_byte (by decide +kernel)
  change percentDecode (37 :: _ :: _ :: rest) = _
  rw [percentDecode, if_pos rfl, digits]

theorem percentDecode_char (b : UInt8) (rest : List UInt8) :
    percentDecode (URLencodeChar b.toInt8 ++ rest) = b :: percentDecode rest := by
  have blank : ∀ b : UInt8, b.toInt8 = 32 → b = 32 := forall_byte (by decide +kernel)
  have plain : ∀ b : UInt8, alphaNumeric b.toInt8 = true → b ≠ 37 ∧ b ≠ 43 :=
    forall_byte (by decide +kernel)
  unfold URLencodeChar
  split_ifs with space letter
  · rw [blank b space]
    exact percentDecode_cons (by decide) rest
  · rw [UInt8.toUInt8_toInt8, List.singleton_append, percentDecode_cons (plain b letter).1,
      if_neg (plain b letter).2]
  · exact percentDecode_hexEscape b rest

theorem percentDecode_escaped (text : CString) : percentDecode (escaped URLencodeChar text) = text := by
  induction text with
  | nil => rfl
  | cons b text ih => rw [escaped_cons, percentDecode_char, ih]

/-- The three encoders write inside the first `maxlen` bytes, leave whole escapes in front of a NUL,
and what `URLencode` leaves is read back as a prefix of the text, the whole of it unless the loop was
left at the limit. -/
theorem urlEncoders_bounded (plain : CString) (nul : 0 ∉ plain) (encode : List UInt8) (maxlen : ℕ)
    (margin : 4 ≤ maxlen) (room : maxlen ≤ encode.length) :
    (∃ cut done mem, URLencode plain encode maxlen = some (cut, mem) ∧
      Encoded URLencodeChar plain encode maxlen cut done mem ∧
      ∃ text, textAt 0 mem 0 = some text ∧ percentDecode text <+: plain ∧
        (cut = false → percentDecode text = plain)) ∧
    (∃ cut done mem, MyURLencode plain encode maxlen = some (cut, mem) ∧
      Encoded MyURLencodeChar plain encode maxlen cut done mem) ∧
    ∃ cut done mem, MyURLBlankencode plain encode maxlen = some (cut, mem) ∧
      Encoded MyURLBlankencodeChar plain encode maxlen cut done mem := by
  refine ⟨?_, encodeLoop_encoded length_MyURLencodeChar MyURLencodeChar_clean nul margin room,
    encodeLoop_encoded length_MyURLBlankencodeChar MyURLBlankencodeChar_clean nul margin room⟩
  obtain ⟨cut, done, mem, run, encoded⟩ :=
    encodeLoop_encoded length_URLencodeChar URLencodeChar_clean nul margin room
  refine ⟨cut, done, mem, run, encoded, _, encoded.text, ?_, fun left => ?_⟩
  · rw [percentDecode_escaped]
    exact encoded.lead
  · rw [percentDecode_escaped]
    exact encoded.whole left

/-- Of `a/b` there is room for `a%2F` in five bytes. -/
theorem urlEncoders_bounded_fiveBytes :
    URLencode [97, 47, 98] [1, 1, 1, 1, 1, 7] 5 = some (true, [97, 37, 50, 70, 0, 7]) ∧
      Encoded URLencodeChar [97, 47, 98] [1, 1, 1, 1, 1, 7] 5 true [97, 47] [97, 37, 50, 70, 0, 7] := by
  obtain ⟨⟨cut, done, mem, run, encoded, -⟩, -⟩ :=
    urlEncoders_bounded [97, 47, 98] (by decide) [1, 1, 1, 1, 1, 7] 5 (by decide) (by decide)
  have bytes : URLencode [97, 47, 98] [1, 1, 1, 1, 1, 7] 5 = some (true, [97, 37, 50, 70, 0, 7]) := by
    decide
  obtain ⟨rfl, rfl⟩ := Prod.mk.inj (Option.some.inj (run.symm.trans bytes))
  have text : textAt (0 : UInt8) [97, 37, 50, 70, 0, 7] 0 = some [97, 37, 50, 70] := by decide
  have same : escaped URLencodeChar done = [97, 37, 50, 70] :=
    Option.some.inj (encoded.text.symm.trans text)
  have read := percentDecode_escaped done
  rw [same] at read
  have two : done = [97, 47] := read.symm
  rw [two] at encoded
  exact ⟨bytes, encoded⟩

end BloomServer
