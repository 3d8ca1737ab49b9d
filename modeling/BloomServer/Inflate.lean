import BloomServer.SaveContent

/-! `inf` of `util.cpp` with the `int` arithmetic of its retries, on what `def` has made of a page, and
what `savecontent` does with the result. -/
namespace BloomServer

/-- How the two functions of zlib belong together: with room for it the text comes back, and with less
room the buffer is filled as far as it goes. -/
structure Zlib.Inverts (Z : Zlib) : Prop where
  enough : ∀ {room x}, x.length ≤ room → Z.uncompress room (Z.compress2 x) = .ok x
  short : ∀ {room x}, room < x.length →
    ∃ data, Z.uncompress room (Z.compress2 x) = .bufError data ∧ data.length ≤ room

/-- The retries of `inf`, with `num` an `int`. A size that is no `int` is undefined, and for a negative
one nothing is allocated. -/
def Zlib.infLoop (Z : Zlib) (src : List UInt8) (num : Int32) : ℕ → ℕ → Option Uncompressed
  | 0, room => some (Z.uncompress room src)
  | left + 1, room =>
      match Z.uncompress room src with
      | .bufError _ =>
          let size := num.toInt * 2 ^ (5 - left)
          if 0 ≤ size ∧ size < 2 ^ 31 then Z.infLoop src num left size.toNat else none
      | result => some result

def Zlib.inf (Z : Zlib) (src : List UInt8) : Option Uncompressed :=
  Z.infLoop src (Int32.ofNat (src.length * 2)) 5 (src.length * 2)

/-- A text of so many bytes gets room: twice the bytes that it is compressed to, or that doubled up to
five times as long as it is an `int`. -/
def GetsRoom (length compressed : ℕ) : Prop :=
  length ≤ compressed * 2 ∨ ∃ i, 1 ≤ i ∧ i ≤ 5 ∧ compressed * 2 * 2 ^ i < 2 ^ 31 ∧
    length ≤ compressed * 2 * 2 ^ i

section Inflate

variable {Z : Zlib} {x : List UInt8} {num : Int32} {left room compressed : ℕ}

theorem uncompress_ok_iff (inverts : Z.Inverts) :
    Z.uncompress room (Z.compress2 x) = .ok x ↔ x.length ≤ room := by
  refine ⟨fun ok => Z.fits room _ x ok, fun enough => inverts.enough enough⟩

/-- Doubling more often does not make a size fit. -/
theorem size_mono {i j : ℕ} (nonneg : 0 ≤ num.toInt) (le : i ≤ j) :
    num.toInt * 2 ^ i ≤ num.toInt * 2 ^ j :=
  Int.mul_le_mul_of_nonneg_left (pow_le_pow_right₀ (by decide) le) nonneg

/-- The rooms that are still to come are `num` times `2 ^ i`, for `i` up to 5. -/
theorem infLoop_ok_iff (inverts : Z.Inverts) (few : left ≤ 5) :
    Z.infLoop (Z.compress2 x) num left room = some (.ok x) ↔ x.length ≤ room ∨
      ∃ i, 5 - left < i ∧ i ≤ 5 ∧ 0 ≤ num.toInt ∧ num.toInt * 2 ^ i < 2 ^ 31 ∧
        (x.length : ℤ) ≤ num.toInt * 2 ^ i := by
  induction left generalizing room with
  | zero =>
      rw [Zlib.infLoop, Option.some.injEq, uncompress_ok_iff inverts]
      refine ⟨Or.inl, ?_⟩
      rintro (enough | ⟨i, low, high, _⟩)
      · exact enough
      · omega
  | succ left ih =>
      rw [Zlib.infLoop]
      by_cases enough : x.length ≤ room
      · rw [inverts.enough enough]
        exact ⟨fun _ => Or.inl enough, fun _ => rfl⟩
      · obtain ⟨data, failed, _⟩ := inverts.short (Nat.lt_of_not_le enough)
        rw [failed]
        dsimp only
        by_cases valid : 0 ≤ num.toInt * 2 ^ (5 - left) ∧ num.toInt * 2 ^ (5 - left) < 2 ^ 31
        · rw [if_pos valid, ih (by omega)]
          have nonneg : 0 ≤ num.toInt :=
            nonneg_of_mul_nonneg_left valid.1 (pow_pos (by decide) _)
          constructor
          · rintro (here | ⟨i, low, rest⟩)
            · exact Or.inr ⟨5 - left, by omega, by omega, nonneg, valid.2, by omega⟩
            · exact Or.inr ⟨i, by omega, rest⟩
          · rintro (impossible | ⟨i, low, high, rest⟩)
            · exact absurd impossible enough
            · by_cases first : i = 5 - left
              · subst first
                left
                omega
              · exact Or.inr ⟨i, by omega, high, rest⟩
        · rw [if_neg valid]
          constructor
          · intro impossible
            cases impossible
          · rintro (impossible | ⟨i, low, high, nonneg, fits, _⟩)
            · exact absurd impossible enough
            · have below := size_mono nonneg (show 5 - left ≤ i by omega)
              have zero := size_mono nonneg (Nat.zero_le (5 - left))
              rw [pow_zero, mul_one] at zero
              exact absurd ⟨nonneg.trans zero, lt_of_le_of_lt below fits⟩ valid

/-- The helper returns the text exactly when it gets room. -/
theorem inf_ok_iff (inverts : Z.Inverts) (x : List UInt8) :
    Z.inf (Z.compress2 x) = some (.ok x) ↔ GetsRoom x.length (Z.compress2 x).length := by
  rw [Zlib.inf, infLoop_ok_iff inverts (Nat.le_refl 5)]
  generalize (Z.compress2 x).length = compressed
  unfold GetsRoom
  by_cases int : compressed * 2 < 2 ^ 31
  · have num : (Int32.ofNat (compressed * 2)).toInt = compressed * 2 := by
      rw [Int32.toInt_ofNat_of_lt int]
      exact Nat.cast_mul compressed 2
    rw [num]
    constructor
    · rintro (enough | ⟨i, low, high, _, fits, enough⟩)
      · exact Or.inl enough
      · exact Or.inr ⟨i, by omega, high, by exact_mod_cast fits, by exact_mod_cast enough⟩
    · rintro (enough | ⟨i, low, high, fits, enough⟩)
      · exact Or.inl enough
      · exact Or.inr ⟨i, by omega, high, by omega, by exact_mod_cast fits, by exact_mod_cast enough⟩
  · constructor
    · rintro (enough | ⟨i, _, _, _, fits, enough⟩)
      · exact Or.inl enough
      · left
        omega
    · rintro (enough | ⟨i, _, _, fits, _⟩)
      · exact Or.inl enough
      · have one : 1 ≤ 2 ^ i := Nat.one_le_two_pow
        have more := Nat.le_mul_of_pos_right (compressed * 2) one
        omega

/-- A record is short enough for all the sizes to be `int`s. -/
theorem getsRoom_iff (short : compressed < 2 ^ 25) {length : ℕ} :
    GetsRoom length compressed ↔ length ≤ 64 * compressed := by
  constructor
  · rintro (enough | ⟨i, _, high, _, enough⟩)
    · omega
    · have bound : compressed * 2 * 2 ^ i ≤ compressed * 2 * 2 ^ 5 :=
        Nat.mul_le_mul_left _ (Nat.pow_le_pow_right (by decide) high)
      omega
  · exact fun enough => Or.inr ⟨5, by decide, Nat.le_refl 5, by omega, by omega⟩

/-- What is left in the buffer after the last attempt is the text or shorter. -/
theorem infLoop_shorter (inverts : Z.Inverts) {n : ℕ} :
    BloomServer.infLoop Z (Z.compress2 x) n left room = .ok x ∨
      (BloomServer.infLoop Z (Z.compress2 x) n left room).data.length < x.length := by
  induction left generalizing room with
  | zero =>
      rw [BloomServer.infLoop]
      by_cases enough : x.length ≤ room
      · exact Or.inl (inverts.enough enough)
      · obtain ⟨data, failed, filled⟩ := inverts.short (Nat.lt_of_not_le enough)
        rw [failed]
        exact Or.inr (Nat.lt_of_le_of_lt filled (Nat.lt_of_not_le enough))
  | succ left ih =>
      rw [BloomServer.infLoop]
      by_cases enough : x.length ≤ room
      · rw [inverts.enough enough]
        exact Or.inl rfl
      · obtain ⟨data, failed, _⟩ := inverts.short (Nat.lt_of_not_le enough)
        rw [failed]
        exact ih

/-- For the source of a record no size overflows. -/
theorem infLoop_eq {src : List UInt8} (short : src.length < 2 ^ 25) (few : left ≤ 5) :
    Z.infLoop src (Int32.ofNat (src.length * 2)) left room =
      some (BloomServer.infLoop Z src (src.length * 2) left room) := by
  have num : (Int32.ofNat (src.length * 2)).toInt = (src.length * 2 : ℕ) :=
    Int32.toInt_ofNat_of_lt (by omega)
  induction left generalizing room with
  | zero => rfl
  | succ left ih =>
      rw [Zlib.infLoop, BloomServer.infLoop]
      cases Z.uncompress room src with
      | ok data => rfl
      | dataError data => rfl
      | bufError data =>
          have bound : src.length * 2 * 2 ^ (5 - left) ≤ src.length * 2 * 2 ^ 5 :=
            Nat.mul_le_mul_left _ (Nat.pow_le_pow_right (by decide) (Nat.sub_le 5 left))
          have size : (Int32.ofNat (src.length * 2)).toInt * 2 ^ (5 - left) =
              (src.length * 2 * 2 ^ (5 - left) : ℕ) := by
            rw [num]
            push_cast
            rfl
          dsimp only
          rw [size, if_pos ⟨Int.natCast_nonneg _, by omega⟩, Int.toNat_natCast]
          exact ih (by omega)

theorem inf_eq {src : List UInt8} (short : src.length < 2 ^ 25) :
    Z.inf src = some (BloomServer.inf Z src) := infLoop_eq short (Nat.le_refl 5)

theorem writeHead_totallength {head head' : ContentHead} {ret : ℕ} {text : List UInt8}
    (written : writeHead head = some (ret, text, head')) : head'.totallength = head.totallength := by
  obtain ⟨_, _, rest⟩ := Option.bind_eq_some_iff.mp written
  obtain ⟨_, _, same⟩ := Option.bind_eq_some_iff.mp rest
  cases same
  rfl

theorem withPage_totallength (head : ContentHead) (length : ℕ) (pagehead : ContentPageHead) :
    (head.withPage length pagehead).totallength = head.totallength + UInt64.ofNat length := by
  unfold ContentHead.withPage appendPageHead
  cases head.contentPageHead <;> rfl

section Record

variable {id : UInt64} {page : Int32} {data : List UInt8} {head : ContentHead} {call : SaveCall} {n : ℕ}

theorem Stored.compressed_lt (stored : Stored Z id [(page, x)] data head) :
    (Z.compress2 x).length < 2 ^ 25 := by
  have lengths := congrArg List.length stored.bytes
  have short := stored.short
  have body : bodyOf [(page, x)] = x := by simp [bodyOf]
  rw [List.length_append, body] at lengths
  unfold datlenMax at short
  omega

theorem Stored.recovers_iff (inverts : Z.Inverts) (stored : Stored Z id [(page, x)] data head) :
    Recovers Z x ↔ GetsRoom x.length (Z.compress2 x).length := by
  rw [← inf_ok_iff inverts x, inf_eq stored.compressed_lt, Option.some.injEq]
  rfl

/-- The failure is not looked at: more is to be compressed than there is. -/
theorem Stored.cut_off (inverts : Z.Inverts) (stored : Stored Z id [(page, x)] data head)
    (fails : ¬ Recovers Z x) (other : call.page ≠ page) : saveMore Z id call data = none := by
  have body : bodyOf [(page, x)] = x := by simp [bodyOf]
  have small : x.length < 2 ^ 31 := stored.lengths (page, x) List.mem_cons_self
  have shorter : (BloomServer.inf Z (Z.compress2 x)).data.length < x.length :=
    (infLoop_shorter inverts).resolve_left fails
  have missing : call.page ∉ [(page, x)].map Prod.fst := by simpa using other
  have inflated : (BloomServer.inf Z (Z.compress2 (bodyOf [(page, x)]))).data =
      (BloomServer.inf Z (Z.compress2 x)).data := by rw [body]
  have saved := stored.fresh (by rw [body]; exact small) inflated missing
  rw [saved]
  cases length : call.length with
  | none => rfl
  | some n =>
      obtain ⟨rfl, short⟩ := SaveCall.length_eq_some length
      rw [Option.bind_some]
      cases written : writeHead (({ head with headlength := UInt64.ofNat head.text.length } :
          ContentHead).withPage (call.pageHead ++ call.content).length
            ⟨id, Int64.ofNat (BloomServer.inf Z (Z.compress2 x)).data.length,
              UInt64.ofNat (call.pageHead ++ call.content).length, call.page⟩) with
      | none => rfl
      | some r =>
          have total : r.2.2.totallength.toNat = x.length + (call.pageHead ++ call.content).length := by
            have before := stored.totallength
            rw [body] at before
            rw [writeHead_totallength written, withPage_totallength, UInt64.toNat_add,
              UInt64.toNat_ofNat', before]
            omega
          rw [Option.bind_some, total, if_pos]
          rw [List.length_append] at *
          rw [List.length_append, List.length_append]
          omega

end Record

/-- A page comes back exactly when it gets room; and a record of such a page, and no other, can be given a
second one. -/
theorem pages_inflated_iff (inverts : Z.Inverts) (x : List UInt8) :
    (Z.inf (Z.compress2 x) = some (.ok x) ↔ GetsRoom x.length (Z.compress2 x).length) ∧
      ∀ {id page data head call n}, Stored Z id [(page, x)] data head → call.page ≠ page →
        call.length = some n →
        ((∃ head' : ContentHead, saveMore Z id call data =
          some (head'.text ++ Z.compress2 (x ++ (call.pageHead ++ call.content)))) ↔
          GetsRoom x.length (Z.compress2 x).length) := by
  refine ⟨inf_ok_iff inverts x, fun {id page data head call n} stored other length => ?_⟩
  rw [← stored.recovers_iff inverts]
  constructor
  · rintro ⟨head', saved⟩
    by_contra fails
    rw [stored.cut_off inverts fails other] at saved
    cases saved
  · intro recovers
    have body : bodyOf [(page, x)] = x := by simp [bodyOf]
    have whole : bodyOf ([(page, x)] ++ [(call.page, call.pageHead ++ call.content)]) =
        x ++ (call.pageHead ++ call.content) := by
      simp [bodyOf]
    obtain ⟨head', _, _, saved⟩ :=
      stored.appended (by rw [body]; exact recovers) (by simpa using other) length
    rw [whole] at saved
    exact ⟨head', saved⟩

end Inflate

/-! Two texts and the bytes of zlib for them; every other text is taken as it is. -/

section Texts

variable (text bytes : List UInt8)

def compressText (x : List UInt8) : List UInt8 := if x = text then bytes else 0 :: x

def uncompressText (room : ℕ) (src : List UInt8) : Uncompressed :=
  let data := if src = bytes then text else src.tail
  if data.length ≤ room then .ok data else .bufError (data.take room)

def zlibOfText : Zlib where
  compress2 := compressText text bytes
  uncompress := uncompressText text bytes
  fits := by
    intro room src data h
    unfold uncompressText at h
    dsimp only at h
    split_ifs at h with same fit fit
    · cases h
      exact fit
    · cases h
      exact fit

variable {text bytes}

theorem compress2_text : (zlibOfText text bytes).compress2 text = bytes := if_pos rfl

theorem zlibOfText_inverts (apart : bytes.head? ≠ some 0) : (zlibOfText text bytes).Inverts := by
  have back (room : ℕ) (x : List UInt8) : (zlibOfText text bytes).uncompress room
      ((zlibOfText text bytes).compress2 x) =
        if x.length ≤ room then .ok x else .bufError (x.take room) := by
    change uncompressText text bytes room (compressText text bytes x) = _
    unfold compressText uncompressText
    by_cases same : x = text
    · rw [if_pos same, if_pos rfl, same]
    · have other : 0 :: x ≠ bytes := by
        intro impossible
        rw [← impossible] at apart
        exact apart rfl
      rw [if_neg same, if_neg other]
      rfl
  constructor
  · intro room x enough
    rw [back, if_pos enough]
  · intro room x less
    exact ⟨_, by rw [back, if_neg (Nat.not_le.mpr less)], List.length_take_le room x⟩

end Texts

/-- One byte a hundred times. -/
def shortText : Zlib := zlibOfText (List.replicate 100 97)
  [120, 156, 75, 76, 164, 61, 0, 0, 122, 71, 37, 229]

/-- It is compressed to 12 bytes, and gets room in the third retry. -/
theorem pages_inflated_short :
    shortText.compress2 (List.replicate 100 97) =
      [120, 156, 75, 76, 164, 61, 0, 0, 122, 71, 37, 229] ∧
    (∃ data, shortText.uncompress 24 [120, 156, 75, 76, 164, 61, 0, 0, 122, 71, 37, 229] =
      .bufError data) ∧
    shortText.inf [120, 156, 75, 76, 164, 61, 0, 0, 122, 71, 37, 229] =
      some (.ok (List.replicate 100 97)) := by
  have inverts : shortText.Inverts := zlibOfText_inverts (by decide)
  have bytes : shortText.compress2 (List.replicate 100 97) =
      [120, 156, 75, 76, 164, 61, 0, 0, 122, 71, 37, 229] := compress2_text
  have recovered := (pages_inflated_iff inverts (List.replicate 100 97)).1
  have less : 24 < (List.replicate 100 97 : List UInt8).length := by decide
  obtain ⟨data, short, _⟩ := inverts.short less
  rw [bytes] at recovered short
  exact ⟨bytes, ⟨data, short⟩, recovered.mpr (Or.inr ⟨3, by decide⟩)⟩

/-- One byte 1200 times. -/
def repeatedText : Zlib := zlibOfText (List.replicate 1200 97)
  [120, 156, 75, 76, 28, 5, 163, 96, 20, 140, 130, 161, 1, 0, 210, 254, 198, 192]

/-- They are compressed to 18 bytes, and the last attempt has room for 1152. -/
theorem not_pages_inflated : repeatedText.Inverts ∧
    repeatedText.compress2 (List.replicate 1200 97) =
      [120, 156, 75, 76, 28, 5, 163, 96, 20, 140, 130, 161, 1, 0, 210, 254, 198, 192] ∧
    repeatedText.inf (repeatedText.compress2 (List.replicate 1200 97)) ≠
      some (.ok (List.replicate 1200 97)) := by
  have inverts : repeatedText.Inverts := zlibOfText_inverts (by decide)
  have bytes : repeatedText.compress2 (List.replicate 1200 97) =
      [120, 156, 75, 76, 28, 5, 163, 96, 20, 140, 130, 161, 1, 0, 210, 254, 198, 192] := compress2_text
  refine ⟨inverts, bytes, fun recovered => ?_⟩
  have room := (inf_ok_iff inverts _).mp recovered
  rw [bytes, getsRoom_iff (by decide), List.length_replicate] at room
  exact absurd room (by decide)

end BloomServer
