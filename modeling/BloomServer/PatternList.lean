import BloomServer.CheckUrl
import BloomServer.TagFilter
import BloomServer.TransferRegEx

/-! `DbManager::checkPattern`: a list of patterns with wildcards becomes a list of regular expressions,
through buffers of `MAX_URL_LEN` bytes. -/
namespace BloomServer
open CharBuffer DecimalText Tokens

def isDelimiter (b : UInt8) : Bool := b = 13 || b = 10 || b = 9 || b = 32

/-- What the first `strtok_r` leaves of a text: the delimiters in front and the first token. -/
def firstToken (text : CString) : CString :=
  text.takeWhile isDelimiter ++ (text.dropWhile isDelimiter).takeWhile fun b => !isDelimiter b

/-- What `strtok_r` finds, call after call. -/
def tokensOf (text : CString) : List CString := (text.splitOnP isDelimiter).filter fun token => token ≠ []

/-- A copy on the heap, of a length that is an `int`. -/
def heapCopy (text : CString) : Option CString :=
  if 0 ≤ cInt text.length ∧ cInt text.length + 10 < 2 ^ 31 then some (text.take (cInt text.length).toNat)
  else none

/-- One token by way of three arrays, which hold `junk` before. -/
def checkToken (junk : List UInt8) (fromurl pToken : CString) : Option CString := do
  let pTokentmp ← put junk 0 [0]
  let tmpurl ← put junk 0 [0]
  let outurl ← put junk 0 [0]
  let pTokentmp ← TransferRegEx pToken pTokentmp
  let srcurl ← textAt 0 pTokentmp 0
  let outurl ← CheckUrl junk srcurl fromurl outurl
  let plain ← textAt 0 outurl 0
  let encoded ← MyURLencode plain tmpurl (maxUrlLen - 1)
  let tmpurl ← textAt 0 encoded.2 0
  let pTokentmp ← put pTokentmp 0 [94]
  let pTokentmp ← strcpy pTokentmp 1 tmpurl
  let pTokentmp ← strcat pTokentmp [36]
  textAt 0 pTokentmp 0

def patternLoop (junk : List UInt8) (fromurl : CString) : List CString → List UInt8 → Option (List UInt8)
  | [], ret => some ret
  | pToken :: tokens, ret =>
      if pToken.length ≥ maxUrlLen then patternLoop junk fromurl tokens ret
      else do
        let text ← checkToken junk fromurl pToken
        patternLoop junk fromurl tokens (ret ++ text ++ [13, 10])

def checkPattern (junk : List UInt8) (pattern fromurl : CString) : Option (List UInt8) :=
  if cInt pattern.length ≤ 0 then some []
  else do
    let fromurltmp ← heapCopy fromurl
    let patterntmp ← heapCopy pattern
    patternLoop junk (firstToken fromurltmp) (tokensOf patterntmp) []

/-! ### What is encoded -/

/-- In front of a byte that becomes three, there is just the room that is left for three. -/
def Overfull (text : CString) : Prop := ∃ front b rest, text = front ++ b :: rest ∧
  (escaped MyURLencodeChar front).length = maxUrlLen - 5 ∧ 128 ≤ b

section Encode

variable {plain done mem : List UInt8} {cut : Bool}

theorem escaped_append (written : Int8 → List UInt8) (text more : CString) :
    escaped written (text ++ more) = escaped written text ++ escaped written more := List.flatMap_append

theorem length_MyURLencodeChar_eq : ∀ b : UInt8, (MyURLencodeChar b.toInt8).length = if 128 ≤ b then 3 else 1 :=
  forall_byte (by decide +kernel)

theorem length_escaped_concat (front : CString) (b : UInt8) :
    (escaped MyURLencodeChar (front ++ [b])).length =
      (escaped MyURLencodeChar front).length + if 128 ≤ b then 3 else 1 := by
  rw [escaped_append, List.length_append, escaped_cons, List.length_append, length_MyURLencodeChar_eq]
  rfl

theorem length_escaped_le {front text : CString} (lead : front <+: text) :
    (escaped MyURLencodeChar front).length ≤ (escaped MyURLencodeChar text).length := by
  obtain ⟨more, rfl⟩ := lead
  rw [escaped_append, List.length_append]
  exact Nat.le_add_right _ _

/-- The text fills all there is exactly when its last byte becomes three. -/
theorem overfull_iff {free : List UInt8}
    (stopped : Stopped MyURLencodeChar (maxUrlLen - 1 - 4) plain [] free cut done mem) :
    Overfull plain ↔ (escaped MyURLencodeChar done).length = maxUrlLen - 2 := by
  have size := maxUrlLen_eq
  have fits := stopped.fits
  have full := stopped.full
  rw [List.length_nil, Nat.zero_add] at fits full
  constructor
  · rintro ⟨front, b, rest, split, low, high⟩
    have lead : front ++ [b] <+: plain := ⟨rest, by rw [split, List.append_assoc]; rfl⟩
    have last := length_escaped_concat front b
    rw [if_pos high] at last
    have reached : front ++ [b] <+: done := by
      cases stop : cut with
      | false => exact stopped.whole stop ▸ lead
      | true =>
          rcases List.prefix_or_prefix_of_prefix lead stopped.lead with inside | inside
          · exact inside
          · rcases List.prefix_concat_iff.mp inside with same | before
            · exact same ▸ List.prefix_rfl
            · have short := length_escaped_le before
              have long := full stop
              omega
    have most := length_escaped_le reached
    omega
  · intro most
    rcases List.eq_nil_or_concat' done with empty | ⟨front, b, is⟩
    · rw [empty] at most
      exact absurd most (by decide)
    · have began := stopped.began front b is
      have last := length_escaped_concat front b
      rw [List.length_nil, Nat.zero_add] at began
      rw [← is, most] at last
      obtain ⟨rest, split⟩ := stopped.lead
      by_cases high : 128 ≤ b
      · rw [if_pos high] at last
        refine ⟨front, b, rest, ?_, by omega, high⟩
        rw [← split, is, List.append_assoc]
        rfl
      · rw [if_neg high] at last
        omega

end Encode

/-! ### One token -/

/-- A pattern is passed over, or nothing is written outside an array for it. -/
def TokenFits (fromurl token : CString) : Prop :=
  token.length < maxUrlLen → CheckInside (transferText 0 token 0) fromurl ∧
    ¬ Overfull (outUrl (transferText 0 token 0) fromurl)

section Token

variable {junk fromurl token : List UInt8}

theorem outUrl_clean {srcurl : CString} (nul : 0 ∉ srcurl) (fromurl : CString) : 0 ∉ outUrl srcurl fromurl := by
  unfold outUrl
  split_ifs
  · exact List.not_mem_nil
  · exact nul
  · exact List.not_mem_nil
  · intro mem
    exact of_decide_eq_true (List.mem_takeWhile_imp (p := fun b : UInt8 => decide (b ≠ 0)) mem) rfl

/-- The flags around a text that has at most three bytes fewer than the array. -/
theorem flags_some_iff {mem text : List UInt8} (size : mem.length = maxUrlLen) (nul : 0 ∉ text)
    (short : text.length ≤ maxUrlLen - 2) :
    (∃ out, ((put mem 0 [94]).bind fun mem => (strcpy mem 1 text).bind fun mem =>
      (strcat mem [36]).bind (textAt 0 · 0)) = some out) ↔ text.length ≠ maxUrlLen - 2 := by
  have total := maxUrlLen_eq
  have first : put mem 0 [94] = some ([94] ++ mem.drop 1) := by
    exact put_append [] [94] (by rw [List.length_singleton, size]; decide)
  have behind : (text ++ [0]).length ≤ (mem.drop 1).length := by
    rw [List.length_append, List.length_singleton, List.length_drop]
    omega
  have second : strcpy ([94] ++ mem.drop 1) 1 text =
      some ((94 :: text) ++ 0 :: (mem.drop 1).drop (text ++ [0]).length) := by
    refine (put_append [94] (text ++ [0]) behind).trans ?_
    rw [List.append_assoc]
    rfl
  have free : ((mem.drop 1).drop (text ++ [0]).length).length = maxUrlLen - 2 - text.length := by
    rw [List.length_drop, List.length_drop, List.length_append, List.length_singleton]
    omega
  have away : 0 ∉ 94 :: text := by
    rw [List.mem_cons, not_or]
    exact ⟨by decide, nul⟩
  rw [first, Option.bind_some, second, Option.bind_some]
  by_cases most : text.length = maxUrlLen - 2
  · have outside : ¬ (94 :: text).length + ([36] ++ [(0 : UInt8)]).length ≤
        ((94 :: text) ++ 0 :: (mem.drop 1).drop (text ++ [0]).length).length := by
      have whole : ((94 :: text) ++ 0 :: (mem.drop 1).drop (text ++ [0]).length).length =
          text.length + 1 + (((mem.drop 1).drop (text ++ [0]).length).length + 1) := List.length_append
      rw [whole, free]
      change ¬ text.length + 1 + 2 ≤ _
      omega
    have third : strcat ((94 :: text) ++ 0 :: (mem.drop 1).drop (text ++ [0]).length) [36] = none := by
      rw [strcat, textAt_zero away]
      exact if_neg outside
    rw [third, Option.bind_none]
    refine iff_of_false ?_ (not_not.mpr most)
    rintro ⟨out, absent⟩
    cases absent
  · have third := @strcat_eq (94 :: text) [36] ((mem.drop 1).drop (text ++ [0]).length) away (by
      rw [List.length_singleton, free]
      omega)
    rw [third, Option.bind_some]
    refine iff_of_true ⟨_, textAt_zero ?_ _⟩ most
    rw [List.mem_append, not_or]
    exact ⟨away, by decide⟩

/-- Nothing is written outside an array for a token exactly when all stages fit. -/
theorem checkToken_some_iff (junkSize : junk.length = maxUrlLen) (nul : 0 ∉ token) (nul' : 0 ∉ fromurl) :
    (∃ text, checkToken junk fromurl token = some text) ↔
      CheckInside (transferText 0 token 0) fromurl ∧ ¬ Overfull (outUrl (transferText 0 token 0) fromurl) := by
  have total := maxUrlLen_eq
  have ready : put junk 0 [0] = some (0 :: junk.drop 1) :=
    put_append [] [0] (by rw [List.length_singleton, junkSize]; decide)
  have size : (0 :: junk.drop 1).length = maxUrlLen := by
    rw [← length_of_put ready] at junkSize
    exact junkSize
  have clean := transferText_clean 0 nul 0
  have short := length_transferText 0 token (Nat.zero_le (maxUrlLen - 3))
  rw [Nat.zero_add] at short
  obtain ⟨pTokentmp, transfer, room, text⟩ := transferRegEx_text nul size
  obtain ⟨works, fails⟩ := @checkUrl_spec (0 :: junk.drop 1) _ fromurl junk junkSize clean nul' (by omega) size
  unfold checkToken
  rw [ready, Option.bind_eq_bind, Option.bind_some, Option.bind_some, Option.bind_some, transfer,
    Option.bind_some, text, Option.bind_some]
  by_cases inside : CheckInside (transferText 0 token 0) fromurl
  · obtain ⟨outurl, checked, holds⟩ := works inside
    obtain ⟨cut, done, mem, run, stopped⟩ := encodeLoop_spec length_MyURLencodeChar
      (outUrl (transferText 0 token 0) fromurl) [] (0 :: junk.drop 1) (Nat.zero_le (maxUrlLen - 1 - 4))
      (by rw [List.length_nil, size]; omega)
    have encoded := encoded_of_stopped MyURLencodeChar_clean (outUrl_clean clean fromurl) (by decide) stopped
    have most := stopped.fits
    rw [List.length_nil] at most
    have encode : MyURLencode (outUrl (transferText 0 token 0) fromurl) (0 :: junk.drop 1) (maxUrlLen - 1) =
      some (cut, mem) := run
    have away := escaped_clean MyURLencodeChar_clean
      fun mem => outUrl_clean clean fromurl (stopped.lead.subset mem)
    rw [checked, Option.bind_some, holds.text, Option.bind_some, encode, Option.bind_eq_bind, Option.bind_some,
      encoded.text, Option.bind_some, overfull_iff stopped]
    refine (flags_some_iff room away (by omega)).trans ?_
    exact ⟨fun room => ⟨inside, room⟩, fun both => both.2⟩
  · rw [fails inside]
    refine iff_of_false ?_ (fun both => inside both.1)
    rintro ⟨text, absent⟩
    cases absent

end Token

/-! ### The list -/

/-- The length is an `int`, also with ten bytes more. -/
def CopyFits (text : CString) : Prop := 0 ≤ cInt text.length ∧ cInt text.length + 10 < 2 ^ 31

/-- As many bytes as the `int` says. -/
def copied (text : CString) : CString := text.take (cInt text.length).toNat

/-- There is nothing to do, or the two texts can be copied and every pattern fits. -/
def PatternFits (pattern fromurl : CString) : Prop := cInt pattern.length ≤ 0 ∨
  (CopyFits fromurl ∧ CopyFits pattern ∧ ∀ token ∈ tokensOf (copied pattern),
    TokenFits (firstToken (copied fromurl)) token)

section Patterns

variable {junk pattern fromurl : List UInt8}

theorem patternLoop_some_iff (junkSize : junk.length = maxUrlLen) (nul : 0 ∉ fromurl) {tokens : List CString}
    (clean : ∀ token ∈ tokens, 0 ∉ token) (ret : List UInt8) :
    (∃ out, patternLoop junk fromurl tokens ret = some out) ↔ ∀ token ∈ tokens, TokenFits fromurl token := by
  induction tokens generalizing ret with
  | nil => exact iff_of_true ⟨ret, rfl⟩ fun token absent => absurd absent List.not_mem_nil
  | cons token tokens ih =>
      have rest := ih fun token mem => clean token (List.mem_cons_of_mem _ mem)
      have one := checkToken_some_iff junkSize (clean token List.mem_cons_self) nul
      rw [patternLoop, List.forall_mem_cons]
      by_cases long : token.length ≥ maxUrlLen
      · rw [if_pos long, rest ret]
        exact ⟨fun all => ⟨fun short => absurd long (Nat.not_le.mpr short), all⟩, fun both => both.2⟩
      · have short := Nat.not_le.mp long
        rw [if_neg long]
        cases text : checkToken junk fromurl token with
        | none =>
            rw [text] at one
            refine iff_of_false ?_ ?_
            · rintro ⟨out, absent⟩
              cases absent
            · intro both
              obtain ⟨out, absent⟩ := one.mpr (both.1 short)
              cases absent
        | some text' =>
            rw [text] at one
            refine (rest _).trans ?_
            exact ⟨fun all => ⟨fun _ => one.mp ⟨text', rfl⟩, all⟩, fun both => both.2⟩

theorem mem_of_splitOnP {p : UInt8 → Bool} {text piece : List UInt8} (mem : piece ∈ text.splitOnP p) {b : UInt8}
    (inside : b ∈ piece) : b ∈ text := by
  induction text generalizing piece with
  | nil =>
      rw [List.splitOnP_nil, List.mem_singleton] at mem
      rwa [mem] at inside
  | cons c text ih =>
      rw [List.splitOnP_cons_eq_if_modifyHead] at mem
      split_ifs at mem
      · rcases List.mem_cons.mp mem with rfl | later
        · exact absurd inside List.not_mem_nil
        · exact List.mem_cons_of_mem _ (ih later inside)
      · obtain ⟨first, more, pieces⟩ := List.exists_cons_of_ne_nil (List.splitOnP_ne_nil p text)
        rw [pieces, List.modifyHead_cons] at mem
        rcases List.mem_cons.mp mem with rfl | later
        · rcases List.mem_cons.mp inside with rfl | behind
          · exact List.mem_cons_self
          · exact List.mem_cons_of_mem _ (ih (by rw [pieces]; exact List.mem_cons_self) behind)
        · exact List.mem_cons_of_mem _ (ih (by rw [pieces]; exact List.mem_cons_of_mem _ later) inside)

theorem heapCopy_some {text : CString} (fits : CopyFits text) : heapCopy text = some (copied text) :=
  if_pos fits

theorem heapCopy_none {text : CString} (long : ¬ CopyFits text) : heapCopy text = none := if_neg long

theorem firstToken_clean {text : CString} (nul : 0 ∉ text) : 0 ∉ firstToken text := by
  unfold firstToken
  rw [List.mem_append, not_or]
  exact ⟨fun mem => nul ((List.takeWhile_prefix _).subset mem),
    fun mem => nul ((List.dropWhile_suffix _).subset ((List.takeWhile_prefix _).subset mem))⟩

theorem tokensOf_clean {text token : CString} (nul : 0 ∉ text) (mem : token ∈ tokensOf text) : 0 ∉ token :=
  fun inside => nul (mem_of_splitOnP (List.mem_of_mem_filter mem) inside)

theorem copied_small {text : CString} (small : text.length < 2 ^ 30) : CopyFits text ∧ copied text = text := by
  unfold CopyFits copied
  rw [cInt_small (by omega), Int.toNat_natCast, List.take_length]
  exact ⟨⟨by omega, by omega⟩, rfl⟩

theorem not_overfull {text : CString} (low : ∀ b ∈ text, b < 128) : ¬ Overfull text := by
  rintro ⟨front, b, rest, rfl, -, high⟩
  exact absurd (low b (List.mem_append_right _ List.mem_cons_self)) (UInt8.not_lt.mpr high)

/-- A pattern of one token is as good as the token. -/
theorem patternFits_single {token : CString} (some : token ≠ []) (small : token.length < 2 ^ 30)
    (small' : fromurl.length < 2 ^ 30) (whole : ∀ b ∈ token, isDelimiter b = false)
    (whole' : ∀ b ∈ fromurl, isDelimiter b = false) :
    PatternFits token fromurl ↔ TokenFits fromurl token := by
  obtain ⟨list, copy⟩ := copied_small small
  obtain ⟨base, copy'⟩ := copied_small small'
  have positive : ¬ cInt token.length ≤ 0 := by
    have length := List.length_pos_iff.mpr some
    rw [cInt_small (by omega)]
    omega
  have tokens : tokensOf token = [token] := by
    rw [tokensOf, List.splitOnP_eq_singleton whole]
    exact List.filter_cons_of_pos (decide_eq_true some)
  have first : firstToken fromurl = fromurl := by
    cases fromurl with
    | nil => rfl
    | cons b fromurl =>
        have other : ¬ isDelimiter b = true := by
          rw [whole' b List.mem_cons_self]
          exact Bool.false_ne_true
        rw [firstToken, List.takeWhile_cons_of_neg other, List.dropWhile_cons_of_neg other, List.nil_append]
        rw [List.takeWhile_eq_self_iff]
        intro c mem
        rw [whole' c mem]
        rfl
  unfold PatternFits
  rw [copy, copy', tokens, first, List.forall_mem_singleton]
  exact ⟨fun either => (either.resolve_left positive).2.2, fun fits => Or.inr ⟨base, list, fits⟩⟩

theorem transferText_plain {text : CString} (plain : ∀ c ∈ text, ∀ rest, transferred c rest = ([c], 0)) {j : ℕ}
    (room : j + text.length ≤ maxUrlLen - 10) : transferText 0 text j = text := by
  induction text generalizing j with
  | nil => rw [transferText]
  | cons c text ih =>
      have low : ¬ j ≥ maxUrlLen - 10 := by
        rw [List.length_cons] at room
        omega
      have rest := ih (fun d mem => plain d (List.mem_cons_of_mem c mem)) (j := j + 1) (by
        rw [List.length_cons] at room
        omega)
      rw [transferText, if_neg low, plain c List.mem_cons_self]
      exact congrArg (c :: ·) rest

/-- The loop is run on the tokens where both texts can be copied. -/
theorem checkPattern_some (junkSize : junk.length = maxUrlLen) (nul : 0 ∉ pattern) (nul' : 0 ∉ fromurl)
    (fits : PatternFits pattern fromurl) : ∃ ret, checkPattern junk pattern fromurl = some ret := by
  unfold checkPattern
  by_cases nothing : cInt pattern.length ≤ 0
  · rw [if_pos nothing]
    exact ⟨[], rfl⟩
  · obtain ⟨base, list, all⟩ := fits.resolve_left nothing
    rw [if_neg nothing, heapCopy_some base, heapCopy_some list, Option.bind_eq_bind, Option.bind_some,
      Option.bind_some]
    have clean : ∀ token ∈ tokensOf (copied pattern), 0 ∉ token := fun token mem =>
      tokensOf_clean (fun inside => nul (List.mem_of_mem_take inside)) mem
    have away : 0 ∉ firstToken (copied fromurl) :=
      firstToken_clean fun inside => nul' (List.mem_of_mem_take inside)
    exact (patternLoop_some_iff junkSize away clean []).mpr all

theorem checkPattern_none (junkSize : junk.length = maxUrlLen) (nul : 0 ∉ pattern) (nul' : 0 ∉ fromurl)
    (outside : ¬ PatternFits pattern fromurl) : checkPattern junk pattern fromurl = none := by
  obtain ⟨some, outside⟩ := not_or.mp outside
  unfold checkPattern
  rw [if_neg some]
  by_cases base : CopyFits fromurl
  · by_cases list : CopyFits pattern
    · rw [heapCopy_some base, heapCopy_some list, Option.bind_eq_bind, Option.bind_some, Option.bind_some]
      have clean : ∀ token ∈ tokensOf (copied pattern), 0 ∉ token := fun token mem =>
        tokensOf_clean (fun inside => nul (List.mem_of_mem_take inside)) mem
      have away : 0 ∉ firstToken (copied fromurl) :=
        firstToken_clean fun inside => nul' (List.mem_of_mem_take inside)
      by_contra result
      obtain ⟨ret, run⟩ := Option.ne_none_iff_exists'.mp result
      exact outside ⟨base, list, (patternLoop_some_iff junkSize away clean []).mp ⟨ret, run⟩⟩
    · rw [heapCopy_some base, heapCopy_none list]
      rfl
  · rw [heapCopy_none base]
    rfl

end Patterns

/-- Nothing is written outside an array, and each stage finds the NUL it reads up to, exactly when every
pattern fits. -/
theorem checkPattern_inside_iff (junk pattern fromurl : List UInt8) (junkSize : junk.length = maxUrlLen)
    (nul : 0 ∉ pattern) (nul' : 0 ∉ fromurl) :
    (∃ ret, checkPattern junk pattern fromurl = some ret) ↔ PatternFits pattern fromurl := by
  constructor
  · rintro ⟨ret, run⟩
    by_contra outside
    rw [checkPattern_none junkSize nul nul' outside] at run
    cases run
  · exact checkPattern_some junkSize nul nul'

theorem checkPattern_inside_iff_path :
    ∃ ret, checkPattern (List.replicate maxUrlLen 7) (ascii "/[*]") (ascii "http://h/") = some ret := by
  refine (checkPattern_inside_iff _ (ascii "/[*]") (ascii "http://h/") List.length_replicate (by decide)
    (by decide)).mpr ?_
  rw [patternFits_single (by decide) (by decide) (by decide) (by decide +kernel) (by decide +kernel)]
  refine fun _ => ⟨fun _ _ _ => ⟨?_, ?_, fun _ _ => ⟨?_, ?_⟩⟩, not_overfull ?_⟩
  · decide +kernel
  · decide +kernel
  · decide +kernel
  · decide +kernel
  · decide +kernel

/-- A path of 1013 bytes. -/
def longPath : CString := 47 :: List.replicate 1012 97

theorem length_longPath : longPath.length = 1013 := by
  rw [longPath, List.length_cons, List.length_replicate]

theorem forall_longPath {P : UInt8 → Prop} (slash : P 47) (letter : P 97) : ∀ b ∈ longPath, P b := by
  intro b mem
  rcases List.mem_cons.mp mem with rfl | again
  · exact slash
  · rw [List.eq_of_mem_replicate again]
    exact letter

theorem transferText_longPath : transferText 0 longPath 0 = longPath := by
  apply transferText_plain
  · exact forall_longPath (fun rest => rfl) (fun rest => rfl)
  · rw [length_longPath]
    decide

theorem authorityOf_longPath : authorityOf longPath = none := by
  have nurl : nurlOf longPath = longPath := nurlOf_plain (forall_longPath (by decide) (by decide))
  have http : leads (ascii "http://") longPath = false := rfl
  have https : leads (ascii "https://") longPath = false := rfl
  rw [authorityOf, nurl, http, https]
  rfl

/-- The path does not fit behind even a short scheme and host. -/
theorem not_fits_longPath : ¬ TokenFits (ascii "http://h/") longPath := by
  intro fits
  obtain ⟨inside, -⟩ := fits (by rw [length_longPath]; decide)
  rw [transferText_longPath] at inside
  obtain ⟨-, -, relative⟩ := inside (List.cons_ne_nil _ _) (by decide) (by decide)
  have name : (partsOf (ascii "http://h/")).protocol.length = 4 ∧
      (partsOf (ascii "http://h/")).host.length = 1 ∧ (printInt (partsOf (ascii "http://h/")).port).length = 2 := by decide +kernel
  have free : ¬ Refused longPath (ascii "http://h/") := by
    rintro ⟨-, long⟩
    rw [name.1, name.2.1] at long
    exact absurd long (by decide)
  obtain ⟨short, -⟩ := relative authorityOf_longPath free
  have marks : (ascii "://").length = 3 ∧ (ascii ":").length = 1 := ⟨rfl, rfl⟩
  rw [relativeText, if_pos (by rfl)] at short
  simp only [List.length_append, name, marks, length_longPath] at short
  exact absurd short (by decide)

/-- A pattern `/aaa…` of 1013 bytes with the base `http://h/`. -/
theorem not_checkPattern_inside : ¬ ∀ junk pattern fromurl : List UInt8, junk.length = maxUrlLen →
    0 ∉ pattern → 0 ∉ fromurl → ∃ ret, checkPattern junk pattern fromurl = some ret := by
  intro claim
  have token : PatternFits longPath (ascii "http://h/") ↔ TokenFits (ascii "http://h/") longPath :=
    patternFits_single (List.cons_ne_nil _ _) (by rw [length_longPath]; decide) (by decide)
      (forall_longPath rfl rfl) (by decide +kernel)
  have clean : 0 ∉ longPath := fun mem =>
    forall_longPath (P := (· ≠ 0)) (by decide) (by decide) 0 mem rfl
  obtain ⟨ret, run⟩ := claim (List.replicate maxUrlLen 7) longPath (ascii "http://h/") List.length_replicate
    clean (by decide)
  rw [checkPattern_none List.length_replicate clean (by decide) (mt token.mp not_fits_longPath)] at run
  cases run

end BloomServer
