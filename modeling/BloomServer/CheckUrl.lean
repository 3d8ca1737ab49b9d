import BloomServer.ReadConf
import BloomServer.UrlScheme

/-! `DbManager::CheckUrl`: a text is taken for a URL, or put behind the base it was found in. -/
namespace BloomServer
open CharBuffer DecimalText TextSearch Tokens

/-- More rounds than the loops of `CUrl::parse` take on a URL of at most `MAX_URL_LEN` bytes, a blank of
which becomes three. -/
def urlRounds : ℕ := 4 * maxUrlLen

/-- `parse` on an object of its own. -/
def parseUrl (url : CString) : Option CUrl := CUrl.new.parse urlRounds url

/-- `strrchr`. -/
def strrchr (c : UInt8) (text : CString) : Option ℕ := (strchr c text.reverse).map (text.length - 1 - ·)

/-- `strcpy`, to a place in a buffer. -/
def strcpy (mem : List UInt8) (place : ℕ) (text : CString) : Option (List UInt8) :=
  put mem place (text ++ [0])

/-- The first `n` bytes of a text by way of an array of their own, which holds `junk` before. -/
def firstBytes (junk : List UInt8) (text : CString) (n : ℕ) : Option CString := do
  let baseurl ← put junk 0 [0]
  let baseurl ← put baseurl 0 (strncpy text n)
  let baseurl ← put baseurl n [0]
  textAt 0 baseurl 0

/-- Two texts into `outurl`, if they are not too long. -/
def joinInto (outurl : List UInt8) (baseurl srcurl : CString) : Option (List UInt8) :=
  if srcurl.length + baseurl.length > maxUrlLen - 1 then some outurl
  else strcpy outurl 0 (baseurl ++ srcurl)

/-- What `CheckUrl` does with a text that is no URL of its own: a path, a query or any other text. -/
def relativeUrl (junk : List UInt8) (base : CUrl) (srcurl fromurl : CString) (outurl : List UInt8) :
    Option (List UInt8) :=
  if srcurl.head? = some 47 then
    strcpy outurl 0 (base.protocol ++ ascii "://" ++ base.host ++ ascii ":" ++ printInt base.port ++ srcurl)
  else if srcurl.head? = some 63 then
    match strrchr 63 fromurl with
    | some tmp => do
        let baseurl ← firstBytes junk fromurl tmp
        joinInto outurl baseurl srcurl
    | none => joinInto outurl fromurl srcurl
  else
    match strrchr 47 fromurl with
    | some tmp => do
        let baseurl ← firstBytes junk fromurl (tmp + 1)
        joinInto outurl baseurl srcurl
    | none => some outurl

/-- `CheckUrl`. There is no result where it writes outside a buffer, or where `parse` does. -/
def CheckUrl (junk : List UInt8) (srcurl fromurl : CString) (outurl : List UInt8) : Option (List UInt8) := do
  let outurl ← put outurl 0 [0]
  if srcurl = [] ∨ fromurl = [] ∨ srcurl.length ≥ maxUrlLen ∨ fromurl.length ≥ maxUrlLen then return outurl
  else
    let url ← parseUrl srcurl
    let base ← parseUrl fromurl
    if url.protocol ≠ [] ∨ url.host ≠ [] then
      if srcurl.length > maxUrlLen - 1 then return outurl else strcpy outurl 0 srcurl
    else if srcurl.head? = some 47 ∧ base.protocol.length + base.host.length > maxUrlLen - 50 then return outurl
    else
      let outurl ← relativeUrl junk base srcurl fromurl outurl
      let text ← textAt 0 outurl 0
      let ret ← parseUrl text
      if ret.url.length > maxUrlLen - 1 then
        let outurl ← put outurl 0 (strncpy ret.url (maxUrlLen - 1))
        put outurl (maxUrlLen - 1) [0]
      else strcpy outurl 0 ret.url

/-! ### What `CheckUrl` leaves -/

/-- A buffer of `MAX_URL_LEN` bytes that holds a text. -/
structure HoldsText (mem : List UInt8) (text : CString) : Prop where
  size : mem.length = maxUrlLen
  text : textAt 0 mem 0 = some text

/-- Two texts put together, or nothing where they are too long. -/
def joined (baseurl srcurl : CString) : CString :=
  if srcurl.length + baseurl.length > maxUrlLen - 1 then [] else baseurl ++ srcurl

/-- What a text is put together with that is no URL of its own. -/
def relativeText (srcurl fromurl : CString) : CString :=
  if srcurl.head? = some 47 then
    (partsOf fromurl).protocol ++ ascii "://" ++ (partsOf fromurl).host ++ ascii ":" ++
      printInt (partsOf fromurl).port ++ srcurl
  else if srcurl.head? = some 63 then joined ((strrchr 63 fromurl).elim fromurl (fromurl.take ·)) srcurl
  else (strrchr 47 fromurl).elim [] fun tmp => joined (fromurl.take (tmp + 1)) srcurl

/-- A path is not put behind a scheme and a host that are this long. -/
def Refused (srcurl fromurl : CString) : Prop :=
  srcurl.head? = some 47 ∧ (partsOf fromurl).protocol.length + (partsOf fromurl).host.length > maxUrlLen - 50

instance (srcurl fromurl : CString) : Decidable (Refused srcurl fromurl) := inferInstanceAs (Decidable (_ ∧ _))

/-- The text left in `outurl`. -/
def outUrl (srcurl fromurl : CString) : CString :=
  if srcurl = [] ∨ fromurl = [] ∨ fromurl.length ≥ maxUrlLen then []
  else if (authorityOf srcurl).isSome then srcurl
  else if Refused srcurl fromurl then []
  else (((parseUrl (relativeText srcurl fromurl)).elim [] CUrl.url).take (maxUrlLen - 1)).takeWhile (· ≠ 0)

/-- Every port that is written fits its array, and a text that is put together fits `outurl`. -/
def CheckInside (srcurl fromurl : CString) : Prop :=
  srcurl ≠ [] → fromurl ≠ [] → fromurl.length < maxUrlLen →
    PortFits srcurl ∧ PortFits fromurl ∧
      (authorityOf srcurl = none → ¬ Refused srcurl fromurl →
        (relativeText srcurl fromurl).length < maxUrlLen ∧ PortFits (relativeText srcurl fromurl))

section Check

variable {mem text srcurl fromurl junk : List UInt8} {c : UInt8}

theorem parseUrl_some_iff (short : text.length ≤ maxUrlLen) :
    (∃ d, parseUrl text = some d) ↔ PortFits text := by
  have size := maxUrlLen_eq
  apply parse_some_iff short
  unfold urlRounds
  omega

theorem parseUrl_parts {d : CUrl} (short : text.length ≤ maxUrlLen) (parsed : parseUrl text = some d) :
    d.protocol = (partsOf text).protocol ∧ d.host = (partsOf text).host ∧ d.port = (partsOf text).port := by
  obtain ⟨protocol, host, port, -⟩ := parse_parts short parsed
  exact ⟨protocol, host, port⟩

/-- A text is copied up to its NUL, if it has one. -/
theorem strcpy_holds (size : mem.length = maxUrlLen) (short : text.length < maxUrlLen) :
    ∃ after, strcpy mem 0 text = some after ∧ HoldsText after (text.takeWhile (· ≠ 0)) := by
  have fits : (text ++ [0]).length ≤ mem.length := by
    rw [List.length_append, List.length_singleton, size]
    exact short
  have write := put_append [] (text ++ [0]) fits
  refine ⟨_, write, ?_, ?_⟩
  · rw [← size]
    exact length_of_put write
  · rw [List.nil_append, List.append_assoc]
    exact textAt_cut 0 text _

theorem strcpy_none (size : mem.length = maxUrlLen) (long : ¬ text.length < maxUrlLen) :
    strcpy mem 0 text = none := by
  apply if_neg
  rw [List.length_append, List.length_singleton, size]
  omega

theorem joinInto_holds (empty : HoldsText mem []) {baseurl : CString} (nul : 0 ∉ baseurl) (nul' : 0 ∉ srcurl) :
    ∃ after, joinInto mem baseurl srcurl = some after ∧ HoldsText after (joined baseurl srcurl) := by
  have size := maxUrlLen_eq
  unfold joinInto joined
  split_ifs with long
  · exact ⟨mem, rfl, empty⟩
  · have away : 0 ∉ baseurl ++ srcurl := by
      rw [List.mem_append, not_or]
      exact ⟨nul, nul'⟩
    have short : (baseurl ++ srcurl).length < maxUrlLen := by
      rw [List.length_append]
      omega
    obtain ⟨after, write, holds⟩ := strcpy_holds empty.size short
    rw [takeWhile_away away] at holds
    exact ⟨after, write, holds⟩

theorem strrchr_lt {tmp : ℕ} (found : strrchr c text = some tmp) : tmp < text.length := by
  obtain ⟨j, there, rfl⟩ := Option.map_eq_some_iff.mp found
  have mem : c ∈ text := by
    rw [← List.mem_reverse]
    by_contra away
    rw [strchr_eq_none.mpr away] at there
    cases there
  have some := List.length_pos_of_mem mem
  omega

theorem firstBytes_eq (size : junk.length = maxUrlLen) (nul : 0 ∉ text) (short : text.length < maxUrlLen)
    {n : ℕ} (inside : n ≤ text.length) : firstBytes junk text n = some (text.take n) := by
  have length : (text.take n).length = n := List.length_take_of_le inside
  have copied : strncpy text n = text.take n := List.take_append_of_le_length inside
  have first : put junk 0 [0] = some (0 :: junk.drop 1) :=
    put_append [] [0] (by rw [List.length_singleton, size]; decide)
  have left : (0 :: junk.drop 1).length = maxUrlLen := by
    rw [List.length_cons, List.length_drop, size]
    rfl
  have second : put (0 :: junk.drop 1) 0 (text.take n) = some (text.take n ++ (0 :: junk.drop 1).drop n) := by
    have write := @put_append _ [] (text.take n) (0 :: junk.drop 1) (by omega)
    rwa [length] at write
  have third : put (text.take n ++ (0 :: junk.drop 1).drop n) n [0] =
      some (text.take n ++ 0 :: ((0 :: junk.drop 1).drop n).drop 1) := by
    have write := @put_append _ (text.take n) [0] ((0 :: junk.drop 1).drop n)
      (by rw [List.length_singleton, List.length_drop]; omega)
    rwa [length] at write
  have away : 0 ∉ text.take n := fun mem => nul (List.mem_of_mem_take mem)
  rw [firstBytes, copied, first, Option.bind_eq_bind, Option.bind_some, second, Option.bind_some, third,
    Option.bind_some]
  exact textAt_zero away _

theorem printInt_clean (z : ℤ) : 0 ∉ printInt z := by
  have digits : 0 ∉ decimal z.natAbs := fun mem => absurd (isDigit_of_mem_decimal mem) (by decide)
  unfold printInt
  split_ifs
  · rw [List.mem_cons, not_or]
    exact ⟨by decide, digits⟩
  · exact digits

/-- Where the text fits, `outurl` holds it. -/
theorem relativeUrl_holds (junkSize : junk.length = maxUrlLen) {base : CUrl}
    (parts : base.protocol = (partsOf fromurl).protocol ∧ base.host = (partsOf fromurl).host ∧
      base.port = (partsOf fromurl).port) (nul : 0 ∉ srcurl) (nul' : 0 ∉ fromurl)
    (short : fromurl.length < maxUrlLen) (empty : HoldsText mem [])
    (fits : (relativeText srcurl fromurl).length < maxUrlLen) :
    ∃ after, relativeUrl junk base srcurl fromurl mem = some after ∧
      HoldsText after (relativeText srcurl fromurl) := by
  obtain ⟨protocol, host, port⟩ := parts
  unfold relativeText at fits ⊢
  unfold relativeUrl
  split_ifs at fits ⊢ with slash question
  · rw [protocol, host, port]
    obtain ⟨after, write, holds⟩ := strcpy_holds empty.size fits
    rw [takeWhile_away ?_] at holds
    · exact ⟨after, write, holds⟩
    · have digits : 0 ∉ printInt (partsOf fromurl).port := printInt_clean _
      have clean := partsOf_clean fromurl
      simp only [List.mem_append, not_or]
      exact ⟨⟨⟨⟨⟨clean.1, by decide⟩, clean.2⟩, by decide⟩, digits⟩, nul⟩
  · cases found : strrchr 63 fromurl with
    | none => exact joinInto_holds empty nul' nul
    | some tmp =>
        have bytes := firstBytes_eq junkSize nul' short (strrchr_lt found).le
        dsimp only
        rw [bytes]
        exact joinInto_holds empty (fun mem => nul' (List.mem_of_mem_take mem)) nul
  · cases found : strrchr 47 fromurl with
    | none => exact ⟨mem, rfl, empty⟩
    | some tmp =>
        have bytes := firstBytes_eq junkSize nul' short (strrchr_lt found)
        dsimp only
        rw [bytes]
        exact joinInto_holds empty (fun mem => nul' (List.mem_of_mem_take mem)) nul

/-- Only a path can be too long behind the scheme and the host. -/
theorem relativeUrl_none {base : CUrl}
    (parts : base.protocol = (partsOf fromurl).protocol ∧ base.host = (partsOf fromurl).host ∧
      base.port = (partsOf fromurl).port) (size : mem.length = maxUrlLen)
    (long : ¬ (relativeText srcurl fromurl).length < maxUrlLen) :
    relativeUrl junk base srcurl fromurl mem = none := by
  obtain ⟨protocol, host, port⟩ := parts
  have bound (baseurl srcurl : CString) : (joined baseurl srcurl).length < maxUrlLen := by
    have size := maxUrlLen_eq
    unfold joined
    split_ifs with shorter
    · exact Nat.lt_of_lt_of_eq (by decide : 0 < 1024) size.symm
    · rw [List.length_append]
      omega
  unfold relativeText at long
  unfold relativeUrl
  split_ifs at long ⊢ with slash question
  · rw [protocol, host, port]
    exact strcpy_none size long
  · exact absurd (bound _ _) long
  · cases found : strrchr 47 fromurl with
    | none =>
        rw [found] at long
        exact absurd (by decide : 0 < 1024) long
    | some tmp =>
        rw [found] at long
        exact absurd (bound _ _) long

theorem put_nul (size : mem.length = maxUrlLen) :
    ∃ after, put mem 0 [0] = some after ∧ HoldsText after [] := by
  obtain ⟨after, write, holds⟩ := @strcpy_holds mem [] size (by decide)
  exact ⟨after, write, holds⟩

/-- `CheckUrl` on two URLs that it looks at. -/
theorem checkUrl_parsed {outurl : List UInt8} (write : put mem 0 [0] = some outurl)
    (looked : ¬ (srcurl = [] ∨ fromurl = [] ∨ srcurl.length ≥ maxUrlLen ∨ fromurl.length ≥ maxUrlLen)) :
    CheckUrl junk srcurl fromurl mem = (parseUrl srcurl).bind fun url => (parseUrl fromurl).bind fun base =>
      if url.protocol ≠ [] ∨ url.host ≠ [] then
        if srcurl.length > maxUrlLen - 1 then some outurl else strcpy outurl 0 srcurl
      else if srcurl.head? = some 47 ∧ base.protocol.length + base.host.length > maxUrlLen - 50 then some outurl
      else (relativeUrl junk base srcurl fromurl outurl).bind fun outurl =>
        (textAt 0 outurl 0).bind fun text => (parseUrl text).bind fun ret =>
          if ret.url.length > maxUrlLen - 1 then
            (put outurl 0 (strncpy ret.url (maxUrlLen - 1))).bind (put · (maxUrlLen - 1) [0])
          else strcpy outurl 0 ret.url := by
  unfold CheckUrl
  rw [write, Option.bind_eq_bind, Option.bind_some, if_neg looked]
  rfl

/-- The last copy, cut off where it is too long. -/
theorem copyUrl_holds (size : mem.length = maxUrlLen) (url : CString) :
    ∃ after, (if url.length > maxUrlLen - 1 then
        (put mem 0 (strncpy url (maxUrlLen - 1))).bind (put · (maxUrlLen - 1) [0])
      else strcpy mem 0 url) = some after ∧
        HoldsText after ((url.take (maxUrlLen - 1)).takeWhile (· ≠ 0)) := by
  by_cases long : url.length > maxUrlLen - 1
  · have copied : strncpy url (maxUrlLen - 1) = url.take (maxUrlLen - 1) :=
      List.take_append_of_le_length long.le
    have length : (url.take (maxUrlLen - 1)).length = maxUrlLen - 1 := List.length_take_of_le long.le
    have total := maxUrlLen_eq
    have first : put mem 0 (url.take (maxUrlLen - 1)) =
        some (url.take (maxUrlLen - 1) ++ mem.drop (maxUrlLen - 1)) := by
      have write := @put_append _ [] (url.take (maxUrlLen - 1)) mem (by omega)
      rwa [length] at write
    have second : put (url.take (maxUrlLen - 1) ++ mem.drop (maxUrlLen - 1)) (maxUrlLen - 1) [0] =
        some (url.take (maxUrlLen - 1) ++ 0 :: (mem.drop (maxUrlLen - 1)).drop 1) := by
      have write := @put_append _ (url.take (maxUrlLen - 1)) [0] (mem.drop (maxUrlLen - 1))
        (by rw [List.length_singleton, List.length_drop]; omega)
      rwa [length] at write
    rw [if_pos long, copied, first, Option.bind_some, second]
    refine ⟨_, rfl, ?_, textAt_cut 0 _ _⟩
    rw [length_of_put second, length_of_put first]
    exact size
  · have whole : url.take (maxUrlLen - 1) = url := List.take_of_length_le (Nat.not_lt.mp long)
    rw [if_neg long, whole]
    apply strcpy_holds size
    have total := maxUrlLen_eq
    omega

/-- A text that is no URL of its own, behind the base. -/
theorem relativeUrl_spec (junkSize : junk.length = maxUrlLen) {base : CUrl}
    (parts : base.protocol = (partsOf fromurl).protocol ∧ base.host = (partsOf fromurl).host ∧
      base.port = (partsOf fromurl).port) (nul : 0 ∉ srcurl) (nul' : 0 ∉ fromurl)
    (short : fromurl.length < maxUrlLen) (empty : HoldsText mem [])
    {copy : List UInt8 → CUrl → Option (List UInt8)}
    (copied : ∀ outurl ret, outurl.length = maxUrlLen → ∃ after, copy outurl ret = some after ∧
      HoldsText after ((ret.url.take (maxUrlLen - 1)).takeWhile (· ≠ 0))) :
    ((relativeText srcurl fromurl).length < maxUrlLen ∧ PortFits (relativeText srcurl fromurl) →
      ∃ after, ((relativeUrl junk base srcurl fromurl mem).bind fun outurl =>
          (textAt 0 outurl 0).bind fun text => (parseUrl text).bind (copy outurl)) = some after ∧
        HoldsText after ((((parseUrl (relativeText srcurl fromurl)).elim [] CUrl.url).take
          (maxUrlLen - 1)).takeWhile (· ≠ 0))) ∧
    (¬ ((relativeText srcurl fromurl).length < maxUrlLen ∧ PortFits (relativeText srcurl fromurl)) →
      ((relativeUrl junk base srcurl fromurl mem).bind fun outurl =>
        (textAt 0 outurl 0).bind fun text => (parseUrl text).bind (copy outurl)) = none) := by
  by_cases fits : (relativeText srcurl fromurl).length < maxUrlLen
  · obtain ⟨outurl, write, holds⟩ := relativeUrl_holds junkSize parts nul nul' short empty fits
    rw [write, Option.bind_some, holds.text, Option.bind_some, ← parseUrl_some_iff fits.le]
    cases parsed : parseUrl (relativeText srcurl fromurl) with
    | none =>
        refine ⟨?_, fun _ => rfl⟩
        rintro ⟨-, d, absent⟩
        cases absent
    | some ret =>
        obtain ⟨after, copying, holds⟩ := copied outurl ret holds.size
        exact ⟨fun _ => ⟨after, copying, holds⟩, fun outside => absurd ⟨fits, ret, rfl⟩ outside⟩
  · rw [relativeUrl_none parts empty.size fits]
    exact ⟨fun inside => absurd inside.1 fits, fun _ => rfl⟩

/-- `CheckUrl` leaves the text when nothing is written outside a buffer, and there is no result otherwise. -/
theorem checkUrl_spec (junkSize : junk.length = maxUrlLen) (nul : 0 ∉ srcurl) (nul' : 0 ∉ fromurl)
    (short : srcurl.length < maxUrlLen) (size : mem.length = maxUrlLen) :
    (CheckInside srcurl fromurl →
      ∃ after, CheckUrl junk srcurl fromurl mem = some after ∧ HoldsText after (outUrl srcurl fromurl)) ∧
    (¬ CheckInside srcurl fromurl → CheckUrl junk srcurl fromurl mem = none) := by
  obtain ⟨outurl, write, empty⟩ := put_nul size
  by_cases looked : srcurl = [] ∨ fromurl = [] ∨ srcurl.length ≥ maxUrlLen ∨ fromurl.length ≥ maxUrlLen
  · have early : srcurl = [] ∨ fromurl = [] ∨ fromurl.length ≥ maxUrlLen := by
      have low := Nat.not_le.mpr short
      tauto
    have left : CheckUrl junk srcurl fromurl mem = some outurl := by
      unfold CheckUrl
      rw [write, Option.bind_eq_bind, Option.bind_some, if_pos looked]
      rfl
    constructor
    · intro inside
      rw [left, outUrl, if_pos early]
      exact ⟨outurl, rfl, empty⟩
    · intro outside
      refine absurd (fun someS someF low => ?_) outside
      exact absurd early (by rw [not_or, not_or]; exact ⟨someS, someF, Nat.not_le.mpr low⟩)
  · have parsed := @checkUrl_parsed mem srcurl fromurl junk outurl write looked
    rw [not_or, not_or, not_or] at looked
    obtain ⟨someS, someF, -, low⟩ := looked
    rw [Nat.not_le] at low
    have seen : ¬ (srcurl = [] ∨ fromurl = [] ∨ fromurl.length ≥ maxUrlLen) := by
      rw [not_or, not_or]
      exact ⟨someS, someF, Nat.not_le.mpr low⟩
    have inside_iff : CheckInside srcurl fromurl ↔ PortFits srcurl ∧ PortFits fromurl ∧
        (authorityOf srcurl = none → ¬ Refused srcurl fromurl →
          (relativeText srcurl fromurl).length < maxUrlLen ∧ PortFits (relativeText srcurl fromurl)) :=
      ⟨fun inside => inside someS someF low, fun inside _ _ _ => inside⟩
    rw [inside_iff, parsed, outUrl, if_neg seen]
    rw [← parseUrl_some_iff short.le, ← parseUrl_some_iff low.le]
    cases own : parseUrl srcurl with
    | none =>
        refine ⟨?_, fun _ => rfl⟩
        rintro ⟨⟨d, absent⟩, -⟩
        cases absent
    | some url =>
        cases from' : parseUrl fromurl with
        | none =>
            refine ⟨?_, fun _ => rfl⟩
            rintro ⟨-, ⟨d, absent⟩, -⟩
            cases absent
        | some base =>
            obtain ⟨protocol, host, -⟩ := parseUrl_parts short.le own
            have parts := parseUrl_parts low.le from'
            rw [Option.bind_some, Option.bind_some, protocol, host, parts.1, parts.2.1]
            by_cases absolute : authorityOf srcurl = none
            · rw [if_neg (mt (partsOf_iff srcurl).mp (not_not.mpr absolute)), absolute]
              rw [if_neg (by decide : ¬ (none : Option CUrl).isSome = true)]
              by_cases refused : Refused srcurl fromurl
              · rw [if_pos refused, if_pos (by exact refused)]
                exact ⟨fun _ => ⟨outurl, rfl, empty⟩,
                  fun outside => absurd ⟨⟨url, rfl⟩, ⟨base, rfl⟩, fun _ free => absurd refused free⟩ outside⟩
              · rw [if_neg refused, if_neg (by exact refused)]
                obtain ⟨works, fails⟩ := relativeUrl_spec junkSize parts nul nul' low empty
                  (fun outurl (ret : CUrl) size => copyUrl_holds size ret.url)
                exact ⟨fun inside => works (inside.2.2 rfl refused),
                  fun outside => fails fun both => outside ⟨⟨url, rfl⟩, ⟨base, rfl⟩, fun _ _ => both⟩⟩
            · have some := Option.isSome_iff_ne_none.mpr absolute
              have low : ¬ srcurl.length > maxUrlLen - 1 := by omega
              rw [if_pos ((partsOf_iff srcurl).mpr absolute), if_pos some, if_neg low]
              obtain ⟨after, copied, holds⟩ := strcpy_holds empty.size short
              rw [takeWhile_away nul] at holds
              exact ⟨fun _ => ⟨after, copied, holds⟩,
                fun outside => absurd ⟨⟨url, rfl⟩, ⟨base, rfl⟩, fun none => absurd none absolute⟩ outside⟩

end Check

end BloomServer
