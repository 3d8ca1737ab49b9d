import BloomServer.ReadConf
import BloomServer.UrlSites

/-! `CUrl::ParseUrlEx`, the other parser of URLs: an index into a copy of the text and arrays of a fixed
size. -/
namespace BloomServer
open CharBuffer DecimalText Tokens

def maxHostLen : ℕ := 128

/-- `sizeof(request)`. -/
def maxRequestLen : ℕ := 2048

/-- The loop over the text up to its NUL: a space becomes `%20`, unless nothing but blanks follows it, and all
other blanks are dropped. -/
def dropBlanks (temp : CString) : CString → CString
  | [] => temp
  | b :: rest =>
      if b = 32 ∧ temp ≠ [] then
        dropBlanks (if rest.dropWhile isBlank ≠ [] then temp ++ ascii "%20" else temp) rest
      else if isBlank b then dropBlanks temp rest
      else dropBlanks (temp ++ [b]) rest

/-- What the arrays, the port and the user are set to. -/
structure UrlFields where
  user : CString
  protocol : List UInt8
  host : List UInt8
  request : List UInt8
  port : ℤ

/-- `ParseUrlEx` with a place for each part. Each `strncpy` fills its array to the end, and leaves a NUL in it
only if the text is shorter. -/
def CUrl.ParseUrlExFields (c : CUrl) (curl : CString) (protocol host request : List UInt8) :
    Option UrlFields := do
  let url := dropBlanks [] curl
  let name := (strchr 58 url).elim (ascii "HTTP") (url.take ·)
  let ptr := (strchr 58 url).elim url fun i => url.drop (i + 1)
  let protocol ← put protocol 0 (strncpy name protocol.length)
  let ptr := if ascii "//" <+: ptr then ptr.drop 2 else ptr
  let owner := (strchr 64 ptr).isSome && before (strchr 64 ptr) (strchr 47 ptr)
  let user := if owner then ptr.take ((strchr 64 ptr).getD 0) else c.user
  let ptr := if owner then ptr.drop ((strchr 64 ptr).getD 0 + 1) else ptr
  let host ← put host 0 (strncpy (ptr.takeWhile isValidHostChar) host.length)
  let request ← put request 0 (strncpy (ptr.dropWhile isValidHostChar) request.length)
  let text ← textAt 0 host 0
  if 58 ∈ text then
    let host ← put host ((strchr 58 text).getD 0) [0]
    return ⟨user, protocol, host, request, atoi (text.drop ((strchr 58 text).getD 0 + 1))⟩
  else return ⟨user, protocol, host, request, 80⟩

/-- `ParseUrlEx`, and whether it returns `true`. -/
def CUrl.ParseUrlEx (c : CUrl) (strUrl : CString) : Option (Bool × CUrl) :=
  let text := strUrl.takeWhile (· ≠ 0)
  let c := { c with scheme := parseScheme text }
  if c.scheme ≠ .http ∧ c.scheme ≠ .https then some (false, c)
  else do
    let fields ← c.ParseUrlExFields text (List.replicate 10 0) (List.replicate maxHostLen 0)
      (List.replicate maxRequestLen 0)
    let host ← textAt 0 fields.host 0
    let path ← textAt 0 fields.request 0
    let protocol ← textAt 0 fields.protocol 0
    let c := { c with sUrl := strUrl, host := host, path := path, protocol := protocol, user := fields.user }
    return (true, if fields.port > 0 then { c with port := fields.port } else c)

/-! ### The text behind the scheme -/

/-- What becomes of a text behind a character: a space becomes `%20` or goes. -/
def escapedTail : CString → CString
  | [] => []
  | b :: rest =>
      if b = 32 then (if rest.dropWhile isBlank ≠ [] then ascii "%20" else []) ++ escapedTail rest
      else b :: escapedTail rest

def withoutBlanks (text : CString) : CString := text.filter fun b => !isBlank b

section Tail

variable {temp text front : CString}

theorem escapeSpaces_eq (some : temp ≠ []) : escapeSpaces temp text = temp ++ escapedTail text := by
  induction text generalizing temp with
  | nil => rw [escapeSpaces, escapedTail, List.append_nil]
  | cons b text ih =>
      rw [escapeSpaces, escapedTail]
      by_cases space : b = 32
      · rw [if_pos ⟨space, some⟩, if_pos space]
        split_ifs
        · rw [ih (List.append_ne_nil_of_left_ne_nil some _), List.append_assoc]
        · exact ih some
      · rw [if_neg fun both => space both.1, if_neg space, ih (List.append_ne_nil_of_left_ne_nil some _),
          List.append_assoc]
        rfl

theorem dropBlanks_eq (some : temp ≠ []) :
    dropBlanks temp text = temp ++ withoutBlanks (escapedTail text) := by
  induction text generalizing temp with
  | nil => exact (List.append_nil temp).symm
  | cons b text ih =>
      rw [dropBlanks, escapedTail]
      by_cases space : b = 32
      · rw [if_pos ⟨space, some⟩, if_pos space]
        split_ifs
        · rw [ih (List.append_ne_nil_of_left_ne_nil some _), List.append_assoc, withoutBlanks, withoutBlanks,
            List.filter_append]
          rfl
        · exact ih some
      · rw [if_neg fun both => space both.1, if_neg space, withoutBlanks, List.filter_cons]
        by_cases blank : isBlank b = true
        · rw [if_pos blank, ih some, blank]
          rfl
        · have kept := Bool.eq_false_iff.mpr blank
          rw [if_neg blank, ih (List.append_ne_nil_of_left_ne_nil some _), kept, List.append_assoc]
          rfl

theorem escapeSpaces_cons (b : UInt8) (text : CString) : escapeSpaces [] (b :: text) = b :: escapedTail text := by
  rw [escapeSpaces, if_neg fun both => both.2 rfl]
  exact escapeSpaces_eq (List.cons_ne_nil b [])

theorem dropBlanks_cons {b : UInt8} (clear : isBlank b = false) (text : CString) :
    dropBlanks [] (b :: text) = b :: withoutBlanks (escapedTail text) := by
  rw [dropBlanks, if_neg fun both => both.2 rfl, clear, if_neg Bool.false_ne_true]
  exact dropBlanks_eq (List.cons_ne_nil b [])

theorem blank_of_escapedTail (blanks : text.dropWhile isBlank = []) {b : UInt8} (mem : b ∈ escapedTail text) :
    isBlank b = true := by
  induction text with
  | nil => cases mem
  | cons c text ih =>
      have all := List.dropWhile_eq_nil_iff.mp blanks
      have rest : text.dropWhile isBlank = [] :=
        List.dropWhile_eq_nil_iff.mpr fun d inside => all d (List.mem_cons_of_mem c inside)
      rw [escapedTail] at mem
      split_ifs at mem with space more
      · exact absurd rest more
      · exact ih rest mem
      · rcases List.mem_cons.mp mem with rfl | later
        · exact all _ List.mem_cons_self
        · exact ih rest later

/-- What has no blank and no `%` in it was there before. -/
theorem split_of_escapedTail {rest : CString} (plain : ∀ b ∈ front, isBlank b = false ∧ b ≠ 37)
    (is : escapedTail text = front ++ rest) : ∃ more, text = front ++ more ∧ escapedTail more = rest := by
  induction front generalizing text with
  | nil => exact ⟨text, rfl, is⟩
  | cons b front ih =>
      obtain ⟨⟨clean, other⟩, others⟩ := List.forall_mem_cons.mp plain
      cases text with
      | nil => cases is
      | cons c text =>
          rw [escapedTail] at is
          split_ifs at is with space more
          · change 37 :: 50 :: 48 :: escapedTail text = b :: (front ++ rest) at is
            exact absurd (List.cons.inj is).1.symm other
          · rw [not_not] at more
            have mem : b ∈ escapedTail text := by
              rw [← List.nil_append (escapedTail text), is]
              exact List.mem_cons_self
            exact absurd (blank_of_escapedTail more mem) (by rw [clean]; decide)
          · obtain ⟨rfl, tail⟩ := List.cons.inj is
            obtain ⟨more, rfl, same⟩ := ih others tail
            exact ⟨more, rfl, same⟩

end Tail

/-- The port that the scheme says. -/
def schemePort (url : CString) : ℤ := if leads (ascii "http://") (nurlOf url) then 80 else 443

/-- What follows the scheme in the text with its spaces escaped. -/
def behindScheme (url : CString) : CString :=
  (escapeSpaces [] (url.takeWhile (· ≠ 0))).drop (if leads (ascii "http://") (nurlOf url) then 7 else 8)

/-- The part in front of a `'#'` and of a newline. -/
def urlLine (text : CString) : CString := (text.takeWhile (· ≠ 35)).takeWhile (· ≠ 10)

section Scheme

variable {url name : CString} {c : CUrl}

/-- A URL of one of the schemes, with what the two parsers make of it behind the scheme. -/
structure Opens (url name : CString) : Prop where
  scheme : parseScheme (url.takeWhile (· ≠ 0)) = .http ∨ parseScheme (url.takeWhile (· ≠ 0)) = .https
  parsed : authorityOf url = some ((CUrl.opened url name).parseHost (urlLine (behindScheme url)))
  port : (CUrl.opened url name).defaultPort = schemePort url
  fields : ∃ x, x.length < 10 ∧ 58 ∉ x ∧ 0 ∉ x ∧
    dropBlanks [] (url.takeWhile (· ≠ 0)) = x ++ 58 :: (ascii "//" ++ withoutBlanks (behindScheme url))

theorem withoutBlanks_plain {front : CString} (plain : ∀ b ∈ front, isBlank b = false) (rest : CString) :
    withoutBlanks (front ++ rest) = front ++ withoutBlanks rest := by
  have kept : front.filter (fun b => !isBlank b) = front :=
    List.filter_eq_self.mpr fun b mem => by rw [plain b mem]; rfl
  rw [withoutBlanks, List.filter_append, kept]
  rfl

/-- The text with its spaces escaped starts with the scheme where the URL does. -/
theorem escaped_of_leads (lead : leads (name ++ ascii "://") (nurlOf url) = true)
    (small : toLowercase (name ++ ascii "://") = name ++ ascii "://") :
    ∃ x, toLowercase x = name ∧ escapeSpaces [] (url.takeWhile (· ≠ 0)) = (x ++ ascii "://") ++
      (escapeSpaces [] (url.takeWhile (· ≠ 0))).drop (name.length + 3) := by
  obtain ⟨x, split, is⟩ := split_of_leads lead small
  have length : (x ++ ascii "://").length = name.length + 3 := by
    rw [List.length_append, ← is, toLowercase, List.length_map]
    rfl
  have whole : escapeSpaces [] (url.takeWhile (· ≠ 0)) = nurlOf url ++
      (escapeSpaces [] (url.takeWhile (· ≠ 0))).dropWhile (· ≠ 35) := List.takeWhile_append_dropWhile.symm
  have front : x ++ ascii "://" <+: escapeSpaces [] (url.takeWhile (· ≠ 0)) := by
    rw [whole, split]
    exact ⟨_, by rw [List.append_assoc, List.append_assoc]; rfl⟩
  obtain ⟨rest, shape⟩ := front
  refine ⟨x, is, ?_⟩
  rw [← shape, ← length, List.drop_left]

theorem opens_of_leads (some : name ≠ []) (lead : leads (name ++ ascii "://") (nurlOf url) = true)
    (small : toLowercase (name ++ ascii "://") = name ++ ascii "://") (short : name.length < 10)
    (clean : ∀ b, lower b ∈ name → isBlank b = false ∧ b ≠ 37 ∧ b ≠ 35 ∧ b ≠ 58 ∧ b ≠ 0) :
    leads (name ++ ascii "://") (url.takeWhile (· ≠ 0)) = true ∧
    urlLine ((escapeSpaces [] (url.takeWhile (· ≠ 0))).drop (name.length + 3)) =
      ((nurlOf url).drop (name.length + 3)).takeWhile (· ≠ 10) ∧
    ∃ x, x.length < 10 ∧ 58 ∉ x ∧ 0 ∉ x ∧ dropBlanks [] (url.takeWhile (· ≠ 0)) = x ++ 58 :: (ascii "//" ++
      withoutBlanks ((escapeSpaces [] (url.takeWhile (· ≠ 0))).drop (name.length + 3))) := by
  obtain ⟨x, is, whole⟩ := escaped_of_leads lead small
  have length : (x ++ ascii "://").length = name.length + 3 := by
    rw [List.length_append, ← is, toLowercase, List.length_map]
    rfl
  have letters : ∀ b ∈ x, isBlank b = false ∧ b ≠ 37 ∧ b ≠ 35 ∧ b ≠ 58 ∧ b ≠ 0 := fun b mem =>
    clean b (is ▸ List.mem_map_of_mem mem)
  have marks : ∀ b ∈ ascii "://", isBlank b = false ∧ b ≠ 37 ∧ b ≠ 35 := by decide +kernel
  have front : ∀ b ∈ x ++ ascii "://", isBlank b = false ∧ b ≠ 37 ∧ b ≠ 35 := by
    intro b mem
    rcases List.mem_append.mp mem with letter | mark
    · exact ⟨(letters b letter).1, (letters b letter).2.1, (letters b letter).2.2.1⟩
    · exact marks b mark
  generalize (escapeSpaces [] (url.takeWhile (· ≠ 0))).drop (name.length + 3) = m at whole ⊢
  have nurl : nurlOf url = (x ++ ascii "://") ++ m.takeWhile (· ≠ 35) := by
    rw [nurlOf, whole]
    exact List.takeWhile_append_of_pos fun b mem => decide_eq_true (front b mem).2.2
  obtain ⟨a, x', rfl⟩ := List.exists_cons_of_ne_nil (show x ≠ [] by rintro rfl; exact some is.symm)
  have start : (url.takeWhile (· ≠ 0)) ≠ [] := by
    intro none
    rw [none] at whole
    cases whole
  obtain ⟨b, text, shape⟩ := List.exists_cons_of_ne_nil start
  rw [shape] at whole ⊢
  rw [escapeSpaces_cons] at whole
  obtain ⟨rfl, tail⟩ := List.cons.inj whole
  have kept : ∀ c ∈ x' ++ ascii "://", isBlank c = false ∧ c ≠ 37 := fun c mem =>
    ⟨(front c (List.mem_cons_of_mem b mem)).1, (front c (List.mem_cons_of_mem b mem)).2.1⟩
  obtain ⟨more, split, -⟩ := split_of_escapedTail kept tail
  refine ⟨?_, ?_, b :: x', ?_, ?_, ?_, ?_⟩
  · have taken : (b :: text).take (name ++ ascii "://").length = b :: x' ++ ascii "://" := by
      rw [split, List.length_append]
      exact List.take_left' length
    rw [leads, taken, small]
    refine decide_eq_true ?_
    rw [toLowercase, List.map_append]
    exact congrArg (· ++ ascii "://") is
  · rw [nurl, List.drop_left' length]
    rfl
  · rw [← is, toLowercase, List.length_map] at short
    exact short
  · exact fun mem => (letters 58 mem).2.2.2.1 rfl
  · exact fun mem => (letters 0 mem).2.2.2.2 rfl
  · have clear : isBlank b = false := (front b List.mem_cons_self).1
    rw [dropBlanks_cons clear, tail]
    change b :: withoutBlanks ((x' ++ ascii "://") ++ m) = _
    rw [withoutBlanks_plain fun c mem => (kept c mem).1, List.append_assoc]
    rfl

theorem opens_of_some (found : authorityOf url = some c) : ∃ name, Opens url name ∧ name ≠ ascii "file" := by
  unfold authorityOf at found
  split_ifs at found with http https
  · have clean : ∀ b, lower b ∈ ascii "http" → isBlank b = false ∧ b ≠ 37 ∧ b ≠ 35 ∧ b ≠ 58 ∧ b ≠ 0 :=
      forall_byte (by decide +kernel)
    obtain ⟨lead, line, fields⟩ := @opens_of_leads url (ascii "http") (by decide) http (by decide) (by decide) clean
    have behind : behindScheme url = (escapeSpaces [] (url.takeWhile (· ≠ 0))).drop 7 := by
      rw [behindScheme, if_pos http]
    refine ⟨ascii "http", ⟨Or.inl ?_, ?_, ?_, ?_⟩, by decide⟩
    · exact if_pos lead
    · rw [authorityOf, if_pos http, behind]
      exact congrArg (fun p => some ((CUrl.opened url (ascii "http")).parseHost p)) line.symm
    · rw [schemePort, if_pos http]
      rfl
    · rw [behind]
      exact fields
  · have clean : ∀ b, lower b ∈ ascii "https" → isBlank b = false ∧ b ≠ 37 ∧ b ≠ 35 ∧ b ≠ 58 ∧ b ≠ 0 :=
      forall_byte (by decide +kernel)
    obtain ⟨lead, line, fields⟩ := @opens_of_leads url (ascii "https") (by decide) https (by decide) (by decide) clean
    have behind : behindScheme url = (escapeSpaces [] (url.takeWhile (· ≠ 0))).drop 8 := by
      rw [behindScheme, if_neg http]
    refine ⟨ascii "https", ⟨?_, ?_, ?_, ?_⟩, by decide⟩
    · have scheme : leads (ascii "https://") (url.takeWhile (· ≠ 0)) = true := lead
      rw [parseScheme, if_pos scheme]
      split_ifs
      · exact Or.inl rfl
      · exact Or.inr rfl
    · rw [authorityOf, if_neg http, if_pos https, behind]
      exact congrArg (fun p => some ((CUrl.opened url (ascii "https")).parseHost p)) line.symm
    · rw [schemePort, if_neg http]
      rfl
    · rw [behind]
      exact fields

end Scheme

/-! ### What is found -/

/-- The characters of the host and of what is taken for its port. -/
def hostText (z : CString) : CString := z.takeWhile isValidHostChar

/-- The characters up to the first colon. -/
def hostOf (z : CString) : CString := (hostText z).takeWhile (· ≠ 58)

/-- The port that is found, or 80. -/
def portOf (z : CString) : ℤ :=
  if 58 ∈ hostText z ∧ 0 < atoi (((hostText z).dropWhile (· ≠ 58)).drop 1) then
    atoi (((hostText z).dropWhile (· ≠ 58)).drop 1)
  else 80

/-- There is an `'@'` in front of the first slash. -/
def ownedEx (x : CString) : Bool := decide (47 ∈ x ∧ 64 ∈ x.takeWhile (· ≠ 47))

section Fields

variable {url x z mem : CString} {c : CUrl}

theorem ownedEx_eq (x : CString) :
    ((strchr 64 x).isSome && before (strchr 64 x) (strchr 47 x)) = ownedEx x := by
  have same : ((strchr 64 x).isSome && before (strchr 64 x) (strchr 47 x)) = true ↔
      47 ∈ x ∧ 64 ∈ x.takeWhile (· ≠ 47) := by
    rw [Bool.and_eq_true, isSome_strchr, before_strchr]
    constructor
    · rintro ⟨owner, slash, front⟩
      exact ⟨slash, front owner⟩
    · rintro ⟨slash, front⟩
      exact ⟨(List.takeWhile_prefix _).subset front, slash, fun _ => front⟩
  rw [ownedEx, Bool.eq_iff_iff, same, decide_eq_true_iff]

theorem owner_eq (x : CString) :
    (if ownedEx x then x.take ((strchr 64 x).getD 0) else []) = ownerOf (ownedEx x) x ∧
      (if ownedEx x then x.drop ((strchr 64 x).getD 0 + 1) else x) = siteOf (ownedEx x) x := by
  unfold ownerOf siteOf
  by_cases owner : ownedEx x = true
  · have front : 64 ∈ x.takeWhile (· ≠ 47) := (of_decide_eq_true owner).2
    obtain ⟨i, there⟩ := Option.isSome_iff_exists.mp (isSome_strchr.mpr ((List.takeWhile_prefix _).subset front))
    obtain ⟨taken, dropped⟩ := split_of_strchr there
    rw [if_pos owner, if_pos owner, if_pos owner, if_pos owner, there, Option.getD_some, taken, ← List.drop_drop,
      dropped]
    exact ⟨rfl, rfl⟩
  · rw [if_neg owner, if_neg owner, if_neg owner, if_neg owner]
    exact ⟨rfl, rfl⟩

/-- The whole of an array is written. -/
theorem put_strncpy (mem text : List UInt8) : put mem 0 (strncpy text mem.length) = some (strncpy text mem.length) := by
  have length := @length_strncpy text mem.length
  have write := @put_append _ [] (strncpy text mem.length) mem length.le
  have nothing : mem.drop (strncpy text mem.length).length = [] := by
    rw [length, List.drop_length]
  rw [nothing, List.append_nil] at write
  exact write

/-- The text is read again if it leaves room for a NUL. -/
theorem textAt_strncpy {text : CString} (nul : 0 ∉ text) (len : ℕ) :
    textAt 0 (strncpy text len) 0 = if text.length < len then some text else none := by
  split_ifs with short
  · rw [strncpy_short short]
    exact textAt_zero nul _
  · have full : strncpy text len = text.take len := List.take_append_of_le_length (Nat.not_lt.mp short)
    rw [full]
    exact if_neg fun mem => nul (List.mem_of_mem_take mem)

theorem nul_hostText (z : CString) : 0 ∉ hostText z := by
  intro mem
  have valid := List.mem_takeWhile_imp mem
  exact absurd valid (by decide)

/-- The name is cut off at its first colon, in the array. -/
theorem cutHost (short : (hostText z).length < maxHostLen) (colon : 58 ∈ hostText z) :
    ∃ host, put (strncpy (hostText z) maxHostLen) ((strchr 58 (hostText z)).getD 0) [0] = some host ∧
      textAt 0 host 0 = some (hostOf z) := by
  have nul := nul_hostText z
  obtain ⟨i, there⟩ := Option.isSome_iff_exists.mp (isSome_strchr.mpr colon)
  obtain ⟨near, far, split, away⟩ := List.eq_append_cons_of_mem colon
  have front : hostOf z = near := by
    rw [hostOf, split, List.takeWhile_append_of_pos fun b mem => ne_of_mem away mem]
    simp
  rw [split] at nul
  rw [strncpy_short short, front, split, strchr_of_append away, Option.getD_some, List.append_assoc]
  have room (rest : List UInt8) : ([0] : List UInt8).length ≤ (58 :: far ++ 0 :: rest).length :=
    Nat.succ_le_succ (Nat.zero_le _)
  exact ⟨_, put_append near [0] (room _), textAt_zero (fun mem => nul (List.mem_append_left _ mem)) _⟩

theorem nul_behindScheme (url : CString) : 0 ∉ withoutBlanks (behindScheme url) := by
  intro mem
  have inside := List.mem_of_mem_drop (List.mem_of_mem_filter mem)
  rcases mem_escapeSpaces inside with absent | text | escape
  · cases absent
  · exact of_decide_eq_true (List.mem_takeWhile_imp (p := fun b : UInt8 => decide (b ≠ 0)) text) rfl
  · exact absurd escape (by decide)

theorem nul_siteOf (owner : Bool) (nul : 0 ∉ x) : 0 ∉ siteOf owner x := by
  unfold siteOf
  split_ifs
  · exact fun mem => nul ((List.dropWhile_suffix _).subset (List.mem_of_mem_drop mem))
  · exact nul

/-- The name and the rest leave room for a NUL in their arrays. -/
def FieldsFit (z : CString) : Prop :=
  (hostText z).length < maxHostLen ∧ (z.dropWhile isValidHostChar).length < maxRequestLen

/-- What is done behind the scheme. -/
theorem fields_run {text s : CString} (colon : 58 ∉ s)
    (shape : dropBlanks [] text = s ++ 58 :: (ascii "//" ++ x)) (user : c.user = [])
    (site : siteOf (ownedEx x) x = z) :
    c.ParseUrlExFields text (List.replicate 10 0) (List.replicate maxHostLen 0) (List.replicate maxRequestLen 0) =
      (textAt 0 (strncpy (hostText z) maxHostLen) 0).bind fun t =>
        if 58 ∈ t then
          (put (strncpy (hostText z) maxHostLen) ((strchr 58 t).getD 0) [0]).bind fun host =>
            some ⟨ownerOf (ownedEx x) x, strncpy s 10, host, strncpy (z.dropWhile isValidHostChar) maxRequestLen,
              atoi (t.drop ((strchr 58 t).getD 0 + 1))⟩
        else some ⟨ownerOf (ownedEx x) x, strncpy s 10, strncpy (hostText z) maxHostLen,
          strncpy (z.dropWhile isValidHostChar) maxRequestLen, 80⟩ := by
  have place := strchr_of_append colon (ascii "//" ++ x)
  have behind : (s ++ 58 :: (ascii "//" ++ x)).drop (s.length + 1) = ascii "//" ++ x := by
    rw [← List.drop_drop, List.drop_left]
    rfl
  have slashes : ascii "//" <+: ascii "//" ++ x := List.prefix_append _ _
  have rest : (ascii "//" ++ x).drop 2 = x := rfl
  have filled (n : ℕ) (t : List UInt8) : put (List.replicate n 0) 0 (strncpy t n) = some (strncpy t n) := by
    have write := put_strncpy (List.replicate n 0) t
    rwa [List.length_replicate] at write
  obtain ⟨owner, behindOwner⟩ := owner_eq x
  unfold CUrl.ParseUrlExFields
  dsimp only
  rw [shape, place]
  simp only [Option.elim_some, List.take_left, behind, if_pos slashes, rest, ownedEx_eq, user, owner, behindOwner,
    site, List.length_replicate, filled, Option.bind_eq_bind, Option.bind_some]
  rfl

/-- The parts, with what the arrays hold. -/
theorem fields_eq {text s : CString} (colon : 58 ∉ s)
    (shape : dropBlanks [] text = s ++ 58 :: (ascii "//" ++ x)) (user : c.user = [])
    (site : siteOf (ownedEx x) x = z) (fits : (hostText z).length < maxHostLen) :
    ∃ fields, c.ParseUrlExFields text (List.replicate 10 0) (List.replicate maxHostLen 0)
        (List.replicate maxRequestLen 0) = some fields ∧
      fields.user = ownerOf (ownedEx x) x ∧ fields.protocol = strncpy s 10 ∧
      textAt 0 fields.host 0 = some (hostOf z) ∧
      fields.request = strncpy (z.dropWhile isValidHostChar) maxRequestLen ∧
      (if 0 < fields.port then fields.port else 80) = portOf z := by
  have name := textAt_strncpy (nul_hostText z) maxHostLen
  rw [if_pos fits] at name
  rw [fields_run colon shape user site, name, Option.bind_some]
  unfold portOf
  by_cases port : 58 ∈ hostText z
  · obtain ⟨host, write, text⟩ := cutHost fits port
    obtain ⟨i, there⟩ := Option.isSome_iff_exists.mp (isSome_strchr.mpr port)
    rw [if_pos port, write, Option.bind_some]
    refine ⟨_, rfl, rfl, rfl, text, rfl, ?_⟩
    rw [there, Option.getD_some, ← List.drop_drop, (split_of_strchr there).2]
    simp only [port, true_and]
  · have whole : hostOf z = hostText z := takeWhile_away port
    rw [if_neg port, if_neg fun both => port both.1, whole]
    have eighty : (0 : ℤ) < 80 := by decide
    exact ⟨_, rfl, rfl, rfl, name, rfl, if_pos eighty⟩

/-- `ParseUrlEx` on a URL of one of the schemes. -/
theorem parseUrlEx_spec {name : CString} (opens : Opens url name)
    (site : siteOf (ownedEx (withoutBlanks (behindScheme url))) (withoutBlanks (behindScheme url)) = z) :
    (FieldsFit z → ∃ d, CUrl.new.ParseUrlEx url = some (true, d) ∧ d.host = hostOf z ∧ d.port = portOf z ∧
      d.user = ownerOf (ownedEx (withoutBlanks (behindScheme url))) (withoutBlanks (behindScheme url))) ∧
    (¬ FieldsFit z → CUrl.new.ParseUrlEx url = none) := by
  obtain ⟨s, short, colon, clean, shape⟩ := opens.fields
  have accepted : ¬ (parseScheme (url.takeWhile (· ≠ 0)) ≠ .http ∧
      parseScheme (url.takeWhile (· ≠ 0)) ≠ .https) := by
    have scheme := opens.scheme
    tauto
  have nul := nul_siteOf (ownedEx (withoutBlanks (behindScheme url))) (nul_behindScheme url)
  have away : 0 ∉ z.dropWhile isValidHostChar := by
    rw [site] at nul
    exact fun mem => nul ((List.dropWhile_suffix _).subset mem)
  have protocol := textAt_strncpy clean 10
  have request := textAt_strncpy away maxRequestLen
  rw [if_pos short] at protocol
  unfold CUrl.ParseUrlEx
  dsimp only
  rw [if_neg accepted]
  by_cases name : (hostText z).length < maxHostLen
  · obtain ⟨fields, run, user, first, host, second, port⟩ :=
      @fields_eq _ z { CUrl.new with scheme := parseScheme (url.takeWhile (· ≠ 0)) } _ s colon shape rfl site name
    simp only [run, Option.bind_eq_bind, Option.bind_some, host, second, request]
    by_cases rest : (z.dropWhile isValidHostChar).length < maxRequestLen
    · simp only [if_pos rest, Option.bind_some, first, protocol]
      refine ⟨fun _ => ?_, fun outside => absurd ⟨name, rest⟩ outside⟩
      by_cases positive : 0 < fields.port
      · rw [if_pos positive] at port
        simp only [gt_iff_lt, if_pos positive]
        exact ⟨_, rfl, rfl, port, user⟩
      · rw [if_neg positive] at port
        simp only [gt_iff_lt, if_neg positive]
        exact ⟨_, rfl, rfl, port, user⟩
    · rw [if_neg rest]
      exact ⟨fun fits => absurd fits.2 rest, fun _ => rfl⟩
  · have missing := textAt_strncpy (nul_hostText z) maxHostLen
    rw [if_neg name] at missing
    rw [fields_run colon shape rfl site, missing]
    exact ⟨fun fits => absurd fits.1 name, fun _ => rfl⟩

end Fields

end BloomServer
