import BloomServer.UrlAuthority
import BloomServer.UrlEncode

/-! What `CUrl::parse` makes of any URL: where it finds a host and a port, and when it puts a URL
together again. -/
namespace BloomServer
open DecimalText TextSearch Tokens

/-- The text that is parsed, up to a `'#'`. -/
def nurlOf (url : CString) : CString := (escapeSpaces [] (url.takeWhile (· ≠ 0))).takeWhile (· ≠ 35)

theorem nurlOf_plain {url : CString} (plain : ∀ b ∈ url, isPlain b) : nurlOf url = url := by
  have away : 0 ∉ url ∧ 35 ∉ url :=
    ⟨fun mem => absurd (plain 0 mem) (by decide), fun mem => absurd (plain 35 mem) (by decide)⟩
  rw [nurlOf, takeWhile_away away.1, escapeSpaces_plain plain, List.nil_append, takeWhile_away away.2]

/-- A URL of which the scheme has been read. -/
def CUrl.opened (url name : CString) : CUrl :=
  { CUrl.new with sUrl := url, scheme := parseScheme (nurlOf url), protocol := name }

/-- What is known before the path is normalized, for a URL of one of the two schemes. -/
def authorityOf (url : CString) : Option CUrl :=
  if leads (ascii "http://") (nurlOf url) then
    some ((CUrl.opened url (ascii "http")).parseHost (((nurlOf url).drop 7).takeWhile (· ≠ 10)))
  else if leads (ascii "https://") (nurlOf url) then
    some ((CUrl.opened url (ascii "https")).parseHost (((nurlOf url).drop 8).takeWhile (· ≠ 10)))
  else none

section Scheme

variable {url text : CString} {n : ℕ}

theorem lower_eq_of_mark : ∀ b : UInt8, (lower b = 58 → b = 58) ∧ (lower b = 47 → b = 47) :=
  forall_byte (by decide +kernel)

/-- A text with the lead of a scheme: its name in any case, and what follows as it is. -/
theorem split_of_leads {name : CString} (lead : leads (name ++ ascii "://") text = true)
    (small : toLowercase (name ++ ascii "://") = name ++ ascii "://") :
    ∃ x, text = x ++ 58 :: (ascii "//" ++ text.drop (name.length + 3)) ∧ toLowercase x = name := by
  have same : toLowercase (text.take (name ++ ascii "://").length) = name ++ ascii "://" :=
    (of_decide_eq_true lead).trans small
  have three : (name ++ ascii "://").length = name.length + 3 := List.length_append
  rw [three] at same
  obtain ⟨x, mark, whole, is, marks⟩ := List.map_eq_append_iff.mp same
  have kept : mark = ascii "://" := by
    obtain ⟨a, mark, rfl, colon, rest⟩ := List.map_eq_cons_iff.mp marks
    obtain ⟨b, mark, rfl, slash, rest⟩ := List.map_eq_cons_iff.mp rest
    obtain ⟨c, mark, rfl, slash', rest⟩ := List.map_eq_cons_iff.mp rest
    rw [List.map_eq_nil_iff.mp rest, (lower_eq_of_mark a).1 colon, (lower_eq_of_mark b).2 slash,
      (lower_eq_of_mark c).2 slash']
    rfl
  refine ⟨x, ?_, is⟩
  conv_lhs => rw [← List.take_append_drop (name.length + 3) text, whole, kept, List.append_assoc]
  rfl

/-- A text with such a lead is handed to `parseHost`, up to the end of its line. -/
theorem parse_of_leads {name : CString} (short : url.length ≤ maxUrlLen) (some : name ≠ []) (colon : 58 ∉ name)
    (small : toLowercase (name ++ ascii "://") = name ++ ascii "://")
    (lead : leads (name ++ ascii "://") (nurlOf url) = true)
    (scheme : parseScheme (nurlOf url) = .http ∨ parseScheme (nurlOf url) = .https) :
    CUrl.new.parse n url =
      (normalizePath n ((CUrl.opened url name).parseHost
        (((nurlOf url).drop (name.length + 3)).takeWhile (· ≠ 10))).path).bind fun path =>
          { (CUrl.opened url name).parseHost (((nurlOf url).drop (name.length + 3)).takeWhile (· ≠ 10)) with
            path := path }.constructURL := by
  obtain ⟨x, split, is⟩ := split_of_leads lead small
  have someX : x ≠ [] := by
    rintro rfl
    exact some is.symm
  have away : 58 ∉ x := by
    intro mem
    exact colon (is ▸ List.mem_map_of_mem (f := lower) mem)
  have token : strtokR 58 (nurlOf url) = (.some x, ascii "//" ++ (nurlOf url).drop (name.length + 3)) := by
    conv_lhs => rw [split]
    exact strtokR_of_append someX away _
  have line : (strtokR 10 (ascii "//" ++ (nurlOf url).drop (name.length + 3))).1 =
      .some (ascii "//" ++ ((nurlOf url).drop (name.length + 3)).takeWhile (· ≠ 10)) := by
    change (strtokR 10 (47 :: 47 :: _)).1 = _
    rw [strtokR, List.dropWhile_cons_of_neg (by decide), if_neg (List.cons_ne_nil _ _),
      List.takeWhile_cons_of_pos (by decide), List.takeWhile_cons_of_pos (by decide)]
    rfl
  have here : 58 ∈ nurlOf url := by
    rw [split]
    exact List.mem_append_right _ List.mem_cons_self
  unfold CUrl.parse
  rw [if_neg (Nat.not_lt.mpr short)]
  dsimp only
  rw [← nurlOf.eq_1 url, if_neg (by tauto), if_pos here, token]
  dsimp only [Option.getD_some]
  rw [line, is]
  rfl

/-- A URL of neither scheme is left alone. -/
theorem parse_of_none (short : url.length ≤ maxUrlLen) (none : authorityOf url = none) :
    CUrl.new.parse n url = some { CUrl.new with sUrl := url } := by
  have invalid : parseScheme (nurlOf url) = .invalid := by
    unfold authorityOf at none
    split_ifs at none with http https
    rw [parseScheme, if_neg http, if_neg https]
  unfold CUrl.parse
  rw [if_neg (Nat.not_lt.mpr short)]
  dsimp only
  rw [← nurlOf.eq_1 url, invalid, if_pos (by decide)]
  rfl

/-- What is put together of a URL of one of the schemes. -/
theorem parse_of_some (short : url.length ≤ maxUrlLen) {c : CUrl} (found : authorityOf url = some c) :
    CUrl.new.parse n url = (normalizePath n c.path).bind fun path => { c with path := path }.constructURL := by
  unfold authorityOf at found
  split_ifs at found with http https
  · cases found
    exact parse_of_leads short (by decide) (by decide) (by decide) http
      (Or.inl (by rw [parseScheme, if_pos http]))
  · cases found
    exact parse_of_leads short (by decide) (by decide) (by decide) https
      (Or.inr (by rw [parseScheme, if_neg http, if_pos https]))

end Scheme

/-! ### What `parseHost` leaves -/

section Host

variable {c : CUrl} {host p rest : CString}

/-- The protocol is kept, the host and what the path gets are cut out of what there was to read, and the port
is the one before, a default or a positive `int`. -/
structure CUrl.Placed (c : CUrl) (p : CString) (d : CUrl) : Prop where
  protocol : d.protocol = c.protocol
  host : d.host = c.host ∨ d.host.Sublist p
  path : ∃ more, d.path = c.path ++ more ∧ more.Sublist p
  port : d.port = c.port ∨ d.port = c.defaultPort ∨ (0 < d.port ∧ d.port < 2 ^ 31)

theorem atoi_lt (text : CString) : atoi text < 2 ^ 31 := by
  unfold atoi
  exact Int.bmod_lt (by decide)

theorem sublist_strtokR (d : UInt8) (text : CString) :
    ((strtokR d text).1.getD []).Sublist text ∧ (strtokR d text).2.Sublist text := by
  have skipped := List.dropWhile_suffix (fun b => decide (b = d)) (l := text)
  rw [strtokR]
  split_ifs with nothing
  · exact ⟨List.nil_sublist _, List.nil_sublist _⟩
  · exact ⟨(List.takeWhile_prefix _).sublist.trans skipped.sublist,
      (List.drop_sublist _ _).trans ((List.dropWhile_suffix _).sublist.trans skipped.sublist)⟩

theorem placed_takeHost (part : rest.Sublist p) : c.Placed p (c.takeHost rest) := by
  refine ⟨rfl, ?_, ⟨_, rfl, (sublist_strtokR 10 _).1.trans ((sublist_strtokR 47 rest).2.trans part)⟩,
    Or.inl rfl⟩
  have token := (sublist_strtokR 47 rest).1.trans part
  change (strtokR 47 rest).1.getD c.host = c.host ∨ ((strtokR 47 rest).1.getD c.host).Sublist p
  cases found : (strtokR 47 rest).1 with
  | none => exact Or.inl rfl
  | some host =>
      rw [found] at token
      exact Or.inr token

theorem placed_takePort (name : host.Sublist p) (part : rest.Sublist p) :
    c.Placed p (c.takePort host rest) := by
  have tail := (sublist_strtokR 10 (strtokR 47 rest).2).1.trans ((sublist_strtokR 47 rest).2.trans part)
  unfold CUrl.takePort
  dsimp only
  split_ifs with low
  · exact ⟨rfl, Or.inr name, ⟨_, rfl, tail⟩, Or.inr (Or.inl rfl)⟩
  · refine ⟨rfl, Or.inr name, ⟨_, rfl, tail⟩, Or.inr (Or.inr ?_)⟩
    rw [not_or] at low
    refine ⟨Int.not_le.mp low.2, ?_⟩
    cases found : (strtokR 47 rest).1 with
    | none => exact absurd found low.1
    | some token => exact atoi_lt token

theorem placed_parseBehindUser (part : rest.Sublist p) : c.Placed p (c.parseBehindUser rest) := by
  obtain ⟨token, tail⟩ := sublist_strtokR 58 rest
  unfold CUrl.parseBehindUser
  cases found : strtokR 58 rest with
  | mk host behind =>
      rw [found] at token tail
      cases host with
      | none => exact placed_takeHost part
      | some host =>
          dsimp only
          split_ifs
          · exact placed_takePort (token.trans part) (tail.trans part)
          · exact placed_takeHost part

theorem placed_parseWithAt (c : CUrl) (p : CString) : c.Placed p (c.parseWithAt p) := by
  unfold CUrl.parseWithAt
  split_ifs
  · obtain ⟨protocol, host, path, port⟩ := placed_parseBehindUser
      (c := { c with user := p.take ((strchr 64 p).getD 0) }) (List.drop_sublist ((strchr 64 p).getD 0 + 1) p)
    exact ⟨protocol, host, path, port⟩
  · exact placed_parseBehindUser (List.Sublist.refl p)

theorem placed_parseWithout (c : CUrl) (p : CString) : c.Placed p (c.parseWithout p) := by
  obtain ⟨token, tail⟩ := sublist_strtokR 58 p
  have whole : c.Placed p ({ c with port := c.defaultPort }.takeHost p) := by
    obtain ⟨protocol, host, path, -⟩ :=
      placed_takeHost (c := { c with port := c.defaultPort }) (List.Sublist.refl p)
    exact ⟨protocol, host, path, Or.inr (Or.inl rfl)⟩
  unfold CUrl.parseWithout
  split_ifs
  · cases found : strtokR 58 p with
    | mk host behind =>
        rw [found] at token tail
        cases host with
        | none => exact whole
        | some host => exact placed_takePort token tail
  · exact whole

/-- Behind a scheme other than `file:` there is a path that starts with a slash. -/
theorem placed_parseHost (other : c.protocol ≠ ascii "file") (p : CString) :
    { c with path := ascii "/" }.Placed p (c.parseHost p) := by
  unfold CUrl.parseHost
  dsimp only
  rw [if_neg other]
  split_ifs
  · exact placed_parseWithAt _ p
  · exact placed_parseWithout _ p

end Host

/-! ### Whether a URL is put together -/

section Whole

variable {url : CString} {c : CUrl}

theorem length_escapeSpaces (temp text : CString) :
    (escapeSpaces temp text).length ≤ temp.length + 3 * text.length := by
  induction text generalizing temp with
  | nil => exact Nat.le_refl _
  | cons b text ih =>
      rw [escapeSpaces, List.length_cons]
      split_ifs
      · have three : (ascii "%20").length = 3 := rfl
        refine (ih _).trans ?_
        rw [List.length_append, three]
        omega
      · exact (ih _).trans (by omega)
      · refine (ih _).trans ?_
        rw [List.length_append, List.length_singleton]
        omega

theorem length_nurlOf (url : CString) : (nurlOf url).length ≤ 3 * url.length := by
  have part := (List.takeWhile_prefix (fun b => decide (b ≠ 0)) (l := url)).length_le
  have front := (List.takeWhile_prefix (fun b => decide (b ≠ 35))
    (l := escapeSpaces [] (url.takeWhile (· ≠ 0)))).length_le
  have all := length_escapeSpaces [] (url.takeWhile (· ≠ 0))
  rw [List.length_nil] at all
  unfold nurlOf
  omega

theorem mem_escapeSpaces {b : UInt8} {temp text : CString} (mem : b ∈ escapeSpaces temp text) :
    b ∈ temp ∨ b ∈ text ∨ b ∈ ascii "%20" := by
  induction text generalizing temp with
  | nil => exact Or.inl mem
  | cons c text ih =>
      rw [escapeSpaces] at mem
      rw [List.mem_cons]
      split_ifs at mem
      · rcases ih mem with front | behind
        · rw [List.mem_append] at front
          tauto
        · tauto
      · rcases ih mem with front | behind <;> tauto
      · rcases ih mem with front | behind
        · rw [List.mem_append, List.mem_singleton] at front
          tauto
        · tauto

theorem nul_nurlOf (url : CString) : 0 ∉ nurlOf url := by
  intro mem
  rcases mem_escapeSpaces ((List.takeWhile_prefix _).subset mem) with absent | inside | escape
  · exact absurd absent List.not_mem_nil
  · exact of_decide_eq_true (List.mem_takeWhile_imp (p := fun b : UInt8 => decide (b ≠ 0)) inside) rfl
  · exact absurd escape (by decide)

/-- The parts of a URL of one of the schemes, before its path is normalized. -/
structure Located (url : CString) (c : CUrl) : Prop where
  protocol : c.protocol = ascii "http" ∨ c.protocol = ascii "https"
  host : 0 ∉ c.host
  path : c.path.head? = some 47
  short : c.path.length ≤ 3 * url.length + 1
  port : 0 < c.port ∧ c.port < 2 ^ 31

theorem defaultPort_of_protocol {c : CUrl} (is : c.protocol = ascii "http" ∨ c.protocol = ascii "https") :
    c.defaultPort = 80 ∨ c.defaultPort = 443 := by
  unfold CUrl.defaultPort
  rcases is with http | https
  · rw [http]
    exact Or.inl rfl
  · rw [https]
    exact Or.inr rfl

theorem located_parseHost {name : CString} (is : name = ascii "http" ∨ name = ascii "https") (k : ℕ) :
    Located url ((CUrl.opened url name).parseHost (((nurlOf url).drop k).takeWhile (· ≠ 10))) := by
  have other : name ≠ ascii "file" := by
    rcases is with rfl | rfl <;> decide
  have default : 0 < { CUrl.opened url name with path := ascii "/" }.defaultPort ∧
      { CUrl.opened url name with path := ascii "/" }.defaultPort < 2 ^ 31 := by
    rcases @defaultPort_of_protocol { CUrl.opened url name with path := ascii "/" } is with same | same
    · rw [same]
      decide
    · rw [same]
      decide
  have placed := @placed_parseHost (CUrl.opened url name) other (((nurlOf url).drop k).takeWhile (· ≠ 10))
  obtain ⟨protocol, host, ⟨more, path, part⟩, port⟩ := placed
  have inside : (((nurlOf url).drop k).takeWhile (· ≠ 10)).Sublist (nurlOf url) :=
    (List.takeWhile_prefix _).sublist.trans (List.drop_sublist _ _)
  have whole := (part.trans inside).length_le.trans (length_nurlOf url)
  refine ⟨?_, ?_, ?_, ?_, ?_⟩
  · rw [protocol]
    exact is
  · rcases host with same | cut
    · rw [same]
      exact List.not_mem_nil
    · exact fun mem => nul_nurlOf url (inside.subset (cut.subset mem))
  · rw [path]
    rfl
  · have one : (ascii "/").length = 1 := rfl
    rw [path, List.length_append, one]
    omega
  · rcases port with same | same | positive
    · rw [same]
      change 0 < (80 : ℤ) ∧ (80 : ℤ) < 2 ^ 31
      omega
    · rw [same]
      exact default
    · exact positive

theorem located_of_some (found : authorityOf url = some c) : Located url c := by
  unfold authorityOf at found
  split_ifs at found with http https
  · cases found
    exact located_parseHost (Or.inl rfl) 7
  · cases found
    exact located_parseHost (Or.inr rfl) 8

/-- A URL of one of the schemes is put together exactly when it has no host or its port has fewer than ten
digits. -/
theorem constructURL_some_iff (located : Located url c) (path : CString) :
    (∃ d, { c with path := path }.constructURL = some d) ↔ (c.host ≠ [] → c.port < 10 ^ 9) := by
  have other : c.protocol ≠ ascii "file" := by
    rcases located.protocol with is | is <;> rw [is] <;> decide
  have two : slashes c.protocol = 2 := by
    rcases located.protocol with is | is <;> rw [is] <;> rfl
  have default : c.defaultPort = 80 ∨ c.defaultPort = 443 := defaultPort_of_protocol located.protocol
  have port := located.port
  have digits : (decimal (c.port % 2 ^ 64).toNat).length < 10 ↔ c.port < 10 ^ 9 := by
    rw [Nat.lt_succ_iff, length_decimal_le_iff (by decide)]
    omega
  unfold CUrl.constructURL
  dsimp only
  by_cases none : c.host = []
  · rw [if_pos ⟨other, none⟩]
    exact iff_of_true ⟨_, rfl⟩ (fun some => absurd none some)
  · rw [if_neg (fun both => none both.2), if_pos two]
    change (∃ d, (if c.port ≠ c.defaultPort ∧ c.port ≠ 0 then _ else _) = some d) ↔ _
    by_cases plain : c.port ≠ c.defaultPort ∧ c.port ≠ 0
    · rw [if_pos plain]
      by_cases short : (decimal (c.port % 2 ^ 64).toNat).length < 10
      · rw [if_pos short]
        exact iff_of_true ⟨_, rfl⟩ (fun _ => digits.mp short)
      · rw [if_neg short]
        refine iff_of_false ?_ (fun fits => short (digits.mpr (fits none)))
        rintro ⟨d, is⟩
        cases is
    · rw [if_neg plain]
      refine iff_of_true ⟨_, rfl⟩ fun _ => ?_
      omega

/-- Where there is a host, the port has fewer than ten digits. -/
def PortFits (url : CString) : Prop := ∀ c ∈ authorityOf url, c.host ≠ [] → c.port < 10 ^ 9

instance (url : CString) : Decidable (PortFits url) :=
  inferInstanceAs (Decidable (∀ c ∈ authorityOf url, c.host ≠ [] → c.port < 10 ^ 9))

/-- With rounds enough for the path, `parse` has a result exactly when the port fits. -/
theorem parse_some_iff {n : ℕ} (short : url.length ≤ maxUrlLen) (enough : 3 * url.length + 1 < n) :
    (∃ d, CUrl.new.parse n url = some d) ↔ PortFits url := by
  unfold PortFits
  cases found : authorityOf url with
  | none =>
      rw [parse_of_none short found]
      exact iff_of_true ⟨_, rfl⟩ fun c absent => absurd absent (Option.not_mem_none c)
  | some c =>
      have located := located_of_some found
      obtain ⟨normal, ends⟩ := normalizePath_some located.path (Nat.lt_of_le_of_lt located.short enough)
      rw [parse_of_some short found, ends, Option.bind_some, constructURL_some_iff located]
      constructor
      · rintro fits d same
        cases same
        exact fits
      · intro fits
        exact fits c rfl

theorem constructURL_rest {c d : CUrl} (built : c.constructURL = some d) :
    d.protocol = c.protocol ∧ d.user = c.user := by
  unfold CUrl.constructURL at built
  dsimp only at built
  split_ifs at built <;> cases built <;> exact ⟨rfl, rfl⟩

/-- A URL taken apart; a URL of neither scheme has no parts. -/
def partsOf (url : CString) : CUrl := (authorityOf url).getD CUrl.new

/-- The parts that `parse` finds are the ones in front of the path. -/
theorem parse_parts {n : ℕ} {d : CUrl} (short : url.length ≤ maxUrlLen)
    (parsed : CUrl.new.parse n url = some d) : d.protocol = (partsOf url).protocol ∧
      d.host = (partsOf url).host ∧ d.port = (partsOf url).port ∧ d.user = (partsOf url).user := by
  unfold partsOf
  cases found : authorityOf url with
  | none =>
      rw [parse_of_none short found] at parsed
      cases parsed
      exact ⟨rfl, rfl, rfl, rfl⟩
  | some c =>
      rw [parse_of_some short found] at parsed
      obtain ⟨path, -, built⟩ := Option.bind_eq_some_iff.mp parsed
      obtain ⟨host, port, -⟩ := UrlParts.constructURL_parts built
      obtain ⟨protocol, user⟩ := constructURL_rest built
      exact ⟨protocol, host, port, user⟩

theorem partsOf_clean (url : CString) : 0 ∉ (partsOf url).protocol ∧ 0 ∉ (partsOf url).host := by
  unfold partsOf
  cases found : authorityOf url with
  | none => exact ⟨List.not_mem_nil, List.not_mem_nil⟩
  | some c =>
      have located := located_of_some found
      refine ⟨?_, located.host⟩
      rcases located.protocol with is | is
      · rw [Option.getD_some, is]
        decide
      · rw [Option.getD_some, is]
        decide

/-- A URL has a protocol or a host exactly when it is of one of the schemes. -/
theorem partsOf_iff (url : CString) :
    (partsOf url).protocol ≠ [] ∨ (partsOf url).host ≠ [] ↔ authorityOf url ≠ none := by
  unfold partsOf
  cases found : authorityOf url with
  | none => exact iff_of_false (by decide) (fun some => some rfl)
  | some c =>
      refine iff_of_true (Or.inl ?_) (Option.some_ne_none c)
      rcases (located_of_some found).protocol with is | is
      · rw [Option.getD_some, is]
        decide
      · rw [Option.getD_some, is]
        decide

end Whole

end BloomServer
