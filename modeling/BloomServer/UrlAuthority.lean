import BloomServer.UrlParse

/-! Whether `CUrl::parse` finds the host, the port and the path that a URL was put together from. -/
namespace BloomServer
open DecimalText TextSearch Tokens

/-! ### What the URL is put together from -/

def isValidHostChar (b : UInt8) : Bool :=
  (65 ≤ b && b ≤ 90) || (97 ≤ b && b ≤ 122) || isDigit b || b = 45 || b = 46 || b = 58 || b = 95

/-- No `'#'`, blank or NUL. -/
def isPlain (b : UInt8) : Bool := b ≠ 35 && !isBlank b && b ≠ 0

/-- The parts of a URL. The user, too, ends at the first `'/'` or `'@'`. -/
structure UrlParts where
  https : Bool
  user : Option (List UInt8)
  host : List UInt8
  portNumber : Option ℕ
  path : List UInt8
  user_plain : ∀ text ∈ user, ∀ b ∈ text, isPlain b ∧ b ≠ 47 ∧ b ≠ 64
  host_valid : ∀ b ∈ host, isValidHostChar b
  host_ne_nil : host ≠ []
  port_range : ∀ n ∈ portNumber, 1 ≤ n ∧ n ≤ 65535
  path_plain : ∀ b ∈ path, isPlain b
  path_slash : path = [] ∨ ∃ rest, path = 47 :: rest

namespace UrlParts

variable (u : UrlParts)

def protocol : List UInt8 := if u.https then ascii "https" else ascii "http"

def userText : List UInt8 := u.user.elim [] (· ++ ascii "@")

def portText : List UInt8 := u.portNumber.elim [] fun n => 58 :: decimal n

/-- All in front of the path. -/
def name : List UInt8 := u.userText ++ (u.host ++ u.portText)

def text : List UInt8 := u.protocol ++ ascii "://" ++ (u.name ++ u.path)

/-- The port that is given, or the default of the scheme. -/
def port : ℤ := u.portNumber.elim (if u.https then (443 : ℤ) else 80) (↑)

/-- The path, or `"/"`. -/
def request : List UInt8 := if u.path = [] then ascii "/" else u.path

/-- With enough rounds for its loops, `parse` finds the parts. -/
def Splits : Prop := ∃ rounds, ∀ n ≥ rounds, ∃ c, CUrl.new.parse n u.text = some c ∧
  c.host = u.host ∧ c.port = u.port ∧ normalizePath n u.request = some c.path

/-- There is an `'@'` in the user or in the path. -/
def Marked : Prop := u.user.isSome ∨ 64 ∈ u.path

/-- No part is mistaken for another. A host that has colons of its own is found when nothing but an
empty path follows it, or when they are all in front and an `'@'` is found. -/
def Clear : Prop :=
  if 58 ∈ u.host then
    u.portNumber = none ∧
      (u.Marked → u.https = false ∧ 58 ∉ u.path ∧ 58 ∉ u.host.dropWhile (· = 58)) ∧
        (¬ u.Marked → u.path = [])
  else
    (u.user.isSome → u.portNumber = none → u.https = false ∧ 58 ∉ u.path) ∧
      (u.user = none → u.portNumber.isSome → u.path ≠ []) ∧
      (u.user = none → u.portNumber = none → 64 ∈ u.path → 58 ∉ u.path → u.https = false)

end UrlParts

/-! ### Normalization ends -/

section Normalize

variable {path pattern text : List UInt8} {edit : List UInt8 → ℕ → List UInt8} {s : PathState} {i n : ℕ}

/-- Where the pattern is found, the path is what is in front of it, the pattern, and a rest. -/
theorem split_of_find (found : find pattern path = some i) :
    ∃ front rest, path = front ++ (pattern ++ rest) ∧ front.length = i := by
  induction path generalizing i with
  | nil =>
      rw [find] at found
      split_ifs at found with empty
      cases found
      exact ⟨[], [], by rw [empty]; rfl, rfl⟩
  | cons b path ih =>
      rw [find] at found
      split_ifs at found with here
      · cases found
        obtain ⟨rest, split⟩ := here
        exact ⟨[], rest, split.symm, rfl⟩
      · obtain ⟨j, there, rfl⟩ := Option.map_eq_some_iff.mp found
        obtain ⟨front, rest, rfl, rfl⟩ := ih there
        exact ⟨b :: front, rest, rfl, rfl⟩

theorem head_append {front rest : List UInt8} (slash : rest.head? = some 47)
    (starts : (front ++ text).head? = some 47) : (front ++ rest).head? = some 47 := by
  cases front with
  | nil => exact slash
  | cons b front => exact starts

/-- The edit of a path that starts with a slash is shorter, and starts with one. -/
def Shortens (pattern : List UInt8) (edit : List UInt8 → ℕ → List UInt8) : Prop :=
  ∀ front rest, (front ++ (pattern ++ rest)).head? = some 47 →
    (edit (front ++ (pattern ++ rest)) front.length).length < (front ++ (pattern ++ rest)).length ∧
      (edit (front ++ (pattern ++ rest)) front.length).head? = some 47

theorem rewriteLoop_some (shortens : Shortens pattern edit) (slash : s.path.head? = some 47)
    (enough : s.path.length < n) : ∃ t, rewriteLoop pattern edit n s = some t ∧
      t.path.length ≤ s.path.length ∧ t.path.head? = some 47 := by
  induction n generalizing s with
  | zero => cases enough
  | succ n ih =>
      rw [rewriteLoop]
      cases found : find pattern s.path with
      | none => exact ⟨s, rfl, Nat.le_refl _, slash⟩
      | some i =>
          dsimp only
          split_ifs with inside
          · obtain ⟨front, rest, split, rfl⟩ := split_of_find found
            rw [split] at slash
            obtain ⟨shorter, still⟩ := shortens front rest slash
            rw [← split] at shorter still
            obtain ⟨t, ends, short, starts⟩ := @ih (.of (edit s.path front.length)) still
              (Nat.lt_of_lt_of_le shorter (Nat.le_of_lt_succ enough))
            exact ⟨t, ends, short.trans (Nat.le_of_lt shorter), starts⟩
          · exact ⟨s, rfl, Nat.le_refl _, slash⟩

theorem shortens_dropSlash : Shortens (ascii "//") dropSlash := by
  intro front rest slash
  have edited : dropSlash (front ++ (ascii "//" ++ rest)) front.length = front ++ 47 :: rest := by
    rw [dropSlash, List.take_left, List.drop_length_add_append]
    rfl
  rw [edited]
  refine ⟨?_, head_append rfl slash⟩
  simp [ascii]

theorem shortens_dropDot : Shortens (ascii "/./") dropDot := by
  intro front rest slash
  have edited : dropDot (front ++ (ascii "/./" ++ rest)) front.length = front ++ 47 :: rest := by
    rw [dropDot, List.take_left, List.drop_length_add_append]
    rfl
  rw [edited]
  refine ⟨?_, head_append rfl slash⟩
  simp [ascii]

theorem shortens_tilde : Shortens (ascii "%7E") tilde := by
  intro front rest slash
  have edited : tilde (front ++ (ascii "%7E" ++ rest)) front.length = front ++ 126 :: rest := by
    rw [tilde, List.take_left, List.drop_length_add_append, List.append_assoc]
    rfl
  rw [edited]
  cases front with
  | nil => cases slash
  | cons b front => exact ⟨by simp [ascii], slash⟩

/-- There is a slash in front of the place. -/
theorem lastSlash_lt {front : List UInt8} (rest : List UInt8) (mem : 47 ∈ front) :
    ∃ limit < front.length, lastSlash (front ++ rest) front.length = some limit := by
  obtain ⟨j, low, there⟩ := strchr_lt (List.mem_reverse.mpr mem) []
  rw [List.append_nil] at there
  rw [List.length_reverse] at low
  refine ⟨front.length - 1 - j, by omega, ?_⟩
  rw [lastSlash, List.take_left, there]
  rfl

theorem shortens_dropDotDot : Shortens (ascii "/../") dropDotDot := by
  intro front rest slash
  have behind : (front ++ (ascii "/../" ++ rest)).drop (front.length + 3) = 47 :: rest := by
    rw [List.drop_length_add_append]
    rfl
  rw [dropDotDot, behind]
  cases front with
  | nil => simp [ascii]
  | cons b front =>
      cases slash
      obtain ⟨limit, low, there⟩ :=
        @lastSlash_lt (47 :: front) (ascii "/../" ++ rest) List.mem_cons_self
      have behind : (47 :: front).length > 0 := Nat.succ_pos _
      rw [if_pos behind, there]
      change ((_ : List UInt8).take limit ++ 47 :: rest).length < _ ∧
        ((_ : List UInt8).take limit ++ 47 :: rest).head? = _
      constructor
      · have pattern : (ascii "/../").length = 4 := rfl
        simp only [List.length_append, List.length_take, List.length_cons, pattern] at low ⊢
        omega
      · cases limit with
        | zero => rfl
        | succ limit => rfl

theorem lastDot_path (slash : s.path.head? = some 47) :
    s.lastDot.path.length ≤ s.path.length ∧ s.lastDot.path.head? = some 47 := by
  unfold PathState.lastDot
  cases found : find (ascii "/.") s.path with
  | none => exact ⟨Nat.le_refl _, slash⟩
  | some i =>
      dsimp only
      split_ifs with ends
      · constructor
        · simp only [List.length_append, List.length_take, List.length_drop]
          omega
        · obtain ⟨rest, path⟩ := List.head?_eq_some_iff.mp slash
          rw [path]
          rfl
      · exact ⟨Nat.le_refl _, slash⟩

theorem lastDotDot_path (slash : s.path.head? = some 47) :
    s.lastDotDot.path.length ≤ s.path.length ∧ s.lastDotDot.path.head? = some 47 := by
  unfold PathState.lastDotDot
  cases found : find (ascii "/..") s.path with
  | none => exact ⟨Nat.le_refl _, slash⟩
  | some i =>
      obtain ⟨front, rest, split, rfl⟩ := split_of_find found
      have pattern : (ascii "/..").length = 3 := rfl
      dsimp only
      split_ifs with ends behind
      · rw [split] at slash ⊢
        have mem : 47 ∈ front := by
          cases front with
          | nil => cases behind
          | cons b front =>
              cases slash
              exact List.mem_cons_self
        obtain ⟨limit, low, there⟩ := lastSlash_lt (ascii "/.." ++ rest) mem
        rw [there]
        change ((_ : List UInt8).take (limit + 1) ++ _).length ≤ _ ∧
          ((_ : List UInt8).take (limit + 1) ++ _).head? = _
        constructor
        · simp only [List.length_append, List.length_take, List.length_drop, pattern]
          omega
        · cases front with
          | nil => cases behind
          | cons b front => exact slash
      · rw [split]
        refine ⟨?_, rfl⟩
        change (ascii "/" ++ List.drop (front.length + 3) (front ++ (ascii "/.." ++ rest))).length ≤ _
        have one : (ascii "/").length = 1 := rfl
        simp only [List.length_append, List.length_drop, pattern, one]
        omega
      · exact ⟨Nat.le_refl _, slash⟩

/-- The loops end on a path that starts with a slash. -/
theorem normalizePath_some (slash : path.head? = some 47) (enough : path.length < n) :
    ∃ normal, normalizePath n path = some normal := by
  obtain ⟨s, slashes, low, slash⟩ := @rewriteLoop_some _ _
    ⟨path, some ((find (ascii "?") path).getD path.length)⟩ n shortens_dropSlash slash enough
  change s.path.length ≤ path.length at low
  obtain ⟨t, dots, short, slash⟩ :=
    rewriteLoop_some shortens_dropDot slash (Nat.lt_of_le_of_lt low enough)
  obtain ⟨dot, slash⟩ := lastDot_path slash
  obtain ⟨v, dotdots, shorter, slash⟩ := @rewriteLoop_some _ _ _ n shortens_dropDotDot slash (by omega)
  obtain ⟨dotdot, slash⟩ := lastDotDot_path slash
  obtain ⟨w, tildes, -, -⟩ := @rewriteLoop_some _ _ _ n shortens_tilde slash (by omega)
  refine ⟨w.path, ?_⟩
  simp only [normalizePath, slashes, dots, dotdots, tildes, Option.bind_eq_bind, Option.bind_some]
  rfl

end Normalize

/-! ### The parts in the text -/

theorem isPlain_ne {b c : UInt8} (plain : isPlain b) (other : isPlain c = false) : b ≠ c := by
  rintro rfl
  rw [other] at plain
  cases plain

theorem isDigit_plain {b : UInt8} (digit : isDigit b = true) : isPlain b ∧ b ≠ 47 ∧ b ≠ 58 ∧ b ≠ 64 := by
  have blank := isBlank_of_isDigit digit
  refine ⟨?_, ?_, ?_, ?_⟩
  · have hash : b ≠ 35 := by
      rintro rfl
      exact absurd digit (by decide)
    have nul : b ≠ 0 := by
      rintro rfl
      exact absurd digit (by decide)
    simp [isPlain, hash, nul, blank]
  all_goals
    rintro rfl
    exact absurd digit (by decide)

theorem isValidHostChar_plain {b : UInt8} (valid : isValidHostChar b) : isPlain b ∧ b ≠ 47 ∧ b ≠ 64 := by
  have blank : isBlank b = false := by
    by_contra blank
    rw [Bool.not_eq_false] at blank
    simp only [isBlank, isValidHostChar, isDigit, Bool.or_eq_true, Bool.and_eq_true, beq_iff_eq,
      decide_eq_true_eq, UInt8.le_iff_toNat_le, ← UInt8.toNat_inj] at blank valid
    simp at blank valid
    omega
  refine ⟨?_, ?_, ?_⟩
  · have hash : b ≠ 35 := by
      rintro rfl
      exact absurd valid (by decide)
    have nul : b ≠ 0 := by
      rintro rfl
      exact absurd valid (by decide)
    simp [isPlain, hash, nul, blank]
  all_goals
    rintro rfl
    exact absurd valid (by decide)

theorem escapeSpaces_plain {text : List UInt8} (plain : ∀ b ∈ text, isPlain b) (temp : List UInt8) :
    escapeSpaces temp text = temp ++ text := by
  induction text generalizing temp with
  | nil => rw [escapeSpaces, List.append_nil]
  | cons b text ih =>
      have apart := isPlain_ne (plain b List.mem_cons_self) (c := 32) rfl
      rw [escapeSpaces, if_neg fun blank => apart blank.1,
        ih (fun c mem => plain c (List.mem_cons_of_mem b mem)), List.append_assoc]
      rfl

namespace UrlParts

variable (u : UrlParts)

theorem name_plain {b : UInt8} (mem : b ∈ u.host ++ u.portText) : isPlain b ∧ b ≠ 47 ∧ b ≠ 64 := by
  rcases List.mem_append.mp mem with host | port
  · exact isValidHostChar_plain (u.host_valid b host)
  · unfold portText at port
    cases given : u.portNumber with
    | none =>
        rw [given] at port
        cases port
    | some n =>
        rw [given] at port
        rcases List.mem_cons.mp port with rfl | digit
        · decide
        · obtain ⟨plain, slash, -, at_sign⟩ := isDigit_plain (isDigit_of_mem_decimal digit)
          exact ⟨plain, slash, at_sign⟩

theorem userText_plain {b : UInt8} (mem : b ∈ u.userText) : isPlain b ∧ b ≠ 47 := by
  unfold userText at mem
  cases given : u.user with
  | none =>
      rw [given] at mem
      cases mem
  | some text =>
      rw [given] at mem
      rcases List.mem_append.mp mem with own | sign
      · obtain ⟨plain, slash, -⟩ := u.user_plain text given b own
        exact ⟨plain, slash⟩
      · rw [List.mem_singleton.mp sign]
        decide

theorem slash_name : 47 ∉ u.name := by
  intro mem
  rcases List.mem_append.mp mem with user | name
  · exact (u.userText_plain user).2 rfl
  · exact (u.name_plain name).2.1 rfl

theorem text_plain {b : UInt8} (mem : b ∈ u.text) : isPlain b := by
  rcases List.mem_append.mp mem with front | rest
  · have plain : ∀ https : Bool, ∀ b ∈ (if https then ascii "https" else ascii "http") ++ ascii "://",
        isPlain b := by decide +kernel
    exact plain u.https b front
  · rcases List.mem_append.mp rest with name | path
    · rcases List.mem_append.mp name with user | name
      · exact (u.userText_plain user).1
      · exact (u.name_plain name).1
    · exact u.path_plain b path

theorem away_text {c : UInt8} (other : isPlain c = false) : c ∉ u.text := by
  intro mem
  exact isPlain_ne (u.text_plain mem) other rfl

/-! ### Hosts and ports found -/

section Found

variable {u} {c : CUrl} {name : List UInt8} {n : ℕ}

theorem strtokR_name (some : name ≠ []) (away : 47 ∉ name) :
    strtokR 47 (name ++ u.path) = (.some name, u.path.drop 1) := by
  rcases u.path_slash with empty | ⟨rest, path⟩
  · rw [empty, List.append_nil]
    exact strtokR_whole some away
  · rw [path]
    exact strtokR_of_append some away rest

theorem restOfPath_eq (c : CUrl) :
    c.restOfPath (u.path.drop 1) = { c with path := c.path ++ u.path.drop 1 } := by
  have away : 10 ∉ u.path.drop 1 := by
    intro mem
    exact isPlain_ne (u.path_plain 10 (List.mem_of_mem_drop mem)) rfl rfl
  unfold CUrl.restOfPath
  by_cases none : u.path.drop 1 = []
  · rw [none]
    rfl
  · rw [strtokR_whole none away]
    rfl

theorem takeHost_eq (c : CUrl) (some : name ≠ []) (away : 47 ∉ name) :
    c.takeHost (name ++ u.path) = { c with host := name, path := c.path ++ u.path.drop 1 } := by
  rw [CUrl.takeHost, strtokR_name some away]
  exact restOfPath_eq _

theorem atoi_decimal (small : n ≤ 65535) : atoi (decimal n) = n := by
  have is := value_decimal n
  rw [atoi_digits (fun b => isDigit_of_mem_decimal) (decimal_ne_nil n) (by omega), is]

theorem takePort_eq (c : CUrl) (host : List UInt8) (given : u.portNumber = some n) :
    c.takePort host (decimal n ++ u.path) =
      { c with host := host, port := n, path := c.path ++ u.path.drop 1 } := by
  obtain ⟨positive, small⟩ := u.port_range n given
  have away : 47 ∉ decimal n := by
    intro mem
    exact (isDigit_plain (isDigit_of_mem_decimal mem)).2.1 rfl
  unfold CUrl.takePort
  simp only [strtokR_name (decimal_ne_nil n) away, Option.elim_some, atoi_decimal small, reduceCtorEq, false_or]
  rw [if_neg (by omega), restOfPath_eq]

theorem takePort_host (c : CUrl) (host rest : List UInt8) : (c.takePort host rest).host = host := by
  unfold CUrl.takePort CUrl.restOfPath
  dsimp only
  split_ifs <;> rfl

end Found

/-! ### Behind the user -/

section Behind

variable {u} {n : ℕ}

theorem host_slash : 47 ∉ u.host := fun mem => (isValidHostChar_plain (u.host_valid _ mem)).2.1 rfl

/-- The token in front of a colon is not a host that has one, or that has no slash. -/
theorem behindUser_token {p : List UInt8} (c : CUrl) (colon : 58 ∈ p.dropWhile (· = 58))
    (wrong : ∀ token, (strtokR 58 p).1 = some token → token ≠ u.host) :
    (c.parseBehindUser p).host ≠ u.host := by
  have some : p.dropWhile (· = 58) ≠ [] := List.ne_nil_of_mem colon
  have token : strtokR 58 p = (.some ((p.dropWhile (· = 58)).takeWhile (· ≠ 58)),
      ((p.dropWhile (· = 58)).dropWhile (· ≠ 58)).drop 1) := if_neg some
  rw [CUrl.parseBehindUser, token]
  dsimp only
  rw [if_pos colon, takePort_host]
  exact wrong _ (by rw [token])

/-- What `parseBehindUser` does where no colon follows the token. -/
theorem behindUser_whole {p : List UInt8} (c : CUrl) (colon : 58 ∉ p.dropWhile (· = 58)) :
    c.parseBehindUser p = c.takeHost p := by
  unfold CUrl.parseBehindUser
  rcases strtokR 58 p with ⟨_ | token, rest⟩
  · rfl
  · exact if_neg colon

theorem behindUser_port (c : CUrl) (given : u.portNumber = some n) (colon : 58 ∉ u.host) :
    c.parseBehindUser (u.host ++ u.portText ++ u.path) =
      { c with host := u.host, port := n, path := c.path ++ u.path.drop 1 } := by
  have shape : u.host ++ u.portText ++ u.path = u.host ++ 58 :: (decimal n ++ u.path) := by
    rw [portText, given, List.append_assoc]
    rfl
  have stays := skip_nothing u.host_ne_nil colon (58 :: (decimal n ++ u.path))
  rw [shape, CUrl.parseBehindUser, strtokR_of_append u.host_ne_nil colon]
  dsimp only
  rw [stays, if_pos (List.mem_append_right _ List.mem_cons_self)]
  exact takePort_eq c u.host given

theorem behindUser_noPort (c : CUrl) (absent : u.portNumber = none)
    (host : 58 ∉ u.host.dropWhile (· = 58)) (path : 58 ∉ u.path) :
    c.parseBehindUser (u.host ++ u.portText ++ u.path) =
      { c with host := u.host, path := c.path ++ u.path.drop 1 } := by
  have shape : u.host ++ u.portText ++ u.path = u.host ++ u.path := by
    rw [portText, absent]
    exact congrArg (· ++ u.path) (List.append_nil u.host)
  rw [shape, behindUser_whole c, takeHost_eq c u.host_ne_nil host_slash]
  intro mem
  rw [List.dropWhile_append] at mem
  split_ifs at mem with none
  · exact path ((List.dropWhile_suffix _).mem mem)
  · rcases List.mem_append.mp mem with front | rest
    · exact host front
    · exact path rest

/-- A colon in the path, or in the host behind those in front, ends the token. -/
theorem behindUser_path (c : CUrl) (absent : u.portNumber = none)
    (colon : 58 ∈ u.host.dropWhile (· = 58) ∨ 58 ∈ u.path) :
    (c.parseBehindUser (u.host ++ u.portText ++ u.path)).host ≠ u.host := by
  have shape : u.host ++ u.portText ++ u.path = u.host ++ u.path := by
    rw [portText, absent]
    exact congrArg (· ++ u.path) (List.append_nil u.host)
  rw [shape]
  apply behindUser_token c
  · rw [List.dropWhile_append]
    split_ifs with none
    · rw [List.isEmpty_iff] at none
      rw [none] at colon
      have path := colon.resolve_left List.not_mem_nil
      obtain ⟨rest, shape⟩ := u.path_slash.resolve_left (List.ne_nil_of_mem path)
      rw [shape, List.dropWhile_cons_of_neg (by decide), ← shape]
      exact path
    · exact List.mem_append.mpr colon
  · intro token is same
    by_cases host : 58 ∈ u.host
    · exact not_mem_of_strtokR is (same ▸ host)
    · -- the token runs on into the path
      have path : 58 ∈ u.path :=
        colon.resolve_left fun mem => host ((List.dropWhile_suffix _).mem mem)
      obtain ⟨rest, slash⟩ := u.path_slash.resolve_left (List.ne_nil_of_mem path)
      obtain ⟨near, far, split, away⟩ := List.eq_append_cons_of_mem path
      have front : 58 ∉ u.host ++ near := by
        rw [List.mem_append, not_or]
        exact ⟨host, away⟩
      have token_eq := strtokR_of_append (List.append_ne_nil_of_left_ne_nil u.host_ne_nil near) front far
      rw [split, ← List.append_assoc, token_eq] at is
      cases is
      cases near with
      | nil =>
          rw [slash] at split
          cases split
      | cons b near => exact absurd (List.append_right_eq_self.mp same) (List.cons_ne_nil b near)

theorem behindUser_colons (c : CUrl) (given : u.portNumber = some n) (colon : 58 ∈ u.host) :
    (c.parseBehindUser (u.host ++ u.portText ++ u.path)).host ≠ u.host := by
  have shape : u.host ++ u.portText ++ u.path = u.host ++ 58 :: decimal n ++ u.path := by
    rw [portText, given]
    rfl
  rw [shape]
  by_cases whole : 58 ∈ (u.host ++ 58 :: decimal n ++ u.path).dropWhile (· = 58)
  · apply behindUser_token c whole
    rintro token is rfl
    exact not_mem_of_strtokR is colon
  · have away : 47 ∉ u.host ++ 58 :: decimal n := by
      intro mem
      rcases List.mem_append.mp mem with host | port
      · exact host_slash host
      · rcases List.mem_cons.mp port with other | digit
        · cases other
        · exact (isDigit_plain (isDigit_of_mem_decimal digit)).2.1 rfl
    rw [behindUser_whole c whole, takeHost_eq c (List.append_ne_nil_of_left_ne_nil u.host_ne_nil _) away]
    intro same
    exact absurd (List.append_right_eq_self.mp same) (List.cons_ne_nil _ _)

end Behind

/-! ### The branches -/

section Branches

variable {u} {c : CUrl} {n : ℕ}

theorem strchr_slash (empty : u.path = []) : strchr 47 (u.name ++ u.path) = none := by
  rw [empty, List.append_nil, strchr_eq_none]
  exact u.slash_name

theorem strchr_slash_some (some : u.path ≠ []) :
    strchr 47 (u.name ++ u.path) = .some u.name.length := by
  obtain ⟨rest, path⟩ := u.path_slash.resolve_left some
  rw [path]
  exact strchr_of_append u.slash_name rest

theorem mem_at_iff : 64 ∈ u.name ++ u.path ↔ u.Marked := by
  have host : 64 ∉ u.host ++ u.portText := fun mem => (u.name_plain mem).2.2 rfl
  rw [List.mem_append, name, List.mem_append]
  apply or_congr_left
  rw [or_iff_left host, userText]
  cases u.user with
  | none => exact iff_of_false List.not_mem_nil (by decide)
  | some text => exact iff_of_true (List.mem_append_right _ (List.mem_singleton_self 64)) rfl

/-- The colon that is found lies in front of the path. -/
theorem colon_before (some : u.path ≠ []) :
    before (strchr 58 (u.name ++ u.path)) (strchr 47 (u.name ++ u.path)) = true ↔
      58 ∈ u.name ∨ 58 ∉ u.path := by
  rw [strchr_slash_some some]
  by_cases mem : 58 ∈ u.name
  · obtain ⟨i, low, there⟩ := strchr_lt mem u.path
    rw [there, before_some]
    exact iff_of_true (decide_eq_true low) (Or.inl mem)
  · rw [strchr_append mem]
    cases there : strchr 58 u.path with
    | none => exact iff_of_true rfl (Or.inr (strchr_eq_none.mp there))
    | some i =>
        have path : 58 ∈ u.path := by
          by_contra away
          rw [strchr_eq_none.mpr away] at there
          cases there
        rw [Option.map_some, before_some, decide_eq_true_iff]
        exact iff_of_false (by omega) (by tauto)

theorem withAt_iff : ((strchr 64 (u.name ++ u.path)).isSome &&
    (before (strchr 58 (u.name ++ u.path)) (strchr 47 (u.name ++ u.path)) ||
      strchr 47 (u.name ++ u.path) = none)) = true ↔ u.Marked ∧ (58 ∈ u.name ∨ 58 ∉ u.path) := by
  rw [Bool.and_eq_true, Option.isSome_iff_ne_none, Ne, strchr_eq_none, not_not, mem_at_iff]
  apply and_congr_right
  intro marked
  by_cases empty : u.path = []
  · rw [strchr_slash empty, empty]
    simp
  · rw [Bool.or_eq_true, colon_before empty, strchr_slash_some empty]
    simp

theorem parseWithAt_eq (c : CUrl) (marked : u.Marked) : ∃ user,
    c.parseWithAt (u.name ++ u.path) =
      { c with user := user }.parseBehindUser (u.host ++ u.portText ++ u.path) := by
  unfold CUrl.parseWithAt
  cases owner : u.user with
  | none =>
      have shape : u.name = u.host ++ u.portText := by
        rw [name, userText, owner]
        rfl
      have host : 64 ∉ u.name := by
        rw [shape]
        exact fun mem => (u.name_plain mem).2.2 rfl
      have path : 64 ∈ u.path := by
        rcases marked with some | path
        · rw [owner] at some
          cases some
        · exact path
      have behind : before (strchr 64 (u.name ++ u.path)) (strchr 47 (u.name ++ u.path)) = false := by
        rw [strchr_slash_some (List.ne_nil_of_mem path), strchr_append host]
        cases there : strchr 64 u.path with
        | none => exact absurd path (strchr_eq_none.mp there)
        | some i => exact decide_eq_false (Nat.not_lt.mpr (Nat.le_add_left _ i))
      rw [behind, strchr_slash_some (List.ne_nil_of_mem path), ← shape]
      exact ⟨c.user, rfl⟩
  | some text =>
      have shape : u.name ++ u.path = text ++ 64 :: (u.host ++ u.portText ++ u.path) := by
        rw [name, userText, owner]
        simp [ascii]
      have away : 64 ∉ text := fun mem => (u.user_plain text owner 64 mem).2.2 rfl
      have found : strchr 64 (u.name ++ u.path) = .some text.length := by
        rw [shape]
        exact strchr_of_append away _
      have own : (before (strchr 64 (u.name ++ u.path)) (strchr 47 (u.name ++ u.path)) ||
          strchr 47 (u.name ++ u.path) = none) = true := by
        by_cases empty : u.path = []
        · rw [strchr_slash empty]
          simp
        · have short : text.length < u.name.length := by
            rw [name, userText, owner]
            simp [ascii]
          rw [found, strchr_slash_some empty, before_some, decide_eq_true short]
          rfl
      rw [if_pos own, found]
      refine ⟨text, ?_⟩
      dsimp only [Option.getD_some]
      rw [shape, List.take_left, List.drop_length_add_append]
      rfl

/-- In the other branch a colon in front of the path makes a port. -/
theorem parseWithout_colon (c : CUrl) (path : u.path ≠ []) (colon : 58 ∈ u.name) :
    ∃ token rest, strtokR 58 (u.name ++ u.path) = (some token, rest) ∧
      c.parseWithout (u.name ++ u.path) = c.takePort token rest := by
  have first : (before (strchr 58 (u.name ++ u.path)) (strchr 47 (u.name ++ u.path)) &&
      (strchr 58 (u.name ++ u.path)).isSome) = true := by
    rw [Bool.and_eq_true, Option.isSome_iff_ne_none, Ne, strchr_eq_none, not_not]
    exact ⟨(colon_before path).mpr (Or.inl colon), List.mem_append_left _ colon⟩
  have some : (u.name ++ u.path).dropWhile (· = 58) ≠ [] := by
    obtain ⟨rest, shape⟩ := u.path_slash.resolve_left path
    intro none
    have all := List.dropWhile_eq_nil_iff.mp none 47 (by simp [shape])
    cases all
  refine ⟨_, _, if_neg some, ?_⟩
  unfold CUrl.parseWithout
  rw [if_pos first, strtokR, if_neg some]

/-- Without one, or where there is no path, all in front of it is the host. -/
theorem parseWithout_whole (c : CUrl) (first : u.path = [] ∨ 58 ∉ u.name) :
    c.parseWithout (u.name ++ u.path) =
      { c with port := c.defaultPort, host := u.name, path := c.path ++ u.path.drop 1 } := by
  have some : u.name ≠ [] :=
    List.append_ne_nil_of_right_ne_nil _ (List.append_ne_nil_of_left_ne_nil u.host_ne_nil _)
  have later : ¬ (before (strchr 58 (u.name ++ u.path)) (strchr 47 (u.name ++ u.path)) &&
      (strchr 58 (u.name ++ u.path)).isSome) = true := by
    by_cases empty : u.path = []
    · rw [strchr_slash empty]
      simp
    · rw [Bool.and_eq_true, colon_before empty, Option.isSome_iff_ne_none, Ne, strchr_eq_none, not_not,
        List.mem_append]
      have colon := first.resolve_left empty
      tauto
  unfold CUrl.parseWithout
  rw [if_neg later, takeHost_eq _ some u.slash_name]

end Branches

/-! ### The whole parse -/

section Parse

variable {u} {n : ℕ}

/-- The members when the authority is reached. -/
def start (u : UrlParts) : CUrl :=
  { CUrl.new with sUrl := u.text, scheme := if u.https then .https else .http, protocol := u.protocol }

theorem text_eq (u : UrlParts) : u.text = u.protocol ++ 58 :: (ascii "//" ++ (u.name ++ u.path)) := by
  rw [text, List.append_assoc]
  rfl

theorem protocol_eq (u : UrlParts) : u.protocol ≠ [] ∧ 58 ∉ u.protocol ∧ u.protocol ≠ ascii "file" ∧
    toLowercase u.protocol = u.protocol := by
  unfold protocol
  cases u.https <;> decide

theorem parseScheme_text (u : UrlParts) : parseScheme u.text = if u.https then .https else .http := by
  unfold text protocol
  cases u.https <;> rfl

theorem defaultPort_eq {c : CUrl} (protocol : c.protocol = u.protocol) :
    c.defaultPort = if u.https then 443 else 80 := by
  unfold CUrl.defaultPort
  rw [protocol, UrlParts.protocol]
  cases u.https <;> rfl

theorem parse_text (short : u.text.length ≤ maxUrlLen) (n : ℕ) : CUrl.new.parse n u.text =
    (normalizePath n (u.start.parseHost (u.name ++ u.path)).path).bind fun path =>
      { u.start.parseHost (u.name ++ u.path) with path := path }.constructURL := by
  have whole : (u.text.takeWhile (· ≠ 0)) = u.text := takeWhile_away (u.away_text rfl)
  have nurl : (escapeSpaces [] u.text).takeWhile (· ≠ 35) = u.text := by
    rw [escapeSpaces_plain (fun b => u.text_plain) [], List.nil_append]
    exact takeWhile_away (u.away_text rfl)
  obtain ⟨some, colon, -, lower⟩ := u.protocol_eq
  have token : strtokR 58 u.text = (.some u.protocol, ascii "//" ++ (u.name ++ u.path)) := by
    rw [u.text_eq]
    exact strtokR_of_append some colon _
  have line : strtokR 10 (ascii "//" ++ (u.name ++ u.path)) =
      (.some (ascii "//" ++ (u.name ++ u.path)), []) := by
    apply strtokR_whole (List.cons_ne_nil _ _)
    intro mem
    apply u.away_text (c := 10) rfl
    rw [u.text_eq]
    exact List.mem_append_right _ (List.mem_cons_of_mem _ mem)
  have here : 58 ∈ u.text := by
    rw [u.text_eq]
    exact List.mem_append_right _ List.mem_cons_self
  unfold CUrl.parse
  rw [if_neg (Nat.not_lt.mpr short), whole, nurl]
  dsimp only
  rw [parseScheme_text, if_neg (by cases u.https <;> decide), if_pos here, token]
  dsimp only [Option.getD_some]
  rw [line, lower]
  rfl

/-- The URL that is put together leaves the parts alone. -/
theorem constructURL_parts {c d : CUrl} (built : c.constructURL = some d) :
    d.host = c.host ∧ d.port = c.port ∧ d.path = c.path := by
  unfold CUrl.constructURL at built
  dsimp only at built
  split_ifs at built <;> cases built <;> exact ⟨rfl, rfl, rfl⟩

theorem constructURL_some {c : CUrl} (low : 0 ≤ c.port) (high : c.port ≤ 65535) :
    ∃ d, c.constructURL = some d := by
  have short : (decimal (c.port % 2 ^ 64).toNat).length < 10 :=
    Nat.lt_succ_of_le ((length_decimal_le_iff (k := 9) (by decide)).mpr (by omega))
  unfold CUrl.constructURL
  dsimp only
  rw [if_pos short]
  split_ifs <;> exact ⟨_, rfl⟩

/-- The parts found by `parseHost` are the ones that are wanted. -/
theorem splits_of_found (short : u.text.length ≤ maxUrlLen)
    (host : (u.start.parseHost (u.name ++ u.path)).host = u.host)
    (port : (u.start.parseHost (u.name ++ u.path)).port = u.port)
    (path : (u.start.parseHost (u.name ++ u.path)).path = u.request) : u.Splits := by
  refine ⟨u.request.length + 1, fun n enough => ?_⟩
  have slash : u.request.head? = some 47 := by
    unfold request
    rcases u.path_slash with empty | ⟨rest, path⟩
    · rw [if_pos empty]
      rfl
    · rw [path]
      rfl
  have range : 0 ≤ u.port ∧ u.port ≤ 65535 := by
    unfold UrlParts.port
    cases given : u.portNumber with
    | none => cases u.https <;> decide
    | some n =>
        have := u.port_range n given
        exact ⟨Int.natCast_nonneg n, Int.ofNat_le.mpr this.2⟩
  obtain ⟨normal, ends⟩ := normalizePath_some slash enough
  obtain ⟨c, built⟩ := @constructURL_some { u.start.parseHost (u.name ++ u.path) with path := normal }
    (by rw [port]; exact range.1) (by rw [port]; exact range.2)
  obtain ⟨same_host, same_port, same_path⟩ := constructURL_parts built
  refine ⟨c, ?_, same_host.trans host, same_port.trans port, ?_⟩
  · rw [parse_text short, path, ends]
    exact built
  · rw [same_path]
    exact ends

theorem found_of_splits (splits : u.Splits) : u.text.length ≤ maxUrlLen ∧
    (u.start.parseHost (u.name ++ u.path)).host = u.host ∧
    (u.start.parseHost (u.name ++ u.path)).port = u.port := by
  obtain ⟨rounds, splits⟩ := splits
  obtain ⟨c, result, host, port, -⟩ := splits rounds (Nat.le_refl _)
  by_cases short : u.text.length ≤ maxUrlLen
  · rw [parse_text short] at result
    obtain ⟨path, -, built⟩ := Option.bind_eq_some_iff.mp result
    obtain ⟨same_host, same_port, -⟩ := constructURL_parts built
    exact ⟨short, same_host.symm.trans host, same_port.symm.trans port⟩
  · unfold CUrl.parse at result
    rw [if_pos (Nat.not_le.mp short)] at result
    cases result
    exact absurd host.symm u.host_ne_nil

theorem request_eq (u : UrlParts) : ascii "/" ++ u.path.drop 1 = u.request := by
  unfold request
  rcases u.path_slash with empty | ⟨rest, path⟩
  · rw [if_pos empty, empty]
    rfl
  · rw [path]
    rfl

theorem parseHost_at (u : UrlParts) (found : u.Marked ∧ (58 ∈ u.name ∨ 58 ∉ u.path)) :
    u.start.parseHost (u.name ++ u.path) =
      { u.start with path := ascii "/" }.parseWithAt (u.name ++ u.path) := by
  refine (if_neg u.protocol_eq.2.2.1).trans ?_
  exact if_pos (withAt_iff.mpr found)

theorem parseHost_other (u : UrlParts) (missed : ¬ (u.Marked ∧ (58 ∈ u.name ∨ 58 ∉ u.path))) :
    u.start.parseHost (u.name ++ u.path) =
      { u.start with path := ascii "/" }.parseWithout (u.name ++ u.path) := by
  refine (if_neg u.protocol_eq.2.2.1).trans ?_
  exact if_neg (mt withAt_iff.mp missed)

theorem colon_name_iff (u : UrlParts) :
    58 ∈ u.name ↔ 58 ∈ u.userText ∨ 58 ∈ u.host ∨ u.portNumber.isSome := by
  rw [name, List.mem_append, List.mem_append]
  apply or_congr_right
  apply or_congr_right
  unfold portText
  cases u.portNumber with
  | none => exact iff_of_false List.not_mem_nil (by decide)
  | some n => exact iff_of_true List.mem_cons_self rfl

theorem userText_nil (absent : u.user = none) : u.userText = [] := by
  unfold userText
  rw [absent]
  rfl

theorem portText_nil (absent : u.portNumber = none) : u.portText = [] := by
  unfold portText
  rw [absent]
  rfl

/-- All in front of the path is the host when there is no user and no port. -/
theorem name_eq_host_iff (u : UrlParts) : u.name = u.host ↔ u.user = none ∧ u.portNumber = none := by
  constructor
  · intro same
    have length := congrArg List.length same
    rw [name, List.length_append, List.length_append] at length
    constructor
    · cases given : u.user with
      | none => rfl
      | some text =>
          have some : u.userText.length = text.length + 1 := by
            rw [userText, given]
            exact List.length_append
          omega
    · cases given : u.portNumber with
      | none => rfl
      | some n =>
          have some : u.portText.length = (decimal n).length + 1 := by
            rw [portText, given]
            rfl
          omega
  · rintro ⟨user, port⟩
    rw [name, userText_nil user, portText_nil port, List.nil_append, List.append_nil]

/-! ### When no part is mistaken for another -/

theorem user_none_of_unmarked (unmarked : ¬ u.Marked) : u.user = none := by
  by_contra some
  exact unmarked (Or.inl (Option.isSome_iff_ne_none.mpr some))

theorem at_mem_path (marked : u.Marked) (owner : u.user = none) : 64 ∈ u.path := by
  apply marked.resolve_left
  rw [owner]
  exact Bool.false_ne_true

theorem clear_at_noPort (u : UrlParts) (found : u.Marked ∧ (58 ∈ u.name ∨ 58 ∉ u.path))
    (given : u.portNumber = none) :
    u.Clear ↔ u.https = false ∧ 58 ∉ u.path ∧ 58 ∉ u.host.dropWhile (· = 58) := by
  unfold Clear
  split_ifs with own
  · constructor
    · rintro ⟨-, good, -⟩
      exact good found.1
    · intro good
      exact ⟨given, fun _ => good, fun unmarked => absurd found.1 unmarked⟩
  · have host : 58 ∉ u.host.dropWhile (· = 58) := fun mem => own ((List.dropWhile_suffix _).mem mem)
    constructor
    · rintro ⟨withUser, -, without⟩
      cases owner : u.user with
      | some text =>
          obtain ⟨http, path⟩ := withUser (by rw [owner]; rfl) given
          exact ⟨http, path, host⟩
      | none =>
          have path : 58 ∉ u.path := by
            apply found.2.resolve_left
            rwa [u.name_eq_host_iff.mpr ⟨owner, given⟩]
          exact ⟨without owner given (at_mem_path found.1 owner) path, path, host⟩
    · rintro ⟨http, path, -⟩
      refine ⟨fun _ _ => ⟨http, path⟩, fun _ some => ?_, fun _ _ _ _ => http⟩
      rw [given] at some
      cases some

theorem clear_at_port (u : UrlParts) (marked : u.Marked) {n : ℕ} (given : u.portNumber = some n) :
    u.Clear ↔ 58 ∉ u.host := by
  unfold Clear
  rw [given]
  split_ifs with own
  · refine iff_of_false ?_ (not_not.mpr own)
    rintro ⟨absent, -⟩
    cases absent
  · refine iff_of_true ⟨fun _ absent => ?_, fun owner _ => ?_, fun _ absent => ?_⟩ own
    · cases absent
    · exact List.ne_nil_of_mem (at_mem_path marked owner)
    · cases absent

/-- Where the text in front of the path is taken for the host. -/
theorem clear_whole (u : UrlParts) (missed : ¬ (u.Marked ∧ (58 ∈ u.name ∨ 58 ∉ u.path)))
    (first : u.path = [] ∨ 58 ∉ u.name) : u.Clear ↔ u.user = none ∧ u.portNumber = none := by
  unfold Clear
  split_ifs with own
  · have name : 58 ∈ u.name := u.colon_name_iff.mpr (Or.inr (Or.inl own))
    have unmarked : ¬ u.Marked := fun marked => missed ⟨marked, Or.inl name⟩
    constructor
    · rintro ⟨given, -, -⟩
      exact ⟨user_none_of_unmarked unmarked, given⟩
    · rintro ⟨-, given⟩
      exact ⟨given, fun marked => absurd marked unmarked, fun _ => first.resolve_right (not_not.mpr name)⟩
  · constructor
    · rintro ⟨withUser, withPort, -⟩
      have ported : u.portNumber.isSome → 58 ∈ u.name := fun some =>
        u.colon_name_iff.mpr (Or.inr (Or.inr some))
      have owner : u.user = none := by
        by_contra user
        have some : u.user.isSome := Option.isSome_iff_ne_none.mpr user
        cases given : u.portNumber with
        | none => exact missed ⟨Or.inl some, Or.inr (withUser some given).2⟩
        | some n => exact missed ⟨Or.inl some, Or.inl (ported (by rw [given]; rfl))⟩
      refine ⟨owner, ?_⟩
      by_contra port
      have some : u.portNumber.isSome := Option.isSome_iff_ne_none.mpr port
      exact withPort owner some (first.resolve_right (not_not.mpr (ported some)))
    · rintro ⟨owner, given⟩
      rw [owner, given]
      refine ⟨fun some => ?_, fun _ some => ?_, fun _ _ path colon => ?_⟩
      · cases some
      · cases some
      · exact absurd ⟨Or.inr path, Or.inr colon⟩ missed

/-- Where a colon cuts a port off. -/
theorem clear_port (u : UrlParts) (unmarked : ¬ u.Marked) (path : u.path ≠ []) :
    u.Clear ↔ 58 ∉ u.host := by
  have owner := user_none_of_unmarked unmarked
  unfold Clear
  rw [owner]
  split_ifs with own
  · exact iff_of_false (fun clear => path (clear.2.2 unmarked)) (not_not.mpr own)
  · refine iff_of_true ⟨fun some => ?_, fun _ _ => path, fun _ _ marked => ?_⟩ own
    · cases some
    · exact absurd (Or.inr marked) unmarked

/-! ### When the parts are found -/

theorem not_splits_of_host (wrong : (u.start.parseHost (u.name ++ u.path)).host ≠ u.host) :
    ¬ u.Splits := fun splits => wrong (found_of_splits splits).2.1

/-- Where the host and the path are found, the port decides. -/
theorem splits_iff_port (host : (u.start.parseHost (u.name ++ u.path)).host = u.host)
    (path : (u.start.parseHost (u.name ++ u.path)).path = u.request) :
    u.Splits ↔ u.text.length ≤ maxUrlLen ∧ (u.start.parseHost (u.name ++ u.path)).port = u.port :=
  ⟨fun splits => ⟨(found_of_splits splits).1, (found_of_splits splits).2.2⟩,
    fun found => splits_of_found found.1 host found.2 path⟩

/-- The port is the one that was given, or 80 where only the scheme says so. -/
theorem port_of_given {n : ℕ} (given : u.portNumber = some n) : u.port = n := by
  rw [UrlParts.port, given]
  rfl

theorem port_eq_http_iff (given : u.portNumber = none) : (80 : ℤ) = u.port ↔ u.https = false := by
  rw [UrlParts.port, given]
  cases u.https <;> decide

/-- The branch of an authority with an `'@'`. -/
theorem splits_at (u : UrlParts) (found : u.Marked ∧ (58 ∈ u.name ∨ 58 ∉ u.path)) :
    u.Splits ↔ u.text.length ≤ maxUrlLen ∧ u.Clear := by
  obtain ⟨user, parsed⟩ := @parseWithAt_eq u { u.start with path := ascii "/" } found.1
  have parsed := (u.parseHost_at found).trans parsed
  cases given : u.portNumber with
  | none =>
      rw [u.clear_at_noPort found given]
      by_cases colon : 58 ∈ u.host.dropWhile (· = 58) ∨ 58 ∈ u.path
      · -- the token is cut off at the colon
        refine iff_of_false (not_splits_of_host ?_) ?_
        · rw [parsed]
          exact behindUser_path _ given colon
        · rintro ⟨-, -, path, host⟩
          exact colon.elim host path
      · rw [not_or] at colon
        have good := behindUser_noPort { u.start with path := ascii "/", user := user } given colon.1 colon.2
        have parsed := parsed.trans good
        rw [splits_iff_port (by rw [parsed]) (by rw [parsed]; exact u.request_eq), parsed]
        apply and_congr_right
        intro _
        refine (port_eq_http_iff given).trans ?_
        exact ⟨fun http => ⟨http, colon.2, colon.1⟩, fun clear => clear.1⟩
  | some n =>
      rw [u.clear_at_port found.1 given]
      by_cases colon : 58 ∈ u.host
      · refine iff_of_false (not_splits_of_host ?_) fun both => both.2 colon
        rw [parsed]
        exact behindUser_colons _ given colon
      · have parsed := parsed.trans (behindUser_port _ given colon)
        rw [splits_iff_port (by rw [parsed]) (by rw [parsed]; exact u.request_eq), parsed]
        apply and_congr_right
        intro _
        exact iff_of_true (port_of_given given).symm colon

/-- The other branch, where the text in front of the path is taken for the host. -/
theorem splits_whole (u : UrlParts) (missed : ¬ (u.Marked ∧ (58 ∈ u.name ∨ 58 ∉ u.path)))
    (first : u.path = [] ∨ 58 ∉ u.name) : u.Splits ↔ u.text.length ≤ maxUrlLen ∧ u.Clear := by
  have parsed := (u.parseHost_other missed).trans (parseWithout_whole _ first)
  rw [u.clear_whole missed first]
  by_cases bare : u.user = none ∧ u.portNumber = none
  · have host := u.name_eq_host_iff.mpr bare
    rw [splits_iff_port (by rw [parsed]; exact host) (by rw [parsed]; exact u.request_eq), parsed]
    apply and_congr_right
    intro _
    refine iff_of_true ?_ bare
    rw [UrlParts.port, bare.2]
    exact defaultPort_eq rfl
  · refine iff_of_false (not_splits_of_host ?_) fun both => bare both.2
    rw [parsed]
    exact mt u.name_eq_host_iff.mp bare

/-- The other branch, where a colon cuts a port off. -/
theorem splits_port (u : UrlParts) (missed : ¬ (u.Marked ∧ (58 ∈ u.name ∨ 58 ∉ u.path)))
    (path : u.path ≠ []) (colon : 58 ∈ u.name) : u.Splits ↔ u.text.length ≤ maxUrlLen ∧ u.Clear := by
  have unmarked : ¬ u.Marked := fun marked => missed ⟨marked, Or.inl colon⟩
  have owner := user_none_of_unmarked unmarked
  obtain ⟨token, rest, is, parsed⟩ := @parseWithout_colon u { u.start with path := ascii "/" } path colon
  have parsed := (u.parseHost_other missed).trans parsed
  rw [u.clear_port unmarked path]
  by_cases own : 58 ∈ u.host
  · refine iff_of_false (not_splits_of_host ?_) fun both => both.2 own
    rw [parsed, takePort_host]
    rintro rfl
    exact not_mem_of_strtokR (congrArg Prod.fst is) own
  · cases given : u.portNumber with
    | none =>
        rw [u.name_eq_host_iff.mpr ⟨owner, given⟩] at colon
        exact absurd colon own
    | some n =>
        have shape : u.name ++ u.path = u.host ++ 58 :: (decimal n ++ u.path) := by
          rw [name, userText_nil owner, portText, given, List.nil_append, List.append_assoc]
          rfl
        rw [shape, strtokR_of_append u.host_ne_nil own] at is
        cases is
        have parsed := parsed.trans (takePort_eq _ u.host given)
        rw [splits_iff_port (by rw [parsed]) (by rw [parsed]; exact u.request_eq), parsed]
        apply and_congr_right
        intro _
        exact iff_of_true (port_of_given given).symm own

end Parse

end UrlParts

/-- The parts of a URL are found exactly when it is short enough and no part is mistaken for another. -/
theorem authority_split_iff (u : UrlParts) : u.Splits ↔ u.text.length ≤ maxUrlLen ∧ u.Clear := by
  by_cases found : u.Marked ∧ (58 ∈ u.name ∨ 58 ∉ u.path)
  · exact u.splits_at found
  · by_cases first : u.path = [] ∨ 58 ∉ u.name
    · exact u.splits_whole found first
    · rw [not_or, not_not] at first
      exact u.splits_port found first.1 first.2

theorem isValidHostChar_h : ∀ b ∈ ascii "h", isValidHostChar b := by decide +kernel

theorem isPlain_pathWithAt : ∀ b ∈ ascii "/a@b", isPlain b := by decide +kernel

/-- `https://h/a@b`. -/
def urlWithAt : UrlParts where
  https := true
  user := none
  host := ascii "h"
  portNumber := none
  path := ascii "/a@b"
  user_plain := fun _ absent => absurd absent (Option.not_mem_none _)
  host_valid := isValidHostChar_h
  host_ne_nil := List.cons_ne_nil _ _
  port_range := fun _ absent => absurd absent (Option.not_mem_none _)
  path_plain := isPlain_pathWithAt
  path_slash := Or.inr ⟨ascii "a@b", rfl⟩

/-- The port is that of the other scheme. -/
theorem not_authority_split : ¬ ∀ u : UrlParts, u.Splits := by
  intro claim
  have clear := ((authority_split_iff urlWithAt).mp (claim urlWithAt)).2
  have colon : 58 ∉ urlWithAt.host := by decide
  unfold UrlParts.Clear at clear
  rw [if_neg colon] at clear
  exact absurd (clear.2.2 rfl rfl (by decide) (by decide)) (by decide)

end BloomServer
