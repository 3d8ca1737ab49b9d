import BloomServer.ParseUrlEx

/-! Whether the two parsers of URLs find the same user, host and port. -/
namespace BloomServer
open CharBuffer DecimalText Tokens

/-- The users agree. Where `parse` finds one, a slash follows it, and no blank is in it; where `ParseUrlEx` finds
one that `parse` does not, it is of blanks only. -/
structure UsersAgree (s : CString) : Prop where
  slash : owned (urlLine s) → ownedEx s ∨ s.head? = some 64
  clean : owned (urlLine s) → ∀ b ∈ s.takeWhile (· ≠ 64), isBlank b = false
  stray : ownedEx s → owned (urlLine s) = false → ∀ b ∈ s.takeWhile (· ≠ 64), isBlank b = true

/-- The host characters of `z`, up to a colon, are a whole host for `parse` in `p`: a port, a path or nothing is
behind them. The port is the same number in both texts, or the same default. -/
def HostStands (mark : Bool) (default : ℤ) (z p : CString) : Prop :=
  ∃ rest, p = hostOf z ++ rest ∧
    if rest.head? = some 58 then (mark = true ∨ 47 ∈ rest) ∧ portOf z = givenPort default (rest.drop 1)
    else (rest = [] ∨ rest.head? = some 47) ∧ (mark = true → 58 ∉ rest) ∧
      portOf z = if mark then 80 else default

/-- There is the same host behind the users, or no host with slashes only. -/
def SitesAgree (mark : Bool) (default : ℤ) (z p : CString) : Prop :=
  if p.dropWhile (· = 47) = [] then hostOf z = [] ∧ portOf z = if mark then 80 else default
  else hostOf z ≠ [] ∧ HostStands mark default z p

/-- What `ParseUrlEx` reads behind the user. -/
def siteEx (s : CString) : CString := withoutBlanks (siteOf (ownedEx s) s)

/-- The text behind the scheme is one that both parsers read alike. -/
structure ParsersAgree (default : ℤ) (s : CString) : Prop where
  fits : FieldsFit (siteEx s)
  users : UsersAgree s
  sites : SitesAgree (marked (urlLine s)) default (siteEx s) (siteOf (owned (urlLine s)) (urlLine s))

section Blanks

variable {s : CString} {d : UInt8}

theorem withoutBlanks_cons (b : UInt8) (s : CString) :
    withoutBlanks (b :: s) = if isBlank b then withoutBlanks s else b :: withoutBlanks s := by
  rw [withoutBlanks, List.filter_cons]
  cases isBlank b <;> rfl

theorem mem_withoutBlanks (clear : isBlank d = false) : d ∈ withoutBlanks s ↔ d ∈ s := by
  rw [withoutBlanks, List.mem_filter, clear]
  simp

/-- Blanks do not move the first place of what is none. -/
theorem cut_withoutBlanks (clear : isBlank d = false) (s : CString) :
    (withoutBlanks s).takeWhile (· ≠ d) = withoutBlanks (s.takeWhile (· ≠ d)) ∧
      (withoutBlanks s).dropWhile (· ≠ d) = withoutBlanks (s.dropWhile (· ≠ d)) := by
  induction s with
  | nil => exact ⟨rfl, rfl⟩
  | cons b s ih =>
      by_cases same : b = d
      · subst same
        have kept : withoutBlanks (b :: s) = b :: withoutBlanks s := by
          rw [withoutBlanks_cons, clear, if_neg Bool.false_ne_true]
        have stops (t : CString) : (b :: t).takeWhile (· ≠ b) = [] ∧ (b :: t).dropWhile (· ≠ b) = b :: t := by simp
        rw [kept, (stops s).1, (stops s).2, kept]
        exact stops (withoutBlanks s)
      · have runs (t : CString) : (b :: t).takeWhile (· ≠ d) = b :: t.takeWhile (· ≠ d) ∧
            (b :: t).dropWhile (· ≠ d) = t.dropWhile (· ≠ d) := by simp [same]
        rw [withoutBlanks_cons, (runs s).1, (runs s).2, withoutBlanks_cons]
        split_ifs with blank
        · exact ih
        · rw [(runs _).1, (runs _).2, ih.1, ih.2]
          exact ⟨rfl, rfl⟩

theorem ownedEx_withoutBlanks (s : CString) : ownedEx (withoutBlanks s) = ownedEx s := by
  unfold ownedEx
  rw [(cut_withoutBlanks (by decide) s).1]
  exact decide_eq_decide.mpr (and_congr (mem_withoutBlanks (by decide)) (mem_withoutBlanks (by decide)))

theorem ownerOf_withoutBlanks (owner : Bool) (s : CString) :
    ownerOf owner (withoutBlanks s) = withoutBlanks (ownerOf owner s) := by
  cases owner with
  | false => rfl
  | true => exact (cut_withoutBlanks (by decide) s).1

theorem siteOf_withoutBlanks (owner : Bool) (s : CString) :
    siteOf owner (withoutBlanks s) = withoutBlanks (siteOf owner s) := by
  cases owner with
  | false => rfl
  | true =>
      change ((withoutBlanks s).dropWhile (· ≠ 64)).drop 1 = withoutBlanks ((s.dropWhile (· ≠ 64)).drop 1)
      rw [(cut_withoutBlanks (by decide) s).2]
      cases rest : s.dropWhile (· ≠ 64) with
      | nil => rfl
      | cons b rest' =>
          have here := List.head_dropWhile_not (fun c : UInt8 => decide (c ≠ 64))
            (show s.dropWhile (fun c => decide (c ≠ 64)) ≠ [] by rw [rest]; exact List.cons_ne_nil b rest')
          simp only [rest, List.head_cons, decide_eq_false_iff_not, not_not] at here
          subst here
          rfl

theorem withoutBlanks_eq_nil : withoutBlanks s = [] ↔ ∀ b ∈ s, isBlank b = true := by
  rw [withoutBlanks, List.filter_eq_nil_iff]
  simp

theorem withoutBlanks_eq_self : withoutBlanks s = s ↔ ∀ b ∈ s, isBlank b = false := by
  rw [withoutBlanks, List.filter_eq_self]
  simp

end Blanks

section Users

variable {s : CString} {b : UInt8}

theorem urlLine_prefix_of (s : CString) : urlLine s <+: s :=
  (List.takeWhile_prefix _).trans (List.takeWhile_prefix _)

theorem mem_of_owned {y : CString} (owner : owned y = true) : 64 ∈ y :=
  (List.takeWhile_prefix _).subset (of_decide_eq_true ((Bool.and_eq_true _ _).mp owner).2)

theorem starts_iff (mem : b ∈ s) : s.takeWhile (· ≠ b) = [] ↔ s.head? = some b := by
  cases s with
  | nil => cases mem
  | cons c s =>
      by_cases same : c = b
      · simp [same]
      · simp [same]

/-- The first `'@'` of the line is the first of the text. -/
theorem cut_urlLine (owner : owned (urlLine s) = true) :
    ownerOf true (urlLine s) = s.takeWhile (· ≠ 64) ∧
      ∃ w, siteOf true s = siteOf true (urlLine s) ++ w := by
  have mem := mem_of_owned owner
  obtain ⟨w, whole⟩ := urlLine_prefix_of s
  obtain ⟨near, far, split, away⟩ := List.eq_append_cons_of_mem mem
  have cut (rest : CString) : (near ++ 64 :: rest).takeWhile (· ≠ 64) = near ∧
      (near ++ 64 :: rest).dropWhile (· ≠ 64) = 64 :: rest := by
    rw [List.takeWhile_append_of_pos fun b mem => ne_of_mem away mem,
      List.dropWhile_append_of_pos fun b mem => ne_of_mem away mem]
    simp
  rw [split, List.append_assoc, List.cons_append] at whole
  have text : s.takeWhile (· ≠ 64) = near ∧ s.dropWhile (· ≠ 64) = 64 :: (far ++ w) := whole ▸ cut (far ++ w)
  constructor
  · rw [text.1, split]
    exact (cut far).1
  · refine ⟨w, ?_⟩
    change (s.dropWhile (· ≠ 64)).drop 1 = ((urlLine s).dropWhile (· ≠ 64)).drop 1 ++ w
    rw [text.2, split, (cut far).2]
    rfl

/-- The users are the same text exactly when they agree. -/
theorem usersAgree_iff (s : CString) :
    ownerOf (ownedEx s) (withoutBlanks s) = ownerOf (owned (urlLine s)) (urlLine s) ↔ UsersAgree s := by
  rw [ownerOf_withoutBlanks]
  cases found : owned (urlLine s) with
  | false =>
      cases ex : ownedEx s with
      | false =>
          refine iff_of_true rfl ⟨fun owner => ?_, fun owner => ?_, fun owner => ?_⟩
          · rw [found] at owner
            cases owner
          · rw [found] at owner
            cases owner
          · rw [ex] at owner
            cases owner
      | true =>
          change withoutBlanks (s.takeWhile (· ≠ 64)) = [] ↔ _
          rw [withoutBlanks_eq_nil]
          constructor
          · intro blanks
            refine ⟨fun owner => ?_, fun owner => ?_, fun _ _ => blanks⟩
            · rw [found] at owner
              cases owner
            · rw [found] at owner
              cases owner
          · exact fun agree => agree.stray ex found
  | true =>
      rw [(cut_urlLine found).1]
      cases ex : ownedEx s with
      | false =>
          change [] = s.takeWhile (· ≠ 64) ↔ _
          have front := starts_iff ((urlLine_prefix_of s).subset (mem_of_owned found))
          rw [eq_comm, front]
          constructor
          · intro first
            refine ⟨fun _ => Or.inr first, fun _ => ?_, fun owner => ?_⟩
            · rw [front.mpr first]
              exact fun b absent => absurd absent List.not_mem_nil
            · rw [ex] at owner
              cases owner
          · intro agree
            rcases agree.slash found with owner | first
            · rw [ex] at owner
              cases owner
            · exact first
      | true =>
          change withoutBlanks (s.takeWhile (· ≠ 64)) = s.takeWhile (· ≠ 64) ↔ _
          rw [withoutBlanks_eq_self]
          constructor
          · intro clean
            refine ⟨fun _ => Or.inl ex, fun _ => clean, fun _ absent => ?_⟩
            rw [found] at absent
            cases absent
          · exact fun agree => agree.clean found

theorem hostOf_nil {z : CString} (head : z.head? = some b) (ends : isValidHostChar b = false ∨ b = 58) :
    hostOf z = [] := by
  cases z with
  | nil => rfl
  | cons c z =>
      cases head
      rw [hostOf, hostText]
      rcases ends with invalid | rfl
      · rw [List.takeWhile_cons_of_neg (by rw [invalid]; exact Bool.false_ne_true)]
        rfl
      · rw [List.takeWhile_cons_of_pos (by decide)]
        rfl

/-- Where what is behind the user starts with a delimiter, `ParseUrlEx` finds no host. -/
theorem hostOf_siteEx (users : UsersAgree s) (head : (siteOf (owned (urlLine s)) (urlLine s)).head? = some b)
    (delimiter : b = 58 ∨ b = 47) : hostOf (siteEx s) = [] := by
  have clear : isBlank b = false := by
    rcases delimiter with rfl | rfl <;> decide
  have ends : isValidHostChar b = false ∨ b = 58 := by
    rcases delimiter with rfl | rfl
    · exact Or.inr rfl
    · exact Or.inl rfl
  have starts {t : CString} (first : t.head? = some b) : hostOf (withoutBlanks t) = [] := by
    cases t with
    | nil => rfl
    | cons c t =>
        cases first
        rw [withoutBlanks_cons, clear]
        exact hostOf_nil rfl ends
  obtain ⟨w, whole⟩ := urlLine_prefix_of s
  have longer {p : CString} (first : p.head? = some b) (rest : CString) : (p ++ rest).head? = some b := by
    rw [List.head?_append, first]
    rfl
  unfold siteEx
  cases found : owned (urlLine s) with
  | true =>
      rw [found] at head
      obtain ⟨rest, behind⟩ := (cut_urlLine found).2
      cases ex : ownedEx s with
      | true =>
          rw [behind]
          exact starts (longer head rest)
      | false =>
          rcases users.slash found with owner | first
          · rw [ex] at owner
            cases owner
          · cases s with
            | nil => rfl
            | cons c s =>
                cases first
                exact hostOf_nil rfl (Or.inl rfl)
  | false =>
      rw [found] at head
      have first : s.head? = some b := by
        rw [← whole]
        exact longer head w
      cases ex : ownedEx s with
      | true =>
          have blanks := users.stray ex found
          cases s with
          | nil => cases first
          | cons c s =>
              cases first
              have other : b ≠ 64 := by
                rintro rfl
                exact absurd delimiter (by decide)
              rw [List.takeWhile_cons_of_pos (by exact decide_eq_true other)] at blanks
              exact absurd (blanks b List.mem_cons_self) (by rw [clear]; exact Bool.false_ne_true)
      | false => exact starts first

end Users

section Sites

variable {mark : Bool} {default port : ℤ} {z p host : CString}

theorem hostOf_clean (z : CString) : 58 ∉ hostOf z ∧ 47 ∉ hostOf z := by
  constructor
  · intro mem
    exact of_decide_eq_true (List.mem_takeWhile_imp (p := fun b : UInt8 => decide (b ≠ 58)) mem) rfl
  · intro mem
    exact absurd (List.mem_takeWhile_imp ((List.takeWhile_prefix _).subset mem)) (by decide)

/-- A text is cut where what it starts with ends. -/
theorem cut_append {d : UInt8} {near rest : CString} (away : d ∉ near) (next : rest = [] ∨ rest.head? = some d) :
    (near ++ rest).takeWhile (· ≠ d) = near ∧ (near ++ rest).dropWhile (· ≠ d) = rest := by
  rw [List.takeWhile_append_of_pos fun b mem => ne_of_mem away mem,
    List.dropWhile_append_of_pos fun b mem => ne_of_mem away mem]
  cases rest with
  | nil => exact ⟨List.append_nil near, rfl⟩
  | cons b rest =>
      rcases next with absent | first
      · cases absent
      · cases first
        simp

theorem head_dropWhile {d : UInt8} (p : CString) :
    p.dropWhile (· ≠ d) = [] ∨ (p.dropWhile (· ≠ d)).head? = some d := by
  induction p with
  | nil => exact Or.inl rfl
  | cons b p ih =>
      by_cases same : b = d
      · simp [same]
      · rw [List.dropWhile_cons_of_pos (by exact decide_eq_true same)]
        exact ih

/-- A host that `parse` ends at a colon. -/
theorem stands_of_ends (ends : colonEnds mark p) :
    hostOf z = p.takeWhile (· ≠ 58) ∧ portOf z = givenPort default ((p.dropWhile (· ≠ 58)).drop 1) ↔
      HostStands mark default z p := by
  obtain ⟨noColon, noSlash⟩ := hostOf_clean z
  obtain ⟨mem, front⟩ := ends
  constructor
  · rintro ⟨cut, number⟩
    have whole : p = hostOf z ++ p.dropWhile (· ≠ 58) := by
      rw [cut]
      exact List.takeWhile_append_dropWhile.symm
    have head : (p.dropWhile (· ≠ 58)).head? = some 58 := by
      rcases @head_dropWhile 58 p with none | first
      · rw [none, List.append_nil] at whole
        rw [whole] at mem
        exact absurd mem noColon
      · exact first
    refine ⟨_, whole, ?_⟩
    rw [if_pos head]
    refine ⟨?_, number⟩
    cases mark with
    | true => exact Or.inl rfl
    | false =>
        have slash := (front rfl).1
        rw [whole] at slash
        exact Or.inr ((List.mem_append.mp slash).resolve_left noSlash)
  · rintro ⟨rest, rfl, stands⟩
    by_cases head : rest.head? = some 58
    · rw [if_pos head] at stands
      obtain ⟨taken, dropped⟩ := cut_append noColon (Or.inr head)
      rw [taken, dropped]
      exact ⟨rfl, stands.2⟩
    · rw [if_neg head] at stands
      obtain ⟨next, away, -⟩ := stands
      have colon : 58 ∈ rest := (List.mem_append.mp mem).resolve_left noColon
      cases mark with
      | true => exact absurd colon (away rfl)
      | false =>
          have early := (front rfl).2
          rw [(cut_append noSlash next).1] at early
          exact absurd early noColon

/-- A host that `parse` ends at a slash, or with the text. -/
theorem stands_of_runs (runs : ¬ colonEnds mark p) :
    (hostOf z = p.takeWhile (· ≠ 47) ∧ portOf z = if mark then 80 else default) ↔ HostStands mark default z p := by
  obtain ⟨noColon, noSlash⟩ := hostOf_clean z
  constructor
  · rintro ⟨cut, number⟩
    have whole : p = hostOf z ++ p.dropWhile (· ≠ 47) := by
      rw [cut]
      exact List.takeWhile_append_dropWhile.symm
    have next := @head_dropWhile 47 p
    have other : (p.dropWhile (· ≠ 47)).head? ≠ some 58 := by
      rcases next with none | first
      · rw [none]
        decide
      · rw [first]
        decide
    refine ⟨_, whole, ?_⟩
    rw [if_neg other]
    refine ⟨next, fun marks colon => runs ⟨?_, fun unmarked => ?_⟩, number⟩
    · rw [whole]
      exact List.mem_append_right _ colon
    · rw [marks] at unmarked
      cases unmarked
  · rintro ⟨rest, rfl, stands⟩
    by_cases head : rest.head? = some 58
    · rw [if_pos head] at stands
      obtain ⟨tail, rfl⟩ : ∃ tail, rest = 58 :: tail := by
        cases rest with
        | nil => cases head
        | cons b tail =>
            cases head
            exact ⟨tail, rfl⟩
      refine absurd ⟨List.mem_append_right _ List.mem_cons_self, fun unmarked => ?_⟩ runs
      have slash := stands.1.resolve_left (by rw [unmarked]; exact Bool.false_ne_true)
      refine ⟨List.mem_append_right _ slash, ?_⟩
      rw [List.takeWhile_append_of_pos fun b mem => ne_of_mem noSlash mem]
      exact List.mem_append_right _ List.mem_cons_self
    · rw [if_neg head] at stands
      obtain ⟨next, -, number⟩ := stands
      rw [(cut_append noSlash next).1]
      exact ⟨rfl, number⟩

/-- The sites agree exactly when the same host and the same port are found. -/
theorem sitesAgree_iff (sited : Sited mark default p host port)
    (starts : ∀ b, p.head? = some b → b = 58 ∨ b = 47 → hostOf z = []) :
    hostOf z = host ∧ portOf z = port ↔ SitesAgree mark default z p := by
  unfold SitesAgree
  by_cases slashes : p.dropWhile (· = 47) = []
  · obtain ⟨none, same⟩ := sited.slashes slashes
    rw [if_pos slashes, none, same]
  · rw [if_neg slashes]
    by_cases empty : hostOf z = []
    · have some := sited.full slashes
      exact iff_of_false (fun both => some (both.1.symm.trans empty)) (fun both => both.1 empty)
    · have full : p ≠ [] := by
        rintro rfl
        exact slashes rfl
      have colon : p.head? ≠ some 58 := fun head => empty (starts 58 head (Or.inl rfl))
      have slash : p.head? ≠ some 47 := fun head => empty (starts 47 head (Or.inr rfl))
      by_cases ends : colonEnds mark p
      · obtain ⟨cut, number⟩ := sited.ends full colon slash ends
        rw [cut, number, stands_of_ends ends]
        exact ⟨fun stands => ⟨empty, stands⟩, fun both => both.2⟩
      · obtain ⟨cut, number⟩ := sited.runs full colon slash ends
        rw [cut, number, stands_of_runs ends]
        exact ⟨fun stands => ⟨empty, stands⟩, fun both => both.2⟩

end Sites

section Parsers

variable {n : ℕ} {url : CString} {c : CUrl}

theorem short_of_accepted (parsed : CUrl.new.parse n url = some c) (accepted : c.scheme = .http ∨ c.scheme = .https) :
    url.length ≤ maxUrlLen := by
  by_contra long
  unfold CUrl.parse at parsed
  rw [if_pos (Nat.not_le.mp long)] at parsed
  cases parsed
  exact absurd accepted (by decide)

/-- What an accepted URL is parsed to, in terms of the text behind its scheme. -/
theorem accepted_sites (parsed : CUrl.new.parse n url = some c) (accepted : c.scheme = .http ∨ c.scheme = .https) :
    (∃ name, Opens url name) ∧ c.user = ownerOf (owned (urlLine (behindScheme url))) (urlLine (behindScheme url)) ∧
      Sited (marked (urlLine (behindScheme url))) (schemePort url)
        (siteOf (owned (urlLine (behindScheme url))) (urlLine (behindScheme url))) c.host c.port := by
  have short := short_of_accepted parsed accepted
  cases found : authorityOf url with
  | none =>
      rw [parse_of_none short found] at parsed
      cases parsed
      rcases accepted with is | is <;> cases is
  | some c₀ =>
      obtain ⟨-, host, port, user⟩ := parse_parts short parsed
      obtain ⟨name, opens, other⟩ := opens_of_some found
      rw [partsOf, opens.parsed, Option.getD_some] at host port user
      obtain ⟨owner, sited⟩ :=
        @parseHost_site (CUrl.opened url name) (urlLine (behindScheme url)) other rfl rfl rfl
      rw [opens.port] at sited
      rw [host, port, user]
      exact ⟨⟨name, opens⟩, owner, sited⟩

/-- `ParseUrlEx` on a URL of one of the schemes, in terms of the same text. -/
theorem parseUrlEx_siteEx {name : CString} (opens : Opens url name) :
    (FieldsFit (siteEx (behindScheme url)) → ∃ d, CUrl.new.ParseUrlEx url = some (true, d) ∧
      d.host = hostOf (siteEx (behindScheme url)) ∧ d.port = portOf (siteEx (behindScheme url)) ∧
      d.user = ownerOf (ownedEx (behindScheme url)) (withoutBlanks (behindScheme url))) ∧
    (¬ FieldsFit (siteEx (behindScheme url)) → CUrl.new.ParseUrlEx url = none) := by
  have site : siteOf (ownedEx (withoutBlanks (behindScheme url))) (withoutBlanks (behindScheme url)) =
      siteEx (behindScheme url) := by
    rw [ownedEx_withoutBlanks, siteOf_withoutBlanks]
    rfl
  have spec := parseUrlEx_spec opens site
  rw [ownedEx_withoutBlanks] at spec
  exact spec

/-- Where both find the same, they read the text behind the scheme alike. -/
theorem agree_of_same {d : CUrl} (parsed : CUrl.new.parse n url = some c)
    (accepted : c.scheme = .http ∨ c.scheme = .https) (run : CUrl.new.ParseUrlEx url = some (true, d))
    (host : d.host = c.host) (port : d.port = c.port) (user : d.user = c.user) :
    ParsersAgree (schemePort url) (behindScheme url) := by
  obtain ⟨⟨name, opens⟩, owner, sited⟩ := accepted_sites parsed accepted
  obtain ⟨fit, unfit⟩ := parseUrlEx_siteEx opens
  by_cases fits : FieldsFit (siteEx (behindScheme url))
  · obtain ⟨d', run', foundHost, foundPort, foundUser⟩ := fit fits
    rw [run'] at run
    cases run
    have users := (usersAgree_iff (behindScheme url)).mp (foundUser.symm.trans (user.trans owner))
    have sites := sitesAgree_iff sited fun b => hostOf_siteEx users
    exact ⟨fits, users, sites.mp ⟨foundHost.symm.trans host, foundPort.symm.trans port⟩⟩
  · rw [unfit fits] at run
    cases run

/-- `ParseUrlEx` finds the host, the port and the user that `parse` finds exactly when both read the text behind
the scheme alike. -/
theorem urlParsers_agree_iff (n : ℕ) (url : CString) (c : CUrl) (parsed : CUrl.new.parse n url = some c)
    (accepted : c.scheme = .http ∨ c.scheme = .https) :
    (∃ d, CUrl.new.ParseUrlEx url = some (true, d) ∧ d.host = c.host ∧ d.port = c.port ∧ d.user = c.user) ↔
      ParsersAgree (schemePort url) (behindScheme url) := by
  constructor
  · rintro ⟨d, run, host, port, user⟩
    exact agree_of_same parsed accepted run host port user
  · intro agree
    obtain ⟨⟨name, opens⟩, owner, sited⟩ := accepted_sites parsed accepted
    obtain ⟨d, run, host, port, user⟩ := (parseUrlEx_siteEx opens).1 agree.fits
    obtain ⟨hosts, ports⟩ := (sitesAgree_iff sited fun b => hostOf_siteEx agree.users).mpr agree.sites
    have users := (usersAgree_iff (behindScheme url)).mpr agree.users
    exact ⟨d, run, host.trans hosts, port.trans ports, user.trans (users.trans owner.symm)⟩

def userUrl : CString := ascii "http://u@h:81/p"

theorem userUrl_parsed : CUrl.new.parse 3 userUrl = some { CUrl.new with
    scheme := .http, url := userUrl, sUrl := userUrl, protocol := ascii "http", user := ascii "u"
    host := ascii "h", port := 81, path := ascii "/p" } := rfl

theorem userUrl_agrees : ParsersAgree (schemePort userUrl) (behindScheme userUrl) where
  fits := by
    constructor
    · decide +kernel
    · decide +kernel
  users := ⟨fun _ => Or.inl rfl, fun _ => by decide +kernel, fun _ absent => by cases absent⟩
  sites := by
    have some : (siteOf (owned (urlLine (behindScheme userUrl))) (urlLine (behindScheme userUrl))).dropWhile (· = 47)
      ≠ [] := by decide +kernel
    unfold SitesAgree
    rw [if_neg some]
    refine ⟨by decide +kernel, ascii ":81/p", rfl, ?_⟩
    have colon : (ascii ":81/p").head? = Option.some 58 := rfl
    rw [if_pos colon]
    exact ⟨Or.inl rfl, rfl⟩

theorem urlParsers_agree_iff_user : ∃ d, CUrl.new.ParseUrlEx userUrl = some (true, d) ∧ d.host = ascii "h" ∧
    d.port = 81 ∧ d.user = ascii "u" :=
  (urlParsers_agree_iff 3 userUrl _ userUrl_parsed (Or.inl rfl)).mpr userUrl_agrees

/-- `https://h/`. -/
def secureUrl : CString := ascii "https://h/"

theorem secureUrl_parsed : CUrl.new.parse 3 secureUrl = some { CUrl.new with
    scheme := .https, url := secureUrl, sUrl := secureUrl, protocol := ascii "https"
    host := ascii "h", port := 443, path := ascii "/" } := rfl

/-- The port is that of the other scheme. -/
theorem not_urlParsers_agree : ¬ ∀ (n : ℕ) (url : CString) (c : CUrl), CUrl.new.parse n url = some c →
    c.scheme = .http ∨ c.scheme = .https → c.host.length < maxHostLen → c.user.length < maxHostLen →
    ∃ d, CUrl.new.ParseUrlEx url = some (true, d) ∧ d.host = c.host ∧ d.port = c.port ∧ d.user = c.user := by
  intro claim
  obtain ⟨d, run, host, port, user⟩ :=
    claim 3 secureUrl _ secureUrl_parsed (Or.inr rfl) (by decide) (by decide)
  have sites := (agree_of_same secureUrl_parsed (Or.inr rfl) run host port user).sites
  have some : (siteOf (owned (urlLine (behindScheme secureUrl))) (urlLine (behindScheme secureUrl))).dropWhile
      (· = 47) ≠ [] := by decide +kernel
  unfold SitesAgree at sites
  rw [if_neg some] at sites
  obtain ⟨-, rest, whole, stands⟩ := sites
  have behind : ascii "/" = rest := @List.append_cancel_left _ (ascii "h") _ _ whole
  rw [← behind, if_neg (by decide)] at stands
  exact absurd stands.2.2 (by decide +kernel)

end Parsers

end BloomServer
