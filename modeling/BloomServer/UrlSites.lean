import BloomServer.UrlScheme

/-! Where `CUrl::parse` finds the user, the host and the port in the text behind the scheme, whatever the
text. -/
namespace BloomServer
open Tokens

/-- The branch for an authority with an `'@'` is taken. -/
def marked (y : CString) : Bool :=
  (strchr 64 y).isSome && (before (strchr 58 y) (strchr 47 y) || strchr 47 y = none)

/-- There is a user in front of the first `'@'`. -/
def owned (y : CString) : Bool := marked y && decide (64 ∈ y.takeWhile (· ≠ 47))

/-- The user, where there is one. -/
def ownerOf (owner : Bool) (text : CString) : CString := if owner then text.takeWhile (· ≠ 64) else []

/-- What is behind the user. -/
def siteOf (owner : Bool) (text : CString) : CString :=
  if owner then (text.dropWhile (· ≠ 64)).drop 1 else text

/-- The number in front of the next `'/'`, if there is a positive one. -/
def givenPort (default : ℤ) (rest : CString) : ℤ :=
  (strtokR 47 rest).1.elim default fun token => if atoi token ≤ 0 then default else atoi token

/-- The host ends at the first colon. Without an `'@'` this is so for a colon in front of a slash only. -/
def colonEnds (mark : Bool) (p : CString) : Prop :=
  58 ∈ p ∧ (mark = false → 47 ∈ p ∧ 58 ∈ p.takeWhile (· ≠ 47))

section Sites

variable {c : CUrl} {y p host rest : CString} {b : UInt8}

theorem takePort_port : (c.takePort host rest).port = givenPort c.defaultPort rest := by
  unfold CUrl.takePort givenPort
  cases (strtokR 47 rest).1 with
  | none => rfl
  | some token =>
      simp only [Option.elim_some, reduceCtorEq, false_or]
      split_ifs
      · rfl
      · rfl

theorem dropWhile_site {d : UInt8} (some : p ≠ []) (start : p.head? ≠ .some d) : p.dropWhile (· = d) = p := by
  cases p with
  | nil => exact absurd rfl some
  | cons b p =>
      have other : b ≠ d := fun same => start (congrArg Option.some same)
      exact List.dropWhile_cons_of_neg (by simpa using other)

/-- The first token, where there is no delimiter at the start. -/
theorem strtokR_site {d : UInt8} (some : p ≠ []) (start : p.head? ≠ .some d) :
    (strtokR d p).1 = .some (p.takeWhile (· ≠ d)) ∧ (strtokR d p).2 = (p.dropWhile (· ≠ d)).drop 1 := by
  rw [strtokR, dropWhile_site some start, if_neg some]
  exact ⟨rfl, rfl⟩

theorem takeHost_site (some : p ≠ []) (start : p.head? ≠ .some 47) :
    (c.takeHost p).host = p.takeWhile (· ≠ 47) := by
  change (strtokR 47 p).1.getD c.host = _
  rw [(strtokR_site some start).1]
  rfl

/-- The branch of an authority with an `'@'`, behind the user. -/
theorem behindUser_site (some : p ≠ []) (colon : p.head? ≠ .some 58) (slash : p.head? ≠ .some 47) :
    (colonEnds true p → (c.parseBehindUser p).host = p.takeWhile (· ≠ 58) ∧
      (c.parseBehindUser p).port = givenPort c.defaultPort ((p.dropWhile (· ≠ 58)).drop 1)) ∧
    (¬ colonEnds true p → (c.parseBehindUser p).host = p.takeWhile (· ≠ 47) ∧
      (c.parseBehindUser p).port = c.port) := by
  obtain ⟨token, behind⟩ := strtokR_site some colon
  have stays := dropWhile_site some colon
  have whole : colonEnds true p ↔ 58 ∈ p := by
    unfold colonEnds
    simp
  have pair : strtokR 58 p = (.some (p.takeWhile (· ≠ 58)), (p.dropWhile (· ≠ 58)).drop 1) :=
    Prod.ext token behind
  rw [whole, CUrl.parseBehindUser, pair]
  dsimp only
  rw [stays]
  constructor
  · intro mem
    rw [if_pos mem]
    exact ⟨UrlParts.takePort_host c _ _, takePort_port⟩
  · intro away
    rw [if_neg away]
    exact ⟨takeHost_site some slash, rfl⟩

/-- The other branch. -/
theorem without_site (some : p ≠ []) (colon : p.head? ≠ .some 58) (slash : p.head? ≠ .some 47) :
    (colonEnds false p → (c.parseWithout p).host = p.takeWhile (· ≠ 58) ∧
      (c.parseWithout p).port = givenPort c.defaultPort ((p.dropWhile (· ≠ 58)).drop 1)) ∧
    (¬ colonEnds false p → (c.parseWithout p).host = p.takeWhile (· ≠ 47) ∧
      (c.parseWithout p).port = c.defaultPort) := by
  obtain ⟨token, behind⟩ := strtokR_site some colon
  have pair : strtokR 58 p = (.some (p.takeWhile (· ≠ 58)), (p.dropWhile (· ≠ 58)).drop 1) :=
    Prod.ext token behind
  have found : (before (strchr 58 p) (strchr 47 p) && (strchr 58 p).isSome) = true ↔ colonEnds false p := by
    rw [Bool.and_eq_true, before_strchr, isSome_strchr]
    unfold colonEnds
    tauto
  rw [← found, CUrl.parseWithout, pair]
  constructor
  · intro ends
    rw [if_pos ends]
    exact ⟨UrlParts.takePort_host c _ _, takePort_port⟩
  · intro other
    rw [if_neg other]
    exact ⟨takeHost_site some slash, rfl⟩

theorem strtokR_slashes (none : p.dropWhile (· = 47) = []) : strtokR 47 p = (.none, []) := if_pos none

theorem strtokR_some {d : UInt8} (some : p.dropWhile (· = d) ≠ []) :
    ∃ token, (strtokR d p).1 = .some token ∧ token ≠ [] := by
  have token : (strtokR d p).1 = .some ((p.dropWhile (· = d)).takeWhile (· ≠ d)) := congrArg Prod.fst (if_neg some)
  exact ⟨_, token, strtokR_ne_nil token⟩

theorem takeHost_ne_nil (some : p.dropWhile (· = 47) ≠ []) : (c.takeHost p).host ≠ [] := by
  obtain ⟨token, is, full⟩ := strtokR_some some
  change (strtokR 47 p).1.getD c.host ≠ []
  rw [is]
  exact full

theorem takeHost_slashes (none : p.dropWhile (· = 47) = []) : (c.takeHost p).host = c.host := by
  change (strtokR 47 p).1.getD c.host = _
  rw [strtokR_slashes none]
  rfl

theorem away_of_slashes {d : UInt8} (other : d ≠ 47) (none : p.dropWhile (· = 47) = []) : d ∉ p :=
  fun mem => other (of_decide_eq_true (List.dropWhile_eq_nil_iff.mp none d mem))

/-- What is found behind the user: nothing where there are slashes only, and some host otherwise. -/
structure Sited (mark : Bool) (default : ℤ) (p host : CString) (port : ℤ) : Prop where
  slashes : p.dropWhile (· = 47) = [] → host = [] ∧ port = if mark then 80 else default
  full : p.dropWhile (· = 47) ≠ [] → host ≠ []
  ends : p ≠ [] → p.head? ≠ some 58 → p.head? ≠ some 47 → colonEnds mark p →
    host = p.takeWhile (· ≠ 58) ∧ port = givenPort default ((p.dropWhile (· ≠ 58)).drop 1)
  runs : p ≠ [] → p.head? ≠ some 58 → p.head? ≠ some 47 → ¬ colonEnds mark p →
    host = p.takeWhile (· ≠ 47) ∧ port = if mark then 80 else default

theorem sited_behindUser (host : c.host = []) (port : c.port = 80) :
    Sited true c.defaultPort p (c.parseBehindUser p).host (c.parseBehindUser p).port := by
  refine ⟨fun none => ?_, fun full => ?_, fun some colon slash => (behindUser_site some colon slash).1,
    fun some colon slash away => ?_⟩
  · have away : 58 ∉ p.dropWhile (· = 58) := fun mem =>
      away_of_slashes (by decide) none ((List.dropWhile_suffix _).mem mem)
    rw [UrlParts.behindUser_whole c away, takeHost_slashes none]
    exact ⟨host, port⟩
  · unfold CUrl.parseBehindUser
    cases found : strtokR 58 p with
    | mk token rest =>
        cases token with
        | none => exact takeHost_ne_nil full
        | some token =>
            dsimp only
            split_ifs
            · rw [UrlParts.takePort_host]
              exact strtokR_ne_nil (congrArg Prod.fst found)
            · exact takeHost_ne_nil full
  · obtain ⟨name, same⟩ := (behindUser_site some colon slash).2 away
    exact ⟨name, same.trans port⟩

theorem sited_without (host : c.host = []) :
    Sited false c.defaultPort p (c.parseWithout p).host (c.parseWithout p).port := by
  refine ⟨fun none => ?_, fun full => ?_, fun some colon slash => (without_site some colon slash).1,
    fun some colon slash => (without_site some colon slash).2⟩
  · have absent : strchr 58 p = .none := strchr_eq_none.mpr (away_of_slashes (by decide) none)
    rw [CUrl.parseWithout, absent, if_neg (by simp), takeHost_slashes none]
    exact ⟨host, rfl⟩
  · unfold CUrl.parseWithout
    split_ifs
    · cases found : strtokR 58 p with
      | mk token rest =>
          cases token with
          | none => exact takeHost_ne_nil full
          | some token =>
              dsimp only
              rw [UrlParts.takePort_host]
              exact strtokR_ne_nil (congrArg Prod.fst found)
    · exact takeHost_ne_nil full

theorem behindUser_user (c : CUrl) (p : CString) : (c.parseBehindUser p).user = c.user := by
  unfold CUrl.parseBehindUser
  rcases strtokR 58 p with ⟨_ | token, rest⟩
  · rfl
  · dsimp only
    split_ifs
    · unfold CUrl.takePort
      dsimp only
      split_ifs <;> rfl
    · rfl

theorem without_user (c : CUrl) (p : CString) : (c.parseWithout p).user = c.user := by
  unfold CUrl.parseWithout
  split_ifs
  · rcases strtokR 58 p with ⟨_ | token, rest⟩
    · rfl
    · dsimp only
      unfold CUrl.takePort
      dsimp only
      split_ifs <;> rfl
  · rfl

theorem withAt_owned (mem : 64 ∈ y) :
    (before (strchr 64 y) (strchr 47 y) || strchr 47 y = none) = true ↔ 64 ∈ y.takeWhile (· ≠ 47) := by
  rw [Bool.or_eq_true, before_strchr, decide_eq_true_iff, strchr_eq_none]
  constructor
  · rintro (⟨-, front⟩ | away)
    · exact front mem
    · rw [takeWhile_away away]
      exact mem
  · intro front
    by_cases slash : 47 ∈ y
    · exact Or.inl ⟨slash, fun _ => front⟩
    · exact Or.inr slash

/-- The user, and what is found behind it. -/
theorem parseHost_site (other : c.protocol ≠ ascii "file") (host : c.host = []) (port : c.port = 80)
    (user : c.user = []) : (c.parseHost y).user = ownerOf (owned y) y ∧
      Sited (marked y) c.defaultPort (siteOf (owned y) y) (c.parseHost y).host (c.parseHost y).port := by
  unfold CUrl.parseHost
  dsimp only
  rw [if_neg other]
  by_cases mark : marked y = true
  · rw [if_pos (by exact mark), mark]
    have mem : 64 ∈ y := isSome_strchr.mp ((Bool.and_eq_true _ _).mp mark).1
    obtain ⟨i, there⟩ := Option.isSome_iff_exists.mp (isSome_strchr.mpr mem)
    obtain ⟨front, behind⟩ := split_of_strchr there
    unfold CUrl.parseWithAt
    by_cases first : 64 ∈ y.takeWhile (· ≠ 47)
    · have owner : owned y = true := by
        rw [owned, mark, decide_eq_true first]
        rfl
      rw [if_pos ((withAt_owned mem).mpr first), there, owner, Option.getD_some, front, ← List.drop_drop, behind,
        behindUser_user]
      exact ⟨rfl, @sited_behindUser { c with path := ascii "/", user := y.takeWhile (· ≠ 64) } _ host port⟩
    · have owner : owned y = false := by
        rw [owned, decide_eq_false first, Bool.and_false]
      rw [if_neg (mt (withAt_owned mem).mp first), owner, behindUser_user]
      exact ⟨user, @sited_behindUser { c with path := ascii "/" } _ host port⟩
  · have unmarked := Bool.eq_false_iff.mpr mark
    have owner : owned y = false := by
      rw [owned, unmarked, Bool.false_and]
    rw [if_neg (by exact mark), unmarked, owner, without_user]
    exact ⟨user, @sited_without { c with path := ascii "/" } _ host⟩

end Sites

end BloomServer
