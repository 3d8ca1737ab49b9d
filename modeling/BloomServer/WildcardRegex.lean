import BloomServer.Library.PosixEre
import BloomServer.TransferRegEx

/-! Whether the regular expression that `TransferRegEx` makes of a pattern matches what the pattern
describes. -/
namespace BloomServer
open CharBuffer DecimalText PosixEre

/-! ### What a pattern describes -/

/-- The parts of a pattern: `[*]`, `[?]`, `[$]` and single characters. -/
inductive Piece
  | any
  | one
  | digits
  | char (c : UInt8)
  deriving DecidableEq

/-- The part that starts with a byte, and how many more bytes it has. -/
def pieceAt (c : UInt8) (rest : CString) : Piece × ℕ :=
  if c = 91 then
    if ascii "*]" <+: rest then (.any, 2)
    else if ascii "?]" <+: rest then (.one, 2)
    else if ascii "$]" <+: rest then (.digits, 2)
    else (.char c, 0)
  else (.char c, 0)

/-- The parts of a pattern behind `skip` bytes. -/
def pieces : ℕ → CString → List Piece
  | _, [] => []
  | skip + 1, _ :: rest => pieces skip rest
  | 0, c :: rest => (pieceAt c rest).1 :: pieces (pieceAt c rest).2 rest

/-- Any text, any one character, one digit or more, or just the character. -/
def Piece.Describes : Piece → List UInt8 → Prop
  | any, _ => True
  | one, w => w.length = 1
  | digits, w => w ≠ [] ∧ ∀ b ∈ w, isDigit b = true
  | char c, w => w = [c]

/-- A text that the parts describe one after another. -/
def Described : List Piece → List UInt8 → Prop
  | [], w => w = []
  | p :: ps, w => ∃ u v, w = u ++ v ∧ p.Describes u ∧ Described ps v

/-- The characters that are special to the regular expression and get no backslash. -/
def isBare (c : UInt8) : Bool := c = 43 || c = 94 || c = 36

/-- None of `'+'`, `'^'` and `'$'` stands for itself. -/
def Unmarked (pattern : CString) : Prop := ∀ c, Piece.char c ∈ pieces 0 pattern → isBare c = false

/-- The text with the flags of its begin and its end. -/
def anchored (text : CString) : CString := 94 :: (text ++ [36])

/-- The regular expression is one, and it is found in just the texts that the pattern describes. -/
def Faithful (pattern regex : CString) : Prop :=
  ∃ e, parse regex = some e ∧ ∀ w, e.Finds w ↔ Described (pieces 0 pattern) w

/-! ### What is written for a part -/

/-- The text written for a part. -/
def Piece.spelled : Piece → CString
  | any => ascii "(.*)"
  | one => ascii "(.\x7b1\x7d)"
  | digits => ascii "([0-9]+)"
  | char c => if c ∈ ascii ".*?|\\()\x7b\x7d]" ∨ c = 91 then [92, c] else [c]

/-- The translation without an end of the buffer. -/
def translated : ℕ → CString → CString
  | _, [] => []
  | skip + 1, _ :: rest => translated skip rest
  | 0, c :: rest => (transferred c rest).1 ++ translated (transferred c rest).2 rest

/-- The loop does not stop at the end of the buffer. -/
def Untruncated (pattern : CString) : Prop := transferText 0 pattern 0 = translated 0 pattern

/-- What the text written for a part means. -/
def Piece.meant : Piece → Ere UInt8
  | any => .seq [.rep (.one fun _ => true) 0 none]
  | one => .seq [.rep (.one fun _ => true) 1 (some 1)]
  | digits => .seq [.rep (.one isDigit) 1 none]
  | char c => .one (· = c)

/-- What the text written for a part does: the characters without a backslash do not stand for
themselves. -/
def Piece.mark : Piece → Mark
  | char c =>
      if c = 43 then .dup 1 none
      else if c = 94 then .anchor .start
      else if c = 36 then .anchor .stop
      else .item (.one (· = c))
  | p => .item p.meant

section Spelled

variable {g : PosixEre.Groups} {p : Piece} {ps : List Piece} {text : List UInt8}

theorem transferred_eq (c : UInt8) (rest : CString) :
    transferred c rest = ((pieceAt c rest).1.spelled, (pieceAt c rest).2) := by
  unfold transferred pieceAt
  by_cases special : c ∈ ascii ".*?|\\()\x7b\x7d]"
  · have other : c ≠ 91 := by
      rintro rfl
      exact absurd special (by decide)
    rw [if_pos special, if_neg other]
    exact congrArg (·, 0) (if_pos (Or.inl special)).symm
  · by_cases bracket : c = 91
    · subst bracket
      rw [if_neg special, if_pos rfl, if_pos rfl]
      split_ifs <;> rfl
    · rw [if_neg special, if_neg bracket, if_neg bracket]
      exact congrArg (·, 0) (if_neg (not_or.mpr ⟨special, bracket⟩)).symm

theorem translated_eq (skip : ℕ) (pattern : CString) :
    translated skip pattern = (pieces skip pattern).flatMap Piece.spelled := by
  induction skip, pattern using pieces.induct with
  | case1 skip => rfl
  | case2 skip b rest ih => exact ih
  | case3 c rest ih =>
      rw [translated, pieces, transferred_eq, List.flatMap_cons]
      exact congrArg (_ ++ ·) ih

/-! ### Reading it again -/

theorem interval_one (text : List UInt8) : interval (49 :: 125 :: text) = some (.dup 1 (some 1), 2) := by
  simp [interval, isDigit, value]

theorem bracket_digits (text : List UInt8) :
    bracket (48 :: 45 :: 57 :: 93 :: text) = some (.item (.one isDigit), 4) := by
  have digit : (fun c => xor false ((ranges [48, 45, 57]).any fun r => r.1 ≤ c && c ≤ r.2)) = isDigit := by
    funext c
    simp [ranges, isDigit]
  simp [bracket, ← digit]

theorem spelled_char (c : UInt8) : (Piece.char c).spelled =
    if c ∈ ascii ".*?|\\()\x7b\x7d]" ∨ c = 91 then [92, c] else [c] := rfl

theorem mark_char (c : UInt8) : (Piece.char c).mark =
    if c = 43 then .dup 1 none
    else if c = 94 then .anchor .start
    else if c = 36 then .anchor .stop
    else .item (.one (· = c)) := rfl

theorem markAt_plain {c : UInt8} (plain : ¬ (c ∈ ascii ".*?|\\()\x7b\x7d]" ∨ c = 91)) (text : List UInt8) :
    markAt c text = some ((Piece.char c).mark, 0) := by
  have specials : ascii ".*?|\\()\x7b\x7d]" = [46, 42, 63, 124, 92, 40, 41, 123, 125, 93] := rfl
  rw [specials] at plain
  simp only [List.mem_cons, List.not_mem_nil, or_false, not_or] at plain
  rw [mark_char]
  by_cases plus : c = 43
  · subst plus
    rfl
  · by_cases caret : c = 94
    · subst caret
      rfl
    · by_cases dollar : c = 36
      · subst dollar
        rfl
      · simp only [markAt, plain, plus, caret, dollar, if_false]

theorem read_spelled (g : PosixEre.Groups) (p : Piece) (text : List UInt8) :
    PosixEre.Groups.read 0 (p.spelled ++ text) g = (g.step p.mark).bind (PosixEre.Groups.read 0 text) := by
  cases p with
  | any => rfl
  | one =>
      have bounds : markAt 123 (49 :: 125 :: 41 :: text) = some (.dup 1 (some 1), 2) := interval_one _
      change PosixEre.Groups.read 0 (123 :: 49 :: 125 :: 41 :: text)
        ⟨[(true, .one fun _ => true)], g.inner :: g.outer⟩ = _
      rw [PosixEre.Groups.read, bounds]
      rfl
  | digits =>
      have range : markAt 91 (48 :: 45 :: 57 :: 93 :: 43 :: 41 :: text) = some (.item (.one isDigit), 4) :=
        bracket_digits _
      change PosixEre.Groups.read 0 (91 :: 48 :: 45 :: 57 :: 93 :: 43 :: 41 :: text)
        ⟨[], g.inner :: g.outer⟩ = _
      rw [PosixEre.Groups.read, range]
      rfl
  | char c =>
      rw [spelled_char]
      by_cases escape : c ∈ ascii ".*?|\\()\x7b\x7d]" ∨ c = 91
      · have plain : ¬ c = 43 ∧ ¬ c = 94 ∧ ¬ c = 36 := by
          refine ⟨?_, ?_, ?_⟩ <;> rintro rfl <;> exact absurd escape (by decide)
        rw [if_pos escape, mark_char, if_neg plain.1, if_neg plain.2.1, if_neg plain.2.2]
        rfl
      · rw [if_neg escape, List.singleton_append, PosixEre.Groups.read, markAt_plain escape]
        rfl

/-- The parts are read one after another. -/
theorem read_pieces (g : PosixEre.Groups) (ps : List Piece) (text : List UInt8) :
    PosixEre.Groups.read 0 (ps.flatMap Piece.spelled ++ text) g =
      (ps.foldlM (fun (g : PosixEre.Groups) p => g.step p.mark) g).bind (PosixEre.Groups.read 0 text) := by
  induction ps generalizing g with
  | nil => rfl
  | cons p ps ih =>
      rw [List.flatMap_cons, List.append_assoc, read_spelled, List.foldlM_cons]
      cases g.step p.mark with
      | none => rfl
      | some g => exact ih g

end Spelled

/-! ### A pattern without marks -/

section Unmarked

variable {g g' : PosixEre.Groups} {p : Piece} {ps : List Piece} {w front behind : List UInt8}

/-- A part that is no bare character. -/
def Piece.Kept (p : Piece) : Prop := ∀ c, p = char c → isBare c = false

theorem mark_of_kept (kept : p.Kept) : p.mark = .item p.meant := by
  cases p with
  | any => rfl
  | one => rfl
  | digits => rfl
  | char c =>
      have plain : c ≠ 43 ∧ c ≠ 94 ∧ c ≠ 36 := by
        have bare := kept c rfl
        simpa [isBare, and_assoc] using bare
      rw [mark_char, if_neg plain.1, if_neg plain.2.1, if_neg plain.2.2]
      rfl

theorem steps_of_kept (g : PosixEre.Groups) (kept : ∀ p ∈ ps, p.Kept) :
    ps.foldlM (fun (g : PosixEre.Groups) p => g.step p.mark) g =
      some { g with inner := g.inner ++ ps.map fun p => (true, p.meant) } := by
  induction ps generalizing g with
  | nil =>
      rw [List.map_nil, List.append_nil]
      rfl
  | cons p ps ih =>
      obtain ⟨first, rest⟩ := List.forall_mem_cons.mp kept
      rw [List.foldlM_cons, mark_of_kept first]
      refine (ih _ rest).trans ?_
      rw [List.map_cons, List.append_assoc]
      rfl

/-- A part matches what it describes, whatever is around it. -/
theorem meant_iff (p : Piece) : p.meant.Matches front w behind ↔ p.Describes w := by
  cases p with
  | any =>
      refine Ere.matches_seq_singleton.trans (iff_of_true ?_ trivial)
      refine ⟨w.length, Nat.zero_le _, fun m absent => absurd absent (Option.not_mem_none m), ?_⟩
      exact Ere.iter_one.mpr ⟨rfl, fun _ _ => rfl⟩
  | one =>
      refine Ere.matches_seq_singleton.trans ?_
      constructor
      · rintro ⟨n, low, high, iter⟩
        have same : n = 1 := Nat.le_antisymm (high 1 rfl) low
        exact (Ere.iter_one.mp iter).1.trans same
      · intro length
        exact ⟨1, Nat.le_refl 1, fun m same => (Option.some.inj same).le, Ere.iter_one.mpr ⟨length, fun _ _ => rfl⟩⟩
  | digits =>
      refine Ere.matches_seq_singleton.trans ?_
      constructor
      · rintro ⟨n, low, -, iter⟩
        obtain ⟨length, all⟩ := Ere.iter_one.mp iter
        exact ⟨List.ne_nil_of_length_pos (length ▸ low), all⟩
      · rintro ⟨some, all⟩
        exact ⟨w.length, List.length_pos_iff.mpr some, fun m absent => absurd absent (Option.not_mem_none m),
          Ere.iter_one.mpr ⟨rfl, all⟩⟩
  | char c =>
      constructor
      · rintro ⟨d, same, rfl⟩
        rw [of_decide_eq_true same]
        rfl
      · rintro rfl
        exact ⟨c, decide_eq_true rfl, rfl⟩

theorem described_iff (ps : List Piece) :
    (Ere.seq (ps.map Piece.meant)).Matches front w behind ↔ Described ps w := by
  induction ps generalizing front w with
  | nil => exact Iff.rfl
  | cons p ps ih =>
      constructor
      · rintro ⟨u, v, rfl, first, rest⟩
        exact ⟨u, v, rfl, (meant_iff p).mp first, ih.mp rest⟩
      · rintro ⟨u, v, rfl, first, rest⟩
        exact ⟨u, v, rfl, (meant_iff p).mpr first, ih.mpr rest⟩

/-- Between the flags the parts are read, with the anchors around them. -/
theorem parse_anchored (ps : List Piece) : parse (anchored (ps.flatMap Piece.spelled)) =
    (ps.foldlM (fun (g : PosixEre.Groups) p => g.step p.mark) ⟨[(false, .start)], []⟩).bind fun g =>
      if g.outer = [] then some (.seq (g.inner.map Prod.snd ++ [.stop])) else none := by
  have opened : PosixEre.Groups.read 0 (anchored (ps.flatMap Piece.spelled)) ⟨[], []⟩ =
      PosixEre.Groups.read 0 (ps.flatMap Piece.spelled ++ [36]) ⟨[(false, .start)], []⟩ := rfl
  rw [parse, opened, read_pieces]
  cases ps.foldlM (fun (g : PosixEre.Groups) p => g.step p.mark) ⟨[(false, .start)], []⟩ with
  | none => rfl
  | some g =>
      have some : g.inner ++ [(false, Ere.stop)] ≠ [] := List.append_ne_nil_of_right_ne_nil _ (List.cons_ne_nil _ _)
      change (if g.outer = [] ∧ g.inner ++ [(false, Ere.stop)] ≠ [] then
        Option.some (Ere.seq ((g.inner ++ [(false, Ere.stop)]).map Prod.snd)) else none) = _
      simp only [some, ne_eq, not_false_eq_true, and_true, List.map_append, Option.bind_some]
      rfl

theorem faithful_of_unmarked {pattern : CString} (unmarked : Unmarked pattern) :
    Faithful pattern (anchored (translated 0 pattern)) := by
  have kept : ∀ p ∈ pieces 0 pattern, p.Kept := by
    rintro p mem c rfl
    exact unmarked c mem
  refine ⟨.seq (.start :: ((pieces 0 pattern).map Piece.meant ++ [.stop])), ?_, fun w => ?_⟩
  · rw [translated_eq, parse_anchored, steps_of_kept _ kept, Option.bind_some, if_pos rfl]
    simp [Function.comp_def]
  · exact Ere.finds_anchored.trans (described_iff _)

end Unmarked

/-! ### A pattern with marks -/

section Marked

variable {g g' : PosixEre.Groups} {p : Piece} {ps : List Piece} {w : List UInt8}

/-- The fewest characters that a part describes. -/
def Piece.weight : Piece → ℕ
  | any => 0
  | _ => 1

/-- One for a bare character. -/
def Piece.bare : Piece → ℕ
  | char c => if isBare c then 1 else 0
  | _ => 0

theorem weight_le (described : Described ps w) : (ps.map Piece.weight).sum ≤ w.length := by
  induction ps generalizing w with
  | nil => exact Nat.zero_le _
  | cons p ps ih =>
      obtain ⟨u, v, rfl, first, rest⟩ := described
      have one : p.weight ≤ u.length := by
        cases p with
        | any => exact Nat.zero_le _
        | one => exact first.ge
        | digits => exact List.length_pos_iff.mpr first.1
        | char c => exact (congrArg List.length first).ge
      rw [List.map_cons, List.sum_cons, List.length_append]
      exact Nat.add_le_add one (ih rest)

theorem exists_described (ps : List Piece) :
    ∃ w, Described ps w ∧ w.length = (ps.map Piece.weight).sum := by
  induction ps with
  | nil => exact ⟨[], rfl, rfl⟩
  | cons p ps ih =>
      obtain ⟨v, rest, length⟩ := ih
      have first : ∃ u, p.Describes u ∧ u.length = p.weight := by
        cases p with
        | any => exact ⟨[], trivial, rfl⟩
        | one => exact ⟨[48], rfl, rfl⟩
        | digits => exact ⟨[48], ⟨List.cons_ne_nil _ _, by decide +kernel⟩, rfl⟩
        | char c => exact ⟨[c], rfl, rfl⟩
      obtain ⟨u, described, short⟩ := first
      refine ⟨u ++ v, ⟨u, v, rfl, described, rest⟩, ?_⟩
      rw [List.map_cons, List.sum_cons, List.length_append, short, length]

/-- A bare character adds nothing to the shortest match, and a part adds its fewest characters otherwise. -/
theorem least_step (step : g.step p.mark = some g') : g'.outer = g.outer ∧
    (Ere.seq (g'.inner.map Prod.snd)).least + p.bare = (Ere.seq (g.inner.map Prod.snd)).least + p.weight := by
  by_cases kept : p.Kept
  · have none : p.bare = 0 := by
      cases p with
      | char c => exact if_neg (Bool.eq_false_iff.mp (kept c rfl))
      | _ => rfl
    have one : (Ere.seq [p.meant]).least = p.weight := by cases p <;> rfl
    rw [mark_of_kept kept] at step
    cases step
    rw [List.map_append, Ere.least_seq_append, none]
    exact ⟨rfl, congrArg (_ + ·) one⟩
  · obtain ⟨c, rfl, bare⟩ : ∃ c, p = .char c ∧ isBare c = true := by
      simpa [Piece.Kept] using kept
    have some : (Piece.char c).bare = 1 := if_pos bare
    have anchor (e : Ere UInt8) (nothing : e.least = 0) (step : g.step (.anchor e) = .some g') :
        g'.outer = g.outer ∧
          (Ere.seq (g'.inner.map Prod.snd)).least = (Ere.seq (g.inner.map Prod.snd)).least := by
      cases step
      rw [List.map_append, Ere.least_seq_append]
      exact ⟨rfl, congrArg (_ + ·) (congrArg (· + 0) nothing)⟩
    rw [mark_char] at step
    rw [some]
    split_ifs at step with plus caret dollar
    · obtain ⟨before, e, is, rfl⟩ := PosixEre.Groups.step_dup step
      have again : (Ere.seq [e.rep 1 none]).least = (Ere.seq [e]).least :=
        congrArg (· + 0) (Nat.one_mul e.least)
      rw [is, List.map_append, List.map_append, Ere.least_seq_append, Ere.least_seq_append]
      exact ⟨rfl, congrArg (_ + · + 1) again⟩
    · obtain ⟨outer, same⟩ := anchor .start rfl step
      exact ⟨outer, congrArg (· + 1) same⟩
    · obtain ⟨outer, same⟩ := anchor .stop rfl step
      exact ⟨outer, congrArg (· + 1) same⟩
    · simp [isBare, plus, caret, dollar] at bare

theorem least_steps (steps : ps.foldlM (fun (g : PosixEre.Groups) p => g.step p.mark) g = some g') :
    g'.outer = g.outer ∧ (Ere.seq (g'.inner.map Prod.snd)).least + (ps.map Piece.bare).sum =
      (Ere.seq (g.inner.map Prod.snd)).least + (ps.map Piece.weight).sum := by
  induction ps generalizing g with
  | nil =>
      cases steps
      exact ⟨rfl, rfl⟩
  | cons p ps ih =>
      rw [List.foldlM_cons] at steps
      obtain ⟨h, step, rest⟩ := Option.bind_eq_some_iff.mp steps
      obtain ⟨outer, one⟩ := least_step step
      obtain ⟨outer', more⟩ := ih rest
      refine ⟨outer'.trans outer, ?_⟩
      rw [List.map_cons, List.map_cons, List.sum_cons, List.sum_cons]
      omega

theorem unmarked_of_faithful {pattern : CString} (faithful : Faithful pattern (anchored (translated 0 pattern))) :
    Unmarked pattern := by
  obtain ⟨e, parsed, same⟩ := faithful
  rw [translated_eq, parse_anchored] at parsed
  obtain ⟨g, steps, is⟩ := Option.bind_eq_some_iff.mp parsed
  obtain ⟨outer, least⟩ := least_steps steps
  rw [if_pos outer] at is
  cases is
  -- a shortest text that is described is found, and so is one as short as the expression allows
  obtain ⟨w, described, length⟩ := exists_described (pieces 0 pattern)
  obtain ⟨front, w', behind, -, found⟩ := (same w).mpr described
  obtain ⟨short, size, serves⟩ := Ere.exists_least found
  have matched := serves [] [] (fun _ => rfl) (fun _ => rfl)
  have low := weight_le ((same short).mp ⟨[], short, [], by simp, matched⟩)
  have none : ((pieces 0 pattern).map Piece.bare).sum = 0 := by
    rw [size, Ere.least_seq_append] at low
    change _ + _ = 0 + _ at least
    change _ ≤ _ + 0 at low
    omega
  intro c mem
  have zero := List.sum_eq_zero_iff_forall_eq_nat.mp none _ (List.mem_map_of_mem mem)
  by_contra bare
  rw [Piece.bare, if_pos (Bool.eq_true_of_not_eq_false bare)] at zero
  cases zero

end Marked

/-- A pattern that is not cut off is translated faithfully exactly when none of `'+'`, `'^'` and `'$'` stands
for itself in it. -/
theorem transferRegEx_faithful_iff (sOrigi : CString) (nul : 0 ∉ sOrigi) (sNew : List UInt8)
    (size : sNew.length = maxUrlLen) (whole : Untruncated sOrigi) :
    ∃ mem text, TransferRegEx sOrigi sNew = some mem ∧ textAt 0 mem 0 = some text ∧
      (Faithful sOrigi (anchored text) ↔ Unmarked sOrigi) := by
  obtain ⟨mem, written, -, text⟩ := transferRegEx_text nul size
  refine ⟨mem, _, written, text, ?_⟩
  rw [whole]
  exact ⟨unmarked_of_faithful, faithful_of_unmarked⟩

/-- `a[*].b`. -/
theorem transferRegEx_faithful_iff_suffix : ∃ mem text,
    TransferRegEx (ascii "a[*].b") (List.replicate maxUrlLen 7) = some mem ∧ textAt 0 mem 0 = some text ∧
      Faithful (ascii "a[*].b") (anchored text) := by
  obtain ⟨mem, text, run, is, faithful⟩ := transferRegEx_faithful_iff (ascii "a[*].b") (by decide)
    (List.replicate maxUrlLen 7) List.length_replicate rfl
  have parts : pieces 0 (ascii "a[*].b") = [.char 97, .any, .char 46, .char 98] := by decide
  refine ⟨mem, text, run, is, faithful.mpr fun c mem => ?_⟩
  rw [parts] at mem
  simp only [List.mem_cons, List.not_mem_nil, Piece.char.injEq, reduceCtorEq, or_false, false_or] at mem
  rcases mem with rfl | rfl | rfl <;> rfl

/-- `a+`. -/
theorem not_transferRegEx_faithful : ¬ ∀ sOrigi sNew : List UInt8, 0 ∉ sOrigi → sNew.length = maxUrlLen →
    Untruncated sOrigi → ∃ mem text, TransferRegEx sOrigi sNew = some mem ∧ textAt 0 mem 0 = some text ∧
      Faithful sOrigi (anchored text) := by
  intro claim
  obtain ⟨mem, text, run, is, faithful⟩ :=
    claim (ascii "a+") (List.replicate maxUrlLen 7) (by decide) List.length_replicate rfl
  have clean : 0 ∉ ascii "a+" := by decide
  obtain ⟨mem', run', -, is'⟩ := transferRegEx_text clean (List.length_replicate (a := (7 : UInt8)))
  cases run.symm.trans run'
  cases is.symm.trans is'
  have plain := unmarked_of_faithful faithful 43 (by decide)
  exact absurd plain (by decide)

end BloomServer
