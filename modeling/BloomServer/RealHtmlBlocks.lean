import BloomServer.RealHtml

/-! Pages that are written one after the other are decoded as they were, as far as their heads can be
told apart. -/
namespace BloomServer
open DecimalText TextSearch Tokens

/-- A page with its head. -/
structure HtmlBlock where
  url : List UInt8
  charset : List UInt8
  content : List UInt8
  url_line : 10 ∉ url
  charset_line : 10 ∉ charset
  url_trimmed : strtrim url = url
  charset_trimmed : strtrim charset = charset

namespace HtmlBlock

/-- What is in front of the page. -/
def head (b : HtmlBlock) : List UInt8 :=
  marker ++ 10 :: (urlTag ++ b.url ++ 10 :: (charsetTag ++ b.charset ++
    10 :: (lengthTag ++ decimal b.content.length ++ [10, 10, 10])))

def text (b : HtmlBlock) : List UInt8 := b.head ++ b.content

def stream (blocks : List HtmlBlock) : List UInt8 := blocks.flatMap text

/-- A page as it is decoded, with what its last hundred bytes say about the site. -/
def html (b : HtmlBlock) : HtmlDes where
  url := b.url
  charset := b.charset
  length := b.content.length
  htmlcontent := b.content
  taskId := atoi (siteValue siteIdTag b.content b.content.length)
  sitename := siteValue siteNameTag b.content b.content.length

/-- The number that the head of a block gives for its page, none that is above what is left as an `int`
counts it. -/
def claimed (b : HtmlBlock) (behind : ℕ) : ℤ :=
  match lineOf lengthTag b.head b.head.length with
  | some line => min (atoi (strtrim (line.take (cInt line.length).toNat))) (cInt (b.content.length + behind))
  | none => 0

/-- The first `charset:` and the first `length:` of a head denote the charset and the length (or more
than the length, if nothing is behind the page), the line of the length fits `len_str`, and an `int`
counts the lines. -/
structure Legible (b : HtmlBlock) (behind : ℕ) : Prop where
  url : b.url.length < 2 ^ 31
  line : ∀ line, lineOf charsetTag b.head b.head.length = some line → 0 ≤ cInt line.length
  charset : stringValue charsetTag b.head b.head.length = b.charset
  short : ∀ line, lineOf lengthTag b.head b.head.length = some line →
    0 ≤ cInt line.length ∧ cInt line.length < 32
  length : b.claimed behind = b.content.length

def AllLegible : List HtmlBlock → Prop
  | [] => True
  | b :: rest => b.Legible (stream rest).length ∧ AllLegible rest

end HtmlBlock

/-! ### Lines -/

variable {tag text rest : List UInt8} {c : UInt8}

theorem lineOf_outside {limit : ℕ} (away : ∀ i < limit, find tag text ≠ some i) :
    lineOf tag text limit = none := by
  unfold lineOf
  cases found : find tag text with
  | none => rfl
  | some i => exact if_neg fun below => away i below found

/-- A line is the same where the text goes on, if neither the tag nor the end of the line reaches into
what is added. -/
theorem lineOf_append (cut : ∀ i < text.length, tag <+: (text ++ rest).drop i → tag <+: text.drop i)
    (stop : ∀ i < text.length, 10 ∉ text.drop i → rest.head? ≠ some 10) :
    lineOf tag (text ++ rest) text.length = lineOf tag text text.length := by
  by_cases inside : ∃ i < text.length, find tag text = some i
  · obtain ⟨i, below, found⟩ := inside
    unfold lineOf
    rw [found, (find_append below cut).mpr found]
    dsimp only
    rw [if_pos below, if_pos below, List.drop_append_of_le_length (Nat.le_of_lt below)]
    by_cases line : 10 ∈ text.drop i
    · rw [strchr_append_of_mem line]
      obtain ⟨e, short, is⟩ := strchr_lt line []
      rw [List.append_nil] at is
      rw [is]
      dsimp only
      rw [List.take_append_of_le_length (Nat.le_of_lt short)]
    · rw [strchr_append line, strchr_eq_none.mpr line]
      cases next : strchr 10 rest with
      | none => rfl
      | some e =>
          have later : e ≠ 0 := by
            rintro rfl
            cases rest with
            | nil => cases next
            | cons b rest =>
                rw [strchr] at next
                split_ifs at next with here
                · exact stop i below line (congrArg some here)
                · obtain ⟨_, _, same⟩ := Option.map_eq_some_iff.mp next
                  omega
          dsimp only [Option.map_some]
          rw [if_neg]
          rw [List.length_drop]
          omega
  · rw [lineOf_outside fun i below found => inside ⟨i, below, (find_append below cut).mp found⟩,
      lineOf_outside fun i below found => inside ⟨i, below, found⟩]

/-- The line behind the first tag. -/
theorem lineOf_line {front line tail : List UInt8} {limit : ℕ} (missing : find tag front = none)
    (name : 10 ∉ tag) (away : 10 ∉ line) (room : (front ++ 10 :: (tag ++ line)).length < limit) :
    lineOf tag (front ++ 10 :: (tag ++ line ++ 10 :: tail)) limit = some line := by
  have found : find tag (front ++ 10 :: (tag ++ line ++ 10 :: tail)) = some (front.length + 1) := by
    rw [find_append_cons name missing, find_at_start, Option.map_some, Nat.add_zero]
    rw [List.append_assoc]
    exact List.prefix_append _ _
  have dropped : (front ++ 10 :: (tag ++ line ++ 10 :: tail)).drop (front.length + 1) =
      tag ++ line ++ 10 :: tail := by
    rw [← List.drop_drop, List.drop_left]
    rfl
  have whole : 10 ∉ tag ++ line := List.not_mem_append name away
  simp only [List.length_append, List.length_cons] at room
  unfold lineOf
  rw [found]
  dsimp only
  rw [if_pos (by omega), dropped, strchr_of_append whole]
  dsimp only
  rw [if_pos (by rw [List.length_append]; omega), List.take_left, List.drop_left]

/-- What does not occur in the tag keeps it from reaching over. -/
theorem prefix_drop (away : c ∉ tag) {i : ℕ} (low : i ≤ text.length) :
    tag <+: (text ++ c :: rest).drop i ↔ tag <+: text.drop i := by
  rw [List.drop_append_of_le_length low]
  exact prefix_append_cons away

namespace HtmlBlock

variable (b : HtmlBlock)

theorem head_eq : ∃ front, b.head = front ++ [10] := by
  refine ⟨marker ++ 10 :: (urlTag ++ b.url ++ 10 :: (charsetTag ++ b.charset ++
    10 :: (lengthTag ++ decimal b.content.length ++ [10, 10]))), ?_⟩
  simp only [head, List.append_assoc, List.cons_append, List.nil_append]

/-- A head ends with the line, so that its lines do not depend on the page. -/
theorem lineOf_head (away : 10 ∉ tag) (body : List UInt8) :
    lineOf tag (b.head ++ body) b.head.length = lineOf tag b.head b.head.length := by
  obtain ⟨front, same⟩ := b.head_eq
  rw [same]
  apply lineOf_append
  · intro i below lead
    rw [List.length_append, List.length_singleton] at below
    rw [List.append_assoc, List.singleton_append, prefix_drop away (Nat.le_of_lt_succ below)] at lead
    exact (prefix_drop away (Nat.le_of_lt_succ below)).mpr lead
  · intro i below line
    rw [List.length_append, List.length_singleton] at below
    rw [List.drop_append_of_le_length (Nat.le_of_lt_succ below)] at line
    exact absurd (List.mem_append_right _ List.mem_cons_self) line

end HtmlBlock

/-- The lines of a page do not depend on the next head. -/
theorem lineOf_page (away : 35 ∉ tag) (next : rest = [] ∨ ∃ more, rest = 35 :: more) :
    lineOf tag (text ++ rest) text.length = lineOf tag text text.length := by
  apply lineOf_append
  · intro i below lead
    rcases next with rfl | ⟨more, rfl⟩
    · rwa [List.append_nil] at lead
    · exact (prefix_drop away (Nat.le_of_lt below)).mp lead
  · rintro i below line
    rcases next with rfl | ⟨more, rfl⟩
    · simp
    · simp

/-- A number does not end its line. -/
theorem not_mem_decimal (n : ℕ) : 10 ∉ decimal n := fun mem => absurd (isDigit_of_mem_decimal mem) (by decide)

/-- A line that is followed by something else than an empty one. -/
theorem find_newlines (away : 10 ∉ text) (other : rest.head? ≠ some 10) :
    find [10, 10, 10] (text ++ 10 :: rest) = (find [10, 10, 10] rest).map (text.length + 1 + ·) := by
  have lead : ¬ [10, 10, 10] <+: 10 :: rest := by
    rintro ⟨more, same⟩
    injection same with _ same
    exact other (congrArg List.head? same).symm
  rw [find_skip away, find_cons_of_not lead, map_add_map_add]

namespace HtmlBlock

variable (b : HtmlBlock)

theorem nextBlock_text (rest : List UInt8) :
    nextBlock (b.text ++ rest) = some (b.text ++ rest, b.head.length) := by
  have digits : 10 ∉ lengthTag ++ decimal b.content.length :=
    List.not_mem_append (by decide) (not_mem_decimal _)
  have url : 10 ∉ urlTag ++ b.url := List.not_mem_append (by decide) b.url_line
  have charset : 10 ∉ charsetTag ++ b.charset := List.not_mem_append (by decide) b.charset_line
  have layout : b.text ++ rest = marker ++ 10 :: (urlTag ++ b.url ++ 10 :: (charsetTag ++ b.charset ++
      10 :: (lengthTag ++ decimal b.content.length ++ 10 :: 10 :: 10 :: (b.content ++ rest)))) := by
    simp only [text, head, List.append_assoc, List.cons_append, List.nil_append]
  have begins : find marker (b.text ++ rest) = some 0 := by
    rw [layout]
    exact find_at_start (List.prefix_append _ _)
  have ends : find [10, 10, 10] (b.text ++ rest) = some (b.head.length - 3) := by
    have last : find [10, 10, 10] (10 :: 10 :: 10 :: (b.content ++ rest)) = some 0 :=
      find_at_start ⟨b.content ++ rest, rfl⟩
    have first : 10 ∉ marker := by decide
    have afterMarker : (urlTag ++ b.url ++ 10 :: (charsetTag ++ b.charset ++ 10 :: (lengthTag ++
        decimal b.content.length ++ 10 :: 10 :: 10 :: (b.content ++ rest)))).head? ≠ some 10 := by
      change some 117 ≠ some 10
      decide
    have afterUrl : (charsetTag ++ b.charset ++ 10 :: (lengthTag ++ decimal b.content.length ++
        10 :: 10 :: 10 :: (b.content ++ rest))).head? ≠ some 10 := by
      change some 99 ≠ some 10
      decide
    have afterCharset : (lengthTag ++ decimal b.content.length ++
        10 :: 10 :: 10 :: (b.content ++ rest)).head? ≠ some 10 := by
      change some 108 ≠ some 10
      decide
    rw [layout, find_newlines first afterMarker, find_newlines url afterUrl, find_newlines charset afterCharset,
      find_skip digits, last]
    simp only [head, Option.map_some, List.length_append, List.length_cons, List.length_nil, Option.some_inj]
    omega
  have long : 3 ≤ b.head.length := by
    simp only [head, List.length_append, List.length_cons, List.length_nil]
    omega
  unfold nextBlock
  rw [begins]
  dsimp only
  rw [List.drop_zero, ends, Option.map_some, Nat.sub_add_cancel long]

theorem layout : b.head = marker ++ 10 :: (urlTag ++ b.url ++ 10 :: (charsetTag ++ b.charset ++
    10 :: (lengthTag ++ decimal b.content.length ++ 10 :: [10, 10]))) := rfl

theorem lineOf_url : lineOf urlTag b.head b.head.length = some b.url := by
  apply lineOf_line (by decide) (by decide) b.url_line
  simp only [layout, List.length_append, List.length_cons]
  omega

/-- The first `charset:` of a head is its own when there is none in the URL. -/
theorem lineOf_charset (missing : find charsetTag b.url = none) :
    lineOf charsetTag b.head b.head.length = some b.charset := by
  have cut : b.head = (marker ++ 10 :: (urlTag ++ b.url)) ++ 10 :: (charsetTag ++ b.charset ++
      10 :: (lengthTag ++ decimal b.content.length ++ [10, 10, 10])) := by
    simp only [head, List.append_assoc, List.cons_append]
  have away : (99 : UInt8) ∉ urlTag := by decide
  have skipped : find charsetTag (urlTag ++ b.url) = none := by
    have passed : find charsetTag (urlTag ++ b.url) = (find charsetTag b.url).map (urlTag.length + ·) :=
      find_skip away b.url
    rw [passed, missing, Option.map_none]
  have none : find charsetTag (marker ++ 10 :: (urlTag ++ b.url)) = none := by
    rw [find_append_cons (by decide) (by decide), skipped, Option.map_none]
  rw [cut]
  apply lineOf_line none (by decide) b.charset_line
  simp only [List.length_append, List.length_cons]
  omega

theorem find_lengthTag_url (url : List UInt8) :
    find lengthTag (urlTag ++ url) = (find lengthTag url).map (4 + ·) := by
  have front : (108 : UInt8) ∉ [117, 114] := by decide
  have back : (108 : UInt8) ∉ [58] := by decide
  have lead : ¬ lengthTag <+: 108 :: 58 :: url := by
    intro lead
    have second := (List.cons_prefix_cons.mp (List.cons_prefix_cons.mp lead).2).1
    exact absurd second (by decide)
  have first : find lengthTag ([117, 114] ++ 108 :: ([58] ++ url)) =
      (find lengthTag (108 :: ([58] ++ url))).map (2 + ·) := find_skip front _
  have last : find lengthTag ([58] ++ url) = (find lengthTag url).map (1 + ·) := find_skip back url
  change find lengthTag ([117, 114] ++ 108 :: ([58] ++ url)) = _
  have middle : find lengthTag (108 :: ([58] ++ url)) = (find lengthTag ([58] ++ url)).map (1 + ·) :=
    find_cons_of_not lead
  rw [first, middle, last, map_add_map_add, map_add_map_add]

/-- And the first `length:`, when there is none in the URL and the charset. -/
theorem lineOf_length (url : find lengthTag b.url = none) (charset : find lengthTag b.charset = none) :
    lineOf lengthTag b.head b.head.length = some (decimal b.content.length) := by
  have cut : b.head = (marker ++ 10 :: (urlTag ++ b.url ++ 10 :: (charsetTag ++ b.charset))) ++
      10 :: (lengthTag ++ decimal b.content.length ++ 10 :: [10, 10]) := by
    simp only [head, List.append_assoc, List.cons_append]
  have away : (108 : UInt8) ∉ charsetTag := by decide
  have first : find lengthTag (urlTag ++ b.url) = none := by
    rw [find_lengthTag_url, url, Option.map_none]
  have second : find lengthTag (charsetTag ++ b.charset) = none := by
    have passed : find lengthTag (charsetTag ++ b.charset) =
        (find lengthTag b.charset).map (charsetTag.length + ·) := find_skip away b.charset
    rw [passed, charset, Option.map_none]
  have none : find lengthTag (marker ++ 10 :: (urlTag ++ b.url ++ 10 :: (charsetTag ++ b.charset))) = none := by
    rw [find_append_cons (by decide) (by decide), find_append_cons (by decide) first, second, Option.map_none,
      Option.map_none]
  rw [cut]
  apply lineOf_line none (by decide) (not_mem_decimal _)
  simp only [List.length_append, List.length_cons]
  omega

/-- The URL is read whole exactly when an `int` counts it. -/
theorem stringValue_url : stringValue urlTag b.head b.head.length = b.url ↔ b.url.length < 2 ^ 31 := by
  unfold stringValue
  rw [b.lineOf_url, Option.map_some, Option.getD_some]
  constructor
  · intro whole
    have length := length_strtrim (b.url.take (cInt b.url.length).toNat)
    rw [whole, List.length_take] at length
    have below := cInt_le b.url.length
    by_contra large
    have less : cInt b.url.length ≠ b.url.length := fun same => large (cInt_eq_self.mp same)
    omega
  · intro small
    rw [cInt_small small, Int.toNat_natCast, List.take_length, b.url_trimmed]

theorem lineOf_text (away : 10 ∉ tag) (rest : List UInt8) :
    lineOf tag (b.text ++ rest) b.head.length = lineOf tag b.head b.head.length := by
  unfold text
  rw [List.append_assoc, b.lineOf_head away]

theorem stringValue_text (away : 10 ∉ tag) (rest : List UInt8) :
    stringValue tag (b.text ++ rest) b.head.length = stringValue tag b.head b.head.length := by
  unfold stringValue
  rw [b.lineOf_text away]

theorem claimedLength_text (rest : List UInt8) :
    claimedLength (b.text ++ rest) b.head.length = b.claimed rest.length := by
  have left : (b.text ++ rest).length - b.head.length = b.content.length + rest.length := by
    simp only [text, List.length_append]
    omega
  have same : lineOf lengthTag (b.text ++ rest) b.head.length = _ := b.lineOf_text (by decide) rest
  unfold claimedLength claimed
  cases is : lineOf lengthTag b.head b.head.length with
  | none => simp only [same, is]
  | some line => simp only [same, is, left]

/-- What a block with a sound head is read as. -/
theorem readBlock_text {rest : List UInt8} (sound : HeadSound (b.text ++ rest) b.head.length) :
    readBlock (b.text ++ rest) b.head.length =
      .ok ⟨stringValue urlTag b.head b.head.length, stringValue charsetTag b.head b.head.length,
        b.claimed rest.length, (b.content ++ rest).take (b.claimed rest.length).toNat,
        atoi (siteValue siteIdTag (b.content ++ rest) (b.claimed rest.length)),
        siteValue siteNameTag (b.content ++ rest) (b.claimed rest.length)⟩ := by
  have body : (b.text ++ rest).drop b.head.length = b.content ++ rest := by
    unfold text
    rw [List.append_assoc, List.drop_left]
  rw [readBlock_eq (stringField_sound sound.url) (stringField_sound sound.charset)
      (htmlLength_sound sound.length), if_neg (Int.not_lt.mpr sound.claimed), if_neg (Int.not_lt.mpr (claimedLength_le _ _)), body,
    b.stringValue_text (by decide), b.stringValue_text (by decide), b.claimedLength_text]

theorem headSound_text (rest : List UInt8) :
    HeadSound (b.text ++ rest) b.head.length ↔ 0 ≤ cInt b.url.length ∧
      (∀ line, lineOf charsetTag b.head b.head.length = some line → 0 ≤ cInt line.length) ∧
      (∀ line, lineOf lengthTag b.head b.head.length = some line →
        0 ≤ cInt line.length ∧ cInt line.length < 32) ∧
      0 ≤ b.claimed rest.length := by
  have url : lineOf urlTag (b.text ++ rest) b.head.length = some b.url := by
    rw [b.lineOf_text (by decide), b.lineOf_url]
  have charset : lineOf charsetTag (b.text ++ rest) b.head.length = _ := b.lineOf_text (by decide) rest
  have length : lineOf lengthTag (b.text ++ rest) b.head.length = _ := b.lineOf_text (by decide) rest
  rw [← charset, ← length, ← b.claimedLength_text]
  constructor
  · intro sound
    exact ⟨sound.url _ url, sound.charset, sound.length, sound.claimed⟩
  · rintro ⟨counted, charset, length, claimed⟩
    refine ⟨fun line is => ?_, charset, length, claimed⟩
    rw [url] at is
    cases is
    exact counted

/-- What the last hundred bytes of a page say about the site does not depend on the next head. -/
theorem siteValue_text (away : 35 ∉ tag) (next : rest = [] ∨ ∃ more, rest = 35 :: more) :
    siteValue tag (b.content ++ rest) b.content.length = siteValue tag b.content b.content.length := by
  have low : backBytes b.content.length ≤ b.content.length := by
    unfold backBytes
    split_ifs <;> omega
  have limit : ((b.content.length : ℤ) - backBytes b.content.length).toNat =
      (b.content.drop (backBytes b.content.length)).length := by
    rw [List.length_drop]
    omega
  unfold siteValue stringValue
  rw [limit, List.drop_append_of_le_length low, lineOf_page away next]

/-- A block is decoded as it was written exactly when its head is legible. -/
theorem readBlock_iff (rest : List UInt8) (next : rest = [] ∨ ∃ more, rest = 35 :: more) :
    readBlock (b.text ++ rest) b.head.length = .ok b.html ↔ b.Legible rest.length := by
  constructor
  · intro same
    by_cases sound : HeadSound (b.text ++ rest) b.head.length
    · obtain ⟨-, line, short, -⟩ := (b.headSound_text rest).mp sound
      rw [b.readBlock_text sound] at same
      injection same with same
      exact ⟨b.stringValue_url.mp (congrArg HtmlDes.url same), line, congrArg HtmlDes.charset same, short,
        congrArg HtmlDes.length same⟩
    · obtain ⟨fault, -, read⟩ := readBlock_unsound sound
      rw [read] at same
      cases same
  · intro legible
    have counted : 0 ≤ cInt b.url.length := by
      rw [cInt_small legible.url]
      omega
    have claimed : 0 ≤ b.claimed rest.length := by
      rw [legible.length]
      omega
    have sound := (b.headSound_text rest).mpr ⟨counted, legible.line, legible.short, claimed⟩
    rw [b.readBlock_text sound, b.stringValue_url.mpr legible.url, legible.charset, legible.length,
      Int.toNat_natCast, List.take_left, b.siteValue_text (by decide) next, b.siteValue_text (by decide) next]
    rfl

/-! ### All blocks -/

theorem stream_next (blocks : List HtmlBlock) : stream blocks = [] ∨ ∃ more, stream blocks = 35 :: more := by
  cases blocks with
  | nil => exact Or.inl rfl
  | cons b blocks => exact Or.inr ⟨_, rfl⟩

theorem realHtmlLoop_stream (blocks : List HtmlBlock) {fuel : ℕ} (enough : (stream blocks).length < fuel) :
    realHtmlLoop fuel (stream blocks) = some (.ok (blocks.map html)) ↔ AllLegible blocks := by
  induction blocks generalizing fuel with
  | nil =>
      cases fuel with
      | zero => omega
      | succ fuel => exact iff_of_true rfl trivial
  | cons b blocks ih =>
      cases fuel with
      | zero => omega
      | succ fuel =>
          have layout : stream (b :: blocks) = b.text ++ stream blocks := List.flatMap_cons
          have nonempty : 0 < b.text.length := by
            simp only [text, head, List.length_append, List.length_cons]
            omega
          rw [layout] at enough ⊢
          rw [List.length_append] at enough
          have rest : realHtmlLoop fuel (stream blocks) = _ ↔ _ := ih (by omega)
          have one := b.readBlock_iff (stream blocks) (stream_next blocks)
          unfold realHtmlLoop AllLegible
          rw [b.nextBlock_text, ← one, ← rest, List.map_cons]
          dsimp only
          have past : (b.text ++ stream blocks).drop (b.head.length + b.html.length.toNat) = stream blocks :=
            List.drop_left' (List.length_append ..)
          constructor
          · intro whole
            cases read : readBlock (b.text ++ stream blocks) b.head.length with
            | error fault =>
                rw [read] at whole
                cases whole
            | ok page =>
                rw [read] at whole
                obtain ⟨out, later, same⟩ := Option.map_eq_some_iff.mp whole
                cases out with
                | error fault => cases same
                | ok htmls =>
                    injection same with same
                    injection same with first others
                    rw [first, past, others] at later
                    exact ⟨congrArg Except.ok first, later⟩
          · rintro ⟨read, later⟩
            rw [read]
            dsimp only
            rw [past, later]
            rfl

end HtmlBlock

/-- Of every buffer, `get_real_html` makes pages exactly when the heads that it comes to are sound, and
in no case does it run on or leave the buffer; blocks one after the other are the pages that it makes of
them exactly when their heads are legible. -/
theorem real_html_iff (buf : List UInt8) (blocks : List HtmlBlock) :
    (∃ out, getRealHtml buf = some out ∧ out ≠ .error .outside ∧ ((∃ htmls, out = .ok htmls) ↔ Sane buf)) ∧
      (getRealHtml (HtmlBlock.stream blocks) = some (.ok (blocks.map HtmlBlock.html)) ↔
        HtmlBlock.AllLegible blocks) :=
  ⟨realHtmlLoop_iff (Nat.lt_succ_self buf.length), HtmlBlock.realHtmlLoop_stream blocks (Nat.lt_succ_self _)⟩

namespace HtmlBlock

theorem strtrim_digits {text : List UInt8} (digits : ∀ b ∈ text, isDigit b = true) : strtrim text = text := by
  have kept : ∀ b ∈ text, trimmed b = false := by
    intro b mem
    by_contra blank
    rw [Bool.not_eq_false] at blank
    have bounds := digits b mem
    unfold trimmed at blank
    simp only [Bool.or_eq_true, decide_eq_true_eq] at blank
    rcases blank with ((rfl | rfl) | rfl) | rfl <;> exact absurd bounds (by decide)
  have keep : ∀ text : List UInt8, (∀ b ∈ text, trimmed b = false) → text.dropWhile trimmed = text := by
    intro text kept
    cases text with
    | nil => rfl
    | cons b text =>
        have first := kept b List.mem_cons_self
        exact List.dropWhile_cons_of_neg (by rw [first]; exact Bool.false_ne_true)
  unfold strtrim List.rdropWhile
  rw [keep text.reverse fun b mem => kept b (List.mem_reverse.mp mem), List.reverse_reverse, keep text kept]

/-- A block whose URL and charset hold no tag of a later line is legible. -/
theorem legible_of_plain (b : HtmlBlock) (urlCharset : find charsetTag b.url = none)
    (urlLength : find lengthTag b.url = none) (charsetLength : find lengthTag b.charset = none)
    (urlSmall : b.url.length < 2 ^ 31) (charsetSmall : b.charset.length < 2 ^ 31) {behind : ℕ}
    (small : b.content.length + behind < 2 ^ 31) : b.Legible behind := by
  have charset := b.lineOf_charset urlCharset
  have length := b.lineOf_length urlLength charsetLength
  have narrow : (decimal b.content.length).length ≤ 10 := (length_decimal_le_iff (by decide)).mpr (by omega)
  have digits : ∀ c ∈ decimal b.content.length, isDigit c = true := fun c mem => isDigit_of_mem_decimal mem
  have count : cInt (decimal b.content.length).length = (decimal b.content.length).length :=
    cInt_small (by omega)
  refine ⟨urlSmall, ?_, ?_, ?_, ?_⟩
  · intro line is
    rw [charset] at is
    cases is
    rw [cInt_small charsetSmall]
    omega
  · unfold stringValue
    rw [charset, Option.map_some, Option.getD_some, cInt_small charsetSmall, Int.toNat_natCast,
      List.take_length, b.charset_trimmed]
  · intro line is
    rw [length] at is
    cases is
    omega
  · have number : atoi (decimal b.content.length) = b.content.length := by
      rw [atoi_digits digits (decimal_ne_nil _) (by rw [value_decimal]; omega), value_decimal]
    unfold claimed
    rw [length]
    dsimp only
    rw [count, Int.toNat_natCast, List.take_length, strtrim_digits digits, number, cInt_small small]
    omega

end HtmlBlock

/-- Two pages, the first with a line about its site. -/
def twoBlocks : List HtmlBlock :=
  [⟨ascii "u", ascii "c", ascii "<p>site_id: 7\n</p>", by decide, by decide, by decide, by decide⟩,
    ⟨ascii "v", [], [], by decide, by decide, by decide, by decide⟩]

theorem real_html_twoBlocks :
    getRealHtml (HtmlBlock.stream twoBlocks) = some (.ok (twoBlocks.map HtmlBlock.html)) :=
  (real_html_iff [] twoBlocks).2.mpr
    ⟨HtmlBlock.legible_of_plain _ (by decide) (by decide) (by decide) (by decide) (by decide)
        (by decide +kernel),
      HtmlBlock.legible_of_plain _ (by decide) (by decide) (by decide) (by decide) (by decide)
        (by decide +kernel), trivial⟩

/-- A length of -1. -/
theorem not_real_html : ¬ ((∀ buf, ∃ htmls, getRealHtml buf = some (.ok htmls)) ∧
    ∀ blocks, getRealHtml (HtmlBlock.stream blocks) = some (.ok (blocks.map HtmlBlock.html))) := by
  rintro ⟨total, -⟩
  obtain ⟨htmls, same⟩ := total (ascii "##!!!##\nlength:-1\n\n\n")
  have fault : getRealHtml (ascii "##!!!##\nlength:-1\n\n\n") = some (.error .lengthError) := by decide +kernel
  rw [fault] at same
  cases same

end BloomServer
