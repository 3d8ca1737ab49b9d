import BloomServer.HashTable
import BloomServer.PageAnalysis
import BloomServer.RealHtml

/-! `UrlAnalyseManager::extractUrlsFromContent`: the links of a page, and which of them leads to the
next page. -/
namespace BloomServer
open DecimalText HashTable

namespace NextPage

/-- A link as `hlink_detect_string` reports it: its URL, and its anchor text if it has one. -/
structure FoundLink where
  url : List UInt8
  anchor : Option (List UInt8)

/-- `HtRegex::replace` of `<[^>]+>` by nothing; inside a match everything goes up to its end. -/
def removeTags : Bool → List UInt8 → List UInt8
  | _, [] => []
  | true, c :: rest => removeTags (c ≠ 62) rest
  | false, c :: rest =>
      if c = 60 ∧ rest.head? ≠ some 62 ∧ 62 ∈ rest then removeTags true rest else c :: removeTags false rest

/-- The text of an anchor. -/
def anchorText (anchor : List UInt8) : List UInt8 := strtrim (removeTags false anchor)

/-- The words for the next page, in GBK and in UTF-8, with and without brackets. -/
def nextPageWords : List (List UInt8) :=
  [[0xCF, 0xC2, 0xD2, 0xBB, 0xD2, 0xB3], [91, 0xCF, 0xC2, 0xD2, 0xBB, 0xD2, 0xB3, 93],
    [0xE4, 0xB8, 0x8B, 0xE4, 0xB8, 0x80, 0xE9, 0xA1, 0xB5], [91, 0xE4, 0xB8, 0x8B, 0xE4, 0xB8, 0x80, 0xE9, 0xA1, 0xB5, 93]]

/-- `%02d`. -/
def printInt2 (n : ℤ) : List UInt8 := if 0 ≤ n ∧ n < 10 then 48 :: printInt n else printInt n

/-- The numbers of the next page, as they are printed one after the other into `nextpagenum`. -/
def nextPageNumbers (page : ℤ) : List (List UInt8) :=
  [printInt (page + 1), 91 :: (printInt (page + 1) ++ [93]), printInt2 (page + 1),
    91 :: (printInt2 (page + 1) ++ [93])]

def addWords (fuel : ℕ) : HashTable → List (List UInt8) → Option HashTable
  | t, [] => some t
  | t, word :: words => (t.hashFindOrAdd fuel word 0).bind fun (_, _, t) => addWords fuel t words

/-- A table of some words. -/
def wordTable (fuel : ℕ) (words : List (List UInt8)) : Option HashTable :=
  (create 383).bind fun t => addWords fuel t words

/-- What is kept of a link. -/
structure LinkNode where
  url : List UInt8
  title : List UInt8
  deriving DecidableEq

def maxUrlLen : ℕ := 1024
def maxTitleLen : ℕ := 128

/-- What `onfind` works on: the nodes, and the URL of the next page. -/
structure Package where
  urls : List LinkNode
  nextpageurl : List UInt8
  deriving DecidableEq

/-- The types of page that have a next one. -/
def turns (type : Int32) : Bool :=
  hasFlag type urlTypeFinalpage || hasFlag type urlTypeListpage || hasFlag type urlTypeHomepage

def onfind (type : Int32) (hashtablenextnum hashtablenextpage : HashTable) (p : Package) (link : FoundLink) :
    Package :=
  let node := LinkNode.mk (link.url.take (maxUrlLen - 1))
    (link.anchor.elim [] fun anchor => (anchorText anchor).take (maxTitleLen - 1))
  let urls := p.urls ++ [node]
  let text := link.anchor.elim [] anchorText
  if turns type && text ≠ [] && p.nextpageurl = [] &&
      ((if text.length ≤ 4 then hashtablenextnum else hashtablenextpage).hashFind text).isSome then
    ⟨urls, link.url⟩
  else ⟨urls, p.nextpageurl⟩

/-- The length of `nextpagenum`. -/
def nextPageNumLen : ℕ := 10

/-- `extractUrlsFromContent`, with the table of the constructor. A number with too many
characters is written past the end of its buffer, as one that an `int` cannot hold would be. -/
def extractUrlsFromContent (fuel : ℕ) (hashtablenextpage : HashTable) (type : Int32) (page : ℤ)
    (links : List FoundLink) : Option Package :=
  if (nextPageNumbers page).all fun text => text.length < nextPageNumLen then
    (wordTable fuel (nextPageNumbers page)).map fun hashtablenextnum =>
      links.foldl (onfind type hashtablenextnum hashtablenextpage) ⟨[], []⟩
  else none

/-- An anchor that names the next page. -/
def NamesNext (page : ℤ) (anchor : List UInt8) : Prop :=
  let text := anchorText anchor
  text ∈ nextPageWords ∨ text.length ≤ 4 ∧ text ∈ nextPageNumbers page

instance (page : ℤ) (anchor : List UInt8) : Decidable (NamesNext page anchor) :=
  inferInstanceAs (Decidable (_ ∨ _))

/-- A link that leads to the next page. -/
def FoundLink.leadsOn (page : ℤ) (link : FoundLink) : Bool :=
  link.url ≠ [] && link.anchor.any fun anchor => NamesNext page anchor

/-- The node of a link. -/
def FoundLink.node (link : FoundLink) : LinkNode :=
  ⟨link.url.take (maxUrlLen - 1), link.anchor.elim [] fun anchor => (anchorText anchor).take (maxTitleLen - 1)⟩

theorem addWords_finds {words : List (List UInt8)} {fuel : ℕ} (enough : 2 ≤ fuel) {t : HashTable} (sound : t.Sound)
    (room : t.entries + words.length ≤ 257) : ∃ t', addWords fuel t words = some t' ∧
      ∀ text, (t'.view text).isSome = true ↔ (t.view text).isSome = true ∨ text ∈ words := by
  induction words generalizing t with
  | nil => exact ⟨t, rfl, fun text => by simp⟩
  | cons word words ih =>
      have most := sound.least_buckets
      rw [List.length_cons] at room
      have takes : t.Takes word := Or.inr (Or.inl (by omega))
      obtain ⟨t₁, run, sound₁, fewer, same⟩ := sound.hashFindOrAdd takes 0 enough
      obtain ⟨t', rest, finds⟩ := ih sound₁ (by omega)
      refine ⟨t', ?_, fun text => ?_⟩
      · rw [addWords, run]
        exact rest
      · rw [finds, same]
        by_cases here : text = word
        · subst here
          simp
        · rw [Function.update_of_ne here, List.mem_cons, or_iff_right (a := text = word) here]

/-- What the constructor's table and that of a page find. -/
structure Tables (page : ℤ) (hashtablenextnum hashtablenextpage : HashTable) : Prop where
  numbers : ∀ text, (hashtablenextnum.hashFind text).isSome = true ↔ text ∈ nextPageNumbers page
  words : ∀ text, (hashtablenextpage.hashFind text).isSome = true ↔ text ∈ nextPageWords

theorem wordTable_finds {words : List (List UInt8)} {fuel : ℕ} (enough : 2 ≤ fuel) (few : words.length ≤ 257) :
    ∃ t, wordTable fuel words = some t ∧ ∀ text, (t.hashFind text).isSome = true ↔ text ∈ words := by
  obtain ⟨t₀, made⟩ := exists_create
  obtain ⟨sound, _, empty⟩ := create_empty made
  obtain ⟨t, run, finds⟩ := @addWords_finds words _ enough t₀ sound (by omega)
  refine ⟨t, ?_, fun text => ?_⟩
  · rw [wordTable, made]
    exact run
  · rw [← view_isSome, finds, view_create made]
    exact or_iff_right Bool.false_ne_true

theorem length_words {text : List UInt8} (mem : text ∈ nextPageWords) : 4 < text.length := by
  have all : ∀ text ∈ nextPageWords, 4 < text.length := by decide
  exact all text mem

theorem numbers_ne_nil {page : ℤ} {text : List UInt8} (mem : text ∈ nextPageNumbers page) : text ≠ [] := by
  have some : printInt (page + 1) ≠ [] := by
    rw [printInt]
    split
    next => exact List.cons_ne_nil _ _
    next => exact decimal_ne_nil _
  simp only [nextPageNumbers, List.mem_cons, List.not_mem_nil, or_false] at mem
  rcases mem with rfl | rfl | rfl | rfl
  · exact some
  · exact List.cons_ne_nil _ _
  · rw [printInt2]
    split
    next => exact List.cons_ne_nil _ _
    next => exact some
  · exact List.cons_ne_nil _ _

variable {page : ℤ} {hashtablenextnum hashtablenextpage : HashTable}

/-- A short text is looked for among the numbers, a long one among the words. -/
theorem Tables.names (tables : Tables page hashtablenextnum hashtablenextpage) (anchor : List UInt8) :
    (anchorText anchor ≠ [] ∧ ((if (anchorText anchor).length ≤ 4 then hashtablenextnum
      else hashtablenextpage).hashFind (anchorText anchor)).isSome = true) ↔ NamesNext page anchor := by
  rw [NamesNext]
  by_cases short : (anchorText anchor).length ≤ 4
  · rw [if_pos short, tables.numbers]
    constructor
    · exact fun both => Or.inr ⟨short, both.2⟩
    · rintro (word | ⟨_, number⟩)
      · exact absurd (length_words word) (Nat.not_lt.mpr short)
      · exact ⟨numbers_ne_nil number, number⟩
  · rw [if_neg short, tables.words]
    constructor
    · exact fun both => Or.inl both.2
    · rintro (word | ⟨few, _⟩)
      · exact ⟨List.ne_nil_of_length_pos (Nat.lt_trans (by decide) (length_words word)), word⟩
      · exact absurd few short

theorem onfind_eq (tables : Tables page hashtablenextnum hashtablenextpage) (type : Int32) (p : Package)
    (link : FoundLink) : onfind type hashtablenextnum hashtablenextpage p link =
      ⟨p.urls ++ [link.node],
        if turns type = true ∧ p.nextpageurl = [] ∧ link.leadsOn page = true then link.url else p.nextpageurl⟩ := by
  have chosen : (turns type && link.anchor.elim [] anchorText ≠ [] && p.nextpageurl = [] &&
      ((if (link.anchor.elim [] anchorText).length ≤ 4 then hashtablenextnum
        else hashtablenextpage).hashFind (link.anchor.elim [] anchorText)).isSome) = true ↔
      turns type = true ∧ p.nextpageurl = [] ∧ link.anchor.any (fun anchor => NamesNext page anchor) = true := by
    simp only [Bool.and_eq_true, decide_eq_true_eq]
    rcases link.anchor with _ | anchor
    · simp
    · rw [Option.elim_some, Option.any_some, decide_eq_true_eq, ← tables.names]
      tauto
  rw [onfind]
  by_cases holds : turns type = true ∧ p.nextpageurl = [] ∧ link.anchor.any (fun anchor => NamesNext page anchor) = true
  · rw [if_pos (chosen.mpr holds)]
    by_cases none : link.url = []
    · have not : ¬ (turns type = true ∧ p.nextpageurl = [] ∧ link.leadsOn page = true) := by
        rintro ⟨_, _, leads⟩
        rw [FoundLink.leadsOn, none] at leads
        exact Bool.false_ne_true leads
      rw [if_neg not]
      exact congrArg (Package.mk _) (none.trans holds.2.1.symm)
    · have leads : link.leadsOn page = true := by
        rw [FoundLink.leadsOn, holds.2.2, Bool.and_true]
        exact decide_eq_true none
      rw [if_pos ⟨holds.1, holds.2.1, leads⟩]
      rfl
  · rw [if_neg fun now => holds (chosen.mp now), if_neg]
    · rfl
    · rintro ⟨turn, unset, leads⟩
      rw [FoundLink.leadsOn, Bool.and_eq_true] at leads
      exact holds ⟨turn, unset, leads.2⟩

/-- The first link that leads on is taken, and stays. -/
theorem foldl_onfind (tables : Tables page hashtablenextnum hashtablenextpage) (type : Int32)
    (links : List FoundLink) (p : Package) :
    links.foldl (onfind type hashtablenextnum hashtablenextpage) p =
      ⟨p.urls ++ links.map FoundLink.node,
        if turns type = true ∧ p.nextpageurl = [] then
          ((links.find? fun link => link.leadsOn page).map FoundLink.url).getD []
        else p.nextpageurl⟩ := by
  induction links generalizing p with
  | nil =>
      rw [List.foldl_nil, List.map_nil, List.append_nil]
      by_cases unset : turns type = true ∧ p.nextpageurl = []
      · rw [if_pos unset]
        exact congrArg (Package.mk p.urls) unset.2
      · rw [if_neg unset]
  | cons link links ih =>
      rw [List.foldl_cons, onfind_eq tables, ih, List.map_cons, List.append_assoc, List.singleton_append]
      refine congrArg (Package.mk _) ?_
      dsimp only
      by_cases unset : turns type = true ∧ p.nextpageurl = []
      · by_cases leads : link.leadsOn page = true
        · have some : link.url ≠ [] := by
            rw [FoundLink.leadsOn, Bool.and_eq_true] at leads
            exact of_decide_eq_true leads.1
          have taken : (if turns type = true ∧ p.nextpageurl = [] ∧ link.leadsOn page = true then link.url
              else p.nextpageurl) = link.url := if_pos ⟨unset.1, unset.2, leads⟩
          rw [taken, if_neg fun both => some both.2, if_pos unset, List.find?_cons_of_pos leads]
          rfl
        · have kept : (if turns type = true ∧ p.nextpageurl = [] ∧ link.leadsOn page = true then link.url
              else p.nextpageurl) = p.nextpageurl := if_neg fun all => leads all.2.2
          rw [kept, if_pos unset, if_pos unset, List.find?_cons_of_neg leads]
      · have kept : (if turns type = true ∧ p.nextpageurl = [] ∧ link.leadsOn page = true then link.url
            else p.nextpageurl) = p.nextpageurl := if_neg fun all => unset ⟨all.1, all.2.1⟩
        rw [kept, if_neg unset, if_neg unset]

/-- Numbers of at most four characters: those below 10000, and in brackets those below 100. -/
theorem names_numbers {n : ℕ} (anchor : List UInt8) (next : page + 1 = n) : NamesNext page anchor ↔
    anchorText anchor ∈ nextPageWords ∨
      n < 10000 ∧ (anchorText anchor = decimal n ∨ n < 10 ∧ anchorText anchor = 48 :: decimal n) ∨
      n < 100 ∧ (anchorText anchor = 91 :: (decimal n ++ [93]) ∨
        n < 10 ∧ anchorText anchor = 91 :: 48 :: (decimal n ++ [93])) := by
  have number : printInt (page + 1) = decimal n := by
    rw [next, printInt, if_neg (by omega), Int.natAbs_natCast]
  have padded : printInt2 (page + 1) = if n < 10 then 48 :: decimal n else decimal n := by
    rw [printInt2, number, next]
    exact if_congr (by omega) rfl rfl
  have four : (decimal n).length ≤ 4 ↔ n < 10000 := length_decimal_le_iff (by decide)
  have two : (decimal n).length ≤ 2 ↔ n < 100 := length_decimal_le_iff (by decide)
  have one : (decimal n).length ≤ 1 ↔ n < 10 := length_decimal_le_iff (by decide)
  rw [NamesNext, nextPageNumbers, number, padded]
  refine or_congr_right ?_
  simp only [List.mem_cons, List.not_mem_nil, or_false]
  constructor
  · rintro ⟨short, same | same | same | same⟩
    · rw [same] at short
      exact Or.inl ⟨four.mp short, Or.inl same⟩
    · rw [same, List.length_cons, List.length_append, List.length_singleton] at short
      exact Or.inr ⟨two.mp (by omega), Or.inl same⟩
    · split at same
      next small => exact Or.inl ⟨by omega, Or.inr ⟨small, same⟩⟩
      next =>
        rw [same] at short
        exact Or.inl ⟨four.mp short, Or.inl same⟩
    · split at same
      next small => exact Or.inr ⟨by omega, Or.inr ⟨small, same⟩⟩
      next =>
        rw [same, List.length_cons, List.length_append, List.length_singleton] at short
        exact Or.inr ⟨two.mp (by omega), Or.inl same⟩
  · rintro (⟨small, same | ⟨digit, same⟩⟩ | ⟨small, same | ⟨digit, same⟩⟩)
    · exact ⟨by rw [same]; exact four.mpr small, Or.inl same⟩
    · have length := one.mpr digit
      refine ⟨?_, Or.inr (Or.inr (Or.inl ?_))⟩
      · rw [same, List.length_cons]
        omega
      · rw [if_pos digit, same]
    · have length := two.mpr small
      refine ⟨?_, Or.inr (Or.inl same)⟩
      rw [same, List.length_cons, List.length_append, List.length_singleton]
      omega
    · have length := one.mpr digit
      refine ⟨?_, Or.inr (Or.inr (Or.inr ?_))⟩
      · rw [same, List.length_cons, List.length_cons, List.length_append, List.length_singleton]
        omega
      · rw [if_pos digit, same]
        rfl

theorem length_printInt_le {n : ℤ} (low : -10 ^ 6 < n) (high : n < 10 ^ 7) : (printInt n).length ≤ 7 := by
  rw [printInt]
  split
  next negative =>
    have digits : (decimal n.natAbs).length ≤ 6 := (length_decimal_le_iff (by decide)).mpr (by omega)
    rw [List.length_cons]
    omega
  next => exact (length_decimal_le_iff (by decide)).mpr (by omega)

/-- A number of at most seven characters fits its buffer in all spellings. -/
theorem numbers_fit {page : ℤ} (low : -10 ^ 6 < page + 1) (high : page + 1 < 10 ^ 7) :
    ((nextPageNumbers page).all fun text => text.length < nextPageNumLen) = true := by
  have plain := length_printInt_le low high
  have padded : (printInt2 (page + 1)).length ≤ 7 := by
    rw [printInt2]
    split
    next digit =>
      have one : (printInt (page + 1)).length ≤ 1 := by
        rw [printInt, if_neg (by omega)]
        exact (length_decimal_le_iff (by decide)).mpr (by omega)
      rw [List.length_cons]
      omega
    next => exact plain
  simp only [nextPageNumbers, nextPageNumLen, List.all_cons, List.all_nil, List.length_cons, List.length_append,
    List.length_nil, Bool.and_true, Bool.and_eq_true, decide_eq_true_eq]
  exact ⟨decide_eq_true (by omega), by omega, decide_eq_true (by omega), by omega⟩

/-- However many links a page has, each becomes one node, in order, and the next page of a final, a list
or a home page is the one of the first link with a URL whose anchor text is a word for it, or its number
in at most four characters. -/
theorem next_page_found {fuel : ℕ} (enough : 2 ≤ fuel) (type : Int32) {page : ℤ} (low : -10 ^ 6 < page + 1)
    (high : page + 1 < 10 ^ 7) (links : List FoundLink) :
    ∃ table p, wordTable fuel nextPageWords = some table ∧
      extractUrlsFromContent fuel table type page links = some p ∧ p.urls = links.map FoundLink.node ∧
      p.nextpageurl = (if turns type = true then
        ((links.find? fun link => link.leadsOn page).map FoundLink.url).getD [] else []) ∧
      ∀ anchor, ∀ n : ℕ, page + 1 = n → (NamesNext page anchor ↔ anchorText anchor ∈ nextPageWords ∨
        n < 10000 ∧ (anchorText anchor = decimal n ∨ n < 10 ∧ anchorText anchor = 48 :: decimal n) ∨
        n < 100 ∧ (anchorText anchor = 91 :: (decimal n ++ [93]) ∨
          n < 10 ∧ anchorText anchor = 91 :: 48 :: (decimal n ++ [93]))) := by
  obtain ⟨table, setup, words⟩ := @wordTable_finds nextPageWords _ enough (by decide)
  obtain ⟨numbers, run, found⟩ := @wordTable_finds (nextPageNumbers page) _ enough (Nat.le_add_left 4 253)
  have whole : extractUrlsFromContent fuel table type page links = some (links.foldl (onfind type numbers table) ⟨[], []⟩) := by
    rw [extractUrlsFromContent, if_pos (numbers_fit low high), run]
    rfl
  rw [foldl_onfind ⟨found, words⟩] at whole
  refine ⟨table, _, setup, whole, ?_, ?_, fun anchor n next => names_numbers anchor next⟩
  · exact List.nil_append _
  · exact if_congr (and_iff_left rfl) rfl rfl

theorem next_page_found_second : ∃ table p, wordTable 2 nextPageWords = some table ∧
    extractUrlsFromContent 2 table urlTypeListpage 1
      [⟨ascii "http://a/?p=9", some (ascii "9")⟩, ⟨[], some (ascii "2")⟩,
        ⟨ascii "http://a/?p=2", some (ascii " <b>[02]</b>")⟩, ⟨ascii "http://a/?p=3", some (ascii "2")⟩] = some p ∧
      p.nextpageurl = ascii "http://a/?p=2" := by
  obtain ⟨table, p, setup, run, _, next, _⟩ :=
    @next_page_found _ (Nat.le_refl 2) urlTypeListpage 1 (by decide) (by decide)
      [⟨ascii "http://a/?p=9", some (ascii "9")⟩, ⟨[], some (ascii "2")⟩,
        ⟨ascii "http://a/?p=2", some (ascii " <b>[02]</b>")⟩, ⟨ascii "http://a/?p=3", some (ascii "2")⟩]
  refine ⟨table, p, setup, run, next.trans ?_⟩
  decide

end NextPage

end BloomServer
