import BloomServer.SaveContent

/-! `readContent` and `altertotalpageforced` on the record of an article: when its pages can be read,
and what giving the rest of it up makes readable. -/
namespace BloomServer
open DecimalText LabelledRun

/-- `readContent`: the outer `none` is undefined, the inner one `NULL`. -/
def readContent (stored : Option (List UInt8)) : Option (Option (List UInt8)) :=
  match stored with
  | none => some none
  | some data => do
      let head ← readHead data .new
      if head.totalpage ≠ head.nowpage then return none
      else return some data

/-- The record that `altertotalpageforced` stores in place of `data`, in a buffer of
`datlen_u + 100` bytes. -/
def altertotalpageforced (data : List UInt8) : Option (List UInt8) := do
  let head ← readHead data .new
  let lastheadlength := head.headlength
  let head := { head with totalpage := head.nowpage }
  let (_, headbuf, head) ← writeHead head
  if data.length < lastheadlength.toNat then none
  else
    let storedata := headbuf.take head.headlength.toNat ++ data.drop lastheadlength.toNat
    if data.length + 100 < storedata.length then none else return storedata

/-- A page as it is stored: its number and its bytes. -/
def SaveCall.stored (call : SaveCall) : Int32 × List UInt8 := (call.page, call.pageHead ++ call.content)

/-- The calls for the pages of an article, in order: each announces the next page, and the last one
announces 1. -/
def articleCalls (pages : List SaveCall) : List SaveCall :=
  pages.mapIdx fun i call =>
    { call with nextpage := if i + 1 = pages.length then 1 else Int32.ofNat (i + 2) }

/-- The record of an article is read back once all its pages have been saved, whole, and not
before. -/
def ReadsWhenComplete (Z : Zlib) (id : UInt64) (calls : List SaveCall) : Prop :=
  ∀ k, 1 ≤ k → k ≤ calls.length → ∀ stored, Run (Saves Z id) none (calls.take k).reverse stored →
    (k < calls.length → readContent stored = some none) ∧
    (k = calls.length → ∃ data head hs body, stored = some data ∧
      readContent stored = some (some data) ∧
      WellFormed Z (calls.map SaveCall.stored) data head hs body)

/-- When an article is given up after some of its pages, these can be read and are as they were. -/
def ReadsWhenForced (Z : Zlib) (id : UInt64) (calls : List SaveCall) : Prop :=
  ∀ k, 1 ≤ k → k < calls.length → ∀ stored, Run (Saves Z id) none (calls.take k).reverse stored →
    ∃ data data' head hs body, stored = some data ∧ altertotalpageforced data = some data' ∧
      data'.length ≤ datlenMax ∧ readContent (some data') = some (some data') ∧
      WellFormed Z ((calls.take k).map SaveCall.stored) data' head hs body

section Reading

variable {Z : Zlib} {id : UInt64} {pages : List (Int32 × List UInt8)} {data : List UInt8}
  {head : ContentHead}

theorem Stored.readContent_eq (stored : Stored Z id pages data head)
    (recovers : Recovers Z (bodyOf pages)) :
    readContent (some data) = some (if head.totalpage ≠ head.nowpage then none else some data) := by
  simp only [readContent, (stored.read (stored.body_lt recovers)).1]
  change (if head.totalpage ≠ head.nowpage then _ else _) = _
  split_ifs <;> rfl

/-- A head does not get longer when its totals line does not. -/
theorem length_headText_le {buffer buffer' : List UInt8} (short : (headText buffer).length < 10 ^ 8)
    (le : buffer'.length ≤ buffer.length) :
    (headText buffer').length ≤ (headText buffer).length := by
  have old := length_headText short
  have width : (printInt ((buffer'.length : ℤ) + 8 + 1)).length ≤ 8 :=
    length_printInt_le (by omega) (by omega) (by decide)
  rw [old, headText, List.length_append, List.length_append, length_padLeft width,
    List.length_singleton]
  omega

theorem length_decimal_mono {m n : ℕ} (le : m ≤ n) : (decimal m).length ≤ (decimal n).length := by
  have positive := length_decimal_pos n
  have bound := (length_decimal_le_iff positive).mp (Nat.le_refl (decimal n).length)
  exact (length_decimal_le_iff positive).mpr (le.trans_lt bound)

/-- A head does not get longer when its `totalpage` does not. -/
theorem length_text_le (short : head.text.length < 10 ^ 8) {totalpage : Int32}
    (digits : (printInt totalpage.toInt).length ≤ (printInt head.totalpage.toInt).length) :
    ({ head with totalpage } : ContentHead).text.length ≤ head.text.length := by
  have line : (totalsLine { head with totalpage }).length ≤ (totalsLine head).length := by
    rw [totalsLine, totalsLine, length_slashed, length_slashed]
    simp only [List.map_cons, List.map_nil, List.sum_cons, List.sum_nil]
    omega
  apply length_headText_le short
  rw [List.length_append, List.length_append]
  exact Nat.add_le_add_right line _

/-- Giving up an article with a page to come: the body stays, and the counters become equal. -/
theorem Stored.forced (stored : Stored Z id pages data head) (recovers : Recovers Z (bodyOf pages))
    (next : head.totalpage = head.nowpage + 1) :
    ∃ data' head', altertotalpageforced data = some data' ∧ Stored Z id pages data' head' ∧
      head'.totalpage = head'.nowpage := by
  have small := stored.body_lt recovers
  obtain ⟨read, rest⟩ := stored.read small
  have text := stored.text_le
  have few := stored.few small
  have counted := stored.counted small
  let head' : ContentHead :=
    { head with headlength := UInt64.ofNat head.text.length, totalpage := head.nowpage }
  obtain ⟨ret, written, copied⟩ := writeHead_copied head' stored.heads
    (by rw [length_entries]; exact stored.nowpage)
    (entries_plain id small stored.lengths)
  have total : head.totalpage.toInt = head.nowpage.toInt + 1 := by
    rw [next, Int32.toInt_add, stored.nowpage]
    change Int.bmod ((pages.length : ℤ) + 1) (2 ^ 32) = _
    exact Int.bmod_eq_of_le (by omega) (by omega)
  have digits : (printInt head.nowpage.toInt).length ≤ (printInt head.totalpage.toInt).length := by
    rw [total, stored.nowpage]
    change (printInt (pages.length : ℤ)).length ≤ (printInt ((pages.length + 1 : ℕ) : ℤ)).length
    rw [printInt_natCast, printInt_natCast]
    exact length_decimal_mono (Nat.le_succ _)
  have shorter : head'.text.length ≤ head.text.length := by
    unfold datlenMax at text
    exact length_text_le (by omega) digits
  have size : (UInt64.ofNat head.text.length).toNat = head.text.length := by
    unfold datlenMax at text
    rw [UInt64.toNat_ofNat']
    omega
  have cut : data.drop head.text.length = Z.compress2 (bodyOf pages) := by
    rw [← size]
    exact rest
  have whole := congrArg List.length stored.bytes
  rw [List.length_append] at whole
  refine ⟨head'.text ++ Z.compress2 (bodyOf pages), head', ?_, ⟨⟨stored.heads, stored.nowpage,
    stored.totallength, stored.lengths⟩, rfl, ?_⟩, rfl⟩
  · unfold altertotalpageforced
    rw [read]
    change (writeHead head').bind _ = _
    rw [written, Option.bind_some]
    dsimp only
    rw [size, if_neg (by omega), copied, cut, if_neg (by rw [List.length_append]; omega)]
    rfl
  · have bound := stored.short
    rw [List.length_append]
    omega

end Reading

/-! ### The counters of an article -/

section Article

variable {Z : Zlib} {id : UInt64} {calls : List SaveCall} {stored : Option (List UInt8)}

/-- The pages that are saved are those of the calls, in order. -/
theorem savedPages_reverse (distinct : (calls.map SaveCall.page).Nodup) :
    savedPages calls.reverse = calls.map SaveCall.stored := by
  induction calls using List.reverseRecOn with
  | nil => rfl
  | append_singleton calls call ih =>
      rw [List.map_append, List.nodup_append] at distinct
      obtain ⟨earlier, -, apart⟩ := distinct
      have fresh : call.page ∉ (savedPages calls.reverse).map Prod.fst := by
        rw [mem_savedPages, List.map_reverse, List.mem_reverse]
        exact fun mem => apart _ mem _ (List.mem_singleton_self _) rfl
      rw [List.reverse_append, List.reverse_singleton, List.singleton_append, savedPages,
        if_neg fresh, ih earlier, List.map_append]
      rfl

/-- What a first page with this `nextpage` and any number of further pages leave: `totalpage` and
`nowpage` grow together. -/
theorem run_counters (first : SaveCall) (run : Run (Saves Z id) none (calls ++ [first]) stored)
    (inverse : ∀ earlier, earlier <:+ calls ++ [first] → Recovers Z (bodyOf (savedPages earlier))) :
    ∃ data head, stored = some data ∧ Stored Z id (savedPages (calls ++ [first])) data head ∧
      head.totalpage - head.nowpage = first.nextpage - 1 := by
  induction calls generalizing stored with
  | nil =>
      obtain ⟨_, start, saves⟩ := run.of_cons
      obtain rfl := start.of_nil
      obtain ⟨data, head, rfl, held, counters⟩ := saves_new saves
      exact ⟨data, head, rfl, held, by rw [counters.totalpage, counters.nowpage]⟩
  | cons call calls ih =>
      obtain ⟨_, before, saves⟩ := run.of_cons
      have shorter : calls ++ [first] <:+ call :: calls ++ [first] := List.suffix_cons call _
      obtain ⟨data, head, rfl, held, apart⟩ :=
        ih before fun earlier suffix => inverse earlier (suffix.trans shorter)
      rw [List.cons_append, savedPages]
      rcases saves_more held (inverse _ shorter) saves with
        ⟨already, rfl⟩ | ⟨missing, data', head', rfl, held', counters⟩
      · rw [if_pos already]
        exact ⟨data, head, rfl, held, apart⟩
      · rw [if_neg missing]
        refine ⟨data', head', rfl, held', ?_⟩
        rw [counters.totalpage, counters.nowpage, ← apart]
        grind

end Article

section Chain

variable {Z : Zlib} {id : UInt64} {pages : List SaveCall} {stored : Option (List UInt8)} {k : ℕ}

theorem length_articleCalls (pages : List SaveCall) : (articleCalls pages).length = pages.length :=
  List.length_mapIdx

theorem articleCalls_pages (pages : List SaveCall) :
    (articleCalls pages).map SaveCall.page = pages.map SaveCall.page := by
  apply List.ext_getElem
  · rw [List.length_map, List.length_map, length_articleCalls]
  · intro i _ _
    simp only [articleCalls, List.getElem_map, List.getElem_mapIdx]

/-- The record after the first `k` pages: `totalpage` is `nowpage` for an article of one page, and
one more for a longer one, after its last page too. -/
theorem articleCalls_stored (distinct : (pages.map SaveCall.page).Nodup)
    (inverse : ∀ earlier, earlier <:+ (articleCalls pages).reverse →
      Recovers Z (bodyOf (savedPages earlier)))
    (some' : 1 ≤ k) (inside : k ≤ pages.length)
    (run : Run (Saves Z id) none ((articleCalls pages).take k).reverse stored) :
    ∃ data head, stored = some data ∧
      Stored Z id (((articleCalls pages).take k).map SaveCall.stored) data head ∧
      Recovers Z (bodyOf (((articleCalls pages).take k).map SaveCall.stored)) ∧
      head.totalpage = head.nowpage + (if pages.length = 1 then 0 else 1) := by
  have part : ((articleCalls pages).take k).reverse <:+ (articleCalls pages).reverse :=
    List.reverse_suffix.mpr (List.take_prefix k _)
  have apart : (((articleCalls pages).take k).map SaveCall.page).Nodup := by
    rw [← articleCalls_pages] at distinct
    exact distinct.sublist ((List.take_sublist k _).map _)
  have saved := savedPages_reverse apart
  have recovers := inverse _ part
  obtain ⟨first, rest, cut⟩ : ∃ first rest, (articleCalls pages).take k = first :: rest := by
    apply List.exists_cons_of_length_pos
    rw [List.length_take, length_articleCalls]
    omega
  have next : first.nextpage = if pages.length = 1 then 1 else 2 := by
    cases pages with
    | nil => cases some'.trans inside
    | cons page pages =>
        obtain ⟨k, rfl⟩ := Nat.exists_eq_add_of_le' some'
        rw [articleCalls, List.mapIdx_cons, List.take_succ_cons] at cut
        obtain ⟨rfl, -⟩ := List.cons.inj cut
        rw [List.length_cons]
        dsimp only
        congr 1
        exact propext ⟨Eq.symm, Eq.symm⟩
  rw [saved] at recovers
  have order : ((articleCalls pages).take k).reverse = rest.reverse ++ [first] := by
    rw [cut, List.reverse_cons]
  rw [order] at run part saved
  obtain ⟨data, head, rfl, held, counters⟩ :=
    run_counters first run fun earlier suffix => inverse earlier (suffix.trans part)
  rw [saved] at held
  refine ⟨data, head, rfl, held, recovers, ?_⟩
  rw [next] at counters
  split_ifs at counters ⊢
  · grind
  · grind

end Chain

/-- An article of several pages is never read back, for the last page raises `totalpage` like the
others. Giving it up after some of them makes those readable. -/
theorem article_reads_iff {Z : Zlib} {id : UInt64} {pages : List SaveCall} (some' : pages ≠ [])
    (distinct : (pages.map SaveCall.page).Nodup)
    (saved : ∃ stored, Run (Saves Z id) none (articleCalls pages).reverse stored)
    (inverse : ∀ earlier, earlier <:+ (articleCalls pages).reverse →
      Recovers Z (bodyOf (savedPages earlier))) :
    ((ReadsWhenComplete Z id (articleCalls pages) ∧ ReadsWhenForced Z id (articleCalls pages)) ↔
      pages.length = 1) ∧ ReadsWhenForced Z id (articleCalls pages) := by
  have positive := List.length_pos_iff.mpr some'
  have length := length_articleCalls pages
  have forced : ReadsWhenForced Z id (articleCalls pages) := by
    intro k positive inside stored run
    rw [length] at inside
    obtain ⟨data, head, rfl, held, recovers, counters⟩ :=
      articleCalls_stored distinct inverse positive inside.le run
    rw [if_neg (by omega)] at counters
    obtain ⟨data', head', given, held', equal⟩ := held.forced recovers counters
    refine ⟨data, data', _, _, _, rfl, given, held'.short, ?_, held'.wellFormed recovers⟩
    rw [held'.readContent_eq recovers, if_neg (not_not_intro equal)]
  refine ⟨⟨?_, ?_⟩, forced⟩
  · intro reads
    obtain ⟨stored, run⟩ := saved
    have whole : (articleCalls pages).take pages.length = articleCalls pages := by
      rw [← length, List.take_length]
    rw [← whole] at run
    obtain ⟨data, head, rfl, held, recovers, counters⟩ :=
      articleCalls_stored distinct inverse positive (Nat.le_refl _) run
    obtain ⟨_, read⟩ := reads.1 pages.length positive length.ge _ run
    obtain ⟨_, _, _, _, _, read, _⟩ := read length.symm
    by_contra several
    rw [if_neg several] at counters
    rw [held.readContent_eq recovers, if_pos (by rw [counters]; grind)] at read
    cases read
  · intro one
    refine ⟨?_, forced⟩
    intro k positive inside stored run
    rw [length] at inside
    obtain ⟨data, head, rfl, held, recovers, counters⟩ :=
      articleCalls_stored distinct inverse positive inside run
    rw [if_pos one] at counters
    have all : (articleCalls pages).take k = articleCalls pages := List.take_of_length_le (by omega)
    have read := held.readContent_eq recovers
    rw [if_neg (by rw [counters]; grind)] at read
    have wellFormed := held.wellFormed recovers
    rw [all] at wellFormed
    exact ⟨fun more => by omega, fun _ => ⟨data, _, _, _, rfl, read, wellFormed⟩⟩

def articleOfOne : List SaveCall := [⟨7, 1, 1, 0, [72], [97]⟩]

def articleOfTwo : List SaveCall := [⟨7, 1, 1, 0, [72], [97]⟩, ⟨7, 1, 2, 0, [72], [98]⟩]

theorem article_reads_iff_one : ReadsWhenComplete zlibOfTwo 5 (articleCalls articleOfOne) ∧
    ReadsWhenForced zlibOfTwo 5 (articleCalls articleOfOne) := by
  have reached : (reach (saves zlibOfTwo 5) none (articleCalls articleOfOne).reverse).isSome = true := by
    decide +kernel
  obtain ⟨stored, value⟩ := Option.isSome_iff_exists.mp reached
  have inverse : ∀ earlier ∈ (articleCalls articleOfOne).reverse.tails,
      inf zlibOfTwo (zlibOfTwo.compress2 (bodyOf (savedPages earlier))) =
        .ok (bodyOf (savedPages earlier)) := by
    decide +kernel
  exact (article_reads_iff (by decide) (by decide) ⟨stored, run_of_reach saves_sound value⟩
    fun earlier suffix => inverse earlier ((List.mem_tails earlier _).mpr suffix)).1.mpr rfl

theorem not_article_reads :
    (∃ stored, Run (Saves zlibOfTwo 5) none (articleCalls articleOfTwo).reverse stored) ∧
    (∀ earlier, earlier <:+ (articleCalls articleOfTwo).reverse →
      Recovers zlibOfTwo (bodyOf (savedPages earlier))) ∧
    ¬ ReadsWhenComplete zlibOfTwo 5 (articleCalls articleOfTwo) := by
  have unread : (reach (saves zlibOfTwo 5) none (articleCalls articleOfTwo).reverse).map readContent =
      some (some none) := by
    decide +kernel
  have inverse : ∀ earlier ∈ (articleCalls articleOfTwo).reverse.tails,
      inf zlibOfTwo (zlibOfTwo.compress2 (bodyOf (savedPages earlier))) =
        .ok (bodyOf (savedPages earlier)) := by
    decide +kernel
  obtain ⟨stored, value, read⟩ := Option.map_eq_some_iff.mp unread
  have run := run_of_reach saves_sound value
  refine ⟨⟨stored, run⟩, fun earlier suffix => inverse earlier ((List.mem_tails earlier _).mpr suffix), ?_⟩
  intro reads
  obtain ⟨_, _, _, _, _, found, _⟩ := (reads 2 (by decide) (by decide) stored run).2 rfl
  rw [read] at found
  cases found

end BloomServer
