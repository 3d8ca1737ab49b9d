import BloomServer.DbFile
import BloomServer.PageHead
import BloomServer.Library.LabelledRun
import Mathlib.Data.Finset.Card

/-! `LocalDbManager::savecontent`: the pages of one record, saved one after another into a
stored head and a compressed body. -/
namespace BloomServer
open DecimalText LabelledRun

/-- What `uncompress` returns, with the bytes it left in the output buffer. -/
inductive Uncompressed
  | ok (data : List UInt8)
  | bufError (data : List UInt8)
  | dataError (data : List UInt8)
  deriving DecidableEq

def Uncompressed.data : Uncompressed → List UInt8
  | ok data | bufError data | dataError data => data

/-- The two functions of zlib. `compress2` is given a buffer of `compressBound` bytes, and
`uncompress` the room in its output buffer. -/
structure Zlib where
  compress2 : List UInt8 → List UInt8
  uncompress : ℕ → List UInt8 → Uncompressed
  fits : ∀ room src data, uncompress room src = .ok data → data.length ≤ room

/-- The retries of `inf`: `i` runs from 1 to 5, and the room is `num` times `2 ^ i`. -/
def infLoop (Z : Zlib) (src : List UInt8) (num : ℕ) : ℕ → ℕ → Uncompressed
  | 0, room => Z.uncompress room src
  | left + 1, room =>
      match Z.uncompress room src with
      | .bufError _ => infLoop Z src num left (num * 2 ^ (5 - left))
      | result => result

def inf (Z : Zlib) (src : List UInt8) : Uncompressed := infLoop Z src (src.length * 2) 5 (src.length * 2)

/-- What a call of `savecontent` on one record brings along. The record is the one under the page's
id in the database that `taskid % 30` selects; a call whose task selects another database is a call on
another record. The bytes of the page are those that `writePageHead` makes of the response header, and
the content. -/
structure SaveCall where
  taskid : Int32
  taskbatch : Int32
  page : Int32
  nextpage : Int32
  pageHead : List UInt8
  content : List UInt8
  deriving DecidableEq

/-- `contentlength + pageheadlen`, a sum of two `int`s; `none` where it overflows. -/
def SaveCall.length (call : SaveCall) : Option ℕ :=
  let length := call.pageHead.length + call.content.length
  if length < 2 ^ 31 then some length else none

/-- The record that is stored when there is none. -/
def saveNew (Z : Zlib) (id : UInt64) (call : SaveCall) : Option (List UInt8) := do
  let length ← call.length
  let pagehead : ContentPageHead := ⟨id, 0, UInt64.ofNat length, call.page⟩
  let head :=
    { ContentHead.new with
      totalpage := call.nextpage
      nowpage := 1
      taskid := call.taskid
      batchid := call.taskbatch
      totallength := pagehead.length
      contentPageHead := some [pagehead] }
  let (_, headbuf, head) ← writeHead head
  let newcontent := call.pageHead ++ call.content
  return headbuf.take head.headlength.toNat ++ Z.compress2 newcontent

/-- Whether the loop over the page heads finds the page. -/
def alreadySaved (id : UInt64) (page : Int32) (head : ContentHead) : Bool :=
  ((head.contentPageHead.getD []).take head.nowpage.toInt.toNat).any fun p => p.id = id ∧ p.page = page

/-- The head with one page more, `length` bytes long. -/
def ContentHead.withPage (head : ContentHead) (length : ℕ) (pagehead : ContentPageHead) :
    ContentHead :=
  let head :=
    { head with
      totalpage := head.totalpage + 1
      totallength := head.totallength + UInt64.ofNat length }
  let (head, idx) := appendPageHead head
  { head with contentPageHead := head.contentPageHead.map fun hs => hs.set idx pagehead }

/-- The record that is stored in place of `data`. -/
def saveMore (Z : Zlib) (id : UInt64) (call : SaveCall) (data : List UInt8) :
    Option (List UInt8) := do
  let head ← readHead data .new
  if alreadySaved id call.page head then return data
  else
    let length ← call.length
    let tmp := (inf Z (data.drop head.headlength.toNat)).data
    let newcontent := tmp ++ call.pageHead ++ call.content
    let head := head.withPage length
      ⟨id, Int64.ofNat tmp.length, UInt64.ofNat length, call.page⟩
    let (_, headbuf, head) ← writeHead head
    -- `def` is told to read `totallength` bytes of `newcontent`.
    if newcontent.length < head.totallength.toNat then none
    else
      return headbuf.take head.headlength.toNat ++
        Z.compress2 (newcontent.take head.totallength.toNat)

def savecontent (Z : Zlib) (id : UInt64) (call : SaveCall) : Option (List UInt8) → Option (List UInt8)
  | none => saveNew Z id call
  | some data => saveMore Z id call data

/-- A call on the record whose store succeeds; a longer record is refused. -/
def Saves (Z : Zlib) (id : UInt64) (stored : Option (List UInt8)) (call : SaveCall)
    (stored' : Option (List UInt8)) : Prop :=
  ∃ data, savecontent Z id call stored = some data ∧ data.length ≤ datlenMax ∧ stored' = some data

/-! ### What the record should hold -/

/-- The pages of the calls, in the order in which they were first saved. -/
def savedPages : List SaveCall → List (Int32 × List UInt8)
  | [] => []
  | call :: earlier =>
      if call.page ∈ (savedPages earlier).map Prod.fst then savedPages earlier
      else savedPages earlier ++ [(call.page, call.pageHead ++ call.content)]

/-- The body of a record: the bytes of its pages, one after another. -/
def bodyOf (pages : List (Int32 × List UInt8)) : List UInt8 := (pages.map Prod.snd).flatten

/-- The page heads for pages laid out from `offset` on. -/
def entries (id : UInt64) : ℕ → List (Int32 × List UInt8) → List ContentPageHead
  | _, [] => []
  | offset, (page, bytes) :: rest =>
      ⟨id, Int64.ofNat offset, UInt64.ofNat bytes.length, page⟩ ::
        entries id (offset + bytes.length) rest

/-- Decompressing inverts compressing on a body. -/
def Recovers (Z : Zlib) (body : List UInt8) : Prop := inf Z (Z.compress2 body) = .ok body

/-- A head that describes the pages. -/
structure HeadOf (id : UInt64) (pages : List (Int32 × List UInt8)) (head : ContentHead) : Prop where
  heads : head.contentPageHead = some (entries id 0 pages)
  nowpage : head.nowpage.toInt = pages.length
  totallength : head.totallength.toNat = (bodyOf pages).length
  lengths : ∀ page ∈ pages, page.2.length < 2 ^ 31

/-- The stored bytes are those of a head for the pages, and of their compressed body. -/
structure Stored (Z : Zlib) (id : UInt64) (pages : List (Int32 × List UInt8)) (data : List UInt8)
    (head : ContentHead) : Prop extends HeadOf id pages head where
  bytes : data = head.text ++ Z.compress2 (bodyOf pages)
  short : data.length ≤ datlenMax

/-- The head made for the first page. -/
structure FirstHead (call : SaveCall) (head : ContentHead) : Prop where
  totalpage : head.totalpage = call.nextpage
  nowpage : head.nowpage = 1
  taskid : head.taskid = call.taskid
  batchid : head.batchid = call.taskbatch

/-- The head after a page more. -/
structure NextHead (head head' : ContentHead) : Prop where
  totalpage : head'.totalpage = head.totalpage + 1
  nowpage : head'.nowpage = head.nowpage + 1
  taskid : head'.taskid = head.taskid
  batchid : head'.batchid = head.batchid

/-- The bytes of a page, cut out of the body. -/
def ContentPageHead.cut (h : ContentPageHead) (body : List UInt8) : List UInt8 :=
  (body.drop h.offset.toInt.toNat).take h.length.toNat

/-- What is read back from a well formed record of the pages. -/
structure WellFormed (Z : Zlib) (pages : List (Int32 × List UInt8)) (data : List UInt8)
    (head : ContentHead) (hs : List ContentPageHead) (body : List UInt8) : Prop where
  read : readHead data .new = some head
  heads : head.contentPageHead = some hs
  inflated : inf Z (data.drop head.headlength.toNat) = .ok body
  nowpage : head.nowpage.toInt = hs.length
  offsets : ∀ i (inside : i < hs.length),
    hs[i].offset.toInt = ((hs.take i).map fun h => h.length.toNat).sum
  totallength : head.totallength.toNat = (hs.map fun h => h.length.toNat).sum
  whole : head.totallength.toNat = body.length
  cut : hs.map (fun h => (h.page, h.cut body)) = pages

theorem infLoop_fits {Z : Zlib} {src data : List UInt8} {num left room : ℕ} (few : left ≤ 5)
    (low : room ≤ num * 2 ^ 5) (h : infLoop Z src num left room = .ok data) :
    data.length ≤ num * 2 ^ 5 := by
  induction left generalizing room with
  | zero => exact (Z.fits room src data h).trans low
  | succ left ih =>
      unfold infLoop at h
      split at h
      · apply ih (by omega) _ h
        exact Nat.mul_le_mul_left num (Nat.pow_le_pow_right (by decide) (by omega))
      · exact (Z.fits room src data h).trans low

/-- Whatever `inf` decompresses is at most 64 times as long as its source. -/
theorem inf_fits {Z : Zlib} {src data : List UInt8} (h : inf Z src = .ok data) :
    data.length ≤ 64 * src.length := by
  have bound := infLoop_fits (Nat.le_refl 5) (Nat.le_mul_of_pos_right _ (by decide)) h
  omega

/-! ### The page heads of a layout -/

section Entries

variable (id : UInt64)

theorem length_entries (offset : ℕ) (pages : List (Int32 × List UInt8)) :
    (entries id offset pages).length = pages.length := by
  induction pages generalizing offset with
  | nil => rfl
  | cons page rest ih => rw [entries, List.length_cons, List.length_cons, ih]

theorem entries_concat (offset : ℕ) (pages : List (Int32 × List UInt8)) (page : Int32)
    (bytes : List UInt8) :
    entries id offset (pages ++ [(page, bytes)]) = entries id offset pages ++
      [⟨id, Int64.ofNat (offset + (bodyOf pages).length), UInt64.ofNat bytes.length, page⟩] := by
  induction pages generalizing offset with
  | nil => rfl
  | cons first rest ih =>
      have body : (bodyOf (first :: rest)).length = first.2.length + (bodyOf rest).length := by
        rw [bodyOf, List.map_cons, List.flatten_cons, List.length_append, ← bodyOf]
      rw [List.cons_append, entries, ih, entries, List.cons_append, body, Nat.add_assoc]

theorem getElem_entries (offset : ℕ) (pages : List (Int32 × List UInt8)) (i : ℕ)
    (inside : i < pages.length) (place : i < (entries id offset pages).length) :
    (entries id offset pages)[i] =
      ⟨id, Int64.ofNat (offset + (bodyOf (pages.take i)).length),
        UInt64.ofNat pages[i].2.length, pages[i].1⟩ := by
  induction pages generalizing offset i with
  | nil => cases inside
  | cons first rest ih =>
      cases i with
      | zero => rfl
      | succ i =>
          have body : (bodyOf ((first :: rest).take (i + 1))).length =
              first.2.length + (bodyOf (rest.take i)).length := by
            rw [List.take_succ_cons, bodyOf, List.map_cons, List.flatten_cons, List.length_append,
              ← bodyOf]
          have later := ih (offset + first.2.length) i (Nat.lt_of_succ_lt_succ inside)
            (Nat.lt_of_succ_lt_succ place)
          rw [body, ← Nat.add_assoc]
          exact later

theorem lengths_entries (offset : ℕ) {pages : List (Int32 × List UInt8)}
    (lengths : ∀ page ∈ pages, page.2.length < 2 ^ 31) :
    (entries id offset pages).map (fun h => h.length.toNat) = pages.map fun page => page.2.length := by
  induction pages generalizing offset with
  | nil => rfl
  | cons first rest ih =>
      have small := lengths first List.mem_cons_self
      have value : (UInt64.ofNat first.2.length).toNat = first.2.length := by
        rw [UInt64.toNat_ofNat']
        omega
      rw [entries, List.map_cons, List.map_cons, value,
        ih _ fun page mem => lengths page (List.mem_cons_of_mem first mem)]

theorem length_bodyOf (pages : List (Int32 × List UInt8)) :
    (bodyOf pages).length = (pages.map fun page => page.2.length).sum := by
  rw [bodyOf, List.length_flatten, List.map_map]
  rfl

theorem cut_entries {offset : ℕ} {pages : List (Int32 × List UInt8)} {before : List UInt8}
    (start : before.length = offset) (lengths : ∀ page ∈ pages, page.2.length < 2 ^ 31)
    (small : offset + (bodyOf pages).length < 2 ^ 31) :
    (entries id offset pages).map (fun h => (h.page, h.cut (before ++ bodyOf pages))) = pages := by
  induction pages generalizing offset before with
  | nil => rfl
  | cons first rest ih =>
      have split : bodyOf (first :: rest) = first.2 ++ bodyOf rest := by
        rw [bodyOf, List.map_cons, List.flatten_cons, ← bodyOf]
      have short := lengths first List.mem_cons_self
      rw [split, List.length_append] at small
      have next : (before ++ first.2).length = offset + first.2.length := by
        rw [List.length_append, start]
      have later := ih next (fun page mem => lengths page (List.mem_cons_of_mem first mem)) (by omega)
      have place : (Int64.ofNat offset).toInt = offset := Int64.toInt_ofNat_of_lt (by omega)
      have value : (UInt64.ofNat first.2.length).toNat = first.2.length := by
        rw [UInt64.toNat_ofNat']
        omega
      have head : ContentPageHead.cut ⟨id, Int64.ofNat offset, UInt64.ofNat first.2.length, first.1⟩
          (before ++ (first.2 ++ bodyOf rest)) = first.2 := by
        rw [ContentPageHead.cut, place, value, Int.toNat_natCast, List.drop_left' start,
          List.take_left]
      rw [split, entries, List.map_cons, head, ← List.append_assoc, later]

theorem mem_entries {offset : ℕ} {pages : List (Int32 × List UInt8)} {h : ContentPageHead}
    (mem : h ∈ entries id offset pages) :
    h.id = id ∧ ∃ page ∈ pages, h.page = page.1 ∧ h.length = UInt64.ofNat page.2.length ∧
      ∃ start, h.offset = Int64.ofNat start ∧ start ≤ offset + (bodyOf pages).length := by
  induction pages generalizing offset with
  | nil => cases mem
  | cons first rest ih =>
      have body : (bodyOf (first :: rest)).length = first.2.length + (bodyOf rest).length := by
        rw [bodyOf, List.map_cons, List.flatten_cons, List.length_append, ← bodyOf]
      rcases List.mem_cons.mp mem with rfl | later
      · exact ⟨rfl, first, List.mem_cons_self, rfl, rfl, offset, rfl, by omega⟩
      · obtain ⟨same, page, member, number, length, start, place, bound⟩ := ih later
        exact ⟨same, page, List.mem_cons_of_mem _ member, number, length, start, place, by omega⟩

theorem alreadySaved_entries {pages : List (Int32 × List UInt8)} {head : ContentHead}
    (heads : head.contentPageHead = some (entries id 0 pages))
    (nowpage : head.nowpage.toInt = pages.length) (page : Int32) :
    alreadySaved id page head = true ↔ page ∈ pages.map Prod.fst := by
  have whole : (head.contentPageHead.getD []).take head.nowpage.toInt.toNat = entries id 0 pages := by
    rw [heads, nowpage]
    exact List.take_of_length_le (length_entries id 0 pages).le
  unfold alreadySaved
  rw [whole]
  simp only [List.any_eq_true, decide_eq_true_eq]
  constructor
  · intro found
    obtain ⟨h, mem, _, rfl⟩ := found
    obtain ⟨_, q, member, number, _⟩ := mem_entries id mem
    rw [number]
    exact List.mem_map_of_mem member
  · intro found
    obtain ⟨i, inside, value⟩ := List.getElem_of_mem found
    rw [List.length_map] at inside
    rw [List.getElem_map] at value
    have place : i < (entries id 0 pages).length := by
      rw [length_entries]
      exact inside
    have entry := getElem_entries id 0 pages i inside place
    exact ⟨(entries id 0 pages)[i], List.getElem_mem place, by rw [entry], by rw [entry, ← value]⟩

end Entries

/-- A page head with small numbers is plain. -/
theorem plain_of_lt {id : UInt64} {start length : ℕ} {page : Int32} (low : start < 2 ^ 31)
    (short : length < 2 ^ 31) :
    ContentPageHead.Plain ⟨id, Int64.ofNat start, UInt64.ofNat length, page⟩ := by
  have offset : (Int64.ofNat start).toInt = start := Int64.toInt_ofNat_of_lt (by omega)
  constructor
  · rw [offset]
    omega
  · rw [UInt64.toNat_ofNat']
    omega

theorem entries_plain (id : UInt64) {pages : List (Int32 × List UInt8)}
    (body : (bodyOf pages).length < 2 ^ 31) (lengths : ∀ page ∈ pages, page.2.length < 2 ^ 31) :
    ∀ h ∈ entries id 0 pages, h.Plain := by
  intro h mem
  obtain ⟨_, page, member, _, length, start, offset, bound⟩ := mem_entries id mem
  have shape : h = ⟨h.id, Int64.ofNat start, UInt64.ofNat page.2.length, h.page⟩ := by
    rw [← offset, ← length]
  rw [shape]
  exact plain_of_lt (by omega) (lengths page member)

theorem length_pages_lt {hs : List ContentPageHead} (each : ∀ p ∈ hs, p.Plain) :
    (hs.flatMap pageLine).length ≤ 64 * hs.length := by
  induction hs with
  | nil => exact Nat.zero_le _
  | cons h hs ih =>
      have first := (pageLine_length (each h List.mem_cons_self)).1
      have rest := ih fun q mem => each q (List.mem_cons_of_mem h mem)
      rw [List.flatMap_cons, List.length_append, List.length_cons]
      omega

/-- The head text of so many pages is copied whole. -/
theorem take_text {head : ContentHead} (few : (head.contentPageHead.getD []).length < 2 ^ 31)
    (each : ∀ p ∈ head.contentPageHead.getD [], p.Plain) :
    head.text.take (UInt64.ofNat head.text.length).toNat = head.text := by
  have pages := length_pages_lt each
  have line := totalsLine_length head
  have digits := length_printInt_le (k := 20)
    (z := ((totalsLine head ++ (head.contentPageHead.getD []).flatMap pageLine).length : ℤ) + 8 + 1)
    (by omega) (by rw [List.length_append]; omega) (by decide)
  have size : head.text.length < 2 ^ 64 := by
    rw [ContentHead.text, headText, List.length_append, List.length_append, padLeft,
      List.length_append, List.length_replicate, List.length_append, List.length_singleton]
    rw [List.length_append] at digits
    omega
  rw [UInt64.toNat_ofNat', Nat.mod_eq_of_lt size, List.take_length]

/-- What `writeHead` hands on for a head of so many plain pages. -/
theorem writeHead_copied (head : ContentHead) {hs : List ContentPageHead}
    (heads : head.contentPageHead = some hs) (nowpage : head.nowpage.toInt = hs.length)
    (each : ∀ p ∈ hs, p.Plain) :
    ∃ ret, writeHead head =
        some (ret, head.text, { head with headlength := UInt64.ofNat head.text.length }) ∧
      head.text.take (UInt64.ofNat head.text.length).toNat = head.text := by
  have few := toInt_lt head.nowpage
  have same : head.contentPageHead.getD [] = hs := by rw [heads]; rfl
  rw [← same] at nowpage each
  obtain ⟨ret, written⟩ := writeHead_eq nowpage each
  exact ⟨ret, written, take_text (by omega) each⟩

theorem SaveCall.length_eq_some {call : SaveCall} {n : ℕ} (h : call.length = some n) :
    n = (call.pageHead ++ call.content).length ∧ n < 2 ^ 31 := by
  unfold SaveCall.length at h
  dsimp only at h
  split_ifs at h with small
  cases h
  rw [List.length_append]
  exact ⟨rfl, small⟩

/-! ### The two ways of saving -/

/-- The number of pages grows with the array. -/
theorem ContentHead.withPage_eq (head : ContentHead) {hs : List ContentPageHead}
    (heads : head.contentPageHead = some hs) (nowpage : head.nowpage.toInt = hs.length)
    (length : ℕ) (pagehead : ContentPageHead) :
    head.withPage length pagehead =
      { head with
        totalpage := head.totalpage + 1
        totallength := head.totallength + UInt64.ofNat length
        nowpage := head.nowpage + 1
        contentPageHead := some (hs ++ [pagehead]) } := by
  have index : head.nowpage.toInt.toNat = hs.length := by
    rw [nowpage]
    rfl
  simp only [withPage, appendPageHead, heads, index, List.take_length, Option.map_some]
  congr 2
  simp

section Saving

variable {Z : Zlib} {id : UInt64} {call : SaveCall} {pages : List (Int32 × List UInt8)}
  {data data' : List UInt8} {head : ContentHead}

/-- The first page. -/
theorem saveNew_eq (Z : Zlib) (id : UInt64) {n : ℕ} (length : call.length = some n) :
    ∃ head, HeadOf id [(call.page, call.pageHead ++ call.content)] head ∧ FirstHead call head ∧
      saveNew Z id call =
        some (head.text ++ Z.compress2 (bodyOf [(call.page, call.pageHead ++ call.content)])) := by
  obtain ⟨rfl, small⟩ := SaveCall.length_eq_some length
  let page : ContentPageHead :=
    ⟨id, 0, UInt64.ofNat (call.pageHead ++ call.content).length, call.page⟩
  let head : ContentHead :=
    { ContentHead.new with
      totalpage := call.nextpage
      nowpage := 1
      taskid := call.taskid
      batchid := call.taskbatch
      totallength := page.length
      contentPageHead := some [page] }
  have each : ∀ p ∈ [page], p.Plain := by
    intro p mem
    rw [List.mem_singleton.mp mem]
    exact plain_of_lt (by decide : 0 < 2 ^ 31) small
  obtain ⟨ret, written, copied⟩ := writeHead_copied head rfl rfl each
  have body : bodyOf [(call.page, call.pageHead ++ call.content)] = call.pageHead ++ call.content := by
    simp [bodyOf]
  refine ⟨head, ⟨rfl, rfl, ?_, ?_⟩, ⟨rfl, rfl, rfl, rfl⟩, ?_⟩
  · rw [body]
    change (UInt64.ofNat (call.pageHead ++ call.content).length).toNat = _
    rw [UInt64.toNat_ofNat']
    omega
  · intro p mem
    rw [List.mem_singleton.mp mem]
    exact small
  · unfold saveNew
    rw [length, body]
    change (writeHead head).bind (fun r => some (r.2.1.take r.2.2.headlength.toNat ++
      Z.compress2 (call.pageHead ++ call.content))) = _
    rw [written, Option.bind_some, copied]

namespace Stored

theorem text_le (stored : Stored Z id pages data head) : head.text.length ≤ datlenMax := by
  have lengths := congrArg List.length stored.bytes
  have short := stored.short
  rw [List.length_append] at lengths
  omega

/-- What a body that is recovered says about its size. -/
theorem body_le (stored : Stored Z id pages data head) (recovers : Recovers Z (bodyOf pages)) :
    (bodyOf pages).length ≤ 2 ^ 27 := by
  have fits := inf_fits recovers
  have lengths := congrArg List.length stored.bytes
  have short := stored.short
  rw [List.length_append] at lengths
  unfold datlenMax at short
  omega

theorem body_lt (stored : Stored Z id pages data head) (recovers : Recovers Z (bodyOf pages)) :
    (bodyOf pages).length < 2 ^ 31 := by
  have small := stored.body_le recovers
  omega

/-- Every page has a line in the stored text. -/
theorem few (stored : Stored Z id pages data head) (body : (bodyOf pages).length < 2 ^ 31) :
    pages.length < 2 ^ 31 - 1 := by
  have text := stored.text_le
  have same : head.contentPageHead.getD [] = entries id 0 pages := by rw [stored.heads]; rfl
  have lines := length_pages_le (entries_plain id (by omega) stored.lengths)
  rw [length_entries] at lines
  rw [ContentHead.text, headText, List.length_append, List.length_append, same, List.length_append]
    at text
  unfold datlenMax at text
  omega

theorem counted (stored : Stored Z id pages data head) (body : (bodyOf pages).length < 2 ^ 31) :
    head.Counted := by
  have same : head.contentPageHead.getD [] = entries id 0 pages := by rw [stored.heads]; rfl
  constructor
  · rw [same, length_entries, stored.nowpage]
  · rw [same]
    exact entries_plain id (by omega) stored.lengths
  · rw [stored.totallength]
    omega

/-- The stored head is read back, and the rest is the compressed body. -/
theorem read (stored : Stored Z id pages data head) (body : (bodyOf pages).length < 2 ^ 31) :
    readHead data .new = some { head with headlength := UInt64.ofNat head.text.length } ∧
      data.drop (UInt64.ofNat head.text.length).toNat = Z.compress2 (bodyOf pages) := by
  have text := stored.text_le
  have counted := stored.counted body
  have count := length_pages_le counted.each
  unfold datlenMax at text
  have room : (padLeft 8 (printInt head.text.length) ++ [47] ++ totalsLine head).length < 64 := by
    have eight : head.text.length < 10 ^ 8 := by omega
    have lengths := congrArg List.length (ContentHead.text_eq eight)
    rw [List.length_append, List.length_append, List.length_append] at lengths
    have width := length_printInt_le (z := (head.text.length : ℤ)) (k := 8) (by omega) (by omega)
      (by decide)
    have total := stored.totallength
    have one := length_printInt_le (z := lowInt head.totallength) (k := 10)
      (by rw [lowInt_of_lt (by omega)]; omega) (by rw [lowInt_of_lt (by omega)]; omega) (by decide)
    have number := counted.pages
    have two := length_printInt_le (z := head.nowpage.toInt) (k := 6) (by omega) (by omega)
      (by decide)
    have three := length_printInt_toInt head.totalpage
    have four := length_printInt_toInt head.taskid
    have five := length_printInt_toInt head.batchid
    rw [List.length_append, List.length_append, length_padLeft width, totalsLine, length_slashed]
    simp only [List.map_cons, List.map_nil, List.sum_cons, List.sum_nil, List.length_singleton]
    omega
  have same : some (head.contentPageHead.getD []) = head.contentPageHead := by
    rw [stored.heads]
    rfl
  have back := readHead_eq counted (by omega) room (Z.compress2 (bodyOf pages))
  rw [← stored.bytes, same] at back
  refine ⟨back, ?_⟩
  have value : (UInt64.ofNat head.text.length).toNat = head.text.length := by
    rw [UInt64.toNat_ofNat']
    omega
  rw [value, stored.bytes, List.drop_left]

/-- The loop finds the pages of the record and no others. -/
theorem found (stored : Stored Z id pages data head) (page : Int32) :
    alreadySaved id page { head with headlength := UInt64.ofNat head.text.length } = true ↔
      page ∈ pages.map Prod.fst :=
  alreadySaved_entries id stored.heads stored.nowpage page

/-- A page that is in the record is not saved again. -/
theorem repeated (stored : Stored Z id pages data head) (recovers : Recovers Z (bodyOf pages))
    (already : call.page ∈ pages.map Prod.fst) : saveMore Z id call data = some data := by
  unfold saveMore
  rw [(stored.read (stored.body_lt recovers)).1]
  exact if_pos ((stored.found call.page).mpr already)

/-- What is left to do for a page that is not, with whatever `inf` has left in its buffer. -/
theorem fresh (stored : Stored Z id pages data head) (body : (bodyOf pages).length < 2 ^ 31)
    {tmp : List UInt8} (inflated : (inf Z (Z.compress2 (bodyOf pages))).data = tmp)
    (missing : call.page ∉ pages.map Prod.fst) :
    saveMore Z id call data = call.length.bind fun length =>
      (writeHead (({ head with headlength := UInt64.ofNat head.text.length } : ContentHead).withPage
        length ⟨id, Int64.ofNat tmp.length, UInt64.ofNat length, call.page⟩)).bind
          fun r => if (tmp ++ call.pageHead ++ call.content).length < r.2.2.totallength.toNat
            then none
            else some (r.2.1.take r.2.2.headlength.toNat ++
              Z.compress2 ((tmp ++ call.pageHead ++ call.content).take r.2.2.totallength.toNat)) := by
  obtain ⟨read, rest⟩ := stored.read body
  have copied : (inf Z (data.drop (UInt64.ofNat head.text.length).toNat)).data = tmp := by
    rw [rest, inflated]
  unfold saveMore
  rw [read, ← copied]
  exact if_neg fun found => missing ((stored.found call.page).mp found)

/-- It is appended. -/
theorem appended (stored : Stored Z id pages data head) (recovers : Recovers Z (bodyOf pages))
    (missing : call.page ∉ pages.map Prod.fst) {n : ℕ} (length : call.length = some n) :
    ∃ head', HeadOf id (pages ++ [(call.page, call.pageHead ++ call.content)]) head' ∧
      NextHead head head' ∧ saveMore Z id call data = some (head'.text ++
        Z.compress2 (bodyOf (pages ++ [(call.page, call.pageHead ++ call.content)]))) := by
  have small := stored.body_le recovers
  have few := stored.few (stored.body_lt recovers)
  have saved := stored.fresh (stored.body_lt recovers) (congrArg Uncompressed.data recovers) missing
  change saveMore Z id call data = call.length.bind fun length =>
    (writeHead (({ head with headlength := UInt64.ofNat head.text.length } : ContentHead).withPage
      length ⟨id, Int64.ofNat (bodyOf pages).length, UInt64.ofNat length, call.page⟩)).bind
        fun r => if (bodyOf pages ++ call.pageHead ++ call.content).length < r.2.2.totallength.toNat
          then none
          else some (r.2.1.take r.2.2.headlength.toNat ++
            Z.compress2 ((bodyOf pages ++ call.pageHead ++ call.content).take
              r.2.2.totallength.toNat)) at saved
  obtain ⟨rfl, shortPage⟩ := SaveCall.length_eq_some length
  generalize whole : pages ++ [(call.page, call.pageHead ++ call.content)] = longer
  have body : bodyOf longer = bodyOf pages ++ call.pageHead ++ call.content := by
    rw [← whole, bodyOf, List.map_append, List.flatten_append, ← bodyOf, List.append_assoc]
    simp
  have size : (bodyOf longer).length =
      (bodyOf pages).length + (call.pageHead ++ call.content).length := by
    rw [body, List.append_assoc, List.length_append]
  let page : ContentPageHead := ⟨id, Int64.ofNat (bodyOf pages).length,
    UInt64.ofNat (call.pageHead ++ call.content).length, call.page⟩
  let head' : ContentHead :=
    { head with
      headlength := UInt64.ofNat head.text.length
      totalpage := head.totalpage + 1
      totallength := head.totallength + UInt64.ofNat (call.pageHead ++ call.content).length
      nowpage := head.nowpage + 1
      contentPageHead := some (entries id 0 pages ++ [page]) }
  have heads : entries id 0 pages ++ [page] = entries id 0 longer := by
    rw [← whole, entries_concat, Nat.zero_add]
  have nowpage : head'.nowpage.toInt = longer.length := by
    change (head.nowpage + 1).toInt = _
    rw [← whole, List.length_append, List.length_singleton, Int32.toInt_add, stored.nowpage]
    change Int.bmod ((pages.length : ℤ) + 1) (2 ^ 32) = _
    rw [Int.bmod_eq_of_le (by omega) (by omega)]
    rfl
  have total : head'.totallength.toNat = (bodyOf longer).length := by
    change (head.totallength + UInt64.ofNat (call.pageHead ++ call.content).length).toNat = _
    rw [UInt64.toNat_add, UInt64.toNat_ofNat', stored.totallength, size]
    omega
  have lengths : ∀ p ∈ longer, p.2.length < 2 ^ 31 := by
    rw [← whole]
    intro p mem
    rcases List.mem_append.mp mem with earlier | last
    · exact stored.lengths p earlier
    · rw [List.mem_singleton.mp last]
      exact shortPage
  have each : ∀ p ∈ entries id 0 pages ++ [page], p.Plain := by
    intro p mem
    rcases List.mem_append.mp mem with earlier | last
    · exact entries_plain id (by omega) stored.lengths p earlier
    · rw [List.mem_singleton.mp last]
      exact plain_of_lt (by omega) shortPage
  have grown : ({ head with headlength := UInt64.ofNat head.text.length } : ContentHead).withPage
      (call.pageHead ++ call.content).length page = head' :=
    ContentHead.withPage_eq { head with headlength := UInt64.ofNat head.text.length } stored.heads
      (by rw [length_entries]; exact stored.nowpage) _ _
  obtain ⟨ret, written, copied⟩ := writeHead_copied head' rfl
    (by rw [nowpage, heads, length_entries]) each
  refine ⟨head', ⟨congrArg some heads, nowpage, total, lengths⟩, ⟨rfl, rfl, rfl, rfl⟩, ?_⟩
  rw [saved, length, Option.bind_some, grown, written, Option.bind_some, ← body]
  change (if (bodyOf longer).length < head'.totallength.toNat then none
    else some (head'.text.take (UInt64.ofNat head'.text.length).toNat ++
      Z.compress2 ((bodyOf longer).take head'.totallength.toNat))) = _
  rw [if_neg (by omega), copied, total, List.take_length]

/-- What is read back from a stored record. -/
theorem wellFormed (stored : Stored Z id pages data head) (recovers : Recovers Z (bodyOf pages)) :
    WellFormed Z pages data { head with headlength := UInt64.ofNat head.text.length }
      (entries id 0 pages) (bodyOf pages) := by
  have small := stored.body_le recovers
  obtain ⟨read, rest⟩ := stored.read (stored.body_lt recovers)
  have lengths := lengths_entries id 0 stored.lengths
  constructor
  · exact read
  · exact stored.heads
  · rw [rest]
    exact recovers
  · rw [length_entries]
    exact stored.nowpage
  · intro i place
    have inside : i < pages.length := by rwa [length_entries] at place
    have part : (bodyOf (pages.take i)).length ≤ (bodyOf pages).length := by
      have split := congrArg bodyOf (List.take_append_drop i pages)
      rw [bodyOf, List.map_append, List.flatten_append, ← bodyOf] at split
      rw [← split, List.length_append]
      exact Nat.le_add_right _ _
    rw [getElem_entries id 0 pages i inside place, List.map_take, lengths, ← List.map_take,
      ← length_bodyOf, Nat.zero_add]
    exact Int64.toInt_ofNat_of_lt (by omega)
  · rw [lengths, ← length_bodyOf]
    exact stored.totallength
  · exact stored.totallength
  · exact cut_entries id List.length_nil stored.lengths (by omega)

end Stored

/-! ### Runs -/

theorem mem_savedPages {calls : List SaveCall} (page : Int32) :
    page ∈ (savedPages calls).map Prod.fst ↔ page ∈ calls.map SaveCall.page := by
  induction calls with
  | nil => rfl
  | cons call earlier ih =>
      rw [savedPages, List.map_cons, List.mem_cons, ← ih]
      split_ifs with already
      · constructor
        · exact Or.inr
        · intro either
          rcases either with same | before
          · rwa [same]
          · exact before
      · rw [List.map_append, List.mem_append, List.map_singleton, List.mem_singleton, or_comm]

theorem nodup_savedPages (calls : List SaveCall) : ((savedPages calls).map Prod.fst).Nodup := by
  induction calls with
  | nil => exact List.nodup_nil
  | cons call earlier ih =>
      rw [savedPages]
      split_ifs with already
      · exact ih
      · rw [List.map_append, List.nodup_append]
        refine ⟨ih, List.nodup_singleton _, ?_⟩
        intro page mem other last same
        rw [List.map_singleton, List.mem_singleton] at last
        rw [same, last] at mem
        exact already mem

/-- As many pages are saved as there are different ones among the calls. -/
theorem length_savedPages (calls : List SaveCall) :
    (savedPages calls).length = (calls.map SaveCall.page).toFinset.card := by
  have same : ((savedPages calls).map Prod.fst).toFinset = (calls.map SaveCall.page).toFinset := by
    ext page
    rw [List.mem_toFinset, List.mem_toFinset, mem_savedPages]
  rw [← same, List.toFinset_card_of_nodup (nodup_savedPages calls), List.length_map]

/-- What is in the store after the calls. -/
def RecordOf (Z : Zlib) (id : UInt64) (calls : List SaveCall) (stored : Option (List UInt8)) : Prop :=
  (calls = [] ∧ stored = none) ∨
    ∃ data head, stored = some data ∧ Stored Z id (savedPages calls) data head

/-- The first page of a record. -/
theorem saves_new {stored' : Option (List UInt8)} (saves : Saves Z id none call stored') :
    ∃ data head, stored' = some data ∧
      Stored Z id [(call.page, call.pageHead ++ call.content)] data head ∧ FirstHead call head := by
  obtain ⟨data', result, short, rfl⟩ := saves
  cases length : call.length with
  | none =>
      rw [savecontent, saveNew, length] at result
      cases result
  | some n =>
      obtain ⟨head, shape, counters, written⟩ := saveNew_eq Z id length
      rw [savecontent, written] at result
      cases result
      exact ⟨_, head, rfl, ⟨shape, rfl, short⟩, counters⟩

/-- A page more, unless it is there already. -/
theorem saves_more {stored' : Option (List UInt8)} (held : Stored Z id pages data head)
    (recovers : Recovers Z (bodyOf pages)) (saves : Saves Z id (some data) call stored') :
    (call.page ∈ pages.map Prod.fst ∧ stored' = some data) ∨
    (call.page ∉ pages.map Prod.fst ∧ ∃ data' head', stored' = some data' ∧
      Stored Z id (pages ++ [(call.page, call.pageHead ++ call.content)]) data' head' ∧
      NextHead head head') := by
  obtain ⟨data', result, short, rfl⟩ := saves
  rw [savecontent] at result
  by_cases already : call.page ∈ pages.map Prod.fst
  · rw [held.repeated recovers already] at result
    cases result
    exact Or.inl ⟨already, rfl⟩
  · refine Or.inr ⟨already, ?_⟩
    cases length : call.length with
    | none =>
        rw [held.fresh (held.body_lt recovers) rfl already, length] at result
        cases result
    | some n =>
        obtain ⟨head', shape, counters, written⟩ := held.appended recovers already length
        rw [written] at result
        cases result
        exact ⟨_, head', rfl, ⟨shape, rfl, short⟩, counters⟩

theorem savecontent_record {calls : List SaveCall} {stored stored' : Option (List UInt8)}
    (recovers : Recovers Z (bodyOf (savedPages calls))) (record : RecordOf Z id calls stored)
    (saves : Saves Z id stored call stored') : RecordOf Z id (call :: calls) stored' := by
  right
  rcases record with ⟨rfl, rfl⟩ | ⟨data, head, rfl, held⟩
  · obtain ⟨data, head, rfl, stored, -⟩ := saves_new saves
    exact ⟨data, head, rfl, stored⟩
  · rcases saves_more held recovers saves with ⟨already, rfl⟩ | ⟨missing, data', head', rfl, stored, -⟩
    · rw [savedPages, if_pos already]
      exact ⟨data, head, rfl, held⟩
    · rw [savedPages, if_neg missing]
      exact ⟨data', head', rfl, stored⟩

theorem run_record {calls : List SaveCall} {stored : Option (List UInt8)}
    (run : Run (Saves Z id) none calls stored)
    (inverse : ∀ earlier, earlier <:+ calls → Recovers Z (bodyOf (savedPages earlier))) :
    RecordOf Z id calls stored := by
  induction run with
  | nil => exact Or.inl ⟨rfl, rfl⟩
  | @snoc calls _ _ call before last ih =>
      have shorter : calls <:+ call :: calls := List.suffix_cons call calls
      exact savecontent_record (inverse calls shorter)
        (ih fun earlier suffix => inverse earlier (suffix.trans shorter)) last

end Saving

/-- Whatever pages are saved, the record holds each of them once, laid out one after another; a
page that is there already leaves the record alone, and another save goes through whenever the
length of its page is an `int`. -/
theorem saved_pages_wellFormed {Z : Zlib} {id : UInt64} {calls : List SaveCall}
    {stored : Option (List UInt8)} (run : Run (Saves Z id) none calls stored)
    (inverse : ∀ earlier, earlier <:+ calls → Recovers Z (bodyOf (savedPages earlier))) :
    (calls = [] ∨ ∃ data head hs body, stored = some data ∧
      WellFormed Z (savedPages calls) data head hs body ∧
      hs.length = (calls.map SaveCall.page).toFinset.card) ∧
    ∀ call : SaveCall,
      (call.page ∈ calls.map SaveCall.page → savecontent Z id call stored = stored) ∧
      (call.length ≠ none → savecontent Z id call stored ≠ none) := by
  have recovers := inverse calls List.suffix_rfl
  rcases run_record run inverse with ⟨rfl, rfl⟩ | ⟨data, head, rfl, held⟩
  · refine ⟨Or.inl rfl, fun call => ⟨fun already => absurd already List.not_mem_nil, ?_⟩⟩
    intro small
    obtain ⟨n, length⟩ := Option.ne_none_iff_exists'.mp small
    obtain ⟨_, _, _, written⟩ := saveNew_eq Z id length
    rw [savecontent, written]
    exact Option.some_ne_none _
  · refine ⟨Or.inr ⟨data, _, _, _, rfl, held.wellFormed recovers, ?_⟩, ?_⟩
    · rw [length_entries, length_savedPages]
    · intro call
      rw [← mem_savedPages, savecontent]
      refine ⟨fun already => held.repeated recovers already, ?_⟩
      intro small
      by_cases already : call.page ∈ (savedPages calls).map Prod.fst
      · rw [held.repeated recovers already]
        exact Option.some_ne_none _
      · obtain ⟨n, length⟩ := Option.ne_none_iff_exists'.mp small
        obtain ⟨_, _, _, written⟩ := held.appended recovers already length
        rw [written]
        exact Option.some_ne_none _

/-! Two pages, the first of them saved twice. The compressed bytes are those of zlib. -/

def twoBodies : List (List UInt8 × List UInt8) :=
  [([], [120, 156, 3, 0, 0, 0, 0, 1]), ([72, 97], [120, 156, 243, 72, 4, 0, 0, 243, 0, 170]),
    ([72, 97, 72, 98], [120, 156, 243, 72, 244, 72, 2, 0, 3, 57, 1, 84])]

def twoBodies.uncompress (room : ℕ) (src : List UInt8) : Uncompressed :=
  (twoBodies.find? fun b => b.2 = src).elim (.dataError []) fun b =>
    if b.1.length ≤ room then .ok b.1 else .bufError (b.1.take room)

def zlibOfTwo : Zlib where
  compress2 src := (twoBodies.lookup src).getD []
  uncompress := twoBodies.uncompress
  fits := by
    intro room src data h
    unfold twoBodies.uncompress at h
    cases found : twoBodies.find? fun b => b.2 = src with
    | none =>
        rw [found] at h
        cases h
    | some b =>
        rw [found, Option.elim_some] at h
        split_ifs at h with fit
        cases h
        exact fit

/-- The calls, newest first. -/
def twoPageCalls : List SaveCall :=
  [⟨7, 1, 1, 1, [72], [99]⟩, ⟨7, 1, 2, 0, [72], [98]⟩, ⟨7, 1, 1, 1, [72], [97]⟩]

def saves (Z : Zlib) (id : UInt64) (stored : Option (List UInt8)) (call : SaveCall) :
    Option (Option (List UInt8)) :=
  ((savecontent Z id call stored).filter fun data => data.length ≤ datlenMax).map some

theorem saves_sound {Z : Zlib} {id : UInt64} (stored : Option (List UInt8)) (call : SaveCall)
    (stored' : Option (List UInt8)) (h : saves Z id stored call = some stored') :
    Saves Z id stored call stored' := by
  obtain ⟨data, kept, rfl⟩ := Option.map_eq_some_iff.mp h
  obtain ⟨result, short⟩ := Option.filter_eq_some_iff.mp kept
  exact ⟨data, result, of_decide_eq_true short, rfl⟩

theorem saved_pages_wellFormed_two : ∃ stored, Run (Saves zlibOfTwo 5) none twoPageCalls stored ∧
    ∃ data head hs body, stored = some data ∧
      WellFormed zlibOfTwo [(1, [72, 97]), (2, [72, 98])] data head hs body ∧ hs.length = 2 := by
  have reached : (reach (saves zlibOfTwo 5) none twoPageCalls).isSome = true := by decide +kernel
  obtain ⟨stored, value⟩ := Option.isSome_iff_exists.mp reached
  have run := run_of_reach saves_sound value
  have inverse : ∀ earlier ∈ twoPageCalls.tails,
      inf zlibOfTwo (zlibOfTwo.compress2 (bodyOf (savedPages earlier))) =
        .ok (bodyOf (savedPages earlier)) := by
    decide +kernel
  have all := saved_pages_wellFormed run fun earlier suffix =>
    inverse earlier ((List.mem_tails earlier twoPageCalls).mpr suffix)
  rcases all.1 with none | record
  · cases none
  · exact ⟨stored, run, record⟩

end BloomServer
