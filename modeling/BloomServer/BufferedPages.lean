import BloomServer.PageCache
import BloomServer.ReadContent

/-! `PageManager` with the bytes of the pages and the content database: the record that is merged
from the buffers in memory, against the one that `savecontent` builds page by page. -/
namespace BloomServer
open DecimalText LabelledRun

def pagemanageDef : Int32 := 1

/-- The settings `maxpagebufsize` and `ifdef`. -/
structure PageConf where
  maxpagebufsize : Int32
  ifdef : Int32

/-- `PAGEBUF` with the data of its buffers. -/
structure PageBuffer where
  pages : PageSlot → Option (List UInt8)
  totalpage : Int32
  nowpage : Int32
  taskid : Int32
  batchid : Int32
  totallength : ℤ
  urlnodeid : UInt64

/-- `PageManager`, and the records of the content database. -/
structure PageStore where
  totalpagebufsize : UInt64
  pagemap : UInt64 → Option PageBuffer
  stored : UInt64 → Option (List UInt8)

/-- The page as it is kept in memory. -/
def createBuffer (Z : Zlib) (conf : PageConf) (call : SaveCall) : Option (List UInt8) := do
  let _ ← call.length
  let buffer := call.pageHead ++ call.content
  if conf.ifdef = pagemanageDef then
    let storedata := Z.compress2 buffer
    if storedata.length < 2 ^ 31 then return storedata else none
  else return buffer

/-- The counter is compared with the setting as a `size_t`, and returned as an `int`. -/
def increaseTotalBufSize (conf : PageConf) (totalpagebufsize addsize : UInt64) : Int32 × UInt64 :=
  if totalpagebufsize + addsize < conf.maxpagebufsize.toInt64.toUInt64 then
    ((totalpagebufsize + addsize).toUInt32.toInt32, totalpagebufsize + addsize)
  else (-1, totalpagebufsize)

/-- The buffers of the pages, in the order of the array. -/
def pageList (pages : PageSlot → Option (List UInt8)) : List (PageSlot × List UInt8) :=
  (List.finRange (maxFinalNextPageToFetch + 1)).filterMap fun i => (pages i).map (i, ·)

/-- The loop over the pages, from `offset` on: the offset after them, their lines and their
contents. -/
def mergeLoop (urlnodeid : UInt64) (offset : ℤ) :
    List (ℤ × List UInt8) → Option (ℤ × List UInt8 × List UInt8)
  | [] => some (offset, [], [])
  | (i, page) :: rest => do
      let line ← sprintf64 (slashed [urlnodeid.toNat, offset, page.length, i])
      let next ← intSum offset page.length
      let (offset, lines, contents) ← mergeLoop urlnodeid next rest
      return (offset, line ++ lines, page ++ contents)

/-- What `SaveInDb` makes of a `PAGEBUF`. -/
def PageBuffer.record (Z : Zlib) (conf : PageConf) (pagebuf : PageBuffer) : Option (List UInt8) := do
  let pages := (pageList pagebuf.pages).map fun (i, page) =>
    ((i : ℤ), if conf.ifdef = pagemanageDef then (inf Z page).data else page)
  let (totalbufsizetmp, lines, contents) ← mergeLoop pagebuf.urlnodeid 0 pages
  let total := if conf.ifdef = pagemanageDef then totalbufsizetmp else pagebuf.totallength
  let line ← sprintf64 (slashed [total, pagebuf.totalpage.toInt, pagebuf.nowpage.toInt,
    pagebuf.taskid.toInt, pagebuf.batchid.toInt])
  let buffer := line ++ lines
  let headbuf := padLeft 8 (printInt (buffer.length + 8 + 1)) ++ [47] ++ buffer
  return headbuf ++ Z.compress2 contents

namespace PageStore

/-- The database refuses a record that is too long. -/
def store (s : PageStore) (id : UInt64) (data : List UInt8) : PageStore :=
  if data.length ≤ datlenMax then { s with stored := Function.update s.stored id (some data) } else s

/-- `SaveInDb` of a page: `savecontent`. -/
def saveContent (Z : Zlib) (s : PageStore) (id : UInt64) (call : SaveCall) : Option PageStore :=
  (savecontent Z id call (s.stored id)).map (s.store id)

/-- `SaveInDb` of a `PAGEBUF`: nothing is stored over a record. -/
def saveInDb (Z : Zlib) (conf : PageConf) (s : PageStore) (pagebuf : PageBuffer) :
    Option PageStore := do
  let data ← pagebuf.record Z conf
  match s.stored pagebuf.urlnodeid with
  | none => return s.store pagebuf.urlnodeid data
  | some _ => return s

/-- 1 for a page that is kept, 0 for one that is there already. -/
def saveInMap (s : PageStore) (buffer : List UInt8) (id : UInt64) (call : SaveCall) :
    Option (Int32 × PageStore) := do
  let slot ← pageSlot call.page
  match s.pagemap id with
  | some pagebuf =>
      if pagebuf.pages slot = none then
        let totallength ← intSum pagebuf.totallength buffer.length
        let pagebuf :=
          { pagebuf with
            pages := Function.update pagebuf.pages slot (some buffer)
            totalpage := if 1 < call.nextpage then pagebuf.totalpage + 1 else pagebuf.totalpage
            nowpage := pagebuf.nowpage + 1
            totallength }
        return (1, { s with pagemap := Function.update s.pagemap id (some pagebuf) })
      else return (0, s)
  | none =>
      let pagebuf : PageBuffer :=
        { pages := Function.update (fun _ => none) slot (some buffer)
          totalpage := call.nextpage
          nowpage := 1
          taskid := call.taskid
          batchid := call.taskbatch
          totallength := buffer.length
          urlnodeid := id }
      return (1, { s with pagemap := Function.update s.pagemap id (some pagebuf) })

/-- The record leaves the map for the database. -/
def mergePage (Z : Zlib) (conf : PageConf) (s : PageStore) (id : UInt64) (lastcontentlen : ℤ) :
    Option PageStore :=
  match s.pagemap id with
  | none => some s
  | some pagebuf => do
      let decrease ← intSum pagebuf.totallength (-lastcontentlen)
      saveInDb Z conf
        { s with
          pagemap := Function.update s.pagemap id none
          totalpagebufsize := s.totalpagebufsize - .ofInt decrease }
        pagebuf

/-- `SaveInMap` and, for a page that has been kept, `MergePage`. -/
def saveAndMerge (Z : Zlib) (conf : PageConf) (s : PageStore) (buffer : List UInt8) (id : UInt64)
    (call : SaveCall) : Option PageStore := do
  let (ret, s) ← s.saveInMap buffer id call
  if ret = 1 then s.mergePage Z conf id buffer.length else return s

def savePage (Z : Zlib) (conf : PageConf) (s : PageStore) (page : UInt64 × SaveCall) :
    Option PageStore := do
  let (id, call) := page
  let buffer ← createBuffer Z conf call
  if (s.stored id).isSome then s.saveContent Z id call
  else if (s.pagemap id).isSome then
    if 1 < call.nextpage then
      let (ret, size) := increaseTotalBufSize conf s.totalpagebufsize (.ofNat buffer.length)
      let s := { s with totalpagebufsize := size }
      if 0 < ret then (s.saveInMap buffer id call).map Prod.snd
      else s.saveAndMerge Z conf buffer id call
    else s.saveAndMerge Z conf buffer id call
  else
    if 1 < call.nextpage then
      let (ret, size) := increaseTotalBufSize conf s.totalpagebufsize (.ofNat buffer.length)
      let s := { s with totalpagebufsize := size }
      if 0 < ret then (s.saveInMap buffer id call).map Prod.snd
      else s.saveContent Z id call
    else s.saveContent Z id call

/-- No record is in the map and in the database. -/
def Apart (s : PageStore) : Prop := ∀ id, s.stored id = none ∨ s.pagemap id = none

/-- The entries of the map know their ids. -/
def Keyed (s : PageStore) : Prop := ∀ id pagebuf, s.pagemap id = some pagebuf → pagebuf.urlnodeid = id

end PageStore

/-! ### The record that is merged -/

/-- The buffer of a page. -/
def kept (Z : Zlib) (conf : PageConf) (page : List UInt8) : List UInt8 :=
  if conf.ifdef = pagemanageDef then Z.compress2 page else page

/-- What zlib promises about the length of its output. -/
def compressBound (n : ℕ) : ℕ := n + n / 2 ^ 12 + n / 2 ^ 14 + n / 2 ^ 25 + 13

/-- The buffers in memory are those of the pages, numbered from 1 on, and the counters those of the
head. -/
structure Holds (Z : Zlib) (conf : PageConf) (id : UInt64) (pages : List (Int32 × List UInt8))
    (head : ContentHead) (pagebuf : PageBuffer) : Prop extends HeadOf id pages head where
  list : (pageList pagebuf.pages).map (fun (i, buffer) => ((i : ℤ), buffer)) =
    pages.map fun page => (page.1.toInt, kept Z conf page.2)
  free : ∀ i : PageSlot, pages.length < i → pagebuf.pages i = none
  totalpages : pagebuf.totalpage = head.totalpage
  nowpages : pagebuf.nowpage = head.nowpage
  taskid : pagebuf.taskid = head.taskid
  batchid : pagebuf.batchid = head.batchid
  length : pagebuf.totallength = ((pages.map fun page => (kept Z conf page.2).length).sum : ℕ)
  urlnodeid : pagebuf.urlnodeid = id

/-- A page behind all the others comes last. -/
theorem pageList_update {pages : PageSlot → Option (List UInt8)} {slot : PageSlot}
    (free : ∀ i, slot ≤ i → pages i = none) (buffer : List UInt8) :
    pageList (Function.update pages slot (some buffer)) = pageList pages ++ [(slot, buffer)] := by
  obtain ⟨before, after, split⟩ := List.append_of_mem (List.mem_finRange slot)
  have sorted := List.pairwise_lt_finRange (maxFinalNextPageToFetch + 1)
  rw [split, List.pairwise_append, List.pairwise_cons] at sorted
  obtain ⟨-, ⟨above, -⟩, below⟩ := sorted
  unfold pageList
  rw [split, List.filterMap_append, List.filterMap_append, List.filterMap_cons, List.filterMap_cons,
    Function.update_self, free slot le_rfl]
  have first : before.filterMap (fun i => (Function.update pages slot (some buffer) i).map (i, ·)) =
      before.filterMap fun i => (pages i).map (i, ·) := by
    apply List.filterMap_congr
    intro i mem
    rw [Function.update_of_ne (below i mem slot List.mem_cons_self).ne]
  have rest (old : PageSlot → Option (List UInt8)) (none' : ∀ i, slot < i → old i = none) :
      after.filterMap (fun i => (old i).map (i, ·)) = [] := by
    rw [List.filterMap_eq_nil_iff]
    intro i mem
    rw [none' i (above i mem), Option.map_none]
  rw [first, rest pages fun i later => free i later.le, rest _ fun i later => by
    rw [Function.update_of_ne later.ne', free i later.le]]
  simp

/-- The loop writes the page heads of the layout. -/
theorem mergeLoop_eq (id : UInt64) {offset : ℕ} {pages : List (Int32 × List UInt8)}
    (small : offset + (bodyOf pages).length < 2 ^ 31) :
    mergeLoop id offset (pages.map fun page => (page.1.toInt, page.2)) =
      some (((offset + (bodyOf pages).length : ℕ) : ℤ), (entries id offset pages).flatMap pageLine,
        bodyOf pages) := by
  induction pages generalizing offset with
  | nil => rfl
  | cons page rest ih =>
      have body : bodyOf (page :: rest) = page.2 ++ bodyOf rest := by
        rw [bodyOf, List.map_cons, List.flatten_cons, ← bodyOf]
      rw [body, List.length_append] at small
      have plain : ContentPageHead.Plain
          ⟨id, Int64.ofNat offset, UInt64.ofNat page.2.length, page.1⟩ :=
        plain_of_lt (by omega) (by omega)
      have start : (Int64.ofNat offset).toInt = offset := Int64.toInt_ofNat_of_lt (by omega)
      obtain ⟨place, low⟩ := toNat_toUInt64_offset plain
      have size : (UInt64.ofNat page.2.length).toNat = page.2.length := by
        rw [UInt64.toNat_ofNat']
        omega
      have line : pageLine ⟨id, Int64.ofNat offset, UInt64.ofNat page.2.length, page.1⟩ =
          slashed [id.toNat, offset, page.2.length, page.1.toInt] := by
        rw [pageLine, lowInt_of_lt low, place, start, lowInt_of_lt plain.length, size]
      have next : intSum offset page.2.length = some ((offset + page.2.length : ℕ) : ℤ) := by
        rw [intSum, if_pos (by omega)]
        rfl
      rw [List.map_cons, mergeLoop, ← line, sprintf64, if_pos (pageLine_length plain).1, next]
      dsimp only [bind, Option.bind]
      rw [ih (by omega), entries, List.flatMap_cons, body, List.length_append, Nat.add_assoc]
      rfl

/-- The record of the pages in memory is laid out like the one that `savecontent` makes. -/
theorem Holds.record {Z : Zlib} {conf : PageConf} {id : UInt64} {pages : List (Int32 × List UInt8)}
    {head : ContentHead} {pagebuf : PageBuffer} (holds : Holds Z conf id pages head pagebuf)
    (recovers : ∀ page ∈ pages, Recovers Z page.2) (small : (bodyOf pages).length < 2 ^ 31) :
    pagebuf.record Z conf = some (head.text ++ Z.compress2 (bodyOf pages)) := by
  have list : (pageList pagebuf.pages).map (fun (i, page) =>
      ((i : ℤ), if conf.ifdef = pagemanageDef then (inf Z page).data else page)) =
      pages.map fun page => (page.1.toInt, page.2) := by
    have content (page : List UInt8) (back : Recovers Z page) :
        (if conf.ifdef = pagemanageDef then (inf Z (kept Z conf page)).data else kept Z conf page) =
          page := by
      unfold kept
      split_ifs
      · rw [back]
        rfl
      · rfl
    have pairs := congrArg (List.map fun entry : ℤ × List UInt8 => (entry.1,
      if conf.ifdef = pagemanageDef then (inf Z entry.2).data else entry.2)) holds.list
    rw [List.map_map, List.map_map] at pairs
    refine pairs.trans (List.map_congr_left fun page mem => ?_)
    exact congrArg (page.1.toInt, ·) (content page.2 (recovers page mem))
  have merged := mergeLoop_eq id (by omega : 0 + (bodyOf pages).length < 2 ^ 31)
  rw [Nat.cast_zero] at merged
  have total : (if conf.ifdef = pagemanageDef then ((0 + (bodyOf pages).length : ℕ) : ℤ)
      else pagebuf.totallength) = lowInt head.totallength := by
    rw [lowInt_of_lt (by rw [holds.totallength]; exact small), holds.totallength, Nat.zero_add]
    split_ifs with deflated
    · rfl
    · rw [holds.length, length_bodyOf]
      simp only [kept, if_neg deflated]
  have line : slashed [lowInt head.totallength, pagebuf.totalpage.toInt, pagebuf.nowpage.toInt,
      pagebuf.taskid.toInt, pagebuf.batchid.toInt] = totalsLine head := by
    rw [holds.totalpages, holds.nowpages, holds.taskid, holds.batchid]
    rfl
  rw [PageBuffer.record, list, holds.urlnodeid, merged]
  change (sprintf64 (slashed [if conf.ifdef = pagemanageDef then
    ((0 + (bodyOf pages).length : ℕ) : ℤ) else pagebuf.totallength, pagebuf.totalpage.toInt,
    pagebuf.nowpage.toInt, pagebuf.taskid.toInt, pagebuf.batchid.toInt])).bind _ = _
  rw [total, line, sprintf64, if_pos (totalsLine_length head), Option.bind_some, ContentHead.text,
    headText, holds.heads]
  rfl

/-! ### Adding a page -/

/-- The buffers are at most twice as long as the pages, and 13 bytes each. -/
theorem length_kept_le {Z : Zlib} (bound : ∀ src, (Z.compress2 src).length ≤ compressBound src.length)
    (conf : PageConf) (page : List UInt8) : (kept Z conf page).length ≤ 2 * page.length + 13 := by
  unfold kept
  split_ifs
  · have := bound page
    unfold compressBound at this
    omega
  · omega

theorem sum_kept_le {Z : Zlib} (bound : ∀ src, (Z.compress2 src).length ≤ compressBound src.length)
    (conf : PageConf) (pages : List (Int32 × List UInt8)) :
    (pages.map fun page => (kept Z conf page.2).length).sum ≤
      2 * (bodyOf pages).length + 13 * pages.length := by
  induction pages with
  | nil => exact Nat.zero_le _
  | cons page rest ih =>
      have first := length_kept_le bound conf page.2
      have body : (bodyOf (page :: rest)).length = page.2.length + (bodyOf rest).length := by
        rw [bodyOf, List.map_cons, List.flatten_cons, List.length_append, ← bodyOf]
      rw [List.map_cons, List.sum_cons, body, List.length_cons]
      omega

theorem createBuffer_eq {Z : Zlib} (bound : ∀ src, (Z.compress2 src).length ≤ compressBound src.length)
    (conf : PageConf) {call : SaveCall} (small : (call.pageHead ++ call.content).length ≤ 2 ^ 27) :
    createBuffer Z conf call = some (kept Z conf (call.pageHead ++ call.content)) := by
  have length : call.length = some (call.pageHead ++ call.content).length := by
    rw [SaveCall.length, ← List.length_append]
    exact if_pos (by omega)
  have fits := bound (call.pageHead ++ call.content)
  unfold compressBound at fits
  rw [createBuffer, length]
  change (if conf.ifdef = pagemanageDef then (if _ then _ else _) else _) = _
  unfold kept
  split_ifs
  · rfl
  · omega
  · rfl

section Adding

variable {Z : Zlib} {conf : PageConf} {id : UInt64} {pages : List (Int32 × List UInt8)}
  {head head' : ContentHead} {pagebuf : PageBuffer} {call : SaveCall} {s : PageStore}

theorem pageSlot_of_lt {n : ℕ} {page : Int32} (few : n < maxFinalNextPageToFetch)
    (number : page = Int32.ofNat (n + 1)) :
    ∃ slot : PageSlot, pageSlot page = some slot ∧ (slot : ℕ) = n + 1 ∧ page.toInt = n + 1 := by
  unfold maxFinalNextPageToFetch at few
  have value : page.toInt = n + 1 := by
    rw [number]
    exact Int32.toInt_ofNat_of_lt (by omega)
  refine ⟨⟨n + 1, by unfold maxFinalNextPageToFetch; omega⟩, ?_, rfl, value⟩
  rw [pageSlot, dif_pos (by omega)]
  congr 2
  omega

/-- The first page goes into the map. -/
theorem saveInMap_new (shape : HeadOf id [call.stored] head) (first : FirstHead call head)
    (number : call.page = 1) (none' : s.pagemap id = none) :
    ∃ pagebuf, s.saveInMap (kept Z conf call.stored.2) id call =
        some (1, { s with pagemap := Function.update s.pagemap id (some pagebuf) }) ∧
      Holds Z conf id [call.stored] head pagebuf := by
  obtain ⟨slot, place, index, value⟩ := pageSlot_of_lt (n := 0) (by decide) number
  rw [PageStore.saveInMap, place, Option.bind_eq_bind, Option.bind_some, none']
  refine ⟨_, rfl, ⟨shape, ?_, ?_, first.totalpage.symm, first.nowpage.symm, first.taskid.symm,
    first.batchid.symm, ?_, rfl⟩⟩
  · have none_ : pageList (fun _ => none) = [] := by
      rw [pageList, List.filterMap_eq_nil_iff]
      exact fun _ _ => rfl
    rw [pageList_update fun _ _ => rfl, none_, List.nil_append, List.map_singleton, List.map_singleton]
    dsimp only
    rw [index, SaveCall.stored, value]
    rfl
  · intro i later
    rw [List.length_singleton] at later
    have apart : i ≠ slot := by
      rintro rfl
      omega
    dsimp only
    rw [Function.update_of_ne apart]
  · rfl

/-- A page more, with or without one to come. -/
theorem saveInMap_more (holds : Holds Z conf id pages head pagebuf)
    (shape : HeadOf id (pages ++ [call.stored]) head')
    (totalpage : head'.totalpage = if 1 < call.nextpage then head.totalpage + 1 else head.totalpage)
    (nowpage : head'.nowpage = head.nowpage + 1) (taskid : head'.taskid = head.taskid)
    (batchid : head'.batchid = head.batchid) (few : pages.length < maxFinalNextPageToFetch)
    (number : call.page = Int32.ofNat (pages.length + 1))
    (small : ((pages ++ [call.stored]).map fun page => (kept Z conf page.2).length).sum < 2 ^ 31)
    (here : s.pagemap id = some pagebuf) :
    ∃ pagebuf', s.saveInMap (kept Z conf call.stored.2) id call =
        some (1, { s with pagemap := Function.update s.pagemap id (some pagebuf') }) ∧
      Holds Z conf id (pages ++ [call.stored]) head' pagebuf' := by
  obtain ⟨slot, place, index, value⟩ := pageSlot_of_lt few number
  have free := holds.free slot (by omega)
  have length : intSum pagebuf.totallength (kept Z conf call.stored.2).length = some
      (((pages ++ [call.stored]).map fun page => (kept Z conf page.2).length).sum : ℕ) := by
    rw [List.map_append, List.sum_append] at small ⊢
    rw [holds.length, intSum, List.map_singleton, List.sum_singleton, if_pos]
    · rfl
    · rw [List.map_singleton, List.sum_singleton] at small
      omega
  rw [PageStore.saveInMap, place, Option.bind_eq_bind, Option.bind_some, here]
  dsimp only
  rw [if_pos free, length]
  refine ⟨_, rfl, ⟨shape, ?_, ?_, ?_, ?_, ?_, ?_, rfl, holds.urlnodeid⟩⟩
  · dsimp only
    have behind : ∀ i, slot ≤ i → pagebuf.pages i = none := fun i later =>
      holds.free i (by have := Fin.le_def.mp later; omega)
    rw [pageList_update behind, List.map_append, holds.list, List.map_append, List.map_singleton,
      List.map_singleton]
    dsimp only
    rw [index, SaveCall.stored, value]
    push_cast
    rfl
  · intro i later
    rw [List.length_append, List.length_singleton] at later
    have apart : i ≠ slot := by
      rintro rfl
      omega
    dsimp only
    rw [Function.update_of_ne apart]
    exact holds.free i (by omega)
  · rw [totalpage, holds.totalpages]
  · rw [nowpage, holds.nowpages]
  · rw [taskid, holds.taskid]
  · rw [batchid, holds.batchid]

/-- The record goes from the map to the database. -/
theorem saveAndMerge_eq {buffer : List UInt8}
    (saved : s.saveInMap buffer id call =
      some (1, { s with pagemap := Function.update s.pagemap id (some pagebuf) }))
    (holds : Holds Z conf id pages head pagebuf) (recovers : ∀ page ∈ pages, Recovers Z page.2)
    (small : (bodyOf pages).length < 2 ^ 31) (total : pagebuf.totallength < 2 ^ 31)
    (last : buffer.length < 2 ^ 31) (none' : s.stored id = none)
    (short : (head.text ++ Z.compress2 (bodyOf pages)).length ≤ datlenMax) :
    ∃ t, s.saveAndMerge Z conf buffer id call = some t ∧
      t.stored id = some (head.text ++ Z.compress2 (bodyOf pages)) ∧ t.pagemap id = none := by
  have positive : 0 ≤ pagebuf.totallength := by
    rw [holds.length]
    exact Int.natCast_nonneg _
  have decrease : intSum pagebuf.totallength (-(buffer.length : ℤ)) =
      some (pagebuf.totallength + -(buffer.length : ℤ)) := if_pos (by omega)
  rw [PageStore.saveAndMerge, saved, Option.bind_eq_bind, Option.bind_some]
  dsimp only
  rw [if_pos rfl, PageStore.mergePage]
  dsimp only
  rw [Function.update_self]
  dsimp only
  rw [decrease, Option.bind_eq_bind, Option.bind_some, PageStore.saveInDb,
    holds.record recovers small, Option.bind_eq_bind, Option.bind_some, holds.urlnodeid]
  dsimp only
  rw [none', PageStore.store, if_pos short]
  exact ⟨_, rfl, Function.update_self .., Function.update_self ..⟩

end Adding

/-! ### Where the pages of an article are -/

/-- `totalpagebufsize` with the buffers, newest first, counted. -/
def counted (total : UInt64) : List (List UInt8) → UInt64
  | [] => total
  | buffer :: earlier => counted total earlier + .ofNat buffer.length

/-- There is no room for one of the buffers. -/
def Spills (conf : PageConf) (total : UInt64) : List (List UInt8) → Prop
  | [] => False
  | buffer :: earlier => Spills conf total earlier ∨
      ¬ 0 < (increaseTotalBufSize conf (counted total earlier) (.ofNat buffer.length)).1

/-- The pages, newest first, are numbered from 1 on. -/
def PagesNumbered : List SaveCall → Prop
  | [] => True
  | call :: earlier => call.page = Int32.ofNat (earlier.length + 1) ∧ PagesNumbered earlier

/-- The buffers of the pages. -/
def buffers (Z : Zlib) (conf : PageConf) (calls : List SaveCall) : List (List UInt8) :=
  calls.map fun call => kept Z conf call.stored.2

theorem increaseTotalBufSize_of_pos {conf : PageConf} {total addsize : UInt64}
    (room : 0 < (increaseTotalBufSize conf total addsize).1) :
    (increaseTotalBufSize conf total addsize).2 = total + addsize := by
  unfold increaseTotalBufSize at room ⊢
  split_ifs at room ⊢
  · rfl
  · exact absurd room (by change ¬ (0 : Int32) < -1; decide)

theorem PagesNumbered.page_le {calls : List SaveCall} (numbered : PagesNumbered calls)
    (few : calls.length ≤ maxFinalNextPageToFetch) {call : SaveCall} (mem : call ∈ calls) :
    call.page.toInt ≤ calls.length := by
  unfold maxFinalNextPageToFetch at few
  induction calls with
  | nil => cases mem
  | cons first earlier ih =>
      rw [List.length_cons] at few ⊢
      rcases List.mem_cons.mp mem with rfl | before
      · rw [numbered.1, Int32.toInt_ofNat_of_lt (by omega)]
      · have := ih numbered.2 (by omega) before
        omega

/-- The pages are different ones. -/
theorem PagesNumbered.savedPages_cons {call : SaveCall} {earlier : List SaveCall}
    (numbered : PagesNumbered (call :: earlier)) (few : (call :: earlier).length ≤ maxFinalNextPageToFetch) :
    call.page ∉ (savedPages earlier).map Prod.fst ∧
      savedPages (call :: earlier) = savedPages earlier ++ [call.stored] := by
  rw [List.length_cons] at few
  have fresh : call.page ∉ (savedPages earlier).map Prod.fst := by
    rw [mem_savedPages]
    intro mem
    obtain ⟨other, before, same⟩ := List.mem_map.mp mem
    have low := numbered.2.page_le (by omega) before
    unfold maxFinalNextPageToFetch at few
    rw [same, numbered.1, Int32.toInt_ofNat_of_lt (by omega)] at low
    omega
  exact ⟨fresh, by rw [savedPages, if_neg fresh]; rfl⟩

theorem PagesNumbered.length_savedPages {calls : List SaveCall} (numbered : PagesNumbered calls)
    (few : calls.length ≤ maxFinalNextPageToFetch) : (savedPages calls).length = calls.length := by
  induction calls with
  | nil => rfl
  | cons call earlier ih =>
      rw [(numbered.savedPages_cons few).2, List.length_append, ih numbered.2 (by
        rw [List.length_cons] at few
        omega)]
      rfl

/-- What is expected of zlib: its bound on the output, and that the pages and the bodies made of them
are recovered. -/
structure Compresses (Z : Zlib) (calls : List SaveCall) : Prop where
  bound : ∀ src, (Z.compress2 src).length ≤ compressBound src.length
  pages : ∀ call ∈ calls, Recovers Z call.stored.2
  bodies : ∀ earlier, earlier <:+ calls → Recovers Z (bodyOf (savedPages earlier))

theorem Compresses.earlier {Z : Zlib} {call : SaveCall} {earlier : List SaveCall}
    (zlib : Compresses Z (call :: earlier)) : Compresses Z earlier :=
  ⟨zlib.bound, fun c mem => zlib.pages c (List.mem_cons_of_mem call mem),
    fun calls suffix => zlib.bodies calls (suffix.trans (List.suffix_cons call earlier))⟩

/-- After the pages `calls` of the record that would be `direct` in the database: it is there since
there was no room for one of them, or still in the map. -/
def Whereabouts (Z : Zlib) (conf : PageConf) (id : UInt64) (total : UInt64) (calls : List SaveCall)
    (direct : Option (List UInt8)) (s : PageStore) : Prop :=
  (Spills conf total (buffers Z conf calls) ∧ s.stored id = direct ∧ s.pagemap id = none) ∨
  (¬ Spills conf total (buffers Z conf calls) ∧ s.stored id = none ∧
    s.totalpagebufsize = counted total (buffers Z conf calls) ∧
    ((calls = [] ∧ s.pagemap id = none) ∨
      ∃ data head pagebuf, direct = some data ∧ Stored Z id (savedPages calls) data head ∧
        s.pagemap id = some pagebuf ∧ Holds Z conf id (savedPages calls) head pagebuf))

section Article

variable {Z : Zlib} {conf : PageConf} {id total : UInt64} {call : SaveCall}
  {earlier : List SaveCall} {direct direct' : Option (List UInt8)} {s : PageStore}

/-- The length of a page whose record is stored. -/
theorem Stored.page_le {pages : List (Int32 × List UInt8)} {data : List UInt8} {head : ContentHead}
    (held : Stored Z id (pages ++ [call.stored]) data head)
    (recovers : Recovers Z (bodyOf (pages ++ [call.stored]))) :
    (bodyOf (pages ++ [call.stored])).length ≤ 2 ^ 27 ∧ call.stored.2.length ≤ 2 ^ 27 := by
  have small := held.body_le recovers
  refine ⟨small, ?_⟩
  rw [bodyOf, List.map_append, List.flatten_append, List.length_append] at small
  simp at small
  omega

/-- What is stored directly, after a call more. -/
theorem saves_numbered (numbered : PagesNumbered (call :: earlier))
    (few : (call :: earlier).length ≤ maxFinalNextPageToFetch) (zlib : Compresses Z (call :: earlier))
    (run : Run (Saves Z id) none earlier direct) (saves : Saves Z id direct call direct') :
    ∃ data' head', direct' = some data' ∧ Stored Z id (savedPages (call :: earlier)) data' head' ∧
      ((earlier = [] ∧ FirstHead call head') ∨
        ∃ data head, direct = some data ∧ Stored Z id (savedPages earlier) data head ∧
          NextHead head head') := by
  obtain ⟨fresh, more⟩ := numbered.savedPages_cons few
  rw [more]
  rcases run_record run zlib.earlier.bodies with ⟨rfl, rfl⟩ | ⟨data, head, rfl, held⟩
  · obtain ⟨data', head', rfl, held', first⟩ := saves_new saves
    exact ⟨data', head', rfl, held', Or.inl ⟨rfl, first⟩⟩
  · rcases saves_more held (zlib.earlier.bodies _ List.suffix_rfl) saves with
      ⟨already, -⟩ | ⟨-, data', head', rfl, held', next⟩
    · exact absurd already fresh
    · exact ⟨data', head', rfl, held', Or.inr ⟨data, head, rfl, held, next⟩⟩

theorem saveContent_of_saves (saves : Saves Z id direct call direct') (here : s.stored id = direct) :
    ∃ t, s.saveContent Z id call = some t ∧ t.stored id = direct' ∧ t.pagemap = s.pagemap := by
  obtain ⟨data, result, short, rfl⟩ := saves
  rw [PageStore.saveContent, here, result, Option.map_some, PageStore.store, if_pos short]
  exact ⟨_, rfl, Function.update_self .., rfl⟩

/-- The bytes of a record determine its counters. -/
theorem Stored.counters_eq {pages : List (Int32 × List UInt8)} {data : List UInt8}
    {head head' : ContentHead} (held : Stored Z id pages data head)
    (held' : Stored Z id pages data head') (recovers : Recovers Z (bodyOf pages)) :
    head.totalpage = head'.totalpage ∧ head.nowpage = head'.nowpage ∧ head.taskid = head'.taskid ∧
      head.batchid = head'.batchid := by
  have one := (held.read (held.body_lt recovers)).1
  rw [(held'.read (held.body_lt recovers)).1] at one
  obtain ⟨-, -, totalpage, nowpage, taskid, batchid, -⟩ := ContentHead.mk.inj (Option.some.inj one)
  exact ⟨totalpage.symm, nowpage.symm, taskid.symm, batchid.symm⟩

variable (conf) in
/-- The sum of the buffers of an article is an `int`. -/
theorem sum_kept_lt {pages : List (Int32 × List UInt8)} (zlib : Compresses Z (call :: earlier))
    (small : (bodyOf pages).length ≤ 2 ^ 27) (few : pages.length ≤ maxFinalNextPageToFetch) :
    (pages.map fun page => (kept Z conf page.2).length).sum < 2 ^ 31 := by
  have := sum_kept_le zlib.bound conf pages
  unfold maxFinalNextPageToFetch at few
  omega

theorem mem_savedPages_stored {calls : List SaveCall} {page : Int32 × List UInt8}
    (mem : page ∈ savedPages calls) : ∃ call ∈ calls, page = call.stored := by
  induction calls with
  | nil => cases mem
  | cons first before ih =>
      rw [savedPages] at mem
      split_ifs at mem
      · obtain ⟨call, member, same⟩ := ih mem
        exact ⟨call, List.mem_cons_of_mem _ member, same⟩
      · rcases List.mem_append.mp mem with older | newest
        · obtain ⟨call, member, same⟩ := ih older
          exact ⟨call, List.mem_cons_of_mem _ member, same⟩
        · exact ⟨first, List.mem_cons_self, List.mem_singleton.mp newest⟩

theorem Compresses.savedPages {calls : List SaveCall} (zlib : Compresses Z calls)
    {page : Int32 × List UInt8} (mem : page ∈ savedPages calls) : Recovers Z page.2 := by
  obtain ⟨call, member, rfl⟩ := mem_savedPages_stored mem
  exact zlib.pages call member

/-- A page with another one to come goes into the map, if the record is not in the database. -/
theorem saveInMap_next {head' : ContentHead} {data' : List UInt8}
    (numbered : PagesNumbered (call :: earlier))
    (few : (call :: earlier).length ≤ maxFinalNextPageToFetch) (zlib : Compresses Z (call :: earlier))
    (next : 1 < call.nextpage) (run : Run (Saves Z id) none earlier direct)
    (held' : Stored Z id (savedPages (call :: earlier)) data' head')
    (before : (earlier = [] ∧ FirstHead call head') ∨
      ∃ data head, direct = some data ∧ Stored Z id (savedPages earlier) data head ∧
        NextHead head head')
    (place : (earlier = [] ∧ s.pagemap id = none) ∨
      ∃ data head pagebuf, direct = some data ∧ Stored Z id (savedPages earlier) data head ∧
        s.pagemap id = some pagebuf ∧ Holds Z conf id (savedPages earlier) head pagebuf) :
    ∃ pagebuf, s.saveInMap (kept Z conf call.stored.2) id call =
        some (1, { s with pagemap := Function.update s.pagemap id (some pagebuf) }) ∧
      Holds Z conf id (savedPages (call :: earlier)) head' pagebuf := by
  have more := (numbered.savedPages_cons few).2
  have recovers := zlib.bodies _ List.suffix_rfl
  have count := numbered.length_savedPages few
  rw [more] at held' recovers count ⊢
  rcases before with ⟨rfl, first⟩ | ⟨data, head, rfl, held, following⟩
  · rcases place with ⟨-, none'⟩ | ⟨data, _, _, rfl, _⟩
    · exact saveInMap_new held'.toHeadOf first numbered.1 none'
    · cases run.of_nil
  · rcases place with ⟨rfl, -⟩ | ⟨_, head₀, pagebuf, same, held₀, here, holds⟩
    · cases run.of_nil
    · cases same
      obtain ⟨totalpage, nowpage, taskid, batchid⟩ :=
        held.counters_eq held₀ (zlib.earlier.bodies _ List.suffix_rfl)
      have length := numbered.2.length_savedPages (by rw [List.length_cons] at few; omega)
      rw [List.length_cons] at few
      apply saveInMap_more holds held'.toHeadOf
      · rw [if_pos next, following.totalpage, totalpage]
      · rw [following.nowpage, nowpage]
      · rw [following.taskid, taskid]
      · rw [following.batchid, batchid]
      · omega
      · rw [length]
        exact numbered.1
      · exact sum_kept_lt _ zlib (held'.body_le recovers) (by rw [count]; exact few)
      · exact here

/-- A page with another one to come. -/
theorem Whereabouts.more (follows : Whereabouts Z conf id total earlier direct s)
    (numbered : PagesNumbered (call :: earlier))
    (few : (call :: earlier).length ≤ maxFinalNextPageToFetch) (zlib : Compresses Z (call :: earlier))
    (next : 1 < call.nextpage) (run : Run (Saves Z id) none earlier direct)
    (saves : Saves Z id direct call direct') :
    ∃ t, s.savePage Z conf (id, call) = some t ∧
      Whereabouts Z conf id total (call :: earlier) direct' t := by
  obtain ⟨data', head', rfl, held', before⟩ := saves_numbered numbered few zlib run saves
  have more := (numbered.savedPages_cons few).2
  have recovers := zlib.bodies _ List.suffix_rfl
  obtain ⟨small, short⟩ := (more ▸ held').page_le (more ▸ recovers)
  have made := createBuffer_eq zlib.bound conf short
  rw [PageStore.savePage, made, Option.bind_eq_bind, Option.bind_some]
  dsimp only
  rcases follows with ⟨spilled, here, gone⟩ | ⟨fits, none', size, place⟩
  · -- the record is in the database already
    rcases before with ⟨rfl, -⟩ | ⟨data, head, rfl, -⟩
    · cases spilled
    · obtain ⟨t, done, stored, same⟩ := saveContent_of_saves saves here
      rw [here, Option.isSome_some, if_pos rfl]
      exact ⟨t, done, Or.inl ⟨Or.inl spilled, stored, by rw [same, gone]⟩⟩
  · rw [none', Option.isSome_none, if_neg Bool.false_ne_true, if_pos next, if_pos next]
    generalize count : increaseTotalBufSize conf s.totalpagebufsize
      (.ofNat (kept Z conf (call.pageHead ++ call.content)).length) = grown
    obtain ⟨pagebuf, saved, holds⟩ := saveInMap_next (s := { s with totalpagebufsize := grown.2 })
      numbered few zlib next run held' before place
    have counts : (increaseTotalBufSize conf (counted total (buffers Z conf earlier))
        (.ofNat (kept Z conf call.stored.2).length)) = grown := by
      rw [← size]
      exact count
    have step : Spills conf total (buffers Z conf (call :: earlier)) ↔
        Spills conf total (buffers Z conf earlier) ∨ ¬ 0 < grown.1 := by
      rw [← counts]
      exact Iff.rfl
    by_cases room : 0 < grown.1
    · -- there is room for it
      have fits' : ¬ Spills conf total (buffers Z conf (call :: earlier)) := fun either =>
        (step.mp either).elim fits fun full => full room
      have size' : grown.2 = counted total (buffers Z conf (call :: earlier)) := by
        rw [← counts] at room ⊢
        exact increaseTotalBufSize_of_pos room
      have stays : (PageStore.saveInMap { s with totalpagebufsize := grown.2 }
          (kept Z conf (call.pageHead ++ call.content)) id call).map Prod.snd = some _ :=
        congrArg (Option.map Prod.snd) saved
      rw [if_pos room, if_pos room, stays]
      refine ⟨_, ite_self _, Or.inr ⟨fits', none', size', Or.inr ⟨data', head', pagebuf, rfl, held',
        Function.update_self .., holds⟩⟩⟩
    · have spilled := step.mpr (Or.inr room)
      rw [if_neg room, if_neg room]
      rcases place with ⟨rfl, gone⟩ | ⟨_, _, _, _, _, here, _⟩
      · obtain rfl := run.of_nil
        obtain ⟨t, done, stored, same⟩ :=
          saveContent_of_saves (s := { s with totalpagebufsize := grown.2 }) saves none'
        rw [gone, Option.isSome_none, if_neg Bool.false_ne_true]
        exact ⟨t, done, Or.inl ⟨spilled, stored, by rw [same, gone]⟩⟩
      · have many := numbered.length_savedPages few
        have sum := sum_kept_lt conf zlib (more ▸ small) (by rw [many]; exact few)
        have last := length_kept_le zlib.bound conf call.stored.2
        have bytes := held'.bytes
        obtain ⟨t, done, stored, gone⟩ := saveAndMerge_eq saved holds
          (fun page mem => zlib.savedPages mem) (by rw [more]; omega) (by rw [holds.length]; omega)
          (by omega) none' (bytes ▸ held'.short)
        rw [here, Option.isSome_some, if_pos rfl]
        exact ⟨t, done, Or.inl ⟨spilled, by rw [stored, bytes], gone⟩⟩

variable (conf) in
/-- All the pages but the last. -/
theorem whereabouts_all {calls : List SaveCall} (numbered : PagesNumbered calls)
    (few : calls.length ≤ maxFinalNextPageToFetch) (zlib : Compresses Z calls)
    (next : ∀ call ∈ calls, 1 < call.nextpage) (run : Run (Saves Z id) none calls direct)
    (fresh : s.stored id = none ∧ s.pagemap id = none) :
    ∃ t, reach (PageStore.savePage Z conf) s (calls.map (id, ·)) = some t ∧
      Whereabouts Z conf id s.totalpagebufsize calls direct t := by
  induction calls generalizing direct with
  | nil =>
      obtain rfl := run.of_nil
      exact ⟨s, rfl, Or.inr ⟨not_false, fresh.1, rfl, Or.inl ⟨rfl, fresh.2⟩⟩⟩
  | cons call earlier ih =>
      obtain ⟨_, before, saves⟩ := run.of_cons
      obtain ⟨t, reached, follows⟩ := ih numbered.2 (by rw [List.length_cons] at few; omega)
        zlib.earlier (fun c mem => next c (List.mem_cons_of_mem call mem)) before
      obtain ⟨u, done, follows'⟩ :=
        follows.more numbered few zlib (next call List.mem_cons_self) before saves
      refine ⟨u, ?_, follows'⟩
      rw [List.map_cons, reach, reached, Option.bind_some, done]

/-- A number does not get fewer digits by counting up, from zero on or far below. -/
theorem length_printInt_succ {x : Int32} (far : 0 ≤ x.toInt ∨ x.toInt ≤ -10 ^ 9 - 1) :
    (printInt x.toInt).length ≤ (printInt (x + 1).toInt).length := by
  have low := x.minValue_le_toInt
  have high := toInt_lt x
  change -2 ^ 31 ≤ x.toInt at low
  have next : (x + 1).toInt = Int.bmod (x.toInt + 1) (2 ^ 32) := Int32.toInt_add x 1
  rcases far with positive | negative
  · by_cases top : x.toInt + 1 < 2 ^ 31
    · rw [next, Int.bmod_eq_of_le (by omega) (by omega)]
      obtain ⟨n, value⟩ := Int.eq_ofNat_of_zero_le positive
      rw [value, printInt_natCast]
      exact (length_decimal_mono (Nat.le_succ n)).trans_eq (congrArg _ (printInt_natCast (n + 1)).symm)
    · have value : x.toInt = 2147483647 := by omega
      rw [next, value]
      decide
  · have value : (x + 1).toInt = x.toInt + 1 := by
      rw [next, Int.bmod_eq_of_le (by omega) (by omega)]
    have digits : ¬ (decimal (x.toInt + 1).natAbs).length ≤ 9 := by
      rw [length_decimal_le_iff (by decide)]
      omega
    have width := length_printInt_toInt x
    have long : (printInt (x.toInt + 1)).length = (decimal (x.toInt + 1).natAbs).length + 1 := by
      rw [printInt, if_pos (by omega), List.length_cons]
    rw [value, long]
    omega

/-- The total number of pages before the last one: near zero, or the sum has overflowed. -/
theorem totalpage_far {data : List UInt8} {head : ContentHead} (some' : earlier ≠ [])
    (few : earlier.length < maxFinalNextPageToFetch) (next : ∀ call ∈ earlier, 1 < call.nextpage)
    (numbered : PagesNumbered earlier) (zlib : Compresses Z earlier)
    (run : Run (Saves Z id) none earlier (some data))
    (held : Stored Z id (savedPages earlier) data head) :
    0 ≤ head.totalpage.toInt ∨ head.totalpage.toInt ≤ -10 ^ 9 - 1 := by
  obtain ⟨later, first, rfl⟩ := (List.eq_nil_or_concat earlier).resolve_left some'
  rw [List.concat_eq_append] at *
  obtain ⟨_, head₀, same, held₀, apart⟩ := run_counters first run zlib.bodies
  cases same
  have recovers := zlib.bodies _ List.suffix_rfl
  have equal := (held.counters_eq held₀ recovers).1
  have now : head₀.nowpage.toInt = _ := held₀.nowpage
  rw [numbered.length_savedPages few.le] at now
  have low : (1 : Int32).toInt < first.nextpage.toInt :=
    Int32.lt_iff_toInt_lt.mp (next first (List.mem_append_right _ (List.mem_singleton_self first)))
  have high := toInt_lt first.nextpage
  change 1 < _ at low
  have total : head.totalpage = first.nextpage + (head₀.nowpage - 1) := by
    rw [equal]
    grind
  have count : (later ++ [first]).length = later.length + 1 := List.length_append
  unfold maxFinalNextPageToFetch at few
  have rest : (head₀.nowpage - 1).toInt = later.length := by
    rw [Int32.toInt_sub, now, count]
    change Int.bmod (((later.length + 1 : ℕ) : ℤ) - 1) (2 ^ 32) = _
    rw [Int.bmod_eq_of_le (by omega) (by omega)]
    omega
  rw [total, Int32.toInt_add, rest]
  by_cases fits : first.nextpage.toInt + later.length < 2 ^ 31
  · left
    rw [Int.bmod_eq_of_le (by omega) (by omega)]
    omega
  · right
    rw [Int.bmod_def]
    omega

/-- The last page. Its record is the one that is stored directly, or has a smaller `totalpage`. -/
theorem Whereabouts.last (follows : Whereabouts Z conf id total earlier direct s)
    (numbered : PagesNumbered (call :: earlier))
    (few : (call :: earlier).length ≤ maxFinalNextPageToFetch) (zlib : Compresses Z (call :: earlier))
    (next : ∀ call ∈ earlier, 1 < call.nextpage) (ends : ¬ 1 < call.nextpage)
    (run : Run (Saves Z id) none earlier direct) (saves : Saves Z id direct call direct') :
    ∃ t, s.savePage Z conf (id, call) = some t ∧
      (((earlier = [] ∨ Spills conf total (buffers Z conf earlier)) ∧ t.stored id = direct') ∨
      (¬ (earlier = [] ∨ Spills conf total (buffers Z conf earlier)) ∧
        ∃ data head data' head', direct' = some data ∧
          Stored Z id (savedPages (call :: earlier)) data head ∧ t.stored id = some data' ∧
          Stored Z id (savedPages (call :: earlier)) data' head' ∧
          head.totalpage = head'.totalpage + 1)) := by
  obtain ⟨data', head', rfl, held', before⟩ := saves_numbered numbered few zlib run saves
  have more := (numbered.savedPages_cons few).2
  have recovers := zlib.bodies _ List.suffix_rfl
  obtain ⟨small, short⟩ := (more ▸ held').page_le (more ▸ recovers)
  have made := createBuffer_eq zlib.bound conf short
  rw [PageStore.savePage, made, Option.bind_eq_bind, Option.bind_some]
  dsimp only
  rcases follows with ⟨spilled, here, gone⟩ | ⟨fits, none', -, place⟩
  · rcases before with ⟨rfl, -⟩ | ⟨data, head, rfl, -⟩
    · cases spilled
    · obtain ⟨t, done, stored, -⟩ := saveContent_of_saves saves here
      rw [here, Option.isSome_some, if_pos rfl]
      exact ⟨t, done, Or.inl ⟨Or.inr spilled, stored⟩⟩
  · rw [none', Option.isSome_none, if_neg Bool.false_ne_true, if_neg ends, if_neg ends]
    rcases place with ⟨rfl, gone⟩ | ⟨data, head, pagebuf, rfl, held, here, holds⟩
    · obtain rfl := run.of_nil
      obtain ⟨t, done, stored, -⟩ := saveContent_of_saves saves none'
      rw [gone, Option.isSome_none, if_neg Bool.false_ne_true]
      exact ⟨t, done, Or.inl ⟨Or.inl rfl, stored⟩⟩
    · have some' : earlier ≠ [] := by
        rintro rfl
        cases run.of_nil
      have single : ¬ (earlier = [] ∨ Spills conf total (buffers Z conf earlier)) := fun either =>
        either.elim some' fits
      rcases before with ⟨none_, -⟩ | ⟨_, head₀, same, held₀, following⟩
      · exact absurd none_ some'
      · cases same
        obtain ⟨totalpage, nowpage, taskid, batchid⟩ :=
          held.counters_eq held₀ (zlib.earlier.bodies _ List.suffix_rfl)
        let head'' : ContentHead := { head' with totalpage := head.totalpage }
        have count := numbered.length_savedPages few
        have length := numbered.2.length_savedPages (by rw [List.length_cons] at few; omega)
        have sum := sum_kept_lt conf zlib (held'.body_le recovers) (by rw [count]; exact few)
        have shape : HeadOf id (savedPages (call :: earlier)) head'' :=
          ⟨held'.heads, held'.nowpage, held'.totallength, held'.lengths⟩
        have number : call.page = Int32.ofNat ((savedPages earlier).length + 1) := by
          rw [length]
          exact numbered.1
        rw [List.length_cons] at few
        obtain ⟨pagebuf', saved, holds'⟩ := saveInMap_more (s := s) holds
          (more ▸ shape) (by rw [if_neg ends]) (by rw [nowpage]; exact following.nowpage)
          (by rw [taskid]; exact following.taskid) (by rw [batchid]; exact following.batchid)
          (by omega) number (more ▸ sum) here
        rw [← more] at holds'
        have following' : head'.totalpage = head.totalpage + 1 := by
          rw [totalpage]
          exact following.totalpage
        have far := totalpage_far some' few next numbered.2 zlib.earlier run held
        have shorter : head''.text.length ≤ head'.text.length := by
          apply length_text_le
          · have := held'.text_le
            unfold datlenMax at this
            omega
          · rw [following']
            exact length_printInt_succ far
        have bytes := congrArg List.length held'.bytes
        have fit := held'.short
        rw [List.length_append] at bytes
        have last := length_kept_le zlib.bound conf call.stored.2
        obtain ⟨t, done, stored, -⟩ := saveAndMerge_eq saved holds'
          (fun page mem => zlib.savedPages mem) (by rw [more]; omega) (by rw [holds'.length]; omega)
          (by omega) none' (by rw [List.length_append]; omega)
        rw [here, Option.isSome_some, if_pos rfl]
        exact ⟨t, done, Or.inr ⟨single, data', head', _, head'', rfl, held', stored,
          ⟨shape, rfl, by rw [List.length_append]; omega⟩, following'⟩⟩

end Article

/-! ### The two ways compared -/

/-- The same decompressed body, the same page entries, the same counters. -/
def SameRecord (Z : Zlib) (data data' : List UInt8) : Prop :=
  ∃ head head' body, readHead data .new = some head ∧ readHead data' .new = some head' ∧
    inf Z (data.drop head.headlength.toNat) = .ok body ∧
    inf Z (data'.drop head'.headlength.toNat) = .ok body ∧
    head.contentPageHead = head'.contentPageHead ∧ head.totalpage = head'.totalpage ∧
    head.nowpage = head'.nowpage

namespace PageStore

variable {Z : Zlib} {conf : PageConf} {s t : PageStore}

theorem Apart.store (apart : s.Apart) {id : UInt64} (gone : s.pagemap id = none) (data : List UInt8) :
    (s.store id data).Apart := by
  intro other
  unfold PageStore.store
  split_ifs
  · by_cases same : other = id
    · exact Or.inr (same ▸ gone)
    · dsimp only
      rw [Function.update_of_ne same]
      exact apart other
  · exact apart other

theorem Apart.saveContent (apart : s.Apart) {id : UInt64} {call : SaveCall}
    (gone : s.pagemap id = none) (done : s.saveContent Z id call = some t) : t.Apart := by
  obtain ⟨data, -, rfl⟩ := Option.map_eq_some_iff.mp done
  exact apart.store gone data

theorem store_pagemap (s : PageStore) (id : UInt64) (data : List UInt8) :
    (s.store id data).pagemap = s.pagemap := by
  unfold PageStore.store
  split_ifs <;> rfl

theorem saveContent_pagemap {id : UInt64} {call : SaveCall}
    (done : s.saveContent Z id call = some t) : t.pagemap = s.pagemap := by
  obtain ⟨data, -, rfl⟩ := Option.map_eq_some_iff.mp done
  exact store_pagemap s id data

/-- A page is put into the record of its id, or is there already. -/
theorem saveInMap_cases {buffer : List UInt8} {id : UInt64} {call : SaveCall} {ret : Int32}
    (keyed : s.Keyed) (done : s.saveInMap buffer id call = some (ret, t)) :
    t = s ∨ ∃ pagebuf, t = { s with pagemap := Function.update s.pagemap id (some pagebuf) } ∧
      pagebuf.urlnodeid = id := by
  obtain ⟨slot, -, done⟩ := Option.bind_eq_some_iff.mp done
  cases here : s.pagemap id with
  | none =>
      rw [here] at done
      cases done
      exact Or.inr ⟨_, rfl, rfl⟩
  | some pagebuf =>
      rw [here] at done
      dsimp only at done
      by_cases free : pagebuf.pages slot = none
      · rw [if_pos free] at done
        obtain ⟨_, -, done⟩ := Option.bind_eq_some_iff.mp done
        cases done
        exact Or.inr ⟨_, rfl, keyed id pagebuf here⟩
      · rw [if_neg free] at done
        cases done
        exact Or.inl rfl

/-- An id whose record is not in the database may enter the map. -/
theorem saveInMap_apart {buffer : List UInt8} {id : UInt64} {call : SaveCall} {ret : Int32}
    (apart : s.Apart) (keyed : s.Keyed) (none' : s.stored id = none)
    (done : s.saveInMap buffer id call = some (ret, t)) : t.Apart ∧ t.Keyed := by
  rcases saveInMap_cases keyed done with rfl | ⟨pagebuf, rfl, own⟩
  · exact ⟨apart, keyed⟩
  · constructor
    · intro other
      by_cases same : other = id
      · exact Or.inl (same ▸ none')
      · dsimp only
        rw [Function.update_of_ne same]
        exact apart other
    · intro other entry here
      dsimp only at here
      by_cases same : other = id
      · rw [same, Function.update_self] at here
        cases here
        rw [same, own]
      · rw [Function.update_of_ne same] at here
        exact keyed other entry here

theorem mergePage_apart {id : UInt64} {lastcontentlen : ℤ} (apart : s.Apart) (keyed : s.Keyed)
    (done : s.mergePage Z conf id lastcontentlen = some t) : t.Apart ∧ t.Keyed := by
  unfold PageStore.mergePage at done
  cases here : s.pagemap id with
  | none =>
      rw [here] at done
      cases done
      exact ⟨apart, keyed⟩
  | some pagebuf =>
      rw [here] at done
      obtain ⟨decrease, -, done⟩ := Option.bind_eq_some_iff.mp done
      obtain ⟨data, -, done⟩ := Option.bind_eq_some_iff.mp done
      have own := keyed id pagebuf here
      have shorter : (⟨s.totalpagebufsize - .ofInt decrease, Function.update s.pagemap id none,
          s.stored⟩ : PageStore).Apart := by
        intro other
        by_cases same : other = id
        · rw [same]
          exact Or.inr (Function.update_self ..)
        · dsimp only
          rw [Function.update_of_ne same]
          exact apart other
      have keyed' : ∀ other entry, Function.update s.pagemap id none other = some entry →
          entry.urlnodeid = other := by
        intro other entry there
        by_cases same : other = id
        · rw [same, Function.update_self] at there
          cases there
        · rw [Function.update_of_ne same] at there
          exact keyed other entry there
      split at done
      · cases done
        refine ⟨shorter.store (own ▸ Function.update_self ..) data, ?_⟩
        intro other entry there
        rw [store_pagemap] at there
        exact keyed' other entry there
      · cases done
        exact ⟨shorter, keyed'⟩

theorem saveAndMerge_apart {buffer : List UInt8} {id : UInt64} {call : SaveCall} (apart : s.Apart)
    (keyed : s.Keyed) (none' : s.stored id = none)
    (done : s.saveAndMerge Z conf buffer id call = some t) : t.Apart ∧ t.Keyed := by
  obtain ⟨⟨ret, u⟩, saved, done⟩ := Option.bind_eq_some_iff.mp done
  obtain ⟨apart', keyed'⟩ := saveInMap_apart apart keyed none' saved
  dsimp only at done
  split_ifs at done
  · exact mergePage_apart apart' keyed' done
  · cases done
    exact ⟨apart', keyed'⟩

theorem savePage_apart {page : UInt64 × SaveCall} (apart : s.Apart) (keyed : s.Keyed)
    (done : s.savePage Z conf page = some t) : t.Apart ∧ t.Keyed := by
  obtain ⟨id, call⟩ := page
  obtain ⟨buffer, -, done⟩ := Option.bind_eq_some_iff.mp done
  dsimp only at done
  have written (u : PageStore) (apart : u.Apart) (keyed : u.Keyed) (gone : u.pagemap id = none)
      (done : u.saveContent Z id call = some t) : t.Apart ∧ t.Keyed := by
    refine ⟨apart.saveContent gone done, ?_⟩
    intro other entry there
    rw [saveContent_pagemap done] at there
    exact keyed other entry there
  by_cases found : (s.stored id).isSome
  · -- the database holds the record, and so the map does not
    rw [if_pos found] at done
    have gone := (apart id).resolve_left (Option.isSome_iff_ne_none.mp found)
    exact written s apart keyed gone done
  · rw [if_neg found] at done
    have none' := Option.not_isSome_iff_eq_none.mp found
    generalize increaseTotalBufSize conf s.totalpagebufsize (.ofNat buffer.length) = grown at done
    have apart' : (⟨grown.2, s.pagemap, s.stored⟩ : PageStore).Apart := apart
    have keyed' : (⟨grown.2, s.pagemap, s.stored⟩ : PageStore).Keyed := keyed
    have entered (stays : (PageStore.saveInMap ⟨grown.2, s.pagemap, s.stored⟩ buffer id call).map
        Prod.snd = some t) : t.Apart ∧ t.Keyed := by
      obtain ⟨⟨ret, _⟩, saved, rfl⟩ := Option.map_eq_some_iff.mp stays
      exact saveInMap_apart apart' keyed' none' saved
    by_cases here : (s.pagemap id).isSome
    · rw [if_pos here] at done
      split_ifs at done
      · exact entered done
      · exact saveAndMerge_apart apart' keyed' none' done
      · exact saveAndMerge_apart apart keyed none' done
    · rw [if_neg here] at done
      have gone := Option.not_isSome_iff_eq_none.mp here
      split_ifs at done
      · exact entered done
      · exact written _ apart' keyed' gone done
      · exact written s apart keyed gone done

/-- Whatever pages are saved, no record is ever in both places. -/
theorem reach_apart {pages : List (UInt64 × SaveCall)} (apart : s.Apart) (keyed : s.Keyed)
    (reached : reach (PageStore.savePage Z conf) s pages = some t) : t.Apart ∧ t.Keyed := by
  induction pages generalizing t with
  | nil =>
      cases reached
      exact ⟨apart, keyed⟩
  | cons page earlier ih =>
      obtain ⟨u, before, done⟩ := Option.bind_eq_some_iff.mp reached
      obtain ⟨apart', keyed'⟩ := ih before
      exact savePage_apart apart' keyed' done

end PageStore

theorem Stored.sameRecord_iff {Z : Zlib} {id : UInt64} {pages : List (Int32 × List UInt8)}
    {data data' : List UInt8} {head head' : ContentHead} (held : Stored Z id pages data head)
    (held' : Stored Z id pages data' head') (recovers : Recovers Z (bodyOf pages)) :
    SameRecord Z data data' ↔ head.totalpage = head'.totalpage := by
  have one := held.wellFormed recovers
  have two := held'.wellFormed recovers
  constructor
  · intro same
    obtain ⟨h, h', body, read, read', -, -, -, total, -⟩ := same
    rw [one.read] at read
    rw [two.read] at read'
    cases read
    cases read'
    exact total
  · intro total
    have now : head.nowpage = head'.nowpage :=
      Int32.toInt_inj.mp (held.nowpage.trans held'.nowpage.symm)
    exact ⟨_, _, _, one.read, two.read, one.inflated, two.inflated, one.heads.trans two.heads.symm,
      total, now⟩

/-- However the pages of an article are split, no record is in both places. Its record is the one that
is stored directly if and only if it is in the database before its last page comes: `SaveInMap` does
not count the last page, and `savecontent` does. -/
theorem buffered_agrees_iff {Z : Zlib} (conf : PageConf) {id : UInt64} {last : SaveCall}
    {earlier : List SaveCall} {data : List UInt8} {s : PageStore}
    (numbered : PagesNumbered (last :: earlier))
    (few : (last :: earlier).length ≤ maxFinalNextPageToFetch)
    (next : ∀ call ∈ earlier, 1 < call.nextpage) (ends : ¬ 1 < last.nextpage)
    (zlib : Compresses Z (last :: earlier))
    (direct : Run (Saves Z id) none (last :: earlier) (some data))
    (apart : s.Apart) (keyed : s.Keyed) (fresh : s.stored id = none ∧ s.pagemap id = none) :
    (∃ t data', reach (PageStore.savePage Z conf) s ((last :: earlier).map (id, ·)) = some t ∧
      t.stored id = some data' ∧
      (SameRecord Z data data' ↔
        earlier = [] ∨ Spills conf s.totalpagebufsize (buffers Z conf earlier))) ∧
    ∀ pages t, reach (PageStore.savePage Z conf) s pages = some t →
      ∀ id, t.stored id = none ∨ t.pagemap id = none := by
  refine ⟨?_, fun pages t reached => (PageStore.reach_apart apart keyed reached).1⟩
  obtain ⟨_, before, saves⟩ := direct.of_cons
  obtain ⟨t, reached, follows⟩ := whereabouts_all conf numbered.2
    (by rw [List.length_cons] at few; omega) zlib.earlier next before fresh
  obtain ⟨u, done, outcome⟩ := follows.last numbered few zlib next ends before saves
  have whole : reach (PageStore.savePage Z conf) s ((last :: earlier).map (id, ·)) = some u := by
    rw [List.map_cons, reach, reached, Option.bind_some, done]
  have recovers := zlib.bodies _ List.suffix_rfl
  rcases outcome with ⟨early, same⟩ | ⟨late, _, head, data', head', same, held, stored, held', counters⟩
  · refine ⟨u, data, whole, same, iff_of_true ?_ early⟩
    rcases run_record direct zlib.bodies with ⟨none_, -⟩ | ⟨_, head, same, held⟩
    · cases none_
    · cases same
      exact (held.sameRecord_iff held recovers).mpr rfl
  · cases same
    refine ⟨u, data', whole, stored, iff_of_false ?_ late⟩
    rw [held.sameRecord_iff held' recovers, counters]
    grind

/-! Two pages of two bytes, where the first has no room and where both have. -/

def pageBodies : List (List UInt8 × List UInt8) :=
  ([72, 98], [120, 156, 243, 72, 2, 0, 0, 244, 0, 171]) :: twoBodies

def pageBodies.uncompress (room : ℕ) (src : List UInt8) : Uncompressed :=
  (pageBodies.find? fun b => b.2 = src).elim (.dataError []) fun b =>
    if b.1.length ≤ room then .ok b.1 else .bufError (b.1.take room)

def zlibOfPages : Zlib where
  compress2 src := (pageBodies.lookup src).getD []
  uncompress := pageBodies.uncompress
  fits := by
    intro room src data h
    unfold pageBodies.uncompress at h
    cases found : pageBodies.find? fun b => b.2 = src with
    | none =>
        rw [found] at h
        cases h
    | some b =>
        rw [found, Option.elim_some] at h
        split_ifs at h with fit
        cases h
        exact fit

theorem zlibOfPages_bound (src : List UInt8) :
    (zlibOfPages.compress2 src).length ≤ compressBound src.length := by
  change ((pageBodies.lookup src).getD []).length ≤ _
  have all : ∀ b ∈ pageBodies, b.2.length ≤ compressBound b.1.length := by decide
  cases found : pageBodies.lookup src with
  | none => exact Nat.zero_le _
  | some text =>
      obtain ⟨before, after, cut, -⟩ := List.lookup_eq_some_iff.mp found
      exact all (src, text) (by rw [cut]; simp)

def firstOfTwo : SaveCall := ⟨7, 1, 1, 2, [72], [97]⟩
def lastOfTwo : SaveCall := ⟨7, 1, 2, 1, [72], [98]⟩

theorem zlibOfPages_compresses : Compresses zlibOfPages [lastOfTwo, firstOfTwo] := by
  have bodies : ∀ calls ∈ [lastOfTwo, firstOfTwo].tails,
      inf zlibOfPages (zlibOfPages.compress2 (bodyOf (savedPages calls))) =
        .ok (bodyOf (savedPages calls)) := by
    decide +kernel
  have pages : ∀ call ∈ [lastOfTwo, firstOfTwo],
      inf zlibOfPages (zlibOfPages.compress2 call.stored.2) = .ok call.stored.2 := by
    decide +kernel
  exact ⟨zlibOfPages_bound, pages, fun calls suffix => bodies calls ((List.mem_tails _ _).mpr suffix)⟩

/-- Nothing has been saved. -/
def PageStore.new : PageStore := ⟨0, fun _ => none, fun _ => none⟩

theorem buffered_agrees_iff_tight : ∃ data t data',
    Run (Saves zlibOfPages 5) none [lastOfTwo, firstOfTwo] (some data) ∧
    reach (PageStore.savePage zlibOfPages ⟨1, 0⟩) .new [(5, lastOfTwo), (5, firstOfTwo)] = some t ∧
    t.stored 5 = some data' ∧ SameRecord zlibOfPages data data' := by
  have saved : ((reach (saves zlibOfPages 5) none [lastOfTwo, firstOfTwo]).bind id).isSome = true := by
    decide +kernel
  obtain ⟨data, value⟩ := Option.isSome_iff_exists.mp saved
  obtain ⟨_, value, rfl⟩ := Option.bind_eq_some_iff.mp value
  have run := run_of_reach saves_sound value
  have fresh : PageStore.new.stored 5 = none ∧ PageStore.new.pagemap 5 = none := ⟨rfl, rfl⟩
  have spills : Spills ⟨1, 0⟩ 0 (buffers zlibOfPages ⟨1, 0⟩ [firstOfTwo]) := Or.inr (by decide)
  obtain ⟨t, data', reached, stored, same⟩ := (buffered_agrees_iff ⟨1, 0⟩
    (show PagesNumbered [lastOfTwo, firstOfTwo] from ⟨rfl, rfl, trivial⟩) (by decide) (by decide)
    (by decide) zlibOfPages_compresses run
    (fun _ => Or.inl rfl) (fun _ _ none_ => by cases none_) fresh).1
  exact ⟨data, t, data', run, reached, stored, same.mpr (Or.inr spills)⟩

theorem not_buffered_agrees : ∃ data t data',
    Run (Saves zlibOfPages 5) none [lastOfTwo, firstOfTwo] (some data) ∧
    reach (PageStore.savePage zlibOfPages ⟨12288000, 0⟩) .new [(5, lastOfTwo), (5, firstOfTwo)] =
      some t ∧
    t.stored 5 = some data' ∧ ¬ SameRecord zlibOfPages data data' := by
  have direct : (((reach (saves zlibOfPages 5) none [lastOfTwo, firstOfTwo]).bind id).bind
      (readHead · .new)).map ContentHead.totalpage = some 3 := by
    decide +kernel
  have buffered : (((reach (PageStore.savePage zlibOfPages ⟨12288000, 0⟩) .new
      [(5, lastOfTwo), (5, firstOfTwo)]).bind (·.stored 5)).bind (readHead · .new)).map
        ContentHead.totalpage = some 2 := by
    decide +kernel
  obtain ⟨head, read, total⟩ := Option.map_eq_some_iff.mp direct
  obtain ⟨data, value, read⟩ := Option.bind_eq_some_iff.mp read
  obtain ⟨_, value, rfl⟩ := Option.bind_eq_some_iff.mp value
  obtain ⟨head', read', total'⟩ := Option.map_eq_some_iff.mp buffered
  obtain ⟨data', stored, read'⟩ := Option.bind_eq_some_iff.mp read'
  obtain ⟨t, reached, stored⟩ := Option.bind_eq_some_iff.mp stored
  refine ⟨data, t, data', run_of_reach saves_sound value, reached, stored, ?_⟩
  intro same
  obtain ⟨_, _, _, one, two, -, -, -, equal, -⟩ := same
  rw [read] at one
  rw [read'] at two
  cases one
  cases two
  rw [total, total'] at equal
  cases equal

end BloomServer
