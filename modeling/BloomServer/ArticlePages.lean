import BloomServer.Library.Countdown
import BloomServer.Library.LabelledRun
import BloomServer.PageAnalysis
import BloomServer.SaveContent

/-! The pages that `FetcherManager::fetch` works on, by any number of threads, from the queue to the
record of their article, and the articles that are announced in the fetched file. -/
namespace BloomServer
open Countdown LabelledRun

/-- `URL_FETCH_RETRY_TIMES`. -/
def urlFetchRetryTimes : ℕ := 3

/-- Where a page is. One that has been analysed has pages to insert, and the URL of a next page. -/
inductive PageStage
  | queued
  | fetching
  | analysed (inserts : List PageNode) (next : UrlText)
  | saved (next : UrlText)
  | checked (next : UrlText)

/-- The page is queued, or fetched and not yet saved. -/
def PageStage.pending : PageStage → Bool
  | .queued | .fetching | .analysed .. => true
  | .saved _ | .checked _ => false

structure PagePlace where
  node : PageNode
  stage : PageStage

/-- What `insertUrl` finds out about a URL. -/
inductive Admission
  | noHost
  | known
  | letIn
  deriving DecidableEq

/-- The pages, the last id given out, the numbers of the pages in each record, the ids of the pages
that were saved, and those that `saveFetched` has written, newest first. -/
structure Crawl where
  pages : List PagePlace
  maxid : ℕ
  record : ℕ → List ℤ
  saved : List ℕ
  fetched : List ℕ

/-- What happens to the page at a position. -/
inductive CrawlEvent
  | getUrl (i : ℕ)
  | failed (i : ℕ)
  | unaccepted (i : ℕ)
  | analyseUrls (i : ℕ) (content : PageContent)
  | insertUrl (i : ℕ) (admission : Admission)
  | savecontent (i : ℕ) (erased : Option ℕ)
  | saveFetched (i : ℕ)
  | finish (i : ℕ) (admission : Admission)

namespace Crawl

/-- A page is queued. -/
def start (urlnode : PageNode) (maxid : ℕ) : Crawl := ⟨[⟨urlnode, .queued⟩], maxid, fun _ => [], [], []⟩

def remove (s : Crawl) (i : ℕ) : Crawl := { s with pages := s.pages.eraseIdx i }

def replace (s : Crawl) (i : ℕ) (place : PagePlace) : Crawl :=
  { s with pages := place :: s.pages.eraseIdx i }

def saveFetched (s : Crawl) (id : ℕ) : Crawl := { s with fetched := id :: s.fetched }

/-- A page that is not the first of its article announces it when it is given up. -/
def decidesaveFetched (s : Crawl) (urlnode : PageNode) : Crawl :=
  if 1 < urlnode.page then s.saveFetched urlnode.id else s

/-- A URL without a host is given up before the page has an id. -/
def insertUrl (s : Crawl) (urlnode : PageNode) : Admission → Crawl
  | .noHost => s.decidesaveFetched urlnode
  | .known => if urlnode.id = 0 then { s with maxid := s.maxid + 1 } else s
  | .letIn =>
      if urlnode.id = 0 then
        { s with
          pages := ⟨{ urlnode with id := s.maxid + 1 }, .queued⟩ :: s.pages
          maxid := s.maxid + 1 }
      else { s with pages := ⟨urlnode, .queued⟩ :: s.pages }

/-- A page of a BBS that was fetched before is erased from its old record, which goes with all of it. -/
def erasecontent (s : Crawl) (task : PageTask) (erased : Option ℕ) : Crawl :=
  match erased with
  | none => s
  | some id =>
      if task.sourcetype = sourceTypeBbs then { s with record := Function.update s.record id [] } else s

/-- `savecontent` sets `nowpage`, unless the record has the page already. -/
def savecontent (s : Crawl) (i : ℕ) (urlnode : PageNode) (next : UrlText) : Crawl :=
  let record := s.record urlnode.id
  let s := { s with saved := urlnode.id :: s.saved }
  if urlnode.page ∈ record then s.replace i ⟨urlnode, .saved next⟩
  else
    { s with record := Function.update s.record urlnode.id (record ++ [urlnode.page]) }.replace i
      ⟨{ urlnode with nowpage := record.length + 1 }, .saved next⟩

/-- The next page; that of a home page has a record of its own. -/
def nextPage (urlnode : PageNode) (next : UrlText) : PageNode :=
  { PageNode.new next with
    id := if hasFlag urlnode.type urlTypeHomepage then 0 else urlnode.id
    type := urlnode.type
    page := urlnode.page + 1
    layerid := urlnode.layerid }

/-- The end of a fetch. The next page is forced in, so that only its host is looked at. -/
def finish (s : Crawl) (i : ℕ) (urlnode : PageNode) (next : UrlText) (admission : Admission) :
    Option Crawl :=
  if next = [] then some (s.remove i)
  else if admission = .known then none
  else some ((s.remove i).insertUrl (nextPage urlnode next) admission)

def step (limits : PageLimits) (task : PageTask) (s : Crawl) : CrawlEvent → Option Crawl
  | .getUrl i => do
      let ⟨urlnode, .queued⟩ ← s.pages[i]? | none
      return s.replace i ⟨urlnode, .fetching⟩
  | .failed i => do
      let ⟨urlnode, .fetching⟩ ← s.pages[i]? | none
      if urlnode.errornum + 1 < urlFetchRetryTimes then
        return s.replace i ⟨{ urlnode with errornum := urlnode.errornum + 1 }, .queued⟩
      else return (s.remove i).decidesaveFetched urlnode
  | .unaccepted i => do
      let ⟨urlnode, .fetching⟩ ← s.pages[i]? | none
      return (s.remove i).decidesaveFetched urlnode
  | .analyseUrls i content => do
      let ⟨urlnode, .fetching⟩ ← s.pages[i]? | none
      let (urlnode, inserts, next) := analyseUrls limits task { urlnode with errornum := 0 } content
      return s.replace i ⟨urlnode, .analysed inserts next⟩
  | .insertUrl i admission => do
      let ⟨urlnode, .analysed (node :: inserts) next⟩ ← s.pages[i]? | none
      let s := s.replace i ⟨urlnode, .analysed inserts next⟩
      if task.ignoreurl node.url then return s else return s.insertUrl node admission
  | .savecontent i erased => do
      let ⟨urlnode, .analysed [] next⟩ ← s.pages[i]? | none
      if hasFlag urlnode.type urlTypeNeedtosave then
        return (s.erasecontent task erased).savecontent i urlnode next
      else none
  | .saveFetched i => do
      let ⟨urlnode, .saved next⟩ ← s.pages[i]? | none
      let s := s.replace i ⟨urlnode, .checked next⟩
      if urlnode.nowpage = urlnode.totalpage then return s.saveFetched urlnode.id else return s
  | .finish i admission => do
      let ⟨urlnode, stage⟩ ← s.pages[i]?
      match stage with
      | .checked next => s.finish i urlnode next admission
      | .analysed [] next =>
          if hasFlag urlnode.type urlTypeNeedtosave then none else s.finish i urlnode next admission
      | _ => none

/-- A page of the record is pending. -/
def Pending (s : Crawl) (id : ℕ) : Prop := ∃ place ∈ s.pages, place.stage.pending ∧ place.node.id = id

/-- A record that has a page is announced once, with none of its pages pending, and has been when there
are no pages of it any more. -/
def Announced (s : Crawl) : Prop :=
  ∀ id ∈ s.saved, s.fetched.count id ≤ 1 ∧ (id ∈ s.fetched → ¬ s.Pending id) ∧
    ((∀ place ∈ s.pages, place.node.id ≠ id) → s.fetched.count id = 1)

/-- The page that is given up is the last of its record, and announces it if there is one. -/
def Last (s : Crawl) (i : ℕ) (urlnode : PageNode) : Prop :=
  ¬ (s.remove i).Pending urlnode.id ∧ (urlnode.id ∈ s.saved → 1 < urlnode.page)

/-- What a step has to meet, besides that: the other pages of a record are let in, no page but the
last is given up, none of a record that has pages pending is erased, and only home pages have a next
page. Each of these leads to a record that is announced too early or never, if not in every run. -/
def Meets (task : PageTask) (s : Crawl) : CrawlEvent → Prop
  | .failed i => ∀ urlnode, s.pages[i]? = some ⟨urlnode, .fetching⟩ →
      urlFetchRetryTimes ≤ urlnode.errornum + 1 → s.Last i urlnode
  | .unaccepted i => ∀ urlnode, s.pages[i]? = some ⟨urlnode, .fetching⟩ → s.Last i urlnode
  | .analyseUrls i content => ∀ urlnode, s.pages[i]? = some ⟨urlnode, .fetching⟩ →
      Counts task urlnode content
  | .insertUrl i admission => ∀ urlnode node inserts next,
      s.pages[i]? = some ⟨urlnode, .analysed (node :: inserts) next⟩ → node.id ≠ 0 →
      task.ignoreurl node.url = false ∧ admission = .letIn
  | .savecontent _ erased => ∀ id ∈ erased, task.sourcetype = sourceTypeBbs → ¬ s.Pending id
  | .finish i _ => ∀ urlnode stage, s.pages[i]? = some ⟨urlnode, stage⟩ →
      ∀ next, stage = .checked next ∨ stage = .analysed [] next → next ≠ [] →
      hasFlag urlnode.type urlTypeHomepage
  | .getUrl _ | .saveFetched _ => True

end Crawl

/-! ### The record -/

/-- The page numbers of a stored record. -/
def recordedPages (calls : List SaveCall) : List ℤ := (savedPages calls).map fun p => p.1.toInt

/-- A stored record takes in a page as `Crawl.savecontent` has it. -/
theorem recordedPages_cons (call : SaveCall) (calls : List SaveCall) :
    recordedPages (call :: calls) =
      if call.page.toInt ∈ recordedPages calls then recordedPages calls
      else recordedPages calls ++ [call.page.toInt] := by
  have same : call.page.toInt ∈ recordedPages calls ↔ call.page ∈ (savedPages calls).map Prod.fst := by
    unfold recordedPages
    rw [List.mem_map, List.mem_map]
    constructor
    · rintro ⟨p, mem, equal⟩
      exact ⟨p, mem, Int32.toInt_inj.mp equal⟩
    · rintro ⟨p, mem, equal⟩
      exact ⟨p, mem, congrArg Int32.toInt equal⟩
  by_cases already : call.page ∈ (savedPages calls).map Prod.fst
  · rw [if_pos (same.mpr already)]
    unfold recordedPages
    rw [savedPages, if_pos already]
  · rw [if_neg (same.not.mpr already)]
    unfold recordedPages
    rw [savedPages, if_neg already, List.map_append, List.map_singleton]

/-- And the head that is stored with it has their number as its `nowpage`. -/
theorem nowpage_recordedPages {Z : Zlib} {id : UInt64} {call : SaveCall} {calls : List SaveCall}
    {stored : Option (List UInt8)} (run : Run (Saves Z id) none (call :: calls) stored)
    (inverse : ∀ earlier, earlier <:+ call :: calls → Recovers Z (bodyOf (savedPages earlier))) :
    ∃ data head, stored = some data ∧ readHead data .new = some head ∧
      head.nowpage.toInt = (recordedPages (call :: calls)).length := by
  rcases run_record run inverse with ⟨none, _⟩ | ⟨data, head, rfl, held⟩
  · cases none
  · refine ⟨data, _, rfl, (held.read (held.body_lt (inverse _ List.suffix_rfl))).1, ?_⟩
    rw [recordedPages, List.length_map]
    exact held.nowpage

end BloomServer
