import Mathlib.Data.List.Sort
import BloomServer.Library.TextSearch
import BloomServer.TaskSchedule
import BloomServer.TaskThread

/-! `UrlAnalyseManager::analyseUrls`: which of the links of a page become pages to fetch, under which
record ids, page numbers and totals. -/
namespace BloomServer
open TextSearch

def sourceTypeInfo : Int32 := 1
def sourceTypeCourt : Int32 := 200

/-- A URL, character by character. -/
abbrev UrlText := List Char

def urlTypeFinalpage : Int32 := 1
def urlTypeListpage : Int32 := 2
def urlTypeHomepage : Int32 := 4
def urlTypeBbsFinalpage : Int32 := 5
def urlTypeNeedtodown : Int32 := 16
def urlTypeNeedtoanalyseurl : Int32 := 32
def urlTypeNeedtosave : Int32 := 64
def urlTypeNeedtoaddnew : Int32 := 128

/-- `type & flag`. -/
def hasFlag (type flag : Int32) : Bool := type &&& flag != 0

/-- What is read of the configuration. -/
structure PageLimits where
  maxlistnextpagetofetch : ℤ
  maxfinalnextpagetofetch : ℤ

/-- What is read of a `Task`, with its patterns as the sets of the URLs that match them. -/
structure PageTask where
  sourcetype : Int32
  depth : ℤ
  ultimatepageurl : UrlText → Bool
  pageurl : UrlText → Bool
  homeurl : UrlText → Bool
  ignoreurl : UrlText → Bool

/-- The members of a `UrlNode` that are used here. -/
structure PageNode where
  url : UrlText
  id : ℕ
  type : Int32
  page : ℤ
  totalpage : ℤ
  nowpage : ℤ
  layerid : ℤ
  errornum : ℕ

/-- The constructor, with the URL. -/
def PageNode.new (url : UrlText) : PageNode := ⟨url, 0, 0, 1, 1, 1, 1, 0⟩

def getType (task : PageTask) (url : UrlText) : Int32 :=
  if task.ultimatepageurl url then
    if task.sourcetype = sourceTypeInfo then
      urlTypeFinalpage ||| urlTypeNeedtodown ||| urlTypeNeedtosave ||| urlTypeNeedtoaddnew |||
        urlTypeNeedtoanalyseurl
    else urlTypeFinalpage ||| urlTypeNeedtodown ||| urlTypeNeedtosave ||| urlTypeNeedtoaddnew
  else if task.pageurl url then
    urlTypeListpage ||| urlTypeNeedtodown ||| urlTypeNeedtoanalyseurl ||| urlTypeNeedtosave |||
      urlTypeNeedtoaddnew
  else if task.homeurl url then
    urlTypeHomepage ||| urlTypeNeedtodown ||| urlTypeNeedtoanalyseurl ||| urlTypeNeedtoaddnew
  else 0

/-- `getType` of a number. It is called with two source types, of which that of a topic is taken for
the type of a final page of a BBS, which has the same number. -/
def getTypeOf (urltype : Int32) : Int32 :=
  if urltype = urlTypeBbsFinalpage then
    urlTypeBbsFinalpage ||| urlTypeNeedtodown ||| urlTypeNeedtosave ||| urlTypeNeedtoaddnew |||
      urlTypeNeedtoanalyseurl
  else if urltype = urlTypeFinalpage then
    urlTypeFinalpage ||| urlTypeNeedtodown ||| urlTypeNeedtosave ||| urlTypeNeedtoaddnew |||
      urlTypeNeedtoanalyseurl
  else if urltype = urlTypeListpage then
    urlTypeListpage ||| urlTypeNeedtodown ||| urlTypeNeedtoanalyseurl ||| urlTypeNeedtoaddnew
  else urlTypeFinalpage ||| urlTypeNeedtodown ||| urlTypeNeedtosave ||| urlTypeNeedtoaddnew

/-- `std::string::substr`; a length that is negative is a very large one. -/
def substr (text : UrlText) (pos : ℕ) (len : ℤ) : UrlText :=
  if 0 ≤ len then (text.drop pos).take len.toNat else text.drop pos

/-- The user name in a URL, between two texts. -/
def userBetween (before after url : UrlText) (start : ℕ) : UrlText :=
  match find after url with
  | none => []
  | some stop => substr url (start + before.length) (stop - start - before.length : ℤ)

/-- `GetUserName`: the pages that belong to the user of a list page. -/
def getUserName (url : UrlText) : List UrlText :=
  let urlfrees := "http://china.alibaba.com/company/detail/".toList
  let urlcharges := "http://".toList
  let (username, cards) :=
    match find urlfrees url with
    | some start =>
        let username := userBetween urlfrees ".html".toList url start
        (username,
          ["http://china.alibaba.com/member/ajax/memberCardJson.htm?callback=jQuery&loginId=".toList ++
            username])
    | none =>
        match find urlcharges url with
        | some start => (userBetween urlcharges ".cn.alibaba.com".toList url start, [])
        | none => ([], [])
  if username = [] then []
  else
    ["http://china.alibaba.com/member/bizcomm_profile_front_interface.htm?memberId=".toList ++
      username ++ "&iframe_delete=true".toList] ++ cards ++
    ["http://club.china.alibaba.com/misc/memberajax/memberInfoForAjax.html?memberId=".toList ++
      username ++ "&iframe_delete=true".toList]

/-- `page` of the page that is analysed, the final pages by their URLs, and the other pages. -/
structure Listing where
  page : ℤ
  finalpagelist : List PageNode
  otherpagelist : List PageNode

/-- The final pages as a walk through the map comes to them, by the order of their URLs. -/
def Listing.walk (l : Listing) : List PageNode :=
  l.finalpagelist.insertionSort fun node other => ¬ other.url < node.url

theorem Listing.walk_perm (l : Listing) : l.walk.Perm l.finalpagelist := List.perm_insertionSort _ _

/-- The pages that are inserted, final pages first. -/
def Listing.inserts (l : Listing) : List PageNode :=
  (l.walk.map fun node => { node with totalpage := l.page }) ++ l.otherpagelist

/-- `PutFinalPage`, and the number that the page gets if it is new. -/
def Listing.putFinalPage (l : Listing) (node : PageNode) : Listing :=
  if l.finalpagelist.any fun other => other.url = node.url then l
  else { l with page := l.page + 1, finalpagelist := l.finalpagelist ++ [{ node with page := l.page }] }

/-- `finalpagelist[node->url] = node`. -/
def Listing.setFinalPage (l : Listing) (node : PageNode) : Listing :=
  { l with finalpagelist := l.finalpagelist.filter (fun other => other.url ≠ node.url) ++ [node] }

/-- A page of the user, which is saved in the record of the list page. -/
def Listing.addUser (task : PageTask) (urlnode : PageNode) (l : Listing) (url : UrlText) : Listing :=
  l.putFinalPage
    { PageNode.new url with
      id := urlnode.id
      type := getType task url
      layerid := urlnode.layerid + 1 }

/-- The type that a link gets. -/
def linkType (task : PageTask) (url : UrlText) : Int32 :=
  let type :=
    if task.sourcetype = sourceTypeSearchengine then getTypeOf sourceTypeSearchengine else getType task url
  if hasFlag type urlTypeFinalpage ∧ task.sourcetype = sourceTypeTopic then getTypeOf sourceTypeTopic
  else type

/-- A link of the page. -/
def Listing.addLink (task : PageTask) (urlnode : PageNode) (l : Listing) (url : UrlText) : Listing :=
  let type := linkType task url
  let node := { PageNode.new url with type, layerid := urlnode.layerid + 1 }
  if hasFlag type urlTypeNeedtoaddnew then
    if hasFlag type urlTypeFinalpage then
      if task.sourcetype = sourceTypeTopic then
        if node.layerid = task.depth then l.setFinalPage node else l
      else if task.sourcetype = sourceTypeCompany then
        if hasFlag urlnode.type urlTypeHomepage then l
        else if hasFlag urlnode.type urlTypeListpage then l.putFinalPage { node with id := urlnode.id }
        else l.putFinalPage node
      else l.putFinalPage node
    else if hasFlag type urlTypeListpage ∨ hasFlag type urlTypeHomepage then
      if node.layerid ≤ task.depth then { l with otherpagelist := l.otherpagelist ++ [node] } else l
    else l
  else l

/-- The URL of the next page, given what was found for it in the content or among the links; empty if
there is none. -/
def nextpageurl (limits : PageLimits) (task : PageTask) (urlnode : PageNode) (found : UrlText) :
    UrlText :=
  if hasFlag urlnode.type urlTypeNeedtoanalyseurl then
    if hasFlag urlnode.type urlTypeListpage then
      if task.sourcetype = sourceTypeBbs then
        if found = urlnode.url ∨ limits.maxlistnextpagetofetch < urlnode.page then [] else found
      else []
    else if hasFlag urlnode.type urlTypeFinalpage then
      if found = urlnode.url ∨ limits.maxfinalnextpagetofetch ≤ urlnode.page then [] else found
    else if hasFlag urlnode.type urlTypeHomepage then
      if task.sourcetype = sourceTypeCourt ∨ task.sourcetype = sourceTypeCompany then found else []
    else found
  else if hasFlag urlnode.type urlTypeFinalpage then
    if task.sourcetype = sourceTypeSearchengine then
      if found = urlnode.url ∨ 10 ≤ urlnode.page then [] else found
    else if task.sourcetype = sourceTypeCompany then []
    else if found = urlnode.url ∨ limits.maxfinalnextpagetofetch ≤ urlnode.page then [] else found
  else []

/-- What a page is found to hold. -/
structure PageContent where
  empty : Bool
  urls : List UrlText
  found : UrlText

/-- The pages of the user, on a list page. -/
def userPages (urlnode : PageNode) : List UrlText :=
  if hasFlag urlnode.type urlTypeListpage then getUserName urlnode.url else []

/-- The final and the other pages of a page. -/
def listing (task : PageTask) (urlnode : PageNode) (urls : List UrlText) : Listing :=
  let start : Listing := ⟨urlnode.page, [], []⟩
  if hasFlag urlnode.type urlTypeNeedtoanalyseurl ∧ urlnode.layerid ≤ task.depth then
    urls.foldl (Listing.addLink task urlnode)
      ((userPages urlnode).foldl (Listing.addUser task urlnode) start)
  else start

/-- The page as the analysis leaves it, the pages that it inserts, and the URL of the next page. -/
def analyseUrls (limits : PageLimits) (task : PageTask) (urlnode : PageNode) (content : PageContent) :
    PageNode × List PageNode × UrlText :=
  if content.empty then (urlnode, [], [])
  else
    let l := listing task urlnode content.urls
    ({ urlnode with
        page := l.page
        totalpage := if hasFlag urlnode.type urlTypeListpage then l.page else urlnode.totalpage },
      l.inserts, nextpageurl limits task urlnode content.found)

/-! ### What is listed -/

section Listings

variable {task : PageTask} {urlnode node : PageNode} {l : Listing} {url : UrlText}

theorem getType_final (final : task.ultimatepageurl url) :
    hasFlag (getType task url) urlTypeNeedtosave ∧ hasFlag (getType task url) urlTypeListpage = false := by
  unfold getType
  rw [if_pos final]
  split_ifs <;> decide

/-- A final page is saved and is not a list page, and a list page is saved. -/
def Regular (type : Int32) : Prop :=
  (hasFlag type urlTypeFinalpage → hasFlag type urlTypeNeedtosave ∧ hasFlag type urlTypeListpage = false) ∧
  (hasFlag type urlTypeListpage → hasFlag type urlTypeNeedtosave)

instance (type : Int32) : Decidable (Regular type) := inferInstanceAs (Decidable (_ ∧ _))

theorem getType_regular (task : PageTask) (url : UrlText) : Regular (getType task url) := by
  unfold getType
  split_ifs <;> decide

theorem linkType_regular (task : PageTask) (url : UrlText) : Regular (linkType task url) := by
  unfold linkType
  simp only
  split_ifs
  · decide
  · decide
  · decide
  · exact getType_regular task url

/-- The final pages are pages of the record of a list page, numbered from its own number on. -/
structure SharedFinals (urlnode : PageNode) (l : Listing) : Prop where
  list : l.finalpagelist ≠ [] → hasFlag urlnode.type urlTypeListpage
  final : ∀ f ∈ l.finalpagelist, f.id = urlnode.id ∧ hasFlag f.type urlTypeNeedtosave ∧
    hasFlag f.type urlTypeListpage = false
  numbers : l.finalpagelist.map PageNode.page =
    (List.range l.finalpagelist.length).map fun (k : ℕ) => urlnode.page + k
  page : l.page = urlnode.page + l.finalpagelist.length

/-- The final pages are the first pages of records of their own, and are not counted. -/
structure SeparateFinals (urlnode : PageNode) (l : Listing) : Prop where
  final : ∀ f ∈ l.finalpagelist, f.id = 0 ∧ f.page = 1 ∧
    (hasFlag f.type urlTypeListpage → hasFlag f.type urlTypeNeedtosave)
  first : l.finalpagelist ≠ [] → urlnode.page = 1
  page : l.page = urlnode.page

/-- The other pages are the first pages of records of their own. -/
def OtherPages (l : Listing) : Prop := ∀ f ∈ l.otherpagelist, f.id = 0 ∧ f.page = 1 ∧ f.totalpage = 1 ∧
  (hasFlag f.type urlTypeListpage → hasFlag f.type urlTypeNeedtosave)

theorem SharedFinals.start : SharedFinals urlnode ⟨urlnode.page, [], []⟩ := by
  constructor <;> simp

theorem SharedFinals.separate (shared : SharedFinals urlnode l) (none : l.finalpagelist = []) :
    SeparateFinals urlnode l := by
  have page := shared.page
  rw [none] at page
  constructor
  · simp [none]
  · simp [none]
  · simpa using page

theorem SharedFinals.putFinalPage (shared : SharedFinals urlnode l)
    (list : hasFlag urlnode.type urlTypeListpage)
    (id : node.id = urlnode.id) (saved : hasFlag node.type urlTypeNeedtosave)
    (final : hasFlag node.type urlTypeListpage = false) : SharedFinals urlnode (l.putFinalPage node) := by
  unfold Listing.putFinalPage
  split
  · exact shared
  · constructor
    · exact fun _ => list
    · intro f mem
      rcases List.mem_append.mp mem with old | new
      · exact shared.final f old
      · rw [List.mem_singleton.mp new]
        exact ⟨id, saved, final⟩
    · simp only [List.map_append, List.length_append, List.length_singleton, List.range_succ,
        List.map_cons, List.map_nil, shared.numbers, shared.page]
    · simp only [List.length_append, List.length_singleton, shared.page]
      push_cast
      omega

theorem SharedFinals.addUser (shared : SharedFinals urlnode l) (list : hasFlag urlnode.type urlTypeListpage)
    (final : task.ultimatepageurl url) : SharedFinals urlnode (l.addUser task urlnode url) := by
  obtain ⟨saved, notList⟩ := getType_final final
  exact shared.putFinalPage list rfl saved notList

/-- A link adds to the record of a list page if it is a final page of a company, and otherwise is no
final page. -/
theorem SharedFinals.addLink (shared : SharedFinals urlnode l)
    (counted : hasFlag (linkType task url) urlTypeFinalpage →
      (task.sourcetype = sourceTypeTopic ∧ urlnode.layerid + 1 ≠ task.depth) ∨
      task.sourcetype = sourceTypeCompany ∧
        (hasFlag urlnode.type urlTypeHomepage ∨ hasFlag urlnode.type urlTypeListpage)) :
    SharedFinals urlnode (l.addLink task urlnode url) := by
  unfold Listing.addLink
  simp only
  split_ifs with added final topic depth company home list other layer
  · rcases counted final with ⟨_, apart⟩ | ⟨company, _⟩
    · exact absurd depth apart
    · rw [topic] at company
      cases company
  · exact shared
  · exact shared
  · obtain ⟨saved, notList⟩ := (linkType_regular task url).1 final
    exact shared.putFinalPage list rfl saved notList
  · rcases counted final with ⟨also, _⟩ | ⟨_, either⟩
    · exact absurd also topic
    · exact absurd either (by simp [home, list])
  · rcases counted final with ⟨also, _⟩ | ⟨also, _⟩
    · exact absurd also topic
    · exact absurd also company
  · exact ⟨shared.list, shared.final, shared.numbers, shared.page⟩
  · exact shared
  · exact shared
  · exact shared

theorem SeparateFinals.addLink (separate : SeparateFinals urlnode l)
    (topic : task.sourcetype = sourceTypeTopic)
    (first : hasFlag (linkType task url) urlTypeFinalpage → urlnode.layerid + 1 = task.depth →
      urlnode.page = 1) : SeparateFinals urlnode (l.addLink task urlnode url) := by
  unfold Listing.addLink
  simp only
  split_ifs with added final depth other layer
  · constructor
    · intro f mem
      rcases List.mem_append.mp mem with old | new
      · exact separate.final f (List.mem_of_mem_filter old)
      · rw [List.mem_singleton.mp new]
        exact ⟨rfl, rfl, (linkType_regular task url).2⟩
    · exact fun _ => first final depth
    · exact separate.page
  · exact separate
  · exact ⟨separate.final, separate.first, separate.page⟩
  · exact separate
  · exact separate
  · exact separate

theorem OtherPages.putFinalPage (others : OtherPages l) : OtherPages (l.putFinalPage node) := by
  unfold Listing.putFinalPage
  split <;> exact others

theorem OtherPages.addLink (others : OtherPages l) : OtherPages (l.addLink task urlnode url) := by
  unfold Listing.addLink
  simp only
  split_ifs
  · exact others
  · exact others
  · exact others
  · exact others.putFinalPage
  · exact others.putFinalPage
  · exact others.putFinalPage
  · intro f mem
    rcases List.mem_append.mp mem with old | new
    · exact others f old
    · rw [List.mem_singleton.mp new]
      exact ⟨rfl, rfl, rfl, (linkType_regular task url).2⟩
  · exact others
  · exact others
  · exact others

/-- The links of the page are looked at. -/
def Extracts (task : PageTask) (urlnode : PageNode) (content : PageContent) : Prop :=
  content.empty = false ∧ hasFlag urlnode.type urlTypeNeedtoanalyseurl ∧ urlnode.layerid ≤ task.depth

instance (task : PageTask) (urlnode : PageNode) (content : PageContent) :
    Decidable (Extracts task urlnode content) := inferInstanceAs (Decidable (_ ∧ _ ∧ _))

/-- The pages that the analysis adds to a record are those that it counts: on a list page, the first
page of its record, all are final pages of its user or of a company, or none is; and any other page
adds pages of a topic only, which have records of their own. -/
structure Counts (task : PageTask) (urlnode : PageNode) (content : PageContent) : Prop where
  empty : content.empty = true → hasFlag urlnode.type urlTypeListpage → urlnode.totalpage = 1
  first : content.empty = false → hasFlag urlnode.type urlTypeListpage → urlnode.page = 1
  users : Extracts task urlnode content → ∀ url ∈ userPages urlnode, task.ultimatepageurl url
  links : Extracts task urlnode content → ∀ url ∈ content.urls,
    hasFlag (linkType task url) urlTypeFinalpage →
    (task.sourcetype = sourceTypeTopic ∧
      (urlnode.layerid + 1 = task.depth → urlnode.page = 1 ∧ userPages urlnode = [])) ∨
    task.sourcetype = sourceTypeCompany ∧
      (hasFlag urlnode.type urlTypeHomepage ∨ hasFlag urlnode.type urlTypeListpage)

variable {content : PageContent}

theorem Counts.shared_users (counts : Counts task urlnode content)
    (extracts : Extracts task urlnode content) :
    SharedFinals urlnode ((userPages urlnode).foldl (Listing.addUser task urlnode) ⟨urlnode.page, [], []⟩) := by
  apply List.foldlRecOn (motive := SharedFinals urlnode) _ _ SharedFinals.start
  intro l shared url mem
  have list : hasFlag urlnode.type urlTypeListpage := by
    unfold userPages at mem
    split_ifs at mem with list
    · exact list
    · cases mem
  exact shared.addUser list (counts.users extracts url mem)

/-- What the condition makes of the final pages that are listed. -/
theorem Counts.listing (counts : Counts task urlnode content) (full : content.empty = false) :
    SharedFinals urlnode (listing task urlnode content.urls) ∨
      SeparateFinals urlnode (listing task urlnode content.urls) := by
  unfold BloomServer.listing
  simp only
  split_ifs with extracted
  · have extracts : Extracts task urlnode content := ⟨full, extracted⟩
    have users := counts.shared_users extracts
    by_cases topics : task.sourcetype = sourceTypeTopic ∧ urlnode.layerid + 1 = task.depth ∧
        ∃ url ∈ content.urls, hasFlag (linkType task url) urlTypeFinalpage
    · obtain ⟨topic, depth, url, mem, final⟩ := topics
      have single : urlnode.page = 1 ∧ userPages urlnode = [] := by
        rcases counts.links extracts url mem final with ⟨_, at'⟩ | ⟨company, _⟩
        · exact at' depth
        · rw [topic] at company
          cases company
      right
      rw [single.2, List.foldl_nil]
      apply List.foldlRecOn (motive := SeparateFinals urlnode) _ _ (SharedFinals.start.separate rfl)
      exact fun l separate url _ => separate.addLink topic fun _ _ => single.1
    · left
      apply List.foldlRecOn (motive := SharedFinals urlnode) _ _ users
      intro l shared url mem
      apply shared.addLink
      intro final
      rcases counts.links extracts url mem final with ⟨topic, _⟩ | company
      · exact Or.inl ⟨topic, fun depth => topics ⟨topic, depth, url, mem, final⟩⟩
      · exact Or.inr company
  · exact Or.inl SharedFinals.start

theorem listing_others (task : PageTask) (urlnode : PageNode) (urls : List UrlText) :
    OtherPages (listing task urlnode urls) := by
  have none : OtherPages ⟨urlnode.page, [], []⟩ := by
    intro f mem
    cases mem
  unfold listing
  simp only
  split_ifs with extracted
  · apply List.foldlRecOn (motive := OtherPages)
    · apply List.foldlRecOn (motive := OtherPages) _ _ none
      exact fun l others url _ => others.putFinalPage
    · exact fun l others url _ => others.addLink
  · exact none

end Listings

end BloomServer
