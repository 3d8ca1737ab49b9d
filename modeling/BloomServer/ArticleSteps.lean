import BloomServer.ArticlePages

/-! The pages of each record form a tally: the record has those that are done, and whoever makes their
number up to its total announces the article. -/
namespace BloomServer
open Countdown LabelledRun

/-- A page to come; a list page has no total before it has been analysed, and a page that is not saved
never has one. -/
def PageNode.item (n : PageNode) : Item ℤ :=
  ⟨n.page, if hasFlag n.type urlTypeNeedtosave ∧ ¬ hasFlag n.type urlTypeListpage then some n.totalpage
    else none⟩

def PageNode.analysedItem (n : PageNode) : Item ℤ :=
  ⟨n.page, if hasFlag n.type urlTypeNeedtosave then some n.totalpage else none⟩

/-- The pages of the record to come: the page itself, and those that it is about to insert. -/
def PagePlace.coming (id : ℕ) (place : PagePlace) : List (Item ℤ) :=
  match place.stage with
  | .queued | .fetching => if place.node.id = id then [place.node.item] else []
  | .analysed inserts _ =>
      (if place.node.id = id then [place.node.analysedItem] else []) ++
        (inserts.filter fun f => f.id = id).map PageNode.item
  | .saved _ | .checked _ => []

/-- The page is about to announce its article. -/
def PagePlace.calls (id : ℕ) (place : PagePlace) : Bool :=
  match place.stage with
  | .saved _ => decide (place.node.id = id ∧ place.node.nowpage = place.node.totalpage)
  | _ => false

@[simp] theorem coming_queued (n : PageNode) (id : ℕ) :
    (⟨n, .queued⟩ : PagePlace).coming id = if n.id = id then [n.item] else [] := rfl

@[simp] theorem coming_fetching (n : PageNode) (id : ℕ) :
    (⟨n, .fetching⟩ : PagePlace).coming id = if n.id = id then [n.item] else [] := rfl

@[simp] theorem coming_analysed (n : PageNode) (inserts : List PageNode) (next : UrlText) (id : ℕ) :
    (⟨n, .analysed inserts next⟩ : PagePlace).coming id = (if n.id = id then [n.analysedItem] else []) ++
      (inserts.filter fun f => f.id = id).map PageNode.item := rfl

@[simp] theorem coming_saved (n : PageNode) (next : UrlText) (id : ℕ) :
    (⟨n, .saved next⟩ : PagePlace).coming id = [] := rfl

@[simp] theorem coming_checked (n : PageNode) (next : UrlText) (id : ℕ) :
    (⟨n, .checked next⟩ : PagePlace).coming id = [] := rfl

/-- Only a page that has just been saved can be about to announce its article. -/
theorem calls_pending {place : PagePlace} (pending : place.stage.pending) (id : ℕ) :
    place.calls id = false := by
  unfold PagePlace.calls
  split
  · next stage =>
      rw [stage] at pending
      cases pending
  · rfl

/-- A pending page is a page of its record to come. -/
theorem coming_ne_nil {place : PagePlace} (pending : place.stage.pending) :
    place.coming place.node.id ≠ [] := by
  obtain ⟨node, stage⟩ := place
  cases stage with
  | queued | fetching => simp
  | analysed inserts next => simp
  | saved | checked => cases pending

/-- A page to insert has a record of its own, as its first and only page, or the record of the page
that inserts it. -/
def PagePlace.Inserts (place : PagePlace) : Prop :=
  ∀ inserts next, place.stage = .analysed inserts next → ∀ f ∈ inserts,
    (hasFlag f.type urlTypeListpage → hasFlag f.type urlTypeNeedtosave) ∧
    (f.id = 0 ∧ f.page = 1 ∧ f.totalpage = 1 ∨ f.id = place.node.id)

namespace Crawl

def coming (s : Crawl) (id : ℕ) : List (Item ℤ) := s.pages.flatMap fun place => place.coming id

def tally (s : Crawl) (id : ℕ) : Tally ℤ :=
  ⟨s.coming id, s.record id, id ∈ s.saved, s.fetched.count id + s.pages.countP (·.calls id)⟩

/-- The place is one of a page that has an id. -/
structure Known (s : Crawl) (place : PagePlace) : Prop where
  positive : 0 < place.node.id
  given : place.node.id ≤ s.maxid
  typed : hasFlag place.node.type urlTypeListpage → hasFlag place.node.type urlTypeNeedtosave
  inserts : place.Inserts

structure Sound (s : Crawl) : Prop where
  fair : ∀ id, 0 < id → Fair (s.tally id)
  known : ∀ place ∈ s.pages, s.Known place
  positive : ∀ id ∈ s.saved, 0 < id
  fresh : ∀ id, s.maxid < id → s.record id = [] ∧ id ∉ s.saved ∧ id ∉ s.fetched

variable {limits : PageLimits} {task : PageTask} {s t : Crawl} {i id : ℕ} {place place' : PagePlace}
  {urlnode f : PageNode} {inserts : List PageNode} {next : UrlText} {pages : List PagePlace}
  {admission : Admission} {content : PageContent}

/-- A page that is at a position, and the others. -/
theorem perm_remove (here : s.pages[i]? = some place) : s.pages.Perm (place :: (s.remove i).pages) := by
  obtain ⟨inside, value⟩ := List.getElem?_eq_some_iff.mp here
  rw [← value]
  exact (List.getElem_cons_eraseIdx_perm inside).symm

theorem replace_pages (s : Crawl) (i : ℕ) (place : PagePlace) :
    (s.replace i place).pages = place :: (s.remove i).pages := rfl

theorem coming_perm (perm : s.pages.Perm pages) (id : ℕ) :
    (s.coming id).Perm (pages.flatMap fun place => place.coming id) := perm.flatMap_right _

theorem Known.mono {t : Crawl} (known : s.Known place) (le : s.maxid ≤ t.maxid) : t.Known place :=
  ⟨known.positive, known.given.trans le, known.typed, known.inserts⟩

/-- The pages go on, and for no record it makes a difference. -/
theorem Sound.setPages (sound : s.Sound) (known : ∀ place ∈ pages, s.Known place)
    (coming : ∀ id, 0 < id → (s.coming id).Perm (pages.flatMap fun place => place.coming id))
    (calls : ∀ id, pages.countP (·.calls id) = s.pages.countP (·.calls id)) :
    { s with pages }.Sound where
  fair := by
    intro id positive
    have fair := (sound.fair id positive).perm (coming id positive)
    unfold tally at fair ⊢
    rw [← calls id] at fair
    exact fair
  known := fun place mem => (known place mem).mono (Nat.le_refl _)
  positive := sound.positive
  fresh := sound.fresh

/-- A page goes on. -/
theorem Sound.replace (sound : s.Sound) (here : s.pages[i]? = some place) (known : s.Known place')
    (coming : ∀ id, 0 < id → (place.coming id).Perm (place'.coming id))
    (calls : ∀ id, place'.calls id = place.calls id) : (s.replace i place').Sound := by
  have perm := perm_remove here
  apply sound.setPages
  · intro other mem
    rcases List.mem_cons.mp mem with rfl | mem
    · exact known
    · exact sound.known other (perm.mem_iff.mpr (List.mem_cons_of_mem place mem))
  · intro id positive
    exact (coming_perm perm id).trans ((coming id positive).append_right _)
  · intro id
    rw [perm.countP_eq, List.countP_cons, List.countP_cons, calls]
    rfl

/-- Nothing is known of a record that no page has. -/
theorem Sound.coming_fresh (sound : s.Sound) (late : s.maxid < id) : s.coming id = [] := by
  apply List.flatMap_eq_nil_iff.mpr
  intro place mem
  have known := sound.known place mem
  have other : place.node.id ≠ id := by
    have := known.given
    omega
  unfold PagePlace.coming
  split
  · exact if_neg other
  · exact if_neg other
  · next inserts next stage =>
      rw [if_neg other, List.nil_append]
      apply List.map_eq_nil_iff.mpr
      apply List.filter_eq_nil_iff.mpr
      intro f there
      rw [decide_eq_true_iff]
      rcases (known.inserts inserts next stage f there).2 with ⟨zero, _⟩ | same
      · omega
      · rw [same]
        exact other
  · rfl
  · rfl

theorem Sound.calls_fresh (sound : s.Sound) (late : s.maxid < id) :
    s.pages.countP (·.calls id) = 0 := by
  apply List.countP_eq_zero.mpr
  intro place mem called
  have := (sound.known place mem).given
  unfold PagePlace.calls at called
  split at called
  · have := (of_decide_eq_true called).1
    omega
  · cases called

/-- An id is given out, to a page that is not let in. -/
theorem Sound.skipId (sound : s.Sound) : { s with maxid := s.maxid + 1 }.Sound where
  fair := sound.fair
  known := fun place mem => (sound.known place mem).mono (Nat.le_succ _)
  positive := sound.positive
  fresh := fun id late => sound.fresh id (by
    change s.maxid + 1 < id at late
    omega)

/-- A page with a new id is queued. -/
theorem Sound.queue (sound : s.Sound) (one : f.totalpage = 1)
    (typed : hasFlag f.type urlTypeListpage → hasFlag f.type urlTypeNeedtosave) :
    { s with
      pages := ⟨{ f with id := s.maxid + 1 }, .queued⟩ :: s.pages
      maxid := s.maxid + 1 }.Sound where
  fair := by
    intro id positive
    by_cases new : s.maxid + 1 = id
    · subst new
      have late := Nat.lt_succ_self s.maxid
      obtain ⟨empty, never, silent⟩ := sound.fresh _ late
      have first := Fair.first f.page f.item.total (by
        intro t is
        unfold PageNode.item at is
        simp only at is
        split_ifs at is
        cases is
        exact one)
      have none : s.pages.flatMap (fun place => place.coming (s.maxid + 1)) = [] := sound.coming_fresh late
      unfold tally coming
      rw [List.flatMap_cons, none, coming_queued, if_pos rfl, List.countP_cons, sound.calls_fresh late,
        calls_pending rfl, List.count_eq_zero.mpr silent]
      simp only [empty, never]
      exact first
    · have fair := sound.fair id positive
      unfold tally coming at fair ⊢
      rw [List.flatMap_cons, coming_queued, if_neg new, List.countP_cons, calls_pending rfl]
      exact fair
  known := by
    intro place mem
    rcases List.mem_cons.mp mem with rfl | mem
    · refine ⟨Nat.succ_pos _, Nat.le_refl _, typed, ?_⟩
      rintro inserts next ⟨⟩
    · exact (sound.known place mem).mono (Nat.le_succ _)
  positive := sound.positive
  fresh := fun id late => sound.fresh id (by
    change s.maxid + 1 < id at late
    omega)

/-- Only a pending page has pages to come, and only those of its record. -/
theorem coming_eq_nil (known : ∀ place ∈ s.pages, s.Known place) (positive : 0 < id)
    (none : ¬ s.Pending id) : s.coming id = [] := by
  apply List.flatMap_eq_nil_iff.mpr
  intro place mem
  have other (pending : place.stage.pending) : place.node.id ≠ id :=
    fun same => none ⟨place, mem, pending, same⟩
  obtain ⟨node, stage⟩ := place
  cases stage with
  | queued | fetching => exact if_neg (other rfl)
  | saved | checked => rfl
  | analysed inserts next =>
      rw [coming_analysed, if_neg (other rfl), List.nil_append]
      apply List.map_eq_nil_iff.mpr
      apply List.filter_eq_nil_iff.mpr
      intro f there
      rw [decide_eq_true_iff]
      rcases ((known _ mem).inserts inserts next rfl f there).2 with ⟨zero, _⟩ | same
      · omega
      · rw [same]
        exact other rfl

/-- A page that has none of its record to come but itself goes, and announces its article where that
has a page. -/
theorem Sound.drop {x : Item ℤ} (calls : ℕ) (sound : s.Sound) (here : s.pages[i]? = some place)
    (pending : place.stage.pending)
    (own : ∀ id, place.coming id = if place.node.id = id then [x] else [])
    (alone : (s.remove i).coming place.node.id = []) (low : calls ≤ 1)
    (call : place.node.id ∈ s.saved → calls = 1) :
    { s.remove i with fetched := List.replicate calls place.node.id ++ s.fetched }.Sound := by
  have perm := perm_remove here
  have mem : place ∈ s.pages := List.mem_of_getElem? here
  have others : ∀ other ∈ (s.remove i).pages, s.Known other := fun other there =>
    sound.known other (perm.mem_iff.mpr (List.mem_cons_of_mem place there))
  constructor
  · intro id positive
    have fair := (sound.fair id positive).perm (coming_perm perm id)
    unfold tally at fair ⊢
    rw [List.flatMap_cons, own, perm.countP_eq, List.countP_cons, calls_pending pending] at fair
    rw [List.count_append, List.count_replicate]
    by_cases same : place.node.id = id
    · subst same
      unfold coming at alone
      rw [if_pos rfl, alone] at fair
      have dropped := fair.drop rfl low call
      have sum : calls + s.fetched.count place.node.id + (s.remove i).pages.countP (·.calls place.node.id) =
          s.fetched.count place.node.id + ((s.remove i).pages.countP (·.calls place.node.id) + 0) + calls := by
        omega
      simp only [if_pos, BEq.rfl, coming, alone]
      rw [sum]
      exact dropped
    · rw [if_neg same] at fair
      rw [if_neg (by simpa using same), Nat.zero_add]
      exact fair
  · exact fun other there => (others other there).mono (Nat.le_refl _)
  · exact sound.positive
  · intro id late
    obtain ⟨empty, never, silent⟩ := sound.fresh id late
    refine ⟨empty, never, ?_⟩
    intro there
    rcases List.mem_append.mp there with new | old
    · have given := (sound.known place mem).given
      rw [List.eq_of_mem_replicate new] at late
      exact absurd given (Nat.not_le_of_lt late)
    · exact silent old

theorem Sound.giveUp (sound : s.Sound) (here : s.pages[i]? = some ⟨urlnode, .fetching⟩)
    (last : s.Last i urlnode) : ((s.remove i).decidesaveFetched urlnode).Sound := by
  have perm := perm_remove here
  have positive := (sound.known _ (List.mem_of_getElem? here)).positive
  have alone : (s.remove i).coming urlnode.id = [] := by
    apply coming_eq_nil _ positive last.1
    intro other there
    exact (sound.known other (perm.mem_iff.mpr (List.mem_cons_of_mem _ there))).mono (Nat.le_refl _)
  have own := coming_fetching urlnode
  unfold decidesaveFetched
  split_ifs with later
  · exact sound.drop 1 here rfl own alone (Nat.le_refl _) fun _ => rfl
  · exact sound.drop 0 here rfl own alone (Nat.zero_le _) fun mem => absurd (last.2 mem) later

/-- A page that is not saved goes, the only one of its record. -/
theorem Sound.unsaved (sound : s.Sound) (here : s.pages[i]? = some ⟨urlnode, .analysed [] next⟩)
    (unsaved : hasFlag urlnode.type urlTypeNeedtosave = false) : (s.remove i).Sound := by
  have positive := (sound.known _ (List.mem_of_getElem? here)).positive
  have fair := (sound.fair urlnode.id positive).perm (coming_perm (perm_remove here) urlnode.id)
  have own (id : ℕ) : (⟨urlnode, .analysed [] next⟩ : PagePlace).coming id =
      if urlnode.id = id then [urlnode.analysedItem] else [] := List.append_nil _
  have unknown : urlnode.analysedItem.total = none := by
    unfold PageNode.analysedItem
    rw [unsaved]
    rfl
  have mem : urlnode.analysedItem ∈ (⟨urlnode, .analysed [] next⟩ :: (s.remove i).pages).flatMap
      fun place => place.coming urlnode.id := by
    rw [List.flatMap_cons, own, if_pos rfl]
    exact List.mem_cons_self
  obtain ⟨single, never⟩ := fair.alone _ mem unknown
  change _ = _ at single
  rw [List.flatMap_cons, own, if_pos rfl] at single
  exact sound.drop 0 here rfl own (List.cons.inj single).2 (Nat.zero_le _)
    fun mem => absurd mem never

/-- A page that has nothing to come goes. -/
theorem Sound.gone (sound : s.Sound) (here : s.pages[i]? = some ⟨urlnode, .checked next⟩) :
    (s.remove i).Sound := by
  have perm := perm_remove here
  apply sound.setPages
  · exact fun other there => sound.known other (perm.mem_iff.mpr (List.mem_cons_of_mem _ there))
  · exact fun id _ => coming_perm perm id
  · intro id
    rw [perm.countP_eq, List.countP_cons]
    rfl

/-- A page without an id, the first one of its record, is inserted. -/
theorem Sound.insertNew (sound : s.Sound) (new : f.id = 0) (one : f.totalpage = 1)
    (typed : hasFlag f.type urlTypeListpage → hasFlag f.type urlTypeNeedtosave) (admission : Admission) :
    (s.insertUrl f admission).Sound := by
  cases admission with
  | noHost =>
      unfold insertUrl decidesaveFetched
      split_ifs
      · rw [new]
        refine ⟨?_, fun place mem => (sound.known place mem).mono (Nat.le_refl _), sound.positive, ?_⟩
        · intro id positive
          have fair := sound.fair id positive
          unfold tally at fair ⊢
          rw [saveFetched, List.count_cons_of_ne (Nat.ne_of_lt positive)]
          exact fair
        · intro id late
          obtain ⟨empty, never, silent⟩ := sound.fresh id late
          refine ⟨empty, never, ?_⟩
          intro there
          rcases List.mem_cons.mp there with rfl | old
          · exact Nat.not_lt_zero _ late
          · exact silent old
      · exact sound
  | known =>
      unfold insertUrl
      rw [if_pos new]
      exact sound.skipId
  | letIn =>
      have queued := sound.queue one typed
      unfold insertUrl
      simp only [if_pos new]
      exact queued

theorem Sound.finish (gone : (s.remove i).Sound)
    (typed : hasFlag urlnode.type urlTypeListpage → hasFlag urlnode.type urlTypeNeedtosave)
    (home : next ≠ [] → hasFlag urlnode.type urlTypeHomepage)
    (step : s.finish i urlnode next admission = some t) : t.Sound := by
  unfold Crawl.finish at step
  split_ifs at step with none known
  · cases step
    exact gone
  · cases step
    apply gone.insertNew
    · exact if_pos (home none)
    · rfl
    · exact typed

/-- The page that has just been saved announces its article, if it is the last. -/
theorem Sound.check (sound : s.Sound) (here : s.pages[i]? = some ⟨urlnode, .saved next⟩) :
    { s.replace i ⟨urlnode, .checked next⟩ with
      fetched := List.replicate (if urlnode.nowpage = urlnode.totalpage then 1 else 0) urlnode.id ++
        s.fetched }.Sound := by
  have perm := perm_remove here
  have own := sound.known _ (List.mem_of_getElem? here)
  constructor
  · intro id positive
    have fair := (sound.fair id positive).perm (coming_perm perm id)
    have calls : (List.replicate (if urlnode.nowpage = urlnode.totalpage then 1 else 0) urlnode.id ++
        s.fetched).count id + ((⟨urlnode, .checked next⟩ : PagePlace) :: (s.remove i).pages).countP
          (·.calls id) = s.fetched.count id + s.pages.countP (·.calls id) := by
      rw [perm.countP_eq, List.countP_cons, List.countP_cons, List.count_append, List.count_replicate]
      have here : (⟨urlnode, .saved next⟩ : PagePlace).calls id =
          decide (urlnode.id = id ∧ urlnode.nowpage = urlnode.totalpage) := rfl
      have there : (⟨urlnode, .checked next⟩ : PagePlace).calls id = false := rfl
      rw [here, there]
      simp only [beq_iff_eq, decide_eq_true_eq]
      split_ifs <;> grind
    unfold tally at fair ⊢
    rw [← calls] at fair
    exact fair
  · intro other there
    rcases List.mem_cons.mp there with rfl | there
    · exact ⟨own.positive, own.given, own.typed, by rintro inserts next ⟨⟩⟩
    · exact (sound.known other (perm.mem_iff.mpr (List.mem_cons_of_mem _ there))).mono (Nat.le_refl _)
  · exact sound.positive
  · intro id late
    obtain ⟨empty, never, silent⟩ := sound.fresh id late
    refine ⟨empty, never, ?_⟩
    intro there
    rcases List.mem_append.mp there with new | old
    · have given := own.given
      rw [List.eq_of_mem_replicate new] at late
      exact absurd given (Nat.not_le_of_lt late)
    · exact silent old

/-- The record that is erased has no pages to come. -/
theorem Sound.erasecontent {erased : Option ℕ} (sound : s.Sound)
    (none : ∀ id ∈ erased, task.sourcetype = sourceTypeBbs → ¬ s.Pending id) :
    (s.erasecontent task erased).Sound := by
  unfold Crawl.erasecontent
  split
  · exact sound
  · next old =>
      split_ifs with bbs
      · constructor
        · intro id positive
          have fair := sound.fair id positive
          unfold tally at fair ⊢
          by_cases same : id = old
          · subst same
            have empty : s.coming id = [] := coming_eq_nil sound.known positive (none id rfl bbs)
            simp only [Function.update_self]
            exact fair.forget empty
          · simp only [Function.update_of_ne same]
            exact fair
        · exact fun place mem => (sound.known place mem).mono (Nat.le_refl _)
        · exact sound.positive
        · intro id late
          obtain ⟨empty, never, silent⟩ := sound.fresh id late
          refine ⟨?_, never, silent⟩
          simp only [Function.update_apply]
          split_ifs
          · rfl
          · exact empty
      · exact sound

/-- The page that is saved is a new one of its record. -/
theorem Sound.savecontent (sound : s.Sound) (here : s.pages[i]? = some ⟨urlnode, .analysed [] next⟩)
    (saves : hasFlag urlnode.type urlTypeNeedtosave) : (s.savecontent i urlnode next).Sound := by
  have perm := perm_remove here
  have own := sound.known _ (List.mem_of_getElem? here)
  have others : ∀ other ∈ (s.remove i).pages, s.Known other := fun other there =>
    sound.known other (perm.mem_iff.mpr (List.mem_cons_of_mem _ there))
  have pending : (⟨urlnode, .analysed [] next⟩ : PagePlace).stage.pending := rfl
  have coming (id : ℕ) : (s.coming id).Perm ((if urlnode.id = id then [urlnode.analysedItem] else []) ++
      (s.remove i).coming id) := by
    have each := coming_perm perm id
    rw [List.flatMap_cons, coming_analysed, List.filter_nil, List.map_nil, List.append_nil] at each
    exact each
  have total : urlnode.analysedItem.total = some urlnode.totalpage := if_pos saves
  obtain ⟨new, finished⟩ := (sound.fair urlnode.id own.positive).finish (by
    have each := coming urlnode.id
    rw [if_pos rfl] at each
    exact each) total
  unfold Crawl.savecontent
  simp only
  rw [if_neg (show urlnode.page ∉ s.record urlnode.id from new)]
  constructor
  · intro id positive
    by_cases same : urlnode.id = id
    · subst same
      have calls : s.fetched.count urlnode.id +
          ((⟨{ urlnode with nowpage := (s.record urlnode.id).length + 1 }, .saved next⟩ : PagePlace) ::
            (s.remove i).pages).countP (·.calls urlnode.id) =
          (s.fetched.count urlnode.id + s.pages.countP (·.calls urlnode.id)) +
            if ((s.record urlnode.id).length : ℤ) + 1 = urlnode.totalpage then 1 else 0 := by
        rw [perm.countP_eq, List.countP_cons, List.countP_cons, calls_pending pending]
        have saved : (⟨{ urlnode with nowpage := (s.record urlnode.id).length + 1 }, .saved next⟩ :
            PagePlace).calls urlnode.id =
            decide (((s.record urlnode.id).length : ℤ) + 1 = urlnode.totalpage) := by
          unfold PagePlace.calls
          simp
        rw [saved]
        simp only [decide_eq_true_eq]
        split_ifs <;> grind
      unfold tally at finished ⊢
      rw [← calls] at finished
      have recorded : (urlnode.id ∈ urlnode.id :: s.saved) = True := eq_true List.mem_cons_self
      simp only [Crawl.replace, Function.update_self, recorded]
      exact finished
    · have fair := (sound.fair id positive).perm (coming id)
      unfold tally at fair ⊢
      rw [if_neg same, perm.countP_eq, List.countP_cons, calls_pending pending] at fair
      have recorded : (id ∈ urlnode.id :: s.saved) = (id ∈ s.saved) := by
        simp [Ne.symm same]
      have silent : (⟨{ urlnode with nowpage := (s.record urlnode.id).length + 1 }, .saved next⟩ :
          PagePlace).calls id = false := by
        unfold PagePlace.calls
        simp [same]
      simp only [Crawl.replace, Function.update_of_ne (Ne.symm same), recorded, List.countP_cons, silent]
      exact fair
  · intro other there
    rcases List.mem_cons.mp there with rfl | there
    · exact ⟨own.positive, own.given, own.typed, by rintro inserts next ⟨⟩⟩
    · exact (others other there).mono (Nat.le_refl _)
  · intro id mem
    rcases List.mem_cons.mp mem with rfl | mem
    · exact own.positive
    · exact sound.positive id mem
  · intro id late
    obtain ⟨empty, never, silent⟩ := sound.fresh id late
    have apart : id ≠ urlnode.id := by
      have given : urlnode.id ≤ s.maxid := own.given
      change s.maxid < id at late
      omega
    refine ⟨?_, ?_, silent⟩
    · change Function.update s.record urlnode.id _ id = []
      rw [Function.update_of_ne apart]
      exact empty
    · intro mem
      rcases List.mem_cons.mp mem with same | mem
      · exact apart same
      · exact never mem

/-- The next of the pages to insert. -/
theorem Sound.insert (sound : s.Sound) (here : s.pages[i]? = some ⟨urlnode, .analysed (f :: inserts) next⟩)
    (enters : f.id ≠ 0 → task.ignoreurl f.url = false ∧ admission = .letIn) :
    (if task.ignoreurl f.url then s.replace i ⟨urlnode, .analysed inserts next⟩
      else (s.replace i ⟨urlnode, .analysed inserts next⟩).insertUrl f admission).Sound := by
  have own := sound.known _ (List.mem_of_getElem? here)
  have inserted := own.inserts (f :: inserts) next rfl
  obtain ⟨typed, kind⟩ := inserted f List.mem_cons_self
  have rest : s.Known ⟨urlnode, .analysed inserts next⟩ := by
    refine ⟨own.positive, own.given, own.typed, ?_⟩
    rintro inserts next ⟨⟩ g mem
    exact inserted g (List.mem_cons_of_mem f mem)
  by_cases new : f.id = 0
  · have dropped : (s.replace i ⟨urlnode, .analysed inserts next⟩).Sound := by
      apply sound.replace here rest
      · intro id positive
        have other : decide (f.id = id) = false := decide_eq_false (by omega)
        rw [coming_analysed, coming_analysed, List.filter_cons, other]
        rfl
      · exact fun id => rfl
    split_ifs
    · exact dropped
    · apply dropped.insertNew new _ typed
      rcases kind with ⟨_, _, one⟩ | same
      · exact one
      · have positive := own.positive
        change f.id = urlnode.id at same
        change 0 < urlnode.id at positive
        omega
  · obtain ⟨kept, rfl⟩ := enters new
    have perm := perm_remove here
    rw [if_neg (by simp [kept])]
    unfold insertUrl
    simp only [if_neg new]
    have same : f.id = urlnode.id := by
      rcases kind with ⟨zero, _⟩ | same
      · exact absurd zero new
      · exact same
    apply sound.setPages
    · intro other mem
      rcases List.mem_cons.mp mem with rfl | mem
      · refine ⟨Nat.pos_of_ne_zero new, ?_, typed, ?_⟩
        · change f.id ≤ s.maxid
          rw [same]
          exact own.given
        · rintro inserts next ⟨⟩
      · rcases List.mem_cons.mp mem with rfl | mem
        · exact rest
        · exact sound.known other (perm.mem_iff.mpr (List.mem_cons_of_mem _ mem))
    · intro id _
      have each := coming_perm perm id
      refine each.trans ?_
      rw [replace_pages, List.flatMap_cons, List.flatMap_cons, List.flatMap_cons, coming_queued,
        coming_analysed, coming_analysed, List.filter_cons]
      by_cases belongs : f.id = id
      · rw [if_pos belongs, if_pos (decide_eq_true belongs), List.map_cons, ← List.append_assoc]
        apply List.Perm.append_right
        exact List.perm_middle
      · rw [if_neg belongs, decide_eq_false belongs]
        exact List.Perm.refl _
    · intro id
      rw [perm.countP_eq, replace_pages, List.countP_cons, List.countP_cons, List.countP_cons]
      rfl

/-- A list page has been analysed: its record gets a total. -/
theorem Sound.expand (sound : s.Sound) (here : s.pages[i]? = some ⟨urlnode, .fetching⟩)
    (list : hasFlag urlnode.type urlTypeListpage) (known : s.Known place') (pending : place'.stage.pending)
    (others : ∀ id, 0 < id → urlnode.id ≠ id → place'.coming id = [])
    (keys : ((place'.coming urlnode.id).map Item.key).Nodup)
    (totals : ∀ y ∈ place'.coming urlnode.id, y.total = some ((place'.coming urlnode.id).length : ℤ)) :
    (s.replace i place').Sound where
  fair := by
    intro id positive
    have perm := perm_remove here
    have fair := (sound.fair id positive).perm (coming_perm perm id)
    unfold tally coming at fair ⊢
    rw [replace_pages, List.flatMap_cons, List.countP_cons, calls_pending pending]
    rw [List.flatMap_cons, coming_fetching, perm.countP_eq, List.countP_cons,
      calls_pending (show (⟨urlnode, .fetching⟩ : PagePlace).stage.pending from rfl)] at fair
    by_cases same : urlnode.id = id
    · subst same
      have unknown : urlnode.item.total = none := by
        unfold PageNode.item
        simp [list]
      rw [if_pos rfl] at fair
      have single := (fair.alone urlnode.item List.mem_cons_self unknown).1
      have none : (s.remove i).pages.flatMap (fun other => other.coming urlnode.id) = [] :=
        (List.cons.inj single).2
      rw [none] at fair ⊢
      rw [List.append_nil] at fair ⊢
      exact fair.split rfl unknown keys totals
    · rw [if_neg same, List.nil_append] at fair
      rw [others id positive same, List.nil_append]
      exact fair
  known := by
    intro other mem
    rcases List.mem_cons.mp mem with rfl | mem
    · exact known.mono (Nat.le_refl _)
    · exact (sound.known other ((perm_remove here).mem_iff.mpr (List.mem_cons_of_mem _ mem))).mono
        (Nat.le_refl _)
  positive := sound.positive
  fresh := sound.fresh

/-- The pages to insert that belong to the record, if the final pages do. -/
theorem filter_shared {l : Listing} (shared : SharedFinals urlnode l) (others : OtherPages l)
    (positive : 0 < urlnode.id) :
    l.inserts.filter (fun f => f.id = urlnode.id) =
      l.walk.map fun (f : PageNode) => { f with totalpage := l.page } := by
  unfold Listing.inserts
  rw [List.filter_append, List.filter_eq_self.mpr, List.filter_eq_nil_iff.mpr, List.append_nil]
  · intro f mem same
    have zero := (others f mem).1
    have same := of_decide_eq_true same
    omega
  · intro f mem
    obtain ⟨g, there, rfl⟩ := List.mem_map.mp mem
    exact decide_eq_true (shared.final g (l.walk_perm.mem_iff.mp there)).1

/-- And none does, if they have records of their own. -/
theorem filter_separate {l : Listing} (separate : SeparateFinals urlnode l) (others : OtherPages l)
    (positive : 0 < id) :
    l.inserts.filter (fun f => f.id = id) = [] := by
  apply List.filter_eq_nil_iff.mpr
  intro f mem same
  have same := of_decide_eq_true same
  rcases List.mem_append.mp mem with final | other
  · obtain ⟨g, there, rfl⟩ := List.mem_map.mp final
    have zero : g.id = 0 := (separate.final g (l.walk_perm.mem_iff.mp there)).1
    change g.id = id at same
    omega
  · have zero := (others f other).1
    omega

/-- The total of the final pages that share the record. -/
theorem item_shared {f : PageNode} (saved : hasFlag f.type urlTypeNeedtosave)
    (final : hasFlag f.type urlTypeListpage = false) (total : ℤ) :
    PageNode.item { f with totalpage := total } = ⟨f.page, some total⟩ := by
  unfold PageNode.item
  simp [saved, final]

/-- What an analysis leaves, and what it is to insert. -/
structure Expands (urlnode urlnode' : PageNode) (inserts : List PageNode) : Prop where
  id : urlnode'.id = urlnode.id
  type : urlnode'.type = urlnode.type
  kinds : ∀ f ∈ inserts, (hasFlag f.type urlTypeListpage → hasFlag f.type urlTypeNeedtosave) ∧
    (f.id = 0 ∧ f.page = 1 ∧ f.totalpage = 1 ∨ f.id = urlnode.id)
  -- the pages of the record, with their number
  keys : hasFlag urlnode.type urlTypeListpage →
    (urlnode'.page :: (inserts.filter fun f => f.id = urlnode.id).map PageNode.page).Nodup
  totals : hasFlag urlnode.type urlTypeListpage →
    urlnode'.totalpage = (inserts.filter fun f => f.id = urlnode.id).length + 1 ∧
    ∀ f ∈ inserts.filter fun f => f.id = urlnode.id, f.item = ⟨f.page, some urlnode'.totalpage⟩
  alone : hasFlag urlnode.type urlTypeListpage = false → urlnode'.page = urlnode.page ∧
    urlnode'.totalpage = urlnode.totalpage ∧ ∀ id, 0 < id → (inserts.filter fun f => f.id = id) = []

theorem expands_of_empty (counts : Counts task urlnode content) (empty : content.empty = true) :
    Expands urlnode urlnode [] where
  id := rfl
  type := rfl
  kinds := by
    intro f mem
    cases mem
  keys := fun _ => List.nodup_singleton _
  totals := by
    intro list
    refine ⟨(counts.empty empty list).trans rfl, ?_⟩
    intro f mem
    cases mem
  alone := fun _ => ⟨rfl, rfl, fun _ _ => rfl⟩

/-- The page numbers of a list page and of the final pages in its record. -/
theorem nodup_numbers (page : ℤ) (k : ℕ) :
    ((page + k) :: (List.range k).map fun (j : ℕ) => page + j).Nodup := by
  apply List.nodup_cons.mpr
  constructor
  · intro mem
    obtain ⟨j, low, same⟩ := List.mem_map.mp mem
    have := List.mem_range.mp low
    omega
  · apply List.Nodup.map _ List.nodup_range
    intro j j' same
    simpa using same

theorem expands_of_shared {l : Listing} (positive : 0 < urlnode.id)
    (first : hasFlag urlnode.type urlTypeListpage → urlnode.page = 1) (shared : SharedFinals urlnode l)
    (others : OtherPages l) :
    Expands urlnode
      { urlnode with
        page := l.page
        totalpage := if hasFlag urlnode.type urlTypeListpage then l.page else urlnode.totalpage }
      l.inserts where
  id := rfl
  type := rfl
  kinds := by
    intro f mem
    rcases List.mem_append.mp mem with final | other
    · obtain ⟨g, there, rfl⟩ := List.mem_map.mp final
      obtain ⟨same, saved, _⟩ := shared.final g (l.walk_perm.mem_iff.mp there)
      exact ⟨fun _ => saved, Or.inr same⟩
    · obtain ⟨zero, page, one, typed⟩ := others f other
      exact ⟨typed, Or.inl ⟨zero, page, one⟩⟩
  keys := by
    intro _
    rw [filter_shared shared others positive, List.map_map, shared.page]
    have numbers := nodup_numbers urlnode.page l.finalpagelist.length
    rw [← shared.numbers] at numbers
    exact ((l.walk_perm.map PageNode.page).cons _).nodup_iff.mpr numbers
  totals := by
    intro list
    rw [filter_shared shared others positive, List.length_map, l.walk_perm.length_eq, if_pos list,
      shared.page, first list]
    refine ⟨Int.add_comm .., ?_⟩
    intro f mem
    obtain ⟨g, there, rfl⟩ := List.mem_map.mp mem
    obtain ⟨_, saved, final⟩ := shared.final g (l.walk_perm.mem_iff.mp there)
    exact item_shared saved final _
  alone := by
    intro single
    have none : l.finalpagelist = [] := by
      by_contra some
      rw [shared.list some] at single
      cases single
    have page := shared.page
    rw [none, List.length_nil, Nat.cast_zero, add_zero] at page
    refine ⟨page, if_neg (by simp [single]), ?_⟩
    intro id positive
    exact filter_separate (shared.separate none) others positive

theorem expands_of_separate {l : Listing} (positive : 0 < urlnode.id)
    (first : hasFlag urlnode.type urlTypeListpage → urlnode.page = 1) (separate : SeparateFinals urlnode l)
    (others : OtherPages l) :
    Expands urlnode
      { urlnode with
        page := l.page
        totalpage := if hasFlag urlnode.type urlTypeListpage then l.page else urlnode.totalpage }
      l.inserts where
  id := rfl
  type := rfl
  kinds := by
    intro f mem
    rcases List.mem_append.mp mem with final | other
    · obtain ⟨g, there, rfl⟩ := List.mem_map.mp final
      have there := l.walk_perm.mem_iff.mp there
      obtain ⟨zero, page, typed⟩ := separate.final g there
      have one : l.page = 1 := separate.page.trans (separate.first (List.ne_nil_of_mem there))
      exact ⟨typed, Or.inl ⟨zero, page, one⟩⟩
    · obtain ⟨zero, page, one, typed⟩ := others f other
      exact ⟨typed, Or.inl ⟨zero, page, one⟩⟩
  keys := by
    intro _
    rw [filter_separate separate others positive]
    exact List.nodup_singleton _
  totals := by
    intro list
    rw [filter_separate separate others positive, if_pos list, separate.page, first list]
    refine ⟨rfl, ?_⟩
    intro f mem
    cases mem
  alone := by
    intro single
    refine ⟨separate.page, if_neg (by simp [single]), ?_⟩
    exact fun id positive => filter_separate separate others positive

theorem expands_analyseUrls (limits : PageLimits) (counts : Counts task urlnode content)
    (positive : 0 < urlnode.id) :
    Expands urlnode (analyseUrls limits task urlnode content).1
      (analyseUrls limits task urlnode content).2.1 := by
  unfold analyseUrls
  by_cases empty : content.empty = true
  · rw [if_pos empty]
    exact expands_of_empty counts empty
  · rw [if_neg empty]
    have full : content.empty = false := by simpa using empty
    have others := listing_others task urlnode content.urls
    rcases counts.listing full with shared | separate
    · exact expands_of_shared positive (counts.first full) shared others
    · exact expands_of_separate positive (counts.first full) separate others

theorem Sound.analyse {urlnode' : PageNode} (sound : s.Sound)
    (here : s.pages[i]? = some ⟨urlnode, .fetching⟩) (expands : Expands urlnode urlnode' inserts) :
    (s.replace i ⟨urlnode', .analysed inserts next⟩).Sound := by
  have own := sound.known _ (List.mem_of_getElem? here)
  have known : s.Known ⟨urlnode', .analysed inserts next⟩ := by
    refine ⟨expands.id ▸ own.positive, expands.id ▸ own.given, ?_, ?_⟩
    · change hasFlag urlnode'.type _ → _
      rw [expands.type]
      exact own.typed
    · rintro inserts next ⟨⟩ f mem
      obtain ⟨typed, kind⟩ := expands.kinds f mem
      refine ⟨typed, kind.imp_right fun same => ?_⟩
      exact same.trans expands.id.symm
  by_cases list : hasFlag urlnode.type urlTypeListpage
  · obtain ⟨total, items⟩ := expands.totals list
    have saves : hasFlag urlnode'.type urlTypeNeedtosave := by
      rw [expands.type]
      exact own.typed list
    have coming : (⟨urlnode', .analysed inserts next⟩ : PagePlace).coming urlnode.id =
        (urlnode' :: inserts.filter fun f => f.id = urlnode.id).map fun f =>
          ⟨f.page, some urlnode'.totalpage⟩ := by
      rw [coming_analysed, if_pos expands.id, List.map_cons, List.map_congr_left items]
      unfold PageNode.analysedItem
      rw [if_pos saves]
      rfl
    apply sound.expand here list known rfl
    · intro id positive other
      rw [coming_analysed, if_neg (by rw [expands.id]; exact other), List.nil_append]
      apply List.map_eq_nil_iff.mpr
      apply List.filter_eq_nil_iff.mpr
      intro f mem same
      have same := of_decide_eq_true same
      rcases (expands.kinds f mem).2 with ⟨zero, _⟩ | own
      · omega
      · exact other (own.symm.trans same)
    · rw [coming, List.map_map]
      exact expands.keys list
    · intro y mem
      rw [coming] at mem ⊢
      obtain ⟨f, _, rfl⟩ := List.mem_map.mp mem
      rw [List.length_map, List.length_cons, total]
      rfl
  · have single : hasFlag urlnode.type urlTypeListpage = false := by simpa using list
    obtain ⟨page, total, none⟩ := expands.alone single
    apply sound.replace here known
    · intro id positive
      rw [coming_fetching, coming_analysed, none id positive, expands.id, List.map_nil, List.append_nil]
      have same : urlnode'.analysedItem = urlnode.item := by
        unfold PageNode.analysedItem PageNode.item
        rw [page, total, expands.type, single]
        simp
      rw [same]
    · exact fun id => rfl

theorem step_sound {event : CrawlEvent} (sound : s.Sound) (meets : s.Meets task event)
    (step : s.step limits task event = some t) : t.Sound := by
  have known {i : ℕ} {place : PagePlace} (here : s.pages[i]? = some place) : s.Known place :=
    sound.known _ (List.mem_of_getElem? here)
  cases event with
  | getUrl i =>
      simp only [Crawl.step, Option.bind_eq_bind, Option.bind_eq_some_iff] at step
      obtain ⟨place, here, step⟩ := step
      split at step
      · next urlnode =>
          cases step
          have own := known here
          apply sound.replace here
          · exact ⟨own.positive, own.given, own.typed, by rintro inserts next ⟨⟩⟩
          · exact fun id _ => List.Perm.refl _
          · exact fun id => rfl
      · cases step
  | failed i =>
      simp only [Crawl.step, Option.bind_eq_bind, Option.bind_eq_some_iff] at step
      obtain ⟨place, here, step⟩ := step
      split at step
      · next urlnode =>
          split_ifs at step with again
          · cases step
            have own := known here
            apply sound.replace here
            · exact ⟨own.positive, own.given, own.typed, by rintro inserts next ⟨⟩⟩
            · exact fun id _ => List.Perm.refl _
            · exact fun id => rfl
          · cases step
            exact sound.giveUp here (meets urlnode here (Nat.le_of_not_lt again))
      · cases step
  | unaccepted i =>
      simp only [Crawl.step, Option.bind_eq_bind, Option.bind_eq_some_iff] at step
      obtain ⟨place, here, step⟩ := step
      split at step
      · next urlnode =>
          cases step
          exact sound.giveUp here (meets urlnode here)
      · cases step
  | analyseUrls i content =>
      simp only [Crawl.step, Option.bind_eq_bind, Option.bind_eq_some_iff] at step
      obtain ⟨place, here, step⟩ := step
      split at step
      · next urlnode =>
          cases step
          have counts := meets urlnode here
          have errorless : Counts task { urlnode with errornum := 0 } content :=
            ⟨counts.empty, counts.first, counts.users, counts.links⟩
          have expands := expands_analyseUrls limits errorless (known here).positive
          exact sound.analyse here
            ⟨expands.id, expands.type, expands.kinds, expands.keys, expands.totals, expands.alone⟩
      · cases step
  | insertUrl i admission =>
      simp only [Crawl.step, Option.bind_eq_bind, Option.bind_eq_some_iff] at step
      obtain ⟨place, here, step⟩ := step
      split at step
      · next urlnode node inserts next =>
          have inserted := sound.insert here (meets urlnode node inserts next here)
          split_ifs at step inserted with ignored
          · cases step
            exact inserted
          · cases step
            exact inserted
      · cases step
  | savecontent i erased =>
      simp only [Crawl.step, Option.bind_eq_bind, Option.bind_eq_some_iff] at step
      obtain ⟨place, here, step⟩ := step
      split at step
      · next urlnode next =>
          split_ifs at step with saves
          cases step
          apply (sound.erasecontent meets).savecontent _ saves
          unfold Crawl.erasecontent
          split
          · exact here
          · split_ifs <;> exact here
      · cases step
  | saveFetched i =>
      simp only [Crawl.step, Option.bind_eq_bind, Option.bind_eq_some_iff] at step
      obtain ⟨place, here, step⟩ := step
      split at step
      · next urlnode next =>
          have checked := sound.check here
          split_ifs at step checked with last
          · cases step
            exact checked
          · cases step
            exact checked
      · cases step
  | finish i admission =>
      simp only [Crawl.step, Option.bind_eq_bind, Option.bind_eq_some_iff] at step
      obtain ⟨⟨urlnode, stage⟩, here, step⟩ := step
      split at step
      · next next checked =>
          subst checked
          exact Sound.finish (sound.gone here) (known here).typed
            (meets urlnode _ here next (Or.inl rfl)) step
      · next next analysed =>
          subst analysed
          split_ifs at step with saves
          exact Sound.finish (sound.unsaved here (by simpa using saves)) (known here).typed
            (meets urlnode _ here next (Or.inr rfl)) step
      · cases step

/-- The state in which a list page is queued. -/
theorem start_sound {maxid : ℕ} (list : hasFlag urlnode.type urlTypeListpage)
    (saves : hasFlag urlnode.type urlTypeNeedtosave) (positive : 0 < urlnode.id)
    (given : urlnode.id ≤ maxid) : (start urlnode maxid).Sound where
  fair := by
    intro id _
    unfold tally coming start
    rw [List.flatMap_singleton, coming_queued, List.countP_singleton, calls_pending rfl]
    by_cases same : urlnode.id = id
    · rw [if_pos same]
      have first := Fair.first urlnode.page urlnode.item.total (by
        intro t is
        unfold PageNode.item at is
        simp [list] at is)
      have never : (id ∈ ([] : List ℕ)) = False := by simp
      simp only [never]
      exact first
    · rw [if_neg same]
      constructor <;> simp
  known := by
    intro place mem
    rw [List.mem_singleton.mp mem]
    exact ⟨positive, given, fun _ => saves, by rintro inserts next ⟨⟩⟩
  positive := by
    intro id mem
    cases mem
  fresh := by
    intro id _
    exact ⟨rfl, List.not_mem_nil, List.not_mem_nil⟩

theorem Sound.announced (sound : s.Sound) : s.Announced := by
  intro id mem
  have positive := sound.positive id mem
  have fair := sound.fair id positive
  have once : s.fetched.count id + s.pages.countP (·.calls id) ≤ 1 := fair.once
  refine ⟨by omega, ?_, ?_⟩
  · rintro announced ⟨place, there, pending, same⟩
    have some : s.coming id ≠ [] := by
      intro none
      rw [← same] at none
      exact coming_ne_nil pending (List.flatMap_eq_nil_iff.mp none place there)
    have early : s.fetched.count id + s.pages.countP (·.calls id) = 0 := fair.early some
    have := List.count_pos_iff.mpr announced
    omega
  · intro gone
    have none : s.coming id = [] := by
      apply coming_eq_nil sound.known positive
      rintro ⟨place, there, _, same⟩
      exact gone place there same
    have last : s.fetched.count id + s.pages.countP (·.calls id) = 1 := fair.last mem none
    have quiet : s.pages.countP (·.calls id) = 0 := by
      apply List.countP_eq_zero.mpr
      intro place there called
      unfold PagePlace.calls at called
      split at called
      · exact gone place there (of_decide_eq_true called).1
      · cases called
    omega

/-- In a run whose steps all meet the condition every article is announced once, and last. -/
theorem articles_announced (limits : PageLimits) (task : PageTask) (urlnode : PageNode) (maxid : ℕ)
    (list : hasFlag urlnode.type urlTypeListpage) (saves : hasFlag urlnode.type urlTypeNeedtosave)
    (positive : 0 < urlnode.id) (given : urlnode.id ≤ maxid) (events : List CrawlEvent) (s : Crawl)
    (run : Run (Guarded (Meets task) fun s e t => s.step limits task e = some t) (start urlnode maxid)
      events s) : s.Announced := by
  have sound : s.Sound := by
    apply run.invariant (start_sound list saves positive given)
    rintro t e u sound ⟨meets, step⟩
    exact step_sound sound meets step
  exact sound.announced

/-- A task with one list page and one final page. -/
def twoPageTask (sourcetype : Int32) : PageTask :=
  ⟨sourcetype, 3, fun url => url = "f".toList, fun url => url = "l".toList, fun _ => false, fun _ => false⟩

def twoPageList (sourcetype : Int32) : PageNode :=
  { PageNode.new "l".toList with id := 1, type := getType (twoPageTask sourcetype) "l".toList }

/-- The list page is saved before its final page is fetched, newest first. -/
def twoPageEvents : List CrawlEvent :=
  [.finish 0 .letIn, .saveFetched 0, .savecontent 0 none, .analyseUrls 0 ⟨false, [], []⟩, .getUrl 0,
    .finish 0 .letIn, .saveFetched 0, .savecontent 1 none, .insertUrl 0 .letIn,
    .analyseUrls 0 ⟨false, ["f".toList], []⟩, .getUrl 0]

theorem articles_announced_two : ∃ s : Crawl, s.saved = [1, 1] ∧ s.fetched = [1] ∧ s.Announced := by
  have reached : ∃ s : Crawl, (s.saved = [1, 1] ∧ s.fetched = [1]) ∧
      Run (Guarded (Meets (twoPageTask sourceTypeCompany)) fun s e t =>
        s.step ⟨30, 30⟩ (twoPageTask sourceTypeCompany) e = some t)
        (start (twoPageList sourceTypeCompany) 1) twoPageEvents s := by
    refine ⟨_, ?_, .snoc (.snoc (.snoc (.snoc (.snoc (.snoc (.snoc (.snoc (.snoc (.snoc (.snoc .nil
      ⟨trivial, rfl⟩) ⟨?_, rfl⟩) ⟨?_, rfl⟩) ⟨?_, rfl⟩) ⟨trivial, rfl⟩) ⟨?_, rfl⟩) ⟨trivial, rfl⟩)
      ⟨?_, rfl⟩) ⟨?_, rfl⟩) ⟨trivial, rfl⟩) ⟨?_, rfl⟩⟩
    · exact ⟨rfl, rfl⟩
    · intro urlnode here
      cases here
      constructor <;> decide
    · intro urlnode node inserts next here
      cases here
      decide
    · intro id mem
      cases mem
    · intro urlnode stage here next at' some
      cases here
      rcases at' with at' | at' <;> cases at'
      exact absurd rfl some
    · intro urlnode here
      cases here
      constructor <;> decide
    · intro id mem
      cases mem
    · intro urlnode stage here next at' some
      cases here
      rcases at' with at' | at' <;> cases at'
      exact absurd rfl some
  obtain ⟨s, ⟨saved, fetched⟩, run⟩ := reached
  exact ⟨s, saved, fetched, articles_announced _ _ _ _ (by decide) (by decide) (by decide) (by decide) _ s
    run⟩

theorem not_articles_announced : ¬ ∀ (limits : PageLimits) (task : PageTask) (urlnode : PageNode)
    (maxid : ℕ), hasFlag urlnode.type urlTypeListpage → hasFlag urlnode.type urlTypeNeedtosave →
    0 < urlnode.id → urlnode.id ≤ maxid → ∀ (events : List CrawlEvent) (s : Crawl),
    Run (fun s e t => s.step limits task e = some t) (start urlnode maxid) events s → s.Announced := by
  intro announced
  have value : (reach (step ⟨30, 30⟩ (twoPageTask sourceTypeInfo))
      (start (twoPageList sourceTypeInfo) 1) twoPageEvents).map
        (fun s => (s.saved, s.fetched, s.pages.length)) = some ([2, 1], [], 0) := by decide +kernel
  obtain ⟨s, reached, fields⟩ := Option.map_eq_some_iff.mp value
  have run := run_of_reach (R := fun s e t => s.step ⟨30, 30⟩ (twoPageTask sourceTypeInfo) e = some t)
    (fun _ _ _ step => step) reached
  have all := announced _ _ _ _ (by decide) (by decide) (by decide) (by decide) _ s run
  simp only [Prod.mk.injEq, List.length_eq_zero_iff] at fields
  obtain ⟨saved, fetched, gone⟩ := fields
  have once := (all 1 (by rw [saved]; decide)).2.2 (by rw [gone]; simp)
  rw [fetched] at once
  cases once

end Crawl
end BloomServer
