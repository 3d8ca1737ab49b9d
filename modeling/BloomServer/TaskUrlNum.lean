import BloomServer.Library.CallSequence
import BloomServer.PageCache
import BloomServer.TaskUrls
import Mathlib.Data.List.Perm.Basic

/-! Every task counts its URLs that are not done: those in the queues of the hosts, those that have
gone to the database because a queue was long, and those that are being fetched. -/
namespace BloomServer
open CallSequence

/-- The members of a `UrlNode` that are used here. -/
structure TaskUrl where
  id : UInt64
  taskid : Int32
  url : Url
  listpage : Bool
  deriving DecidableEq

/-- The members of a `TaskOtherInfo` that are used here. -/
structure UrlCounter where
  urlnum : ℤ
  insurlnum : ℤ
  urls : Finset Url
  alreadyused : Bool
  deriving DecidableEq

/-- A row of the table of URLs not fetched. -/
structure UnfetchedRow where
  id : ℕ
  hostid : Int32
  pushback : Bool
  node : TaskUrl
  deriving DecidableEq

/-- What the URL and its task say about the host, and the database about the rest. -/
structure Answers where
  host : Option String
  alreadyfetched : Bool
  sqliteHostId : Int32
  stored : Bool

/-- The queues of all hosts are one list; every host of the map has its `sqlite_host_id`. What has been
accepted and what is done is kept with them. -/
structure UrlPlaces where
  tasksothermap : Int32 → Option UrlCounter
  hostToFifoqueue : String → Option Int32
  memory : List (String × TaskUrl)
  unfetched : List UnfetchedRow
  fetching : List TaskUrl
  accepted : List TaskUrl
  completed : List TaskUrl

namespace UrlPlaces

def start : UrlPlaces := ⟨fun _ => none, fun _ => none, [], [], [], [], []⟩

def setTaskOther (s : UrlPlaces) (taskid : Int32) (other : UrlCounter) : UrlPlaces :=
  { s with tasksothermap := Function.update s.tasksothermap taskid (some other) }

def increaseTaskUrlNum (s : UrlPlaces) (taskid : Int32) : Option UrlPlaces :=
  match s.tasksothermap taskid with
  | none => some s
  | some other => do
      let urlnum ← intSum other.urlnum 1
      return s.setTaskOther taskid { other with urlnum }

def increaseTaskInsUrl (s : UrlPlaces) (taskid : Int32) : Option UrlPlaces :=
  match s.tasksothermap taskid with
  | none => some s
  | some other => do
      let insurlnum ← intSum other.insurlnum 1
      return s.setTaskOther taskid { other with insurlnum }

/-- A task whose last URL is done is over, unless its information is in use. -/
def decreaseTaskUrlNum (s : UrlPlaces) (taskid : Int32) : Option UrlPlaces :=
  match s.tasksothermap taskid with
  | none => some s
  | some other => do
      let urlnum ← intSum other.urlnum (-1)
      if urlnum = 0 ∧ other.alreadyused = false then
        return { s with tasksothermap := Function.update s.tasksothermap taskid none }
      else return s.setTaskOther taskid { other with urlnum }

/-- `fifoqueue->urlnum` -/
def hostUrlnum (s : UrlPlaces) (host : String) : ℕ := s.memory.countP fun e => e.1 = host

def pushMemory (s : UrlPlaces) (host : String) (node : TaskUrl) (ispushback : Bool) : UrlPlaces :=
  { s with memory := if ispushback then s.memory ++ [(host, node)] else (host, node) :: s.memory }

/-- The id that a row gets is one more than the largest. -/
def nextId (s : UrlPlaces) : ℕ := (s.unfetched.map (·.id)).foldr max 0 + 1

/-- The URL goes to the database, and out of the set of its task, which has to be there. -/
def spill (s : UrlPlaces) (node : TaskUrl) (hostid : Int32) (pushback stored : Bool) :
    Option UrlPlaces :=
  match s.tasksothermap node.taskid with
  | none => none
  | some other =>
      let s := s.setTaskOther node.taskid { other with urls := other.urls.erase node.url }
      some { s with
        unfetched := if stored then s.unfetched ++ [⟨s.nextId, hostid, pushback, node⟩]
          else s.unfetched }

/-- The number of a host in the database, which is looked for once. -/
def hostId (known answer : Int32) : Int32 := if known = -1 then answer else known

/-- `HostNode::push_back` and `HostNode::push_front` -/
def pushUrl (s : UrlPlaces) (host : String) (known : Int32) (node : TaskUrl)
    (ispushback onlyMemory : Bool) (a : Answers) : Option UrlPlaces :=
  if 2000 < s.hostUrlnum host ∧ onlyMemory = false then
    let hostid := hostId known a.sqliteHostId
    let s := { s with hostToFifoqueue := Function.update s.hostToFifoqueue host (some hostid) }
    if 0 < hostid then s.spill node hostid ispushback a.stored
    else some (s.pushMemory host node ispushback)
  else some (s.pushMemory host node ispushback)

/-- A host that is not in the map gets a node with an empty queue. -/
def pushToHost (s : UrlPlaces) (host : String) (node : TaskUrl) (ispushback onlyMemory : Bool)
    (a : Answers) : Option UrlPlaces :=
  match s.hostToFifoqueue host with
  | some known => s.pushUrl host known node ispushback onlyMemory a
  | none =>
      let s := s.pushMemory host node ispushback
      some { s with
        hostToFifoqueue := Function.update s.hostToFifoqueue host (some a.sqliteHostId) }

/-- A URL that is not let in. -/
def rejects (s : UrlPlaces) (node : TaskUrl) (forced : Bool) (a : Answers) : Bool :=
  match s.tasksothermap node.taskid with
  | none => false
  | some other => !forced && (node.listpage && a.alreadyfetched || decide (node.url ∈ other.urls))

def inserttaskurl (s : UrlPlaces) (node : TaskUrl) : UrlPlaces :=
  match s.tasksothermap node.taskid with
  | none => s
  | some other => s.setTaskOther node.taskid { other with urls := insert node.url other.urls }

def insertUrl (s : UrlPlaces) (node : TaskUrl) (forced ispushback onlyMemory : Bool) (a : Answers) :
    Option UrlPlaces :=
  match a.host with
  | none => some s
  | some host =>
      if s.rejects node forced a then some s
      else do
        let s := s.inserttaskurl node
        let s ← s.increaseTaskUrlNum node.taskid
        let s ← s.increaseTaskInsUrl node.taskid
        s.pushToHost host node ispushback onlyMemory a

/-- The rows of a host, those pushed to the front first; at most 1000 of them. -/
def getUnfetchedUrls (s : UrlPlaces) (hostid : Int32) : List UnfetchedRow :=
  let rows := s.unfetched.filter fun r => r.hostid = hostid
  (rows.filter (fun r => !r.pushback) ++ rows.filter (·.pushback)).take 1000

/-- The rows that `getUrl` reads when the queue of its host is short. -/
def rereads (s : UrlPlaces) (host : String) : List UnfetchedRow :=
  match s.hostToFifoqueue host with
  | none => []
  | some hostid => if s.hostUrlnum host < 20 ∧ 0 < hostid then s.getUnfetchedUrls hostid else []

def deleteUnfetched (s : UrlPlaces) (id : ℕ) : UrlPlaces :=
  { s with unfetched := s.unfetched.filter fun r => r.id ≠ id }

/-- Every row is deleted and inserted again. -/
def reread (answers : UnfetchedRow → Answers) : List UnfetchedRow → UrlPlaces → Option UrlPlaces
  | [], s => some s
  | r :: rest, s => do
      let s ← (s.deleteUnfetched r.id).insertUrl r.node false false true (answers r)
      reread answers rest s

/-- The first URL of the host goes to a fetcher. -/
def popUrl (s : UrlPlaces) (host : String) : UrlPlaces :=
  match s.memory.find? fun e => e.1 = host with
  | none => s
  | some e => { s with memory := s.memory.erase e, fetching := e.2 :: s.fetching }

def getUrl (s : UrlPlaces) (host : String) (answers : UnfetchedRow → Answers) : Option UrlPlaces := do
  let s ← reread answers (s.rereads host) s
  return s.popUrl host

/-- A task that is not running is started; its information is in use. -/
def startTask (s : UrlPlaces) (taskid : Int32) : UrlPlaces :=
  match s.tasksothermap taskid with
  | none => s.setTaskOther taskid ⟨0, 0, ∅, true⟩
  | some _ => s

def setUsed (s : UrlPlaces) (taskid : Int32) (alreadyused : Bool) : UrlPlaces :=
  match s.tasksothermap taskid with
  | none => s
  | some other => s.setTaskOther taskid { other with alreadyused }

end UrlPlaces

/-- The calls; a fetcher is done with a URL that it has. -/
inductive UrlMove
  | insertUrl (node : TaskUrl) (forced ispushback onlyMemory : Bool) (a : Answers)
  | getUrl (host : String) (answers : UnfetchedRow → Answers)
  | complete (node : TaskUrl)
  | startTask (taskid : Int32)
  | setUsed (taskid : Int32) (alreadyused : Bool)

namespace UrlPlaces

/-- A URL with a host that is let in. -/
def accepts (s : UrlPlaces) (node : TaskUrl) (forced : Bool) (a : Answers) : Bool :=
  a.host.isSome && !s.rejects node forced a

def call (s : UrlPlaces) : UrlMove → Option UrlPlaces
  | .insertUrl node forced ispushback onlyMemory a => do
      let s' ← s.insertUrl node forced ispushback onlyMemory a
      return { s' with
        accepted := if s.accepts node forced a then node :: s'.accepted else s'.accepted }
  | .getUrl host answers => s.getUrl host answers
  | .complete node => do
      if node ∈ s.fetching then
        let s' ← s.decreaseTaskUrlNum node.taskid
        return { s' with fetching := s'.fetching.erase node, completed := node :: s'.completed }
      else none
  | .startTask taskid => some (s.startTask taskid)
  | .setUsed taskid alreadyused => some (s.setUsed taskid alreadyused)

/-- Where the URLs are that are not done. -/
def places (s : UrlPlaces) : List TaskUrl :=
  s.memory.map Prod.snd ++ s.unfetched.map (·.node) ++ s.fetching

def remaining (s : UrlPlaces) (taskid : Int32) : ℕ := s.places.countP fun node => node.taskid = taskid

/-- `taskother->urlnum`, and 0 for a task that is over. -/
def taskUrlnum (s : UrlPlaces) (taskid : Int32) : ℤ := (s.tasksothermap taskid).elim 0 (·.urlnum)

/-- Every URL accepted is done or in one place, and every task counts its own. -/
structure Counted (s : UrlPlaces) : Prop where
  conserved : s.accepted.Perm (s.completed ++ s.places)
  urlnum : ∀ taskid, s.taskUrlnum taskid = s.remaining taskid

/-- A URL that goes to the database. -/
def spills (s : UrlPlaces) (onlyMemory : Bool) (a : Answers) : Prop :=
  ∃ host ∈ a.host, ∃ known ∈ s.hostToFifoqueue host,
    2000 < s.hostUrlnum host ∧ onlyMemory = false ∧ 0 < hostId known a.sqliteHostId

/-- The calls that keep the count: a URL is let in only for a task that is running, the database takes
it if it goes there, and no row is read again. -/
def Meets (s : UrlPlaces) : UrlMove → Prop
  | .insertUrl node forced _ onlyMemory a => s.accepts node forced a = true →
      (s.tasksothermap node.taskid).isSome = true ∧ (s.spills onlyMemory a → a.stored = true)
  | .getUrl host _ => s.rereads host = []
  | .complete _ | .startTask _ | .setUsed _ _ => True

/-- What an operation adds to the counter of a task, if it is running, and to the places. -/
structure Effect (s s' : UrlPlaces) (taskid : Int32) (d : ℤ) (added : List TaskUrl) : Prop where
  running : ∀ t, (s'.tasksothermap t).isSome = (s.tasksothermap t).isSome
  urlnum : ∀ t, s'.taskUrlnum t =
    s.taskUrlnum t + if t = taskid ∧ (s.tasksothermap t).isSome = true then d else 0
  accepted : s'.accepted = s.accepted
  completed : s'.completed = s.completed
  places : s'.places.Perm (added ++ s.places)

variable {s s' s₁ s₂ : UrlPlaces} {taskid : Int32} {d d₁ d₂ : ℤ} {added added₁ added₂ : List TaskUrl}
  {node : TaskUrl} {other : UrlCounter} {forced ispushback onlyMemory : Bool} {a : Answers}
  {host : String}

theorem Effect.trans (first : Effect s s₁ taskid d₁ added₁) (second : Effect s₁ s₂ taskid d₂ added₂) :
    Effect s s₂ taskid (d₁ + d₂) (added₂ ++ added₁) where
  running := fun t => (second.running t).trans (first.running t)
  urlnum := by
    intro t
    rw [second.urlnum, first.running, first.urlnum]
    split_ifs <;> omega
  accepted := second.accepted.trans first.accepted
  completed := second.completed.trans first.completed
  places := by
    rw [List.append_assoc]
    exact second.places.trans (first.places.append_left _)

theorem Effect.setTaskOther (here : s.tasksothermap taskid = some other) {next : UrlCounter}
    (urlnum : next.urlnum = other.urlnum + d) : Effect s (s.setTaskOther taskid next) taskid d [] where
  running := by
    intro t
    by_cases same : t = taskid
    · subst same
      simp [UrlPlaces.setTaskOther, here]
    · simp [UrlPlaces.setTaskOther, same]
  urlnum := by
    intro t
    by_cases same : t = taskid
    · subst same
      simp [taskUrlnum, UrlPlaces.setTaskOther, here, urlnum]
    · simp [taskUrlnum, UrlPlaces.setTaskOther, same]
  accepted := rfl
  completed := rfl
  places := .refl _

/-- An operation that leaves the tasks alone. -/
theorem Effect.of_places (tasks : s'.tasksothermap = s.tasksothermap)
    (accepted : s'.accepted = s.accepted) (completed : s'.completed = s.completed)
    (places : s'.places.Perm (added ++ s.places)) : Effect s s' taskid 0 added where
  running := by
    intro t
    rw [tasks]
  urlnum := by
    intro t
    unfold taskUrlnum
    rw [tasks]
    simp
  accepted := accepted
  completed := completed
  places := places

/-- The numbers of the hosts are not counted. -/
theorem Effect.hosts (effect : Effect s s₁ taskid d added) (hosts : String → Option Int32) :
    Effect s { s₁ with hostToFifoqueue := hosts } taskid d added :=
  ⟨effect.running, effect.urlnum, effect.accepted, effect.completed, effect.places⟩

/-- A task that is not running is not counted. -/
theorem Effect.of_none (here : s.tasksothermap taskid = none) : Effect s s taskid d [] where
  running := fun _ => rfl
  urlnum := by
    intro t
    have out : ¬ (t = taskid ∧ (s.tasksothermap t).isSome = true) := by
      rintro ⟨rfl, some⟩
      rw [here] at some
      cases some
    rw [if_neg out, Int.add_zero]
  accepted := rfl
  completed := rfl
  places := .refl _

/-! ### The parts of `insertUrl` -/

theorem inserttaskurl_effect (s : UrlPlaces) (node : TaskUrl) :
    Effect s (s.inserttaskurl node) node.taskid 0 [] ∧
      ∃ m, s.inserttaskurl node = { s with tasksothermap := m } := by
  unfold inserttaskurl
  cases here : s.tasksothermap node.taskid with
  | none => exact ⟨.of_none here, _, rfl⟩
  | some other => exact ⟨.setTaskOther here (Int.add_zero _).symm, _, rfl⟩

theorem increaseTaskUrlNum_effect (run : s.increaseTaskUrlNum taskid = some s') :
    Effect s s' taskid 1 [] ∧ ∃ m, s' = { s with tasksothermap := m } := by
  unfold increaseTaskUrlNum at run
  cases here : s.tasksothermap taskid with
  | none =>
      rw [here] at run
      cases run
      exact ⟨.of_none here, _, rfl⟩
  | some other =>
      rw [here] at run
      obtain ⟨urlnum, sum, run⟩ := Option.bind_eq_some_iff.mp run
      cases run
      unfold intSum at sum
      split_ifs at sum
      cases sum
      exact ⟨.setTaskOther here rfl, _, rfl⟩

theorem increaseTaskInsUrl_effect (run : s.increaseTaskInsUrl taskid = some s') :
    Effect s s' taskid 0 [] ∧ ∃ m, s' = { s with tasksothermap := m } := by
  unfold increaseTaskInsUrl at run
  cases here : s.tasksothermap taskid with
  | none =>
      rw [here] at run
      cases run
      exact ⟨.of_none here, _, rfl⟩
  | some other =>
      rw [here] at run
      obtain ⟨insurlnum, -, run⟩ := Option.bind_eq_some_iff.mp run
      cases run
      exact ⟨.setTaskOther here (Int.add_zero _).symm, _, rfl⟩

theorem pushMemory_effect (s : UrlPlaces) (host : String) (node : TaskUrl) (ispushback : Bool) :
    Effect s (s.pushMemory host node ispushback) taskid 0 [node] := by
  refine .of_places (by rfl) (by rfl) (by rfl) ?_
  unfold places pushMemory
  cases ispushback with
  | false => exact .refl _
  | true =>
      rw [if_pos rfl, List.map_append, List.append_assoc, List.append_assoc, List.append_assoc]
      exact List.perm_middle

/-- A row for a URL is a place. -/
theorem row_places (s : UrlPlaces) (row : UnfetchedRow) :
    places { s with unfetched := s.unfetched ++ [row] } |>.Perm ([row.node] ++ s.places) := by
  unfold places
  rw [List.map_append, ← List.append_assoc, List.append_assoc]
  exact List.perm_middle

theorem spill_effect {hostid : Int32} {pushback stored : Bool}
    (run : s.spill node hostid pushback stored = some s') :
    Effect s s' node.taskid 0 (if stored then [node] else []) := by
  unfold spill at run
  cases here : s.tasksothermap node.taskid with
  | none =>
      rw [here] at run
      cases run
  | some other =>
      rw [here] at run
      cases run
      let next : UrlCounter := { other with urls := other.urls.erase node.url }
      have erased : Effect s (s.setTaskOther node.taskid next) node.taskid 0 [] :=
        .setTaskOther here (Int.add_zero _).symm
      rw [← List.append_nil (if stored then [node] else [])]
      refine erased.trans (.of_places (by rfl) (by rfl) (by rfl) ?_)
      cases stored with
      | false => exact .refl _
      | true => exact row_places ..

/-- A URL has a place unless it goes to the database, which does not take it. -/
theorem pushUrl_effect {known : Int32} (run : s.pushUrl host known node ispushback onlyMemory a = some s') :
    let spilled := 2000 < s.hostUrlnum host ∧ onlyMemory = false ∧ 0 < hostId known a.sqliteHostId
    (spilled ∧ a.stored = false → Effect s s' node.taskid 0 []) ∧
      (¬ (spilled ∧ a.stored = false) → Effect s s' node.taskid 0 [node]) := by
  intro spilled
  unfold pushUrl at run
  dsimp only at run
  let s₁ : UrlPlaces := { s with
    hostToFifoqueue :=
      Function.update s.hostToFifoqueue host (some (hostId known a.sqliteHostId)) }
  have known' : Effect s s₁ node.taskid 0 [] := .of_places rfl rfl rfl (.refl _)
  split_ifs at run with long inside
  · have effect := known'.trans (spill_effect (s := s₁) run)
    rw [List.append_nil, Int.add_zero] at effect
    constructor
    · rintro ⟨-, lost⟩
      rw [lost] at effect
      exact effect
    · intro kept
      have stored : a.stored = true := by
        by_contra lost
        exact kept ⟨⟨long.1, long.2, inside⟩, Bool.eq_false_iff.mpr lost⟩
      rw [stored] at effect
      exact effect
  · cases run
    refine ⟨fun lost => absurd lost.1.2.2 inside, fun _ => ?_⟩
    exact known'.trans (pushMemory_effect s₁ ..)
  · cases run
    refine ⟨fun lost => absurd ⟨lost.1.1, lost.1.2.1⟩ long, fun _ => ?_⟩
    exact pushMemory_effect ..

theorem pushToHost_effect (run : s.pushToHost host node ispushback onlyMemory a = some s')
    (named : a.host = some host) :
    (s.spills onlyMemory a ∧ a.stored = false → Effect s s' node.taskid 0 []) ∧
      (¬ (s.spills onlyMemory a ∧ a.stored = false) → Effect s s' node.taskid 0 [node]) := by
  unfold pushToHost at run
  unfold UrlPlaces.spills
  rw [named]
  cases found : s.hostToFifoqueue host with
  | none =>
      rw [found] at run
      cases run
      constructor
      · rintro ⟨⟨host', same, known, none, -⟩, -⟩
        cases same
        rw [found] at none
        cases none
      · intro _
        exact (pushMemory_effect s host node ispushback).hosts _
  | some known =>
      rw [found] at run
      have effect := pushUrl_effect run
      have same : (∃ host' ∈ some host, ∃ known ∈ s.hostToFifoqueue host',
          2000 < s.hostUrlnum host' ∧ onlyMemory = false ∧ 0 < hostId known a.sqliteHostId) ↔
          2000 < s.hostUrlnum host ∧ onlyMemory = false ∧ 0 < hostId known a.sqliteHostId := by
        simp [found]
      rw [same]
      exact effect

/-- A URL that is let in is counted if its task is running. -/
theorem insertUrl_effect (run : s.insertUrl node forced ispushback onlyMemory a = some s')
    (enters : s.accepts node forced a = true) :
    (s.spills onlyMemory a ∧ a.stored = false → Effect s s' node.taskid 1 []) ∧
      (¬ (s.spills onlyMemory a ∧ a.stored = false) → Effect s s' node.taskid 1 [node]) := by
  unfold accepts at enters
  unfold insertUrl at run
  cases named : a.host with
  | none =>
      rw [named] at enters
      cases enters
  | some host =>
      rw [named] at run enters
      have enters : s.rejects node forced a = false := by simpa using enters
      dsimp only at run
      rw [enters, if_neg Bool.false_ne_true] at run
      obtain ⟨s₁, counted, run⟩ := Option.bind_eq_some_iff.mp run
      obtain ⟨s₂, inserted, run⟩ := Option.bind_eq_some_iff.mp run
      obtain ⟨first, m, entered⟩ := inserttaskurl_effect s node
      obtain ⟨second, m₁, rfl⟩ := increaseTaskUrlNum_effect counted
      obtain ⟨third, m₂, rfl⟩ := increaseTaskInsUrl_effect inserted
      rw [entered] at first second third run
      have so_far := (first.trans second).trans third
      obtain ⟨lost, kept⟩ := pushToHost_effect run named
      exact ⟨fun h => so_far.trans (lost h), fun h => so_far.trans (kept h)⟩

theorem insertUrl_rejected (run : s.insertUrl node forced ispushback onlyMemory a = some s')
    (out : s.accepts node forced a = false) : s' = s := by
  unfold accepts at out
  unfold insertUrl at run
  cases named : a.host with
  | none =>
      rw [named] at run
      exact (Option.some.inj run).symm
  | some host =>
      rw [named] at run out
      have rejects : s.rejects node forced a = true := by simpa using out
      dsimp only at run
      rw [rejects, if_pos rfl] at run
      exact (Option.some.inj run).symm

/-- What stays in memory can be inserted while the counters can go up. -/
theorem insertUrl_inMemory {u i : ℤ} (a : Answers) (forced ispushback : Bool)
    (here : s.tasksothermap node.taskid = some other) (up : intSum other.urlnum 1 = some u)
    (more : intSum other.insurlnum 1 = some i) :
    (s.insertUrl node forced ispushback true a).isSome = true := by
  have placed : ∀ (s : UrlPlaces) host, (s.pushToHost host node ispushback true a).isSome = true := by
    intro s host
    unfold pushToHost pushUrl
    cases s.hostToFifoqueue host <;> simp
  unfold insertUrl
  cases a.host with
  | none => rfl
  | some host =>
      dsimp only
      split_ifs
      · rfl
      · simp [inserttaskurl, increaseTaskUrlNum, increaseTaskInsUrl, setTaskOther, here, up, more,
          placed]

end UrlPlaces
end BloomServer
