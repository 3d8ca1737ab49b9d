import BloomServer.Library.LabelledRun
import BloomServer.HostQueues
import BloomServer.TaskThread

/-! How often `UrlAnalyseManager` hands out URLs of a host, in a sequential run of `insertUrl` and
`getUrl`. Times are in milliseconds; the time of a `getUrl` is its first reading of the clock. -/
namespace BloomServer
open LabelledRun

/-- What `insertUrl` reads of the task. -/
structure HostTask where
  host : String
  sourcetype : Int32
  noaccessInterval : Int32

/-- The interval that `insertUrl` sets for the task, if it sets one. -/
def HostTask.interval (task : HostTask) : Option ℤ :=
  if task.sourcetype = sourceTypeSearchengine then some 1000
  else if task.sourcetype = sourceTypeCompany then some (task.noaccessInterval * 1000).toInt
  else none

/-- The interval for the task, which is the one of a new node if `insertUrl` sets none. -/
def HostTask.prescribed (task : HostTask) : ℤ := task.interval.getD 500

/-- A URL that `insertUrl` lets in, with the host of the URL. -/
structure PacedUrl where
  url : Url
  m_sHost : String
  task : HostTask
  ispushback : Bool
  spilled : Bool

/-- The host that the URL is queued for. -/
def PacedUrl.hoststmp (c : PacedUrl) : String :=
  if c.task.host = "" then c.m_sHost else c.task.host

/-- A `HostNode` whose queue is the list of its URLs. -/
structure PacedNode where
  host : String
  fifoqueue : List QueuedUrl
  nexttime : ℤ
  emptytimes : ℤ
  available : Bool
  interval : ℤ
  retnum : ℤ

namespace PacedNode

def new : PacedNode := ⟨"", [], 0, 0, false, 500, 0⟩

/-- The interval is kept. -/
def clear (node : PacedNode) : PacedNode :=
  { node with available := true, host := "", nexttime := 0, emptytimes := 0, retnum := 0 }

def pushUrl (node : PacedNode) (c : PacedUrl) : PacedNode :=
  if c.spilled then node
  else if c.ispushback then { node with fifoqueue := node.fifoqueue ++ [⟨c.hoststmp, c.url⟩] }
  else { node with fifoqueue := ⟨c.hoststmp, c.url⟩ :: node.fifoqueue }

/-- A node is set up for a host that has none. -/
def setUp (node : PacedNode) (c : PacedUrl) (now : ℤ) : PacedNode :=
  { node.pushUrl c with
    host := c.hoststmp
    nexttime := now + 2000
    interval := c.task.interval.getD node.interval }

/-- A round of the node is over. -/
def rest (node : PacedNode) (now : ℤ) : PacedNode :=
  { node with
    retnum := 0
    nexttime := now + node.interval
    emptytimes := if node.fifoqueue.isEmpty then node.emptytimes + 1 else 0 }

end PacedNode

/-- Where a `getUrl` is: it has a node, and may reload the queue of it. -/
inductive FetchTurn
  | idle
  | fetching (n : HostIndex) (now : ℤ) (reload : Bool)
  deriving DecidableEq

/-- A `getUrl` that reloads the queue calls `insertUrl` for the URLs of the database. -/
def FetchTurn.Inserts : FetchTurn → PacedUrl → Prop
  | .idle, _ => True
  | .fetching _ _ reload, c => reload = true ∧ c.ispushback = false ∧ c.spilled = false

instance : (turn : FetchTurn) → (c : PacedUrl) → Decidable (turn.Inserts c)
  | .idle, _ => isTrue trivial
  | .fetching .., _ => inferInstanceAs (Decidable (_ ∧ _ ∧ _))

/-- A URL was handed out, while this interval was prescribed for the host. -/
structure HandOut where
  time : ℤ
  host : String
  interval : ℤ
  deriving DecidableEq

/-- The members of the manager, and besides the last reading of the clock, the interval of the task
whose URL opened the queue of a host, and what was handed out, newest first. -/
structure HostPace where
  nodes : HostIndex → PacedNode
  size : ℕ
  hostToFifoqueue : String → Option HostIndex
  hosts : List HostIndex
  turn : FetchTurn
  now : ℤ
  prescribed : String → ℤ
  handedOut : List HandOut

inductive PaceEvent
  | insertUrl (c : PacedUrl) (now : ℤ)
  | getNextHost (n : HostIndex) (now later : ℤ)
  | popUrl

namespace HostPace

def start (now : ℤ) : HostPace := ⟨fun _ => .new, 0, fun _ => none, [], .idle, now, fun _ => 0, []⟩

def setNode (s : HostPace) (n : HostIndex) (node : PacedNode) : HostPace :=
  { s with nodes := Function.update s.nodes n node }

def findEmptyVector (s : HostPace) : Option HostIndex :=
  (List.range s.size).find? fun n => (s.nodes n).available

/-- The node gets the first URL of a host, and goes into the map and the heap. -/
def openQueue (s : HostPace) (n : HostIndex) (c : PacedUrl) (now : ℤ) : HostPace :=
  { s.setNode n (PacedNode.setUp { s.nodes n with available := false } c now) with
    hostToFifoqueue := Function.update s.hostToFifoqueue c.hoststmp (some n)
    hosts := n :: s.hosts
    prescribed := Function.update s.prescribed c.hoststmp c.task.prescribed }

def insertUrl (s : HostPace) (c : PacedUrl) (now : ℤ) : HostPace :=
  match s.hostToFifoqueue c.hoststmp with
  | some n => s.setNode n ((s.nodes n).pushUrl c)
  | none =>
      match s.findEmptyVector with
      | some n => s.openQueue n c now
      | none => ({ s with size := s.size + 1 }.setNode s.size .new).openQueue s.size c now

/-- A node of the heap that is fetched from next. -/
def Top (s : HostPace) (n : HostIndex) : Prop :=
  n ∈ s.hosts ∧ ∀ m ∈ s.hosts, (s.nodes n).nexttime ≤ (s.nodes m).nexttime

instance (s : HostPace) (n : HostIndex) : Decidable (s.Top n) :=
  inferInstanceAs (Decidable (_ ∧ _))

/-- `getNextHost` returns the node. -/
def fetch (s : HostPace) (n : HostIndex) (now : ℤ) : HostPace :=
  { s with turn := .fetching n now (decide ((s.nodes n).fifoqueue.length < 20)) }

/-- A node that has had its turns waits for its interval, or is given up after a hundred empty rounds. -/
def rest (s : HostPace) (localipnum : ℤ) (n : HostIndex) (now later : ℤ) : HostPace :=
  let node := (s.nodes n).rest later
  if 100 < node.emptytimes then
    { s with
      hostToFifoqueue := Function.update s.hostToFifoqueue node.host none
      hosts := s.hosts.erase n }.setNode n node.clear
  else
    let s := { s with hosts := n :: s.hosts.erase n }.setNode n node
    if localipnum = 0 then s.fetch n now else s

/-- The clock is read once to see whether the node is due, and again when its round is over. -/
def getNextHost (s : HostPace) (localipnum : ℤ) (n : HostIndex) (now later : ℤ) : HostPace :=
  let node := s.nodes n
  if s.hosts = [] then s
  else if node.nexttime ≤ now then
    if node.retnum + 1 ≤ localipnum then
      (s.setNode n { node with retnum := node.retnum + 1 }).fetch n now
    else s.rest localipnum n now later
  else s

/-- The first URL of the queue is handed out. -/
def handOut (s : HostPace) (n : HostIndex) (now : ℤ) (e : QueuedUrl) (fifoqueue : List QueuedUrl) :
    HostPace :=
  { s.setNode n { s.nodes n with fifoqueue } with
    turn := .idle
    handedOut := ⟨now, e.host, s.prescribed e.host⟩ :: s.handedOut }

/-- `getUrl` after the queue has been reloaded. -/
def popUrl (s : HostPace) (n : HostIndex) (now : ℤ) : HostPace :=
  match (s.nodes n).fifoqueue with
  | [] => { s with turn := .idle }
  | e :: fifoqueue => s.handOut n now e fifoqueue

def step (localipnum : ℤ) (s : HostPace) : PaceEvent → Option HostPace
  | .insertUrl c now =>
      if s.now ≤ now ∧ s.turn.Inserts c then some ({ s with now }.insertUrl c now) else none
  | .getNextHost n now later =>
      if s.now ≤ now ∧ now ≤ later ∧ s.turn = .idle ∧ (s.hosts = [] ∨ s.Top n) then
        some ({ s with now := later }.getNextHost localipnum n now later)
      else none
  | .popUrl =>
      match s.turn with
      | .idle => none
      | .fetching n now _ => some (s.popUrl n now)

/-- Up to each URL handed out, a window as long as the interval of the host then, half open, has no
more of the host than there are addresses to fetch from. -/
def Polite (localipnum : ℤ) (handedOut : List HandOut) : Prop :=
  ∀ last before, last :: before <:+ handedOut → ∀ a, a ≤ last.time → last.time < a + last.interval →
    ((last :: before).countP fun x =>
      decide (x.host = last.host ∧ a ≤ x.time ∧ x.time < a + last.interval) : ℤ) ≤ max 1 localipnum

/-- What a step has to meet: a URL that opens a queue finds no node of a shorter interval than
prescribed, and nothing of its host was handed out less than that before its first turn. -/
def Meets (s : HostPace) : PaceEvent → Prop
  | .insertUrl c now => s.hostToFifoqueue c.hoststmp = none →
      (∀ n, s.findEmptyVector = some n → c.task.interval = none → 500 ≤ (s.nodes n).interval) ∧
      ∀ x ∈ s.handedOut, x.host = c.hoststmp → x.time + c.task.prescribed ≤ now + 2000
  | _ => True

/-- The URLs of the host whose windows, of this length, are open at the time. -/
def recent (s : HostPace) (host : String) (interval time : ℤ) : ℕ :=
  s.handedOut.countP fun x => decide (x.host = host ∧ time < x.time + interval)

/-- What holds of the node of a host: its interval is long enough, and what is too recent for its next
turn was handed out in this round. -/
structure Paced (s : HostPace) (localipnum : ℤ) (host : String) (n : HostIndex) : Prop where
  live : n < s.size
  used : (s.nodes n).available = false
  named : (s.nodes n).host = host
  queued : ∀ e ∈ (s.nodes n).fifoqueue, e.host = host
  interval : s.prescribed host ≤ (s.nodes n).interval
  recent : (s.recent host (s.prescribed host) (s.nodes n).nexttime : ℤ) ≤ (s.nodes n).retnum
  retnum : (s.nodes n).retnum ≤ max 0 localipnum

/-- One more URL of the node may be handed out at the time, and is counted in its round. -/
structure Admits (s : HostPace) (localipnum : ℤ) (n : HostIndex) (now : ℤ) : Prop where
  recorded : s.hostToFifoqueue (s.nodes n).host = some n
  past : ∀ x ∈ s.handedOut, x.time ≤ now
  begun : now ≤ s.now
  room : (s.recent (s.nodes n).host (s.prescribed (s.nodes n).host) now : ℤ) + 1 ≤ max 1 localipnum
  counted : (s.recent (s.nodes n).host (s.prescribed (s.nodes n).host) (s.nodes n).nexttime : ℤ) +
    (if (s.nodes n).nexttime < now + s.prescribed (s.nodes n).host then 1 else 0) ≤ (s.nodes n).retnum

/-- The nodes in use are those of the map and of the heap, and are paced. -/
structure Sound (s : HostPace) (localipnum : ℤ) : Prop where
  once : s.hosts.Nodup
  recorded : ∀ n ∈ s.hosts, s.hostToFifoqueue (s.nodes n).host = some n
  paced : ∀ host n, s.hostToFifoqueue host = some n → s.Paced localipnum host n
  free : ∀ n, (s.nodes n).available = true → (s.nodes n).fifoqueue = [] ∧ (s.nodes n).retnum = 0
  past : ∀ x ∈ s.handedOut, x.time ≤ s.now
  admits : ∀ n now reload, s.turn = .fetching n now reload → s.Admits localipnum n now
  polite : Polite localipnum s.handedOut

variable {s t : HostPace} {localipnum : ℤ} {n m : HostIndex} {c : PacedUrl} {host : String}
  {interval now later time : ℤ} {node : PacedNode} {e : PaceEvent}

@[simp] theorem setNode_self (s : HostPace) (n : HostIndex) (node : PacedNode) :
    (s.setNode n node).nodes n = node := Function.update_self ..

@[simp] theorem setNode_hostToFifoqueue (s : HostPace) (n : HostIndex) (node : PacedNode) :
    (s.setNode n node).hostToFifoqueue = s.hostToFifoqueue := rfl

@[simp] theorem setNode_prescribed (s : HostPace) (n : HostIndex) (node : PacedNode) :
    (s.setNode n node).prescribed = s.prescribed := rfl

@[simp] theorem setNode_recent (s : HostPace) (n : HostIndex) (node : PacedNode) :
    (s.setNode n node).recent = s.recent := rfl

theorem setNode_of_ne (other : m ≠ n) : (s.setNode n node).nodes m = s.nodes m :=
  Function.update_of_ne other ..

/-- Later, fewer windows are open. -/
theorem recent_anti (le : now ≤ later) : s.recent host interval later ≤ s.recent host interval now := by
  apply List.countP_mono_left
  intro x _ open_
  simp only [decide_eq_true_eq] at open_ ⊢
  exact ⟨open_.1, by omega⟩

/-- All windows have been closed after the interval. -/
theorem recent_eq_zero (closed : ∀ x ∈ s.handedOut, x.host = host → x.time + interval ≤ time) :
    s.recent host interval time = 0 := by
  apply List.countP_eq_zero.mpr
  intro x mem open_
  obtain ⟨own, after⟩ := of_decide_eq_true open_
  have := closed x mem own
  omega

@[simp] theorem pushUrl_host (node : PacedNode) (c : PacedUrl) : (node.pushUrl c).host = node.host := by
  unfold PacedNode.pushUrl
  split_ifs <;> rfl

@[simp] theorem pushUrl_nexttime (node : PacedNode) (c : PacedUrl) :
    (node.pushUrl c).nexttime = node.nexttime := by
  unfold PacedNode.pushUrl
  split_ifs <;> rfl

@[simp] theorem pushUrl_available (node : PacedNode) (c : PacedUrl) :
    (node.pushUrl c).available = node.available := by
  unfold PacedNode.pushUrl
  split_ifs <;> rfl

@[simp] theorem pushUrl_interval (node : PacedNode) (c : PacedUrl) :
    (node.pushUrl c).interval = node.interval := by
  unfold PacedNode.pushUrl
  split_ifs <;> rfl

@[simp] theorem pushUrl_retnum (node : PacedNode) (c : PacedUrl) :
    (node.pushUrl c).retnum = node.retnum := by
  unfold PacedNode.pushUrl
  split_ifs <;> rfl

theorem mem_pushUrl {x : QueuedUrl} (mem : x ∈ (node.pushUrl c).fifoqueue) :
    x ∈ node.fifoqueue ∨ x.host = c.hoststmp := by
  unfold PacedNode.pushUrl at mem
  split_ifs at mem
  · exact Or.inl mem
  · rcases List.mem_append.mp mem with old | new
    · exact Or.inl old
    · rw [List.mem_singleton.mp new]
      exact Or.inr rfl
  · rcases List.mem_cons.mp mem with rfl | old
    · exact Or.inr rfl
    · exact Or.inl old

theorem start_sound (now : ℤ) : (start now).Sound localipnum := by
  constructor <;> simp [start, PacedNode.new, Polite]

/-- A node of the map is not the node of another host. -/
theorem Sound.own (sound : s.Sound localipnum) (here : s.hostToFifoqueue host = some n) :
    (s.nodes n).host = host := (sound.paced host n here).named

theorem Paced.mono (paced : s.Paced localipnum host n) (size : s.size ≤ t.size)
    (node : t.nodes n = s.nodes n) (prescribed : t.prescribed host = s.prescribed host)
    (handedOut : t.handedOut = s.handedOut) : t.Paced localipnum host n := by
  have recent : t.recent = s.recent := by
    unfold HostPace.recent
    rw [handedOut]
  constructor
  · exact Nat.lt_of_lt_of_le paced.live size
  · rw [node]
    exact paced.used
  · rw [node]
    exact paced.named
  · rw [node]
    exact paced.queued
  · rw [node, prescribed]
    exact paced.interval
  · rw [node, prescribed, recent]
    exact paced.recent
  · rw [node]
    exact paced.retnum

/-- A node of the map changes, in what does not concern the others. -/
theorem Sound.setNode (sound : s.Sound localipnum) (here : s.hostToFifoqueue (s.nodes n).host = some n)
    (paced : (s.setNode n node).Paced localipnum (s.nodes n).host n)
    (admits : ∀ m now reload, s.turn = .fetching m now reload →
      (s.setNode n node).Admits localipnum m now) : (s.setNode n node).Sound localipnum where
  once := sound.once
  recorded := by
    intro m mem
    by_cases same : m = n
    · subst same
      rw [paced.named]
      exact here
    · rw [setNode_of_ne same]
      exact sound.recorded m mem
  paced := by
    intro host m there
    by_cases same : m = n
    · subst same
      rw [← sound.own there]
      exact paced
    · exact (sound.paced host m there).mono (Nat.le_refl _) (setNode_of_ne same) rfl rfl
  free := by
    intro m available
    by_cases same : m = n
    · subst same
      rw [paced.used] at available
      cases available
    · rw [setNode_of_ne same] at available ⊢
      exact sound.free m available
  past := sound.past
  admits := admits
  polite := sound.polite

/-- The clock goes on. -/
theorem Sound.tick (sound : s.Sound localipnum) (le : s.now ≤ now) :
    { s with now }.Sound localipnum where
  once := sound.once
  recorded := sound.recorded
  paced := fun host n here => (sound.paced host n here).mono (Nat.le_refl _) rfl rfl rfl
  free := sound.free
  past := fun x mem => (sound.past x mem).trans le
  admits := by
    intro n begin reload turn
    have admits := sound.admits n begin reload turn
    exact ⟨admits.recorded, admits.past, admits.begun.trans le, admits.room, admits.counted⟩
  polite := sound.polite

theorem Sound.pushUrl (sound : s.Sound localipnum) (here : s.hostToFifoqueue c.hoststmp = some n) :
    (s.setNode n ((s.nodes n).pushUrl c)).Sound localipnum := by
  have paced := sound.paced _ n here
  have own := sound.own here
  refine sound.setNode (by rw [own, here]) ?_ ?_
  · rw [own]
    constructor
    · exact paced.live
    · simpa using paced.used
    · simpa using own
    · intro x mem
      rw [setNode_self] at mem
      rcases mem_pushUrl mem with old | new
      · exact paced.queued x old
      · exact new
    · simpa using paced.interval
    · simpa using paced.recent
    · simpa using paced.retnum
  · intro m begin reload turn
    have admits := sound.admits m begin reload turn
    by_cases same : m = n
    · subst same
      constructor
      · simpa using admits.recorded
      · exact admits.past
      · exact admits.begun
      · simpa using admits.room
      · simpa using admits.counted
    · constructor
      · rw [setNode_of_ne same]
        exact admits.recorded
      · exact admits.past
      · exact admits.begun
      · rw [setNode_of_ne same]
        exact admits.room
      · rw [setNode_of_ne same]
        exact admits.counted

/-- A node that no host has opens a queue. -/
theorem Sound.openQueue (sound : s.Sound localipnum) (absent : s.hostToFifoqueue c.hoststmp = none)
    (unused : ∀ host, s.hostToFifoqueue host ≠ some n) (live : n < s.size)
    (empty : (s.nodes n).fifoqueue = []) (fresh : (s.nodes n).retnum = 0)
    (long : c.task.prescribed ≤ c.task.interval.getD (s.nodes n).interval)
    (closed : ∀ x ∈ s.handedOut, x.host = c.hoststmp → x.time + c.task.prescribed ≤ now + 2000) :
    (s.openQueue n c now).Sound localipnum := by
  have out : n ∉ s.hosts := fun mem => unused _ (sound.recorded n mem)
  have self : (s.openQueue n c now).nodes n =
      PacedNode.setUp { s.nodes n with available := false } c now := Function.update_self ..
  have others {m : HostIndex} (other : m ≠ n) : (s.openQueue n c now).nodes m = s.nodes m :=
    Function.update_of_ne other ..
  have there {host : String} (other : host ≠ c.hoststmp) :
      (s.openQueue n c now).hostToFifoqueue host = s.hostToFifoqueue host :=
    Function.update_of_ne other ..
  have here : (s.openQueue n c now).hostToFifoqueue c.hoststmp = some n := Function.update_self ..
  have known {m : HostIndex} (recorded : s.hostToFifoqueue (s.nodes m).host = some m) :
      (s.nodes m).host ≠ c.hoststmp := by
    intro same
    rw [same, absent] at recorded
    cases recorded
  have prescribed {host : String} (other : host ≠ c.hoststmp) :
      (s.openQueue n c now).prescribed host = s.prescribed host := Function.update_of_ne other ..
  constructor
  · exact List.nodup_cons.mpr ⟨out, sound.once⟩
  · intro m mem
    rcases List.mem_cons.mp mem with rfl | mem
    · rw [self]
      exact here
    · have other : m ≠ n := fun same => out (same ▸ mem)
      rw [others other, there (known (sound.recorded m mem))]
      exact sound.recorded m mem
  · intro host m found
    by_cases same : host = c.hoststmp
    · subst same
      rw [here] at found
      cases found
      have interval : (s.openQueue n c now).prescribed c.hoststmp = c.task.prescribed :=
        Function.update_self ..
      have none_recent : (s.openQueue n c now).recent c.hoststmp c.task.prescribed (now + 2000) = 0 :=
        recent_eq_zero closed
      constructor
      · exact live
      · rw [self]
        exact pushUrl_available ..
      · rw [self]
        rfl
      · intro x mem
        rw [self] at mem
        rcases mem_pushUrl mem with old | new
        · rw [empty] at old
          cases old
        · exact new
      · rw [self, interval]
        exact long
      · rw [self, interval]
        change (((s.openQueue n c now).recent c.hoststmp c.task.prescribed (now + 2000) : ℕ) : ℤ) ≤
          (PacedNode.pushUrl { s.nodes n with available := false } c).retnum
        rw [none_recent, pushUrl_retnum]
        exact (Int.natCast_zero.trans fresh.symm).le
      · rw [self]
        change (PacedNode.pushUrl { s.nodes n with available := false } c).retnum ≤ _
        rw [pushUrl_retnum]
        exact fresh.le.trans (le_max_left ..)
    · rw [there same] at found
      have other : m ≠ n := fun same => unused host (same ▸ found)
      exact (sound.paced host m found).mono (Nat.le_refl _) (others other) (prescribed same) rfl
  · intro m available
    by_cases same : m = n
    · subst same
      rw [self] at available
      change (PacedNode.pushUrl { s.nodes m with available := false } c).available = true at available
      rw [pushUrl_available] at available
      cases available
    · rw [others same] at available ⊢
      exact sound.free m available
  · exact sound.past
  · intro m begin reload turn
    have admits := sound.admits m begin reload turn
    have other : m ≠ n := fun same => unused _ (same ▸ admits.recorded)
    have apart := known admits.recorded
    constructor
    · rw [others other, there apart]
      exact admits.recorded
    · exact admits.past
    · exact admits.begun
    · rw [others other, prescribed apart]
      exact admits.room
    · rw [others other, prescribed apart]
      exact admits.counted
  · exact sound.polite

/-- `hostsVector` grows by a node. -/
theorem Sound.newNode (sound : s.Sound localipnum) :
    ({ s with size := s.size + 1 }.setNode s.size .new).Sound localipnum := by
  have used {host : String} {m : HostIndex} (here : s.hostToFifoqueue host = some m) : m ≠ s.size :=
    (sound.paced host m here).live.ne
  constructor
  · exact sound.once
  · intro m mem
    rw [setNode_of_ne (used (sound.recorded m mem))]
    exact sound.recorded m mem
  · intro host m here
    exact (sound.paced host m here).mono (Nat.le_succ _) (setNode_of_ne (used here)) rfl rfl
  · intro m available
    by_cases same : m = s.size
    · subst same
      rw [setNode_self] at available
      cases available
    · rw [setNode_of_ne same] at available ⊢
      exact sound.free m available
  · exact sound.past
  · intro m begin reload turn
    have admits := sound.admits m begin reload turn
    have same : ({ s with size := s.size + 1 }.setNode s.size .new).nodes m = s.nodes m :=
      setNode_of_ne (used admits.recorded)
    constructor
    · rw [same]
      exact admits.recorded
    · exact admits.past
    · exact admits.begun
    · rw [same]
      exact admits.room
    · rw [same]
      exact admits.counted
  · exact sound.polite

theorem Sound.insertUrl (sound : s.Sound localipnum) (meets : s.Meets (.insertUrl c now)) :
    (s.insertUrl c now).Sound localipnum := by
  unfold HostPace.insertUrl
  split
  · next n here => exact sound.pushUrl here
  · next absent =>
      obtain ⟨long, closed⟩ := meets absent
      split
      · next n found =>
          obtain ⟨available, inside⟩ := List.find?_eq_some_iff_append.mp found
          have live : n < s.size := List.mem_range.mp (List.mem_of_find?_eq_some found)
          obtain ⟨empty, fresh⟩ := sound.free n available
          refine sound.openQueue absent ?_ live empty fresh ?_ closed
          · intro host here
            rw [(sound.paced host n here).used] at available
            cases available
          · unfold HostTask.prescribed
            cases set : c.task.interval with
            | none => exact long n found set
            | some interval => exact le_refl interval
      · have self := setNode_self { s with size := s.size + 1 } s.size .new
        refine sound.newNode.openQueue absent ?_ (Nat.lt_succ_self _) ?_ ?_ ?_ closed
        · intro host here
          exact (sound.paced host s.size here).live.false
        · rw [self]
          rfl
        · rw [self]
          rfl
        · rw [self]
          exact le_refl _

/-- A node that is due has room for one more in its round, and is returned. -/
theorem Sound.fetch (sound : s.Sound localipnum) (admits : s.Admits localipnum n now) :
    (s.fetch n now).Sound localipnum where
  once := sound.once
  recorded := sound.recorded
  paced := fun host m here => (sound.paced host m here).mono (Nat.le_refl _) rfl rfl rfl
  free := sound.free
  past := sound.past
  admits := by
    intro m begin reload turn
    cases turn
    exact ⟨admits.recorded, admits.past, admits.begun, admits.room, admits.counted⟩
  polite := sound.polite

/-- The node that was popped is pushed again. -/
theorem Sound.pushBack (sound : s.Sound localipnum) (mem : n ∈ s.hosts) :
    { s with hosts := n :: s.hosts.erase n }.Sound localipnum where
  once := (List.perm_cons_erase mem).nodup_iff.mp sound.once
  recorded := fun m there => sound.recorded m ((List.perm_cons_erase mem).mem_iff.mpr there)
  paced := fun host m here => (sound.paced host m here).mono (Nat.le_refl _) rfl rfl rfl
  free := sound.free
  past := sound.past
  admits := by
    intro m begin reload turn
    have admits := sound.admits m begin reload turn
    exact ⟨admits.recorded, admits.past, admits.begun, admits.room, admits.counted⟩
  polite := sound.polite

/-- A node whose queue is empty leaves the heap and the map. -/
theorem Sound.release (sound : s.Sound localipnum) (idle : s.turn = .idle) (mem : n ∈ s.hosts)
    (empty : node.fifoqueue = []) :
    ({ s with
      hostToFifoqueue := Function.update s.hostToFifoqueue (s.nodes n).host none
      hosts := s.hosts.erase n }.setNode n node.clear).Sound localipnum := by
  have here := sound.recorded n mem
  have kept {host : String} {m : HostIndex}
      (found : Function.update s.hostToFifoqueue (s.nodes n).host none host = some m) :
      s.hostToFifoqueue host = some m ∧ m ≠ n := by
    rw [Function.update_apply] at found
    split_ifs at found with same
    refine ⟨found, ?_⟩
    rintro rfl
    exact same (sound.own found).symm
  constructor
  · exact sound.once.erase n
  · intro m there
    obtain ⟨other, before⟩ := sound.once.mem_erase_iff.mp there
    have found := sound.recorded m before
    rw [setNode_of_ne other]
    change Function.update s.hostToFifoqueue (s.nodes n).host none (s.nodes m).host = some m
    rw [Function.update_of_ne]
    · exact found
    · intro same
      rw [same, here] at found
      exact other (Option.some.inj found).symm
  · intro host m there
    obtain ⟨found, other⟩ := kept there
    exact (sound.paced host m found).mono (Nat.le_refl _) (setNode_of_ne other) rfl rfl
  · intro m available
    by_cases same : m = n
    · subst same
      rw [setNode_self]
      exact ⟨empty, rfl⟩
    · rw [setNode_of_ne same] at available ⊢
      exact sound.free m available
  · exact sound.past
  · intro m begin reload turn
    rw [show s.turn = .fetching m begin reload from turn] at idle
    cases idle
  · exact sound.polite

/-- What was handed out before the node's next turn is no more than its round has had. -/
theorem Paced.recent_le (paced : s.Paced localipnum host n) (due : (s.nodes n).nexttime ≤ now) :
    (s.recent host (s.prescribed host) now : ℤ) ≤ (s.nodes n).retnum :=
  (Int.ofNat_le.mpr (recent_anti due)).trans paced.recent

/-- The node has turns left in its round. -/
theorem Sound.turnLeft (sound : s.Sound localipnum) (idle : s.turn = .idle) (mem : n ∈ s.hosts)
    (past : ∀ x ∈ s.handedOut, x.time ≤ now) (begun : now ≤ s.now)
    (due : (s.nodes n).nexttime ≤ now) (again : (s.nodes n).retnum + 1 ≤ localipnum) :
    ((s.setNode n { s.nodes n with retnum := (s.nodes n).retnum + 1 }).fetch n now).Sound
      localipnum := by
  have here := sound.recorded n mem
  have paced := sound.paced _ n here
  have few := paced.recent_le due
  have early := paced.recent
  apply Sound.fetch
  · apply sound.setNode here
    · constructor
      · exact paced.live
      · simpa using paced.used
      · simp
      · simpa using paced.queued
      · simpa using paced.interval
      · simp only [setNode_self, setNode_recent, setNode_prescribed]
        omega
      · rw [setNode_self]
        exact again.trans (le_max_right ..)
    · intro m begin reload turn
      rw [show s.turn = .fetching m begin reload from turn] at idle
      cases idle
  · constructor
    · simpa using here
    · exact past
    · exact begun
    · simp only [setNode_self, setNode_recent, setNode_prescribed]
      omega
    · simp only [setNode_self, setNode_recent, setNode_prescribed]
      split_ifs <;> omega

/-- Nothing is too recent once the interval of the node has passed. -/
theorem Sound.recent_rest (sound : s.Sound localipnum) (mem : n ∈ s.hosts)
    (past : ∀ x ∈ s.handedOut, x.time ≤ now) (le : now ≤ later) :
    s.recent (s.nodes n).host (s.prescribed (s.nodes n).host) (later + (s.nodes n).interval) = 0 := by
  have interval := (sound.paced _ n (sound.recorded n mem)).interval
  apply recent_eq_zero
  intro x seen _
  have := past x seen
  omega

/-- The round of a node is over, and it goes back into the heap. -/
theorem Sound.rested (sound : s.Sound localipnum) (idle : s.turn = .idle) (mem : n ∈ s.hosts)
    (past : ∀ x ∈ s.handedOut, x.time ≤ now) (le : now ≤ later) :
    ({ s with hosts := n :: s.hosts.erase n }.setNode n ((s.nodes n).rest later)).Sound
      localipnum := by
  have here := sound.recorded n mem
  have paced := sound.paced _ n here
  have closed := sound.recent_rest mem past le
  apply (sound.pushBack mem).setNode here
  · constructor
    · exact paced.live
    · rw [setNode_self]
      exact paced.used
    · rw [setNode_self]
      rfl
    · rw [setNode_self]
      exact paced.queued
    · rw [setNode_self]
      exact paced.interval
    · rw [setNode_self]
      exact (Int.ofNat_le.mpr closed.le)
    · rw [setNode_self]
      exact le_max_left ..
  · intro m begin reload turn
    rw [show s.turn = .fetching m begin reload from turn] at idle
    cases idle

theorem Sound.rest (sound : s.Sound localipnum) (idle : s.turn = .idle) (mem : n ∈ s.hosts)
    (past : ∀ x ∈ s.handedOut, x.time ≤ now) (begun : now ≤ s.now) (le : now ≤ later)
    (due : (s.nodes n).nexttime ≤ now) : (s.rest localipnum n now later).Sound localipnum := by
  unfold HostPace.rest
  simp only
  split_ifs with retired direct
  · apply sound.release idle mem
    change (s.nodes n).fifoqueue = []
    unfold PacedNode.rest at retired
    simp only at retired
    split_ifs at retired with empty
    · exact List.isEmpty_iff.mp empty
    · omega
  · -- The node is fetched from at once, so that its round has one turn.
    have here := sound.recorded n mem
    have paced := sound.paced _ n here
    have closed := sound.recent_rest mem past le
    have few := paced.recent_le due
    have low := paced.retnum
    have long := paced.interval
    apply (sound.rested idle mem past le).fetch
    constructor
    · rw [setNode_self]
      exact here
    · exact past
    · exact begun
    · rw [setNode_self]
      change (s.recent (s.nodes n).host (s.prescribed (s.nodes n).host) now : ℤ) + 1 ≤ _
      omega
    · rw [setNode_self]
      change (s.recent (s.nodes n).host (s.prescribed (s.nodes n).host)
        (later + (s.nodes n).interval) : ℤ) + (if later + (s.nodes n).interval <
          now + s.prescribed (s.nodes n).host then 1 else 0) ≤ 0
      rw [closed, if_neg (by omega)]
      rfl
  · exact sound.rested idle mem past le

theorem Sound.getNextHost (sound : s.Sound localipnum) (idle : s.turn = .idle)
    (past : ∀ x ∈ s.handedOut, x.time ≤ now) (begun : now ≤ s.now) (le : now ≤ later)
    (top : s.hosts = [] ∨ s.Top n) : (s.getNextHost localipnum n now later).Sound localipnum := by
  unfold HostPace.getNextHost
  simp only
  split_ifs with none due again
  · exact sound
  · exact sound.turnLeft idle (top.resolve_left none).1 past begun due again
  · exact sound.rest idle (top.resolve_left none).1 past begun le due
  · exact sound

/-- The windows that have the new hand-out have room for it. -/
theorem Polite.cons {y : HandOut} (polite : Polite localipnum s.handedOut)
    (room : (s.recent y.host y.interval y.time : ℤ) + 1 ≤ max 1 localipnum) :
    Polite localipnum (y :: s.handedOut) := by
  intro last before suffix a low high
  rcases List.suffix_cons_iff.mp suffix with same | older
  · cases same
    have few : (s.handedOut.countP fun x =>
        decide (x.host = y.host ∧ a ≤ x.time ∧ x.time < a + y.interval)) ≤
        s.recent y.host y.interval y.time := by
      apply List.countP_mono_left
      intro x _ inside
      simp only [decide_eq_true_eq] at inside ⊢
      exact ⟨inside.1, by omega⟩
    rw [List.countP_cons]
    split_ifs <;> omega
  · exact polite last before older a low high

@[simp] theorem handOut_self (s : HostPace) (n : HostIndex) (now : ℤ) (e : QueuedUrl)
    (fifoqueue : List QueuedUrl) :
    (s.handOut n now e fifoqueue).nodes n = { s.nodes n with fifoqueue } := Function.update_self ..

@[simp] theorem handOut_prescribed (s : HostPace) (n : HostIndex) (now : ℤ) (e : QueuedUrl)
    (fifoqueue : List QueuedUrl) : (s.handOut n now e fifoqueue).prescribed = s.prescribed := rfl

theorem handOut_of_ne {e : QueuedUrl} {fifoqueue : List QueuedUrl} (other : m ≠ n) :
    (s.handOut n now e fifoqueue).nodes m = s.nodes m := Function.update_of_ne other ..

/-- The URL that is handed out is too recent for its host, for as long as its interval. -/
theorem recent_handOut (s : HostPace) (n : HostIndex) (now : ℤ) (e : QueuedUrl)
    (fifoqueue : List QueuedUrl) (host : String) (interval time : ℤ) :
    (s.handOut n now e fifoqueue).recent host interval time =
      s.recent host interval time + if e.host = host ∧ time < now + interval then 1 else 0 := by
  unfold HostPace.recent HostPace.handOut
  rw [List.countP_cons]
  simp only [decide_eq_true_eq]

/-- The node that is fetched from hands out a URL. -/
theorem Sound.handOut {e : QueuedUrl} {fifoqueue : List QueuedUrl} (sound : s.Sound localipnum)
    (admits : s.Admits localipnum n now) (queue : (s.nodes n).fifoqueue = e :: fifoqueue) :
    (s.handOut n now e fifoqueue).Sound localipnum := by
  have here := admits.recorded
  have paced := sound.paced _ n here
  have own : e.host = (s.nodes n).host := paced.queued e (by rw [queue]; exact List.mem_cons_self)
  constructor
  · exact sound.once
  · intro m mem
    by_cases same : m = n
    · subst same
      rw [handOut_self]
      exact here
    · rw [handOut_of_ne same]
      exact sound.recorded m mem
  · intro host m there
    by_cases same : m = n
    · subst same
      obtain rfl := sound.own there
      constructor
      · exact paced.live
      · rw [handOut_self]
        exact paced.used
      · rw [handOut_self]
      · intro x mem
        rw [handOut_self] at mem
        exact paced.queued x (by rw [queue]; exact List.mem_cons_of_mem _ mem)
      · rw [handOut_self]
        exact paced.interval
      · rw [recent_handOut, own, handOut_self]
        simpa using admits.counted
      · rw [handOut_self]
        exact paced.retnum
    · have apart : (s.nodes n).host ≠ host := by
        rintro rfl
        exact same (Option.some.inj (there.symm.trans here))
      have before := sound.paced host m there
      constructor
      · exact before.live
      · rw [handOut_of_ne same]
        exact before.used
      · rw [handOut_of_ne same]
        exact before.named
      · rw [handOut_of_ne same]
        exact before.queued
      · rw [handOut_of_ne same]
        exact before.interval
      · rw [recent_handOut, own, handOut_of_ne same, if_neg fun both => apart both.1]
        exact before.recent
      · rw [handOut_of_ne same]
        exact before.retnum
  · intro m available
    by_cases same : m = n
    · subst same
      rw [handOut_self] at available
      exact absurd (paced.used.symm.trans available) Bool.false_ne_true
    · rw [handOut_of_ne same] at available ⊢
      exact sound.free m available
  · intro x mem
    rcases List.mem_cons.mp mem with rfl | mem
    · exact admits.begun
    · exact sound.past x mem
  · rintro m begin reload ⟨⟩
  · apply sound.polite.cons
    rw [own]
    exact admits.room

theorem Sound.popUrl {reload : Bool} (sound : s.Sound localipnum)
    (turn : s.turn = .fetching n now reload) : (s.popUrl n now).Sound localipnum := by
  unfold HostPace.popUrl
  split
  · constructor
    · exact sound.once
    · exact sound.recorded
    · exact fun host m here => (sound.paced host m here).mono (Nat.le_refl _) rfl rfl rfl
    · exact sound.free
    · exact sound.past
    · rintro m begin reload ⟨⟩
    · exact sound.polite
  · next e fifoqueue queue => exact sound.handOut (sound.admits n now reload turn) queue

theorem step_sound (sound : s.Sound localipnum) (meets : s.Meets e) (step : s.step localipnum e = some t) :
    t.Sound localipnum := by
  cases e with
  | insertUrl c now =>
      simp only [HostPace.step] at step
      split_ifs at step with begun
      cases step
      exact (sound.tick begun.1).insertUrl meets
  | getNextHost n now later =>
      simp only [HostPace.step] at step
      split_ifs at step with begun
      obtain ⟨after, le, idle, top⟩ := begun
      cases step
      exact (sound.tick (after.trans le)).getNextHost idle
        (fun x mem => (sound.past x mem).trans after) le le top
  | popUrl =>
      simp only [HostPace.step] at step
      split at step
      · cases step
      · next n now reload turn =>
          cases step
          exact sound.popUrl turn

/-- A run whose steps all meet the condition hands out no URL too soon. -/
theorem urls_paced (localipnum begin : ℤ) (events : List PaceEvent) (s : HostPace)
    (run : Run (Guarded Meets fun s e t => s.step localipnum e = some t) (start begin) events s) :
    Polite localipnum s.handedOut := by
  have sound : s.Sound localipnum := by
    apply run.invariant (start_sound begin)
    rintro t e u sound ⟨meets, step⟩
    exact step_sound sound meets step
  exact sound.polite

/-- One URL of a company without an interval has been handed out, and the queue was found empty so
often since. -/
structure Emptied (s : HostPace) (emptytimes : ℤ) : Prop where
  node : s.nodes 0 = ⟨"a", [], 2000, emptytimes, false, 0, 0⟩
  size : s.size = 1
  hostToFifoqueue : s.hostToFifoqueue = Function.update (fun _ => none) "a" (some 0)
  hosts : s.hosts = [0]
  turn : s.turn = .idle
  now : s.now = 2000
  handedOut : s.handedOut = [⟨2000, "a", 0⟩]

theorem emptied_zero : ∃ s events,
    Run (Guarded Meets fun s e t => s.step 0 e = some t) (start 0) events s ∧ s.Emptied 0 := by
  refine ⟨_, [.popUrl, .getNextHost 0 2000 2000,
    .insertUrl ⟨"u", "a", ⟨"", sourceTypeCompany, 0⟩, true, false⟩ 0],
    .snoc (.snoc (.snoc .nil ⟨?_, rfl⟩) ⟨trivial, rfl⟩) ⟨trivial, rfl⟩, ?_⟩
  · intro _
    constructor
    · intro n found
      cases found
    · intro x mem
      cases mem
  · constructor <;> rfl

/-- Without a localip, each round that finds the queue empty takes a `getUrl`. -/
theorem Emptied.round {emptytimes : ℤ} (emptied : s.Emptied emptytimes) (few : emptytimes < 100) :
    ∃ t events, Run (Guarded Meets fun s e t => s.step 0 e = some t) s events t ∧
      t.Emptied (emptytimes + 1) := by
  obtain ⟨node, size, map, hosts, turn, now, handedOut⟩ := emptied
  have late : ¬ 100 < emptytimes + 1 := by omega
  have first : s.step 0 (.getNextHost 0 2000 2000) = some
      (({ s with now := 2000, hosts := [0] }.setNode 0
        ⟨"a", [], 2000, emptytimes + 1, false, 0, 0⟩).fetch 0 2000) := by
    simp [step, HostPace.getNextHost, HostPace.rest, PacedNode.rest, Top, node, hosts, turn, now, late]
  have second : step 0 (({ s with now := 2000, hosts := [0] }.setNode 0
      ⟨"a", [], 2000, emptytimes + 1, false, 0, 0⟩).fetch 0 2000) .popUrl = some
      ({ s with now := 2000, hosts := [0], turn := .idle }.setNode 0
        ⟨"a", [], 2000, emptytimes + 1, false, 0, 0⟩) := by
    simp [step, HostPace.fetch, HostPace.popUrl, HostPace.setNode]
  refine ⟨_, [.popUrl, .getNextHost 0 2000 2000],
    .snoc (.snoc .nil ⟨trivial, first⟩) ⟨trivial, second⟩, ?_⟩
  exact ⟨setNode_self .., size, map, rfl, rfl, rfl, handedOut⟩

theorem emptied_hundred (k : ℕ) (le : k ≤ 100) : ∃ s events,
    Run (Guarded Meets fun s e t => s.step 0 e = some t) (start 0) events s ∧ s.Emptied k := by
  induction k with
  | zero => exact emptied_zero
  | succ k ih =>
      obtain ⟨s, events, run, emptied⟩ := ih (Nat.le_of_succ_le le)
      obtain ⟨t, more, rest, again⟩ := emptied.round (by omega)
      exact ⟨t, more ++ events, run.append rest, again⟩

/-- The node is given up, with the interval it had. -/
theorem Emptied.retired (emptied : s.Emptied 100) : s.step 0 (.getNextHost 0 2000 2000) = some
    ⟨Function.update s.nodes 0 ⟨"", [], 0, 0, true, 0, 0⟩, 1,
      Function.update (Function.update (fun _ => none) "a" (some 0)) "a" none, [], .idle, 2000,
      s.prescribed, [⟨2000, "a", 0⟩]⟩ := by
  obtain ⟨node, size, map, hosts, turn, now, handedOut⟩ := emptied
  simp [step, HostPace.getNextHost, HostPace.rest, PacedNode.rest, PacedNode.clear, HostPace.setNode,
    Top, node, size, map, hosts, turn, now, handedOut]

/-- A host whose node was given up gets it back with an interval, and its URLs keep to that. -/
theorem urls_paced_once : ∃ s : HostPace,
    s.handedOut = [⟨6000, "a", 2000⟩, ⟨4000, "a", 2000⟩, ⟨2000, "a", 0⟩] ∧ Polite 0 s.handedOut := by
  obtain ⟨s, events, run, emptied⟩ := emptied_hundred 100 (Nat.le_refl _)
  have retired := run.snoc (show Guarded Meets _ s (.getNextHost 0 2000 2000) _
    from ⟨trivial, emptied.retired⟩)
  have opened := retired.snoc (show Guarded Meets _ _
    (.insertUrl ⟨"u", "a", ⟨"", sourceTypeCompany, 2⟩, true, false⟩ 2000) _ from ⟨?_, rfl⟩)
  have queued := opened.snoc (show Guarded Meets _ _
    (.insertUrl ⟨"v", "a", ⟨"", sourceTypeCompany, 2⟩, true, false⟩ 2000) _ from ⟨?_, rfl⟩)
  have first := (queued.snoc (show Guarded Meets _ _ (.getNextHost 0 4000 4000) _
    from ⟨trivial, rfl⟩)).snoc (show Guarded Meets _ _ .popUrl _ from ⟨trivial, rfl⟩)
  have early := first.snoc (show Guarded Meets _ _ (.getNextHost 0 4001 4001) _ from ⟨trivial, rfl⟩)
  have second := (early.snoc (show Guarded Meets _ _ (.getNextHost 0 6000 6000) _
    from ⟨trivial, rfl⟩)).snoc (show Guarded Meets _ _ .popUrl _ from ⟨trivial, rfl⟩)
  · exact ⟨_, rfl, urls_paced 0 0 _ _ second⟩
  · intro unknown
    cases unknown
  · intro _
    constructor
    · intro n _ unset
      exact absurd unset (by decide)
    · intro x mem _
      rw [List.mem_singleton.mp mem]
      decide

/-- A host whose tasks set no interval gets the node: two URLs at once. -/
theorem Emptied.reused (emptied : s.Emptied 100) :
    ∃ t events, Run (fun s e t => s.step 0 e = some t) s events t ∧
      t.handedOut = [⟨4000, "b", 500⟩, ⟨4000, "b", 500⟩, ⟨2000, "a", 0⟩] := by
  refine ⟨_, [.popUrl, .getNextHost 0 4000 4000, .popUrl, .getNextHost 0 4000 4000,
    .insertUrl ⟨"v", "b", ⟨"", 0, 0⟩, true, false⟩ 2000,
    .insertUrl ⟨"u", "b", ⟨"", 0, 0⟩, true, false⟩ 2000, .getNextHost 0 2000 2000],
    .snoc (.snoc (.snoc (.snoc (.snoc (.snoc (.snoc .nil emptied.retired) rfl) rfl) rfl) rfl) rfl) rfl,
    rfl⟩

theorem not_urls_paced : ¬ ∀ (localipnum begin : ℤ) (events : List PaceEvent) (s : HostPace),
    Run (fun s e t => s.step localipnum e = some t) (start begin) events s →
    Polite localipnum s.handedOut := by
  intro paced
  obtain ⟨s, first, run, emptied⟩ := emptied_hundred 100 (Nat.le_refl _)
  obtain ⟨t, more, rest, handedOut⟩ := emptied.reused
  have before := run.mono fun _ _ _ guarded => guarded.2
  have polite := paced 0 0 (more ++ first) t (before.append rest)
  rw [handedOut] at polite
  have crowded := polite _ _ (List.suffix_refl _) 4000 (by decide) (by decide)
  revert crowded
  decide

end HostPace
end BloomServer
