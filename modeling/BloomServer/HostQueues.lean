import BloomServer.Library.KeyedWindow
import BloomServer.Library.LabelledRun
import BloomServer.TaskUrls

/-! `UrlAnalyseManager`: every host has a node with the queue of its URLs. The nodes are in a heap, by
the time of the next fetch, and are found by the name of the host in a map. A section under a lock is
one step. -/
namespace BloomServer
open LabelledRun KeyedWindow

structure QueuedUrl where
  host : String
  url : Url
  deriving DecidableEq

structure HostNode where
  host : String
  fifoqueue : List QueuedUrl
  nexttime : ℕ
  emptytimes : ℕ
  available : Bool
  interval : ℕ
  retnum : ℤ

/-- A URL with the interval that its task sets for the host, if it does. -/
structure HostCall where
  queued : QueuedUrl
  ispushback : Bool
  interval : Option ℕ

namespace HostNode

def new : HostNode := ⟨"", [], 0, 0, false, 500, 0⟩

def clear (node : HostNode) : HostNode :=
  { node with available := true, host := "", nexttime := 0, emptytimes := 0, retnum := 0 }

/-- A URL that is spilled goes to the database instead. -/
def pushUrl (node : HostNode) (c : HostCall) (spilled : Bool) : HostNode :=
  if spilled then node
  else if c.ispushback then { node with fifoqueue := node.fifoqueue ++ [c.queued] }
  else { node with fifoqueue := c.queued :: node.fifoqueue }

def pop (node : HostNode) : HostNode := { node with fifoqueue := node.fifoqueue.tail }

/-- What `insertUrl` sets besides the queue on a node that it has to itself. -/
def setUp (node : HostNode) (c : HostCall) (now : ℕ) : HostNode :=
  { node with
    host := c.queued.host
    nexttime := now + 2000
    interval := c.interval.getD node.interval }

/-- What `getNextHost` sets on the node that it has popped. -/
def rest (node : HostNode) (now : ℕ) : HostNode :=
  { node with
    nexttime := now + node.interval
    emptytimes := if node.fifoqueue.isEmpty then node.emptytimes + 1 else 0 }

end HostNode

/-- Where a caller is in `insertUrl` or `getNextHost`. -/
inductive HostPc
  | idle
  | find (c : HostCall)
  | findEmptyVector (c : HostCall)
  | newHost (c : HostCall)
  | pushUrl (c : HostCall) (n : HostIndex)
  | insertHost (n : HostIndex)
  | pushHost (n : HostIndex)
  | popped (n : HostIndex)

/-- The node that the caller has to itself. -/
def HostPc.holding : HostPc → Option HostIndex
  | .pushUrl _ n | .insertHost n | .pushHost n | .popped n => some n
  | .idle | .find _ | .findEmptyVector _ | .newHost _ => none

/-- The node of the map that the caller has yet to put into the heap. -/
def HostPc.returning : HostPc → Option HostIndex
  | .pushHost n | .popped n => some n
  | _ => none

/-- `hostsVector`, the map, the heap and the callers. -/
structure HostQueues (T : Type*) where
  nodes : HostIndex → HostNode
  size : ℕ
  hostToFifoqueue : String → Option HostIndex
  hosts : List HostIndex
  pc : T → HostPc

namespace HostQueues

variable {T : Type*} [DecidableEq T]

def start : HostQueues T := ⟨fun _ => .new, 0, fun _ => none, [], fun _ => .idle⟩

def goto (s : HostQueues T) (t : T) (pc : HostPc) : HostQueues T :=
  { s with pc := Function.update s.pc t pc }

def setNode (s : HostQueues T) (n : HostIndex) (node : HostNode) : HostQueues T :=
  { s with nodes := Function.update s.nodes n node }

def findEmptyVector (s : HostQueues T) : Option HostIndex :=
  (List.range s.size).find? fun n => (s.nodes n).available

/-- A node of the heap that is fetched from next. -/
def Top (s : HostQueues T) (n : HostIndex) : Prop :=
  n ∈ s.hosts ∧ ∀ m ∈ s.hosts, (s.nodes n).nexttime ≤ (s.nodes m).nexttime

/-- `std::map::insert`, which does not replace. -/
def insertHost (s : HostQueues T) (n : HostIndex) : HostQueues T :=
  let host := (s.nodes n).host
  if s.hostToFifoqueue host = none then
    { s with hostToFifoqueue := Function.update s.hostToFifoqueue host (some n) }
  else s

/-- `getNextHost` under the lock of the map: a node that has been empty too often is given up. -/
def rest (s : HostQueues T) (t : T) (n : HostIndex) (now : ℕ) : HostQueues T :=
  let node := (s.nodes n).rest now
  if 100 < node.emptytimes then
    ({ s with hostToFifoqueue := Function.update s.hostToFifoqueue node.host none }.setNode n
      node.clear).goto t .idle
  else (s.setNode n node).goto t (.pushHost n)

/-- What a caller sets on a node that nobody else has is set in its next section. The URLs have been
let in, and `popUrl` is what `getUrl` does with the node that it has been given. -/
inductive Step (localipnum : ℤ) : HostQueues T → T → HostQueues T → Prop
  | insertUrl {s t} (c : HostCall) (here : s.pc t = .idle) : Step localipnum s t (s.goto t (.find c))
  | found {s t c n} (spilled : Bool) (here : s.pc t = .find c)
      (there : s.hostToFifoqueue c.queued.host = some n) :
      Step localipnum s t ((s.setNode n ((s.nodes n).pushUrl c spilled)).goto t .idle)
  | missed {s t c} (here : s.pc t = .find c) (absent : s.hostToFifoqueue c.queued.host = none) :
      Step localipnum s t (s.goto t (.findEmptyVector c))
  | reuse {s t c n} (here : s.pc t = .findEmptyVector c) (empty : s.findEmptyVector = some n) :
      Step localipnum s t
        ((s.setNode n { s.nodes n with available := false }).goto t (.pushUrl c n))
  | full {s t c} (here : s.pc t = .findEmptyVector c) (none : s.findEmptyVector = none) :
      Step localipnum s t (s.goto t (.newHost c))
  | newHost {s t c} (here : s.pc t = .newHost c) :
      Step localipnum s t
        (({ s with size := s.size + 1 }.setNode s.size .new).goto t (.pushUrl c s.size))
  | pushUrl {s t c n} (spilled : Bool) (now : ℕ) (here : s.pc t = .pushUrl c n) :
      Step localipnum s t
        ((s.setNode n (((s.nodes n).pushUrl c spilled).setUp c now)).goto t (.insertHost n))
  | insertHost {s t n} (here : s.pc t = .insertHost n) :
      Step localipnum s t ((s.insertHost n).goto t (.pushHost n))
  | pushHost {s t n} (here : s.pc t = .pushHost n) :
      Step localipnum s t ({ s with hosts := n :: s.hosts }.goto t .idle)
  | returned {s t n} (now : ℕ) (here : s.pc t = .idle) (top : s.Top n)
      (due : (s.nodes n).nexttime ≤ now) (again : (s.nodes n).retnum + 1 ≤ localipnum) :
      Step localipnum s t (s.setNode n { s.nodes n with retnum := (s.nodes n).retnum + 1 })
  | popped {s t n} (now : ℕ) (here : s.pc t = .idle) (top : s.Top n)
      (due : (s.nodes n).nexttime ≤ now) (last : ¬ (s.nodes n).retnum + 1 ≤ localipnum) :
      Step localipnum s t
        (({ s with hosts := s.hosts.erase n }.setNode n { s.nodes n with retnum := 0 }).goto t
          (.popped n))
  | rest {s t n} (now : ℕ) (here : s.pc t = .popped n) : Step localipnum s t (s.rest t n now)
  | popUrl {s t} (n : HostIndex) (here : s.pc t = .idle) :
      Step localipnum s t (s.setNode n (s.nodes n).pop)

/-- A host has one node in the heap, the one in the map; its URLs are in the queue of that node, or of
one that a caller is about to enter into the map; and a node of the map is in the heap, or a caller
is about to put it there. -/
structure OnePerHost (s : HostQueues T) : Prop where
  once : s.hosts.Nodup
  single : ∀ n ∈ s.hosts, ∀ m ∈ s.hosts, (s.nodes n).host = (s.nodes m).host → n = m
  recorded : ∀ n ∈ s.hosts, s.hostToFifoqueue (s.nodes n).host = some n
  queued : ∀ n, ∀ e ∈ (s.nodes n).fifoqueue, s.hostToFifoqueue e.host = some n ∨
    (s.nodes n).host = e.host ∧ ∃ t, s.pc t = .insertHost n
  placed : ∀ host n, s.hostToFifoqueue host = some n →
    n ∈ s.hosts ∨ ∃ t, (s.pc t).returning = some n

/-- A node that is entered into the map is the first one of its host there. -/
def Unrecorded (s : HostQueues T) (t : T) : Prop :=
  ∀ n, s.pc t = .insertHost n → s.hostToFifoqueue (s.nodes n).host = none

/-- A node in use. -/
def Live (s : HostQueues T) (n : HostIndex) : Prop := n < s.size ∧ (s.nodes n).available = false

def holding (s : HostQueues T) (t : T) : Option HostIndex := (s.pc t).holding

/-- What is known of the node that a caller has. -/
def Fits (s : HostQueues T) : HostPc → Prop
  | .pushUrl _ n => s.Live n ∧ s.hostToFifoqueue (s.nodes n).host ≠ some n ∧ (s.nodes n).fifoqueue = []
  | .insertHost n => s.Live n ∧ s.hostToFifoqueue (s.nodes n).host ≠ some n
  | .pushHost n | .popped n => s.hostToFifoqueue (s.nodes n).host = some n
  | .idle | .find _ | .findEmptyVector _ | .newHost _ => True

/-- Every node in use is with one caller, or in the heap and in the map. -/
structure Sound (s : HostQueues T) : Prop where
  alone : Alone s.holding
  outside : Outside s.holding (· ∈ s.hosts)
  once : s.hosts.Nodup
  live : ∀ host n, s.hostToFifoqueue host = some n → s.Live n ∧ (s.nodes n).host = host
  recorded : ∀ n ∈ s.hosts, s.hostToFifoqueue (s.nodes n).host = some n
  fits : ∀ t, s.Fits (s.pc t)
  queued : ∀ n, ∀ e ∈ (s.nodes n).fifoqueue, e.host = (s.nodes n).host ∧
    (s.hostToFifoqueue (s.nodes n).host = some n ∨ ∃ t, s.pc t = .insertHost n)
  placed : ∀ host n, s.hostToFifoqueue host = some n →
    n ∈ s.hosts ∨ ∃ t, (s.pc t).returning = some n

variable {s s' : HostQueues T} {t u : T} {n m : HostIndex} {c : HostCall} {pc : HostPc}
  {node : HostNode}

@[simp] theorem goto_pc_self (s : HostQueues T) (t : T) (pc : HostPc) : (s.goto t pc).pc t = pc :=
  Function.update_self ..

/-- What holds of where every caller is, once one has moved. -/
theorem forall_goto {P : HostPc → Prop} (self : P pc) (others : ∀ u, u ≠ t → P (s.pc u)) (u : T) :
    P ((s.goto t pc).pc u) :=
  (Function.forall_update_iff s.pc fun _ pc => P pc).mpr ⟨self, others⟩ u

theorem exists_goto {P : HostPc → Prop} (self : P (s.pc t) → P pc) (some : ∃ u, P (s.pc u)) :
    ∃ u, P ((s.goto t pc).pc u) := by
  apply (Function.exists_update_iff s.pc fun _ pc => P pc).mpr
  obtain ⟨u, there⟩ := some
  by_cases same : u = t
  · subst same
    exact Or.inl (self there)
  · exact Or.inr ⟨u, same, there⟩

/-- A node that some other caller is about to enter into the map. -/
theorem entering_goto (out : s.pc t ≠ .insertHost n) (there : ∃ u, s.pc u = .insertHost n) :
    ∃ u, (s.goto t pc).pc u = .insertHost n :=
  exists_goto (P := fun pc => pc = .insertHost n) (fun here => absurd here out) there

/-- A node that some other caller is about to put into the heap. -/
theorem returning_goto (out : (s.pc t).returning ≠ some n)
    (there : ∃ u, (s.pc u).returning = some n) :
    ∃ u, ((s.goto t pc).pc u).returning = some n :=
  exists_goto (P := fun pc => pc.returning = some n) (fun here => absurd here out) there

theorem holding_goto (s : HostQueues T) (t : T) (pc : HostPc) :
    (s.goto t pc).holding = Function.update s.holding t pc.holding :=
  Function.comp_update HostPc.holding s.pc t pc

omit [DecidableEq T] in
@[simp] theorem setNode_self (s : HostQueues T) (n : HostIndex) (node : HostNode) :
    (s.setNode n node).nodes n = node := Function.update_self ..

omit [DecidableEq T] in
theorem setNode_of_ne (other : m ≠ n) : (s.setNode n node).nodes m = s.nodes m :=
  Function.update_of_ne other ..

theorem holding_of_returning (returning : pc.returning = some n) : pc.holding = some n := by
  cases pc <;> first | exact returning | cases returning

omit [DecidableEq T] in
theorem Fits.of_free (free : pc.holding = none) : s.Fits pc := by
  cases pc <;> trivial

omit [DecidableEq T] in
/-- What is known of a node depends on nothing but the node, and on whether it is in the map. -/
theorem Fits.mono (fits : s.Fits pc) (live : ∀ n, pc.holding = some n → s.Live n → s'.Live n)
    (host : ∀ n, pc.holding = some n → (s'.nodes n).host = (s.nodes n).host)
    (map : ∀ n, pc.holding = some n → (s'.hostToFifoqueue (s.nodes n).host = some n ↔
      s.hostToFifoqueue (s.nodes n).host = some n))
    (queue : ∀ n, pc.holding = some n → s.hostToFifoqueue (s.nodes n).host ≠ some n →
      (s.nodes n).fifoqueue = [] → (s'.nodes n).fifoqueue = []) : s'.Fits pc := by
  cases pc with
  | pushUrl c n =>
      refine ⟨live n rfl fits.1, ?_, queue n rfl fits.2.1 fits.2.2⟩
      rw [host n rfl]
      exact fun here => fits.2.1 ((map n rfl).mp here)
  | insertHost n =>
      refine ⟨live n rfl fits.1, ?_⟩
      rw [host n rfl]
      exact fun here => fits.2 ((map n rfl).mp here)
  | pushHost n | popped n =>
      have here := (map n rfl).mpr fits
      rw [← host n rfl] at here
      exact here
  | _ => trivial

omit [DecidableEq T] in
theorem Sound.start : Sound (start : HostQueues T) where
  alone := by
    intro t u n here
    cases here
  outside := by
    intro t n here
    cases here
  once := List.nodup_nil
  live := by
    intro host n here
    cases here
  recorded := by
    intro n mem
    cases mem
  fits := fun _ => trivial
  queued := by
    intro n e mem
    cases mem
  placed := by
    intro host n here
    cases here

omit [DecidableEq T] in
theorem Sound.onePerHost (sound : s.Sound) : s.OnePerHost where
  once := sound.once
  single := by
    intro n mem m mem' same
    have first := sound.recorded n mem
    rw [same, sound.recorded m mem'] at first
    exact (Option.some.inj first).symm
  recorded := sound.recorded
  queued := by
    intro n e mem
    obtain ⟨host, place⟩ := sound.queued n e mem
    rw [host]
    rcases place with here | there
    · exact Or.inl here
    · exact Or.inr ⟨rfl, there⟩
  placed := sound.placed

omit [DecidableEq T] in
/-- A node that is not in the map under its own name is not there at all. -/
theorem Sound.unrecorded (sound : s.Sound) (out : s.hostToFifoqueue (s.nodes n).host ≠ some n)
    (host : String) : s.hostToFifoqueue host ≠ some n := by
  intro here
  have same := (sound.live host n here).2
  rw [same] at out
  exact out here

omit [DecidableEq T] in
/-- The queue of a node that is not in use is empty. -/
theorem Sound.unused (sound : s.Sound) (out : ¬ s.Live n) : (s.nodes n).fifoqueue = [] := by
  apply List.eq_nil_iff_forall_not_mem.mpr
  intro e mem
  rcases (sound.queued n e mem).2 with here | ⟨t, there⟩
  · exact out (sound.live _ n here).1
  · have fits := sound.fits t
    rw [there] at fits
    exact out fits.1

omit [DecidableEq T] in
theorem Sound.live_of_holding (sound : s.Sound) (here : s.holding t = some n) : s.Live n := by
  have fits := sound.fits t
  unfold holding at here
  cases place : s.pc t with
  | pushUrl c m | insertHost m =>
      rw [place] at here fits
      cases here
      exact fits.1
  | pushHost m | popped m =>
      rw [place] at here fits
      cases here
      exact (sound.live _ n fits).1
  | _ =>
      rw [place] at here
      cases here

/-- A caller goes on with the node it has, or without one. -/
theorem Sound.goto_same (sound : s.Sound) (same : pc.holding = (s.pc t).holding) (fits : s.Fits pc)
    (build : ∀ n, s.pc t = .insertHost n → pc = .insertHost n)
    (back : ∀ n, (s.pc t).returning = some n → pc.returning = some n) : (s.goto t pc).Sound where
  alone := by
    rw [holding_goto, same]
    change Alone (Function.update s.holding t (s.holding t))
    rw [Function.update_eq_self]
    exact sound.alone
  outside := by
    rw [holding_goto, same]
    change Outside (Function.update s.holding t (s.holding t)) _
    rw [Function.update_eq_self]
    exact sound.outside
  once := sound.once
  live := sound.live
  recorded := sound.recorded
  fits := forall_goto (P := s.Fits) fits fun u _ => sound.fits u
  queued := by
    intro n e mem
    obtain ⟨host, place⟩ := sound.queued n e mem
    exact ⟨host, place.imp_right (exists_goto (P := fun pc => pc = .insertHost n) (build n))⟩
  placed := by
    intro host n here
    exact (sound.placed host n here).imp_right
      (exists_goto (P := fun pc => pc.returning = some n) (back n))

theorem Sound.goto_free (sound : s.Sound) (before : (s.pc t).holding = none)
    (after : pc.holding = none) : (s.goto t pc).Sound := by
  apply sound.goto_same (after.trans before.symm) (.of_free after)
  · intro n here
    rw [here] at before
    cases before
  · intro n here
    rw [holding_of_returning here] at before
    cases before

omit [DecidableEq T] in
/-- Changing a node in what does not matter here, and in its queue. -/
theorem Sound.setNode (sound : s.Sound) (host : node.host = (s.nodes n).host)
    (available : node.available = (s.nodes n).available)
    (queue : ∀ e ∈ node.fifoqueue, e ∈ (s.nodes n).fifoqueue ∨
      e.host = (s.nodes n).host ∧ s.hostToFifoqueue (s.nodes n).host = some n) :
    (s.setNode n node).Sound := by
  have hosts : ∀ m, ((s.setNode n node).nodes m).host = (s.nodes m).host := by
    intro m
    by_cases same : m = n
    · subst same
      rw [setNode_self]
      exact host
    · rw [setNode_of_ne same]
  have lives : ∀ m, s.Live m → (s.setNode n node).Live m := by
    rintro m ⟨inside, used⟩
    refine ⟨inside, ?_⟩
    by_cases same : m = n
    · subst same
      rw [setNode_self, available]
      exact used
    · rw [setNode_of_ne same]
      exact used
  refine ⟨sound.alone, sound.outside, sound.once, ?_, ?_, ?_, ?_, sound.placed⟩
  · intro name m here
    obtain ⟨live, same⟩ := sound.live name m here
    exact ⟨lives m live, (hosts m).trans same⟩
  · intro m mem
    rw [hosts]
    exact sound.recorded m mem
  · intro t
    refine (sound.fits t).mono (fun m _ => lives m) (fun m _ => hosts m) (fun _ _ => Iff.rfl) ?_
    intro m _ out blank
    by_cases same : m = n
    · subst same
      rw [setNode_self]
      apply List.eq_nil_iff_forall_not_mem.mpr
      intro e mem
      rcases queue e mem with old | ⟨-, recorded⟩
      · rw [blank] at old
        cases old
      · exact out recorded
    · rw [setNode_of_ne same]
      exact blank
  · intro m e mem
    rw [hosts]
    by_cases same : m = n
    · subst same
      rw [setNode_self] at mem
      rcases queue e mem with old | ⟨name, recorded⟩
      · exact sound.queued m e old
      · exact ⟨name, Or.inl recorded⟩
    · rw [setNode_of_ne same] at mem
      exact sound.queued m e mem

end HostQueues
end BloomServer
