import BloomServer.Library.KeyedWindow
import BloomServer.Library.LabelledRun
import Mathlib.Data.Finset.Erase
import Mathlib.Data.Finset.Insert
import Mathlib.Data.List.Nodup

/-! Callers of `insertUrl` for one running task, not forced: each looks its URL up in the set of the
task, enters it, and puts it into the queue of a host or, if that is long, into the database. A
section under `rwlock_taskother_urls` is one step. -/
namespace BloomServer
open LabelledRun KeyedWindow

abbrev Url := String

/-- A call, with what it finds out about the type of its URL. -/
structure UrlCall where
  url : Url
  listpage : Bool
  ispushback : Bool
  onlyMemory : Bool
  deriving DecidableEq

/-- The place of a host in `hostsVector`. -/
abbrev HostIndex := ℕ

/-- Where a caller is in its call. -/
inductive InsertPc
  | idle
  | alreadyfetched (c : UrlCall)
  | findurl (c : UrlCall)
  | inserttaskurl (c : UrlCall)
  | hostnode (c : UrlCall)                            -- about to choose a queue, and see how long it is
  | push (c : UrlCall) (host : HostIndex)
  | deletetaskurl (c : UrlCall) (host : HostIndex)
  | insertUnfetched (c : UrlCall) (host : HostIndex)
  deriving DecidableEq

/-- The URL that the caller has found to be new and not yet put anywhere. -/
def InsertPc.taken : InsertPc → Option Url
  | .idle | .alreadyfetched _ | .findurl _ => none
  | .inserttaskurl c | .hostnode c | .push c _ | .deletetaskurl c _ | .insertUnfetched c _ => some c.url

/-- The URL that the caller has entered into the set. -/
def InsertPc.entered : InsertPc → Option Url
  | .hostnode c | .push c _ => some c.url
  | _ => none

/-- The set of the task, its URLs in the queues and in the database, and the callers. -/
structure TaskQueue (T : Type*) where
  urls : Finset Url
  memory : List (HostIndex × Url)
  unfetched : List (HostIndex × Url)
  pc : T → InsertPc

namespace TaskQueue

variable {T : Type*} [DecidableEq T]

def start : TaskQueue T := ⟨∅, [], [], fun _ => .idle⟩

def goto (s : TaskQueue T) (t : T) (pc : InsertPc) : TaskQueue T :=
  { s with pc := Function.update s.pc t pc }

/-- `fifoqueue->urlnum` less the URLs of other tasks. -/
def urlnum (s : TaskQueue T) (host : HostIndex) : ℕ := s.memory.countP fun e => e.1 = host

/-- `HostNode::push_back` and `HostNode::push_front` write to the database if the queue is long and
the host has a number there. -/
def spills (s : TaskQueue T) (c : UrlCall) (host : HostIndex) (others : ℕ) (sqlite : Bool) : Bool :=
  decide (2000 < s.urlnum host + others) && !c.onlyMemory && sqlite

/-- The database says whether a URL has been fetched, whether there is a number for the host, and
whether it has taken a row; `others` are the URLs of other tasks in the queue. -/
inductive Step : TaskQueue T → T → TaskQueue T → Prop
  | call {s t} (c : UrlCall) (here : s.pc t = .idle) : Step s t (s.goto t (.alreadyfetched c))
  | alreadyfetched {s t c} (found : Bool) (here : s.pc t = .alreadyfetched c) :
      Step s t (s.goto t (if c.listpage && found then .idle else .findurl c))
  | findurl {s t c} (here : s.pc t = .findurl c) :
      Step s t (s.goto t (if c.url ∈ s.urls then .idle else .inserttaskurl c))
  | inserttaskurl {s t c} (here : s.pc t = .inserttaskurl c) :
      Step s t ({ s with urls := insert c.url s.urls }.goto t (.hostnode c))
  | hostnode {s t c} (host : HostIndex) (others : ℕ) (sqlite : Bool) (here : s.pc t = .hostnode c) :
      Step s t (s.goto t
        (if s.spills c host others sqlite then .deletetaskurl c host else .push c host))
  | deletetaskurl {s t c host} (here : s.pc t = .deletetaskurl c host) :
      Step s t ({ s with urls := s.urls.erase c.url }.goto t (.insertUnfetched c host))
  | insertUnfetched {s t c host} (stored : Bool) (here : s.pc t = .insertUnfetched c host) :
      Step s t ({ s with
        unfetched := if stored then s.unfetched ++ [(host, c.url)] else s.unfetched }.goto t .idle)
  | push {s t c host} (here : s.pc t = .push c host) :
      Step s t ({ s with
        memory := if c.ispushback then s.memory ++ [(host, c.url)] else (host, c.url) :: s.memory
        }.goto t .idle)

/-- The entries for URLs of the task, in memory or in the database. -/
def entries (s : TaskQueue T) : List Url := s.memory.map Prod.snd ++ s.unfetched.map Prod.snd

def Once (s : TaskQueue T) : Prop := ∀ url, s.entries.count url ≤ 1

def taken (s : TaskQueue T) (t : T) : Option Url := (s.pc t).taken

/-- A URL that is looked up and not found is not in the database, and no other caller has found it to
be new and not yet put it anywhere. -/
def Unraced (s : TaskQueue T) (t : T) : Prop :=
  ∀ c, s.pc t = .findurl c → c.url ∉ s.urls →
    c.url ∉ s.unfetched.map Prod.snd ∧ ∀ u, s.taken u ≠ some c.url

/-- The callers that have found a URL to be new are alone with it, and there is no entry for it. -/
structure Sound (s : TaskQueue T) : Prop where
  alone : Alone s.taken
  outside : Outside s.taken (· ∈ s.entries)
  once : s.entries.Nodup
  memory : ∀ e ∈ s.memory, e.2 ∈ s.urls
  entered : ∀ t url, (s.pc t).entered = some url → url ∈ s.urls

variable {s s' : TaskQueue T} {t u : T} {c : UrlCall} {url : Url} {pc : InsertPc}

theorem taken_goto (s : TaskQueue T) (t : T) (pc : InsertPc) :
    (s.goto t pc).taken = Function.update s.taken t pc.taken :=
  Function.comp_update InsertPc.taken s.pc t pc

theorem entered_goto (marked : ∀ url, pc.entered = some url → url ∈ s.urls)
    (entered : ∀ u url, u ≠ t → (s.pc u).entered = some url → url ∈ s.urls) :
    ∀ u url, ((s.goto t pc).pc u).entered = some url → url ∈ s.urls := by
  apply (Function.forall_update_iff s.pc
    fun _ pc => ∀ url, pc.entered = some url → url ∈ s.urls).mpr
  exact ⟨marked, fun u other url => entered u url other⟩

theorem taken_of_entered (entered : pc.entered = some url) : pc.taken = some url := by
  cases pc <;> first | exact entered | cases entered

omit [DecidableEq T] in
theorem Sound.start : Sound (start : TaskQueue T) where
  alone := by
    intro t u url here
    cases here
  outside := by
    intro t url here
    cases here
  once := List.nodup_nil
  memory := by
    intro e mem
    cases mem
  entered := by
    intro t url here
    cases here

omit [DecidableEq T] in
theorem Sound.exactlyOnce (sound : s.Sound) : s.Once := List.nodup_iff_count_le_one.mp sound.once

/-- A caller moves on with the URL it has, or none. -/
theorem Sound.goto_same (sound : s.Sound) (same : pc.taken = s.taken t)
    (marked : ∀ url, pc.entered = some url → url ∈ s.urls) : (s.goto t pc).Sound where
  alone := by
    rw [taken_goto, same, Function.update_eq_self]
    exact sound.alone
  outside := by
    rw [taken_goto, same, Function.update_eq_self]
    exact sound.outside
  once := sound.once
  memory := sound.memory
  entered := entered_goto marked fun u url _ => sound.entered u url

theorem Sound.goto_idle (sound : s.Sound) : (s.goto t .idle).Sound where
  alone := by
    rw [taken_goto]
    exact sound.alone.leave
  outside := by
    rw [taken_goto]
    exact sound.outside.leave
  once := sound.once
  memory := sound.memory
  entered := by
    apply entered_goto
    · intro url none
      cases none
    · intro u url _
      exact sound.entered u url

/-- Finding a URL to be new, without a race. -/
theorem Sound.take (sound : s.Sound) (free : ∀ u, s.taken u ≠ some c.url) (new : c.url ∉ s.urls)
    (unspilled : c.url ∉ s.unfetched.map Prod.snd) : (s.goto t (.inserttaskurl c)).Sound where
  alone := by
    rw [taken_goto]
    exact sound.alone.enter free
  outside := by
    rw [taken_goto]
    apply sound.outside.enter
    intro mem
    rcases List.mem_append.mp mem with here | there
    · obtain ⟨e, mem, same⟩ := List.mem_map.mp here
      apply new
      rw [← same]
      exact sound.memory e mem
    · exact unspilled there
  once := sound.once
  memory := sound.memory
  entered := by
    apply entered_goto
    · intro url none
      cases none
    · intro u url _
      exact sound.entered u url

omit [DecidableEq T] in
theorem Sound.insert (sound : s.Sound) (url : Url) :
    Sound { s with urls := Insert.insert url s.urls } where
  alone := sound.alone
  outside := sound.outside
  once := sound.once
  memory := fun e mem => Finset.mem_insert_of_mem (sound.memory e mem)
  entered := fun t url here => Finset.mem_insert_of_mem (sound.entered t url here)

omit [DecidableEq T] in
/-- A URL is deleted from the set by the caller that has it, and there is no entry for it. -/
theorem Sound.erase (sound : s.Sound) (here : s.taken t = some url)
    (out : (s.pc t).entered = none) : Sound { s with urls := s.urls.erase url } where
  alone := sound.alone
  outside := sound.outside
  once := sound.once
  memory := by
    intro e mem
    apply Finset.mem_erase.mpr
    refine ⟨?_, sound.memory e mem⟩
    rintro rfl
    exact sound.outside t _ here (List.mem_append_left _ (List.mem_map_of_mem mem))
  entered := by
    intro u url' there
    apply Finset.mem_erase.mpr
    refine ⟨?_, sound.entered u url' there⟩
    rintro rfl
    have same := sound.alone u t url' (taken_of_entered there) here
    rw [same, out] at there
    cases there

/-- A caller puts its URL somewhere and is done. -/
theorem Sound.store (sound : s.Sound) (here : s.taken t = some url)
    {memory unfetched : List (HostIndex × Url)}
    (more : (memory.map Prod.snd ++ unfetched.map Prod.snd).Perm (url :: s.entries))
    (known : ∀ e ∈ memory, e.2 ∈ s.urls) :
    ({ s with memory, unfetched }.goto t .idle).Sound where
  alone := by
    rw [taken_goto]
    exact sound.alone.leave
  outside := by
    rw [taken_goto]
    apply (sound.outside.leave.extend (sound.alone.free_after here)).mono
    intro url' mem
    exact List.mem_cons.mp (more.mem_iff.mp mem)
  once := by
    apply more.nodup_iff.mpr
    exact List.nodup_cons.mpr ⟨sound.outside t url here, sound.once⟩
  memory := known
  entered := by
    apply entered_goto (s := { s with memory, unfetched })
    · intro url none
      cases none
    · intro u url _
      exact sound.entered u url

theorem Sound.push (sound : s.Sound) {host : HostIndex} (here : s.pc t = .push c host) :
    ({ s with
      memory := if c.ispushback then s.memory ++ [(host, c.url)] else (host, c.url) :: s.memory
      }.goto t .idle).Sound := by
  have taken : s.taken t = some c.url := congrArg InsertPc.taken here
  have entered : c.url ∈ s.urls := sound.entered t c.url (by rw [here]; rfl)
  apply sound.store taken
  · split_ifs
    · rw [List.map_append, List.append_assoc]
      exact List.perm_middle
    · exact .refl _
  · intro e mem
    split_ifs at mem
    · rcases List.mem_append.mp mem with old | new
      · exact sound.memory e old
      · rw [List.mem_singleton.mp new]
        exact entered
    · rcases List.mem_cons.mp mem with rfl | old
      · exact entered
      · exact sound.memory e old

theorem Sound.spill (sound : s.Sound) {host : HostIndex}
    (here : s.pc t = .insertUnfetched c host) (stored : Bool) :
    ({ s with
      unfetched := if stored then s.unfetched ++ [(host, c.url)] else s.unfetched
      }.goto t .idle).Sound := by
  have taken : s.taken t = some c.url := congrArg InsertPc.taken here
  cases stored with
  | false => exact sound.goto_idle
  | true =>
      apply sound.store taken
      · rw [if_pos rfl, List.map_append, ← List.append_assoc]
        exact List.perm_append_singleton ..
      · exact sound.memory

theorem Sound.step (sound : s.Sound) (unraced : s.Unraced t) (step : Step s t s') : s'.Sound := by
  cases step with
  | call c here =>
      apply sound.goto_same
      · exact (congrArg InsertPc.taken here).symm
      · intro url none
        cases none
  | alreadyfetched found here =>
      split_ifs
      · exact sound.goto_idle
      · apply sound.goto_same
        · exact (congrArg InsertPc.taken here).symm
        · intro url none
          cases none
  | @findurl c here =>
      split_ifs with known
      · exact sound.goto_idle
      · obtain ⟨unspilled, free⟩ := unraced c here known
        exact sound.take free known unspilled
  | @inserttaskurl c here =>
      apply (sound.insert c.url).goto_same
      · exact (congrArg InsertPc.taken here).symm
      · intro url same
        cases same
        exact Finset.mem_insert_self ..
  | @hostnode c host others sqlite here =>
      have entered : c.url ∈ s.urls := sound.entered t c.url (by rw [here]; rfl)
      split_ifs
      · apply sound.goto_same
        · exact (congrArg InsertPc.taken here).symm
        · intro url none
          cases none
      · apply sound.goto_same
        · exact (congrArg InsertPc.taken here).symm
        · intro url same
          cases same
          exact entered
  | @deletetaskurl c host here =>
      have taken : s.taken t = some c.url := congrArg InsertPc.taken here
      have out : (s.pc t).entered = none := congrArg InsertPc.entered here
      apply (sound.erase taken out).goto_same
      · exact taken.symm
      · intro url none
        cases none
  | insertUnfetched stored here => exact sound.spill here stored
  | push here => exact sound.push here

end TaskQueue

/-- A URL of the task has one entry at most, as long as no lookup that does not find it comes while
another caller has it or it is in the database. -/
theorem urls_queued_once {T : Type*} [DecidableEq T] {l : List T} {s : TaskQueue T}
    (run : Run (Guarded TaskQueue.Unraced TaskQueue.Step) TaskQueue.start l s) : s.Once := by
  have sound : s.Sound := by
    apply run.invariant
    · exact .start
    · rintro s t s' sound ⟨unraced, step⟩
      exact sound.step unraced step
  exact sound.exactlyOnce

/-- One caller comes to its lookup after another one has entered the URL, and finds it. -/
theorem urls_queued_once_twice : ∃ s : TaskQueue (Fin 2),
    s.memory = [(0, "a")] ∧ s.pc 1 = .idle ∧ s.Once := by
  let c : UrlCall := ⟨"a", false, false, false⟩
  have call := TaskQueue.Step.call (s := TaskQueue.start) (t := (0 : Fin 2)) c rfl
  have r₁ := Run.single (R := Guarded TaskQueue.Unraced TaskQueue.Step)
    ⟨fun _ other => (by cases other), call⟩
  have r₂ := r₁.snoc ⟨fun _ other => (by cases other), .alreadyfetched (t := 0) (c := c) false rfl⟩
  have free : ∀ u : Fin 2, TaskQueue.taken
      ((TaskQueue.start.goto (0 : Fin 2) (.alreadyfetched c)).goto 0 (.findurl c)) u ≠ some "a" := by
    decide
  have r₃ := r₂.snoc ⟨fun _ here _ => (by cases here; exact ⟨List.not_mem_nil, free⟩),
    .findurl (t := 0) (c := c) rfl⟩
  have r₄ := r₃.snoc ⟨fun _ other => (by cases other), .inserttaskurl (t := 0) (c := c) rfl⟩
  have r₅ := r₄.snoc ⟨fun _ other => (by cases other), .call (t := 1) c rfl⟩
  have r₆ := r₅.snoc ⟨fun _ other => (by cases other), .alreadyfetched (t := 1) (c := c) false rfl⟩
  have r₇ := r₆.snoc ⟨fun _ here new => absurd (by cases here; decide) new,
    .findurl (t := 1) (c := c) rfl⟩
  have r₈ := r₇.snoc ⟨fun _ other => (by cases other),
    .hostnode (t := 0) (c := c) 0 0 false rfl⟩
  have r₉ := r₈.snoc ⟨fun _ other => (by cases other), .push (t := 0) (c := c) rfl⟩
  exact ⟨_, rfl, rfl, urls_queued_once r₉⟩

/-- Two callers look the same URL up before one of them enters it. -/
theorem urls_not_queued_once :
    ¬ ∀ (l : List (Fin 2)) (s : TaskQueue (Fin 2)), Run TaskQueue.Step TaskQueue.start l s → s.Once := by
  intro all
  let c : UrlCall := ⟨"a", false, false, false⟩
  have r₁ := Run.single (TaskQueue.Step.call (s := TaskQueue.start) (t := (0 : Fin 2)) c rfl)
  have r₂ := r₁.snoc (.call (t := 1) c rfl)
  have r₃ := r₂.snoc (.alreadyfetched (t := 0) (c := c) false rfl)
  have r₄ := r₃.snoc (.alreadyfetched (t := 1) (c := c) false rfl)
  have r₅ := r₄.snoc (.findurl (t := 0) (c := c) rfl)
  have r₆ := r₅.snoc (.findurl (t := 1) (c := c) rfl)
  have r₇ := r₆.snoc (.inserttaskurl (t := 0) (c := c) rfl)
  have r₈ := r₇.snoc (.inserttaskurl (t := 1) (c := c) rfl)
  have r₉ := r₈.snoc (.hostnode (t := 0) (c := c) 0 0 false rfl)
  have r₁₀ := r₉.snoc (.hostnode (t := 1) (c := c) 0 0 false rfl)
  have r₁₁ := r₁₀.snoc (.push (t := 0) (c := c) rfl)
  have r₁₂ := r₁₁.snoc (.push (t := 1) (c := c) rfl)
  have twice : 2 ≤ 1 := all _ _ r₁₂ "a"
  exact absurd twice (by decide)

end BloomServer
