import BloomServer.Library.LabelledRun
import BloomServer.PageCache
import BloomServer.TaskUrls

/-! `TaskScheduleManager`: how the `TaskOtherInfo` of a task enters `tasksothermap` and leaves it again,
section by section of the locks, with the thread that starts the tasks and any number of fetchers. -/
namespace BloomServer
open LabelledRun

/-- The members of a `TaskOtherInfo` that are used here. -/
structure TaskEntry where
  id : Int32
  running : Bool
  urlnum : ℤ
  alreadyused : Bool
  urls : Finset Url
  deriving DecidableEq

/-- The constructor. -/
def TaskEntry.new (id : Int32) : TaskEntry := ⟨id, false, 0, true, ∅⟩

/-- A pointer to a `TaskOtherInfo`. -/
abbrev EntryPtr := ℕ

inductive RetireThread
  | getTaskThread
  | fetcher (n : ℕ)
  deriving DecidableEq

/-- What a thread has to do next, in a call of `insertUrl`, `increaseTaskUrlNum` or
`decreaseTaskUrlNum`. -/
inductive UrlSection
  | idle
  | findurl (taskid : Int32) (url : Url) (forced : Bool) (taskother : EntryPtr)
  | inserttaskurl (taskid : Int32) (url : Url) (taskother : EntryPtr)
  | increaseTaskUrlNum (taskid : Int32)
  | increase (taskother : EntryPtr)
  | decrease (taskid : Int32) (taskother : EntryPtr)
  | poptaskother (taskid : Int32)
  | delete (taskother : EntryPtr)
  deriving DecidableEq

/-- Where `getTaskThread` is. -/
inductive TaskTurnAt
  | waiting
  | missing (taskid : Int32)
  | found (taskid : Int32) (taskother : EntryPtr)
  | skipping (taskother : EntryPtr)
  | inserting (taskid : Int32) (taskother : EntryPtr)
  deriving DecidableEq

structure RetireState where
  tasksothermap : Int32 → Option EntryPtr
  heap : EntryPtr → Option TaskEntry
  next : EntryPtr
  turn : TaskTurnAt
  sections : RetireThread → UrlSection

/-- What the threads do: a new iteration or call, or the next section of it. -/
inductive RetireEvent
  | getTaskOtherInfo (taskid : Int32)
  | putTaskOtherInfo
  | checkRunning (keeps : Bool)
  | insertHomePageUrl (url : Url) (forced alreadyfetched : Bool)
  | clearUsed
  | insertUrl (n : ℕ) (taskid : Int32) (url : Url) (forced alreadyfetched : Bool)
  | increaseTaskUrlNum (n : ℕ) (taskid : Int32)
  | decreaseTaskUrlNum (n : ℕ) (taskid : Int32)
  | advance (thread : RetireThread)
  deriving DecidableEq

namespace RetireState

def start : RetireState := ⟨fun _ => none, fun _ => none, 0, .waiting, fun _ => .idle⟩

def setEntry (s : RetireState) (taskother : EntryPtr) (entry : TaskEntry) : RetireState :=
  { s with heap := Function.update s.heap taskother (some entry) }

def setSection (s : RetireState) (thread : RetireThread) (sec : UrlSection) : RetireState :=
  { s with sections := Function.update s.sections thread sec }

def setTurn (s : RetireState) (turn : TaskTurnAt) : RetireState := { s with turn }

/-- `getTaskOtherInfo` with `needmutex`; an entry that is in use ends the iteration. -/
def getTaskOtherInfo (s : RetireState) (taskid : Int32) : Option RetireState :=
  match s.tasksothermap taskid with
  | none => some (s.setTurn (.missing taskid))
  | some taskother => do
      let entry ← s.heap taskother
      if entry.alreadyused then return s
      else
        return (s.setTurn (.found taskid taskother)).setEntry taskother { entry with alreadyused := true }

/-- A new entry, put into the map unless there is one, and started. -/
def putTaskOtherInfo (s : RetireState) (taskid : Int32) : RetireState :=
  { s with
    tasksothermap :=
      if s.tasksothermap taskid = none then Function.update s.tasksothermap taskid (some s.next)
      else s.tasksothermap
    heap := Function.update s.heap s.next (some { TaskEntry.new taskid with running := true })
    next := s.next + 1
    turn := .inserting taskid s.next }

/-- An entry that is not running is started. One that is may be left alone: `keeps`. -/
def checkRunning (s : RetireState) (keeps : Bool) (taskid : Int32) (taskother : EntryPtr) :
    Option RetireState := do
  let entry ← s.heap taskother
  if entry.running = false then
    return (s.setEntry taskother { entry with running := true }).setTurn (.inserting taskid taskother)
  else if keeps then return s.setTurn (.skipping taskother)
  else return s.setTurn (.inserting taskid taskother)

/-- `taskother->alreadyused = false`, the end of an iteration. -/
def clearUsed (s : RetireState) (taskother : EntryPtr) : Option RetireState := do
  let entry ← s.heap taskother
  return (s.setEntry taskother { entry with alreadyused := false }).setTurn .waiting

/-- The first section of `insertUrl`. A URL that has been fetched before is not let in. -/
def insertUrl (s : RetireState) (thread : RetireThread) (taskid : Int32) (url : Url)
    (forced alreadyfetched : Bool) : RetireState :=
  match s.tasksothermap taskid with
  | none => s.setSection thread (.increaseTaskUrlNum taskid)
  | some taskother =>
      if forced = false ∧ alreadyfetched = true then s
      else s.setSection thread (.findurl taskid url forced taskother)

/-- The lookup of `decreaseTaskUrlNum`. -/
def decreaseTaskUrlNum (s : RetireState) (thread : RetireThread) (taskid : Int32) : RetireState :=
  match s.tasksothermap taskid with
  | none => s
  | some taskother => s.setSection thread (.decrease taskid taskother)

/-- `poptaskother` with `needmutex`. -/
def poptaskother (s : RetireState) (thread : RetireThread) (taskid : Int32) : Option RetireState :=
  match s.tasksothermap taskid with
  | none => some (s.setSection thread .idle)
  | some taskother => do
      let entry ← s.heap taskother
      if entry.alreadyused then return s.setSection thread .idle
      else
        let s := s.setEntry taskother { entry with alreadyused := true }
        return { s with tasksothermap := Function.update s.tasksothermap taskid none }.setSection thread
          (.delete taskother)

/-- The next section of a call. Touching an entry that has been deleted is undefined. -/
def advance (s : RetireState) (thread : RetireThread) : Option RetireState :=
  match s.sections thread with
  | .idle => none
  | .findurl taskid url forced taskother => do
      let entry ← s.heap taskother
      if url ∈ entry.urls then
        return s.setSection thread (if forced then .increaseTaskUrlNum taskid else .idle)
      else return s.setSection thread (.inserttaskurl taskid url taskother)
  | .inserttaskurl taskid url taskother => do
      let entry ← s.heap taskother
      return (s.setEntry taskother { entry with urls := insert url entry.urls }).setSection thread
        (.increaseTaskUrlNum taskid)
  | .increaseTaskUrlNum taskid =>
      match s.tasksothermap taskid with
      | none => some (s.setSection thread .idle)
      | some taskother => some (s.setSection thread (.increase taskother))
  | .increase taskother => do
      let entry ← s.heap taskother
      let urlnum ← intSum entry.urlnum 1
      return (s.setEntry taskother { entry with urlnum }).setSection thread .idle
  | .decrease taskid taskother => do
      let entry ← s.heap taskother
      let urlnum ← intSum entry.urlnum (-1)
      return (s.setEntry taskother { entry with urlnum }).setSection thread
        (if urlnum = 0 then .poptaskother taskid else .idle)
  | .poptaskother taskid => s.poptaskother thread taskid
  | .delete taskother => do
      let _ ← s.heap taskother
      return { s with heap := Function.update s.heap taskother none }.setSection thread .idle

/-- A fetcher that is idle, and `getTaskThread` where it inserts home pages, may begin a call. -/
def step (s : RetireState) : RetireEvent → Option RetireState
  | .getTaskOtherInfo taskid => if s.turn = .waiting then s.getTaskOtherInfo taskid else none
  | .putTaskOtherInfo =>
      match s.turn with
      | .missing taskid => some (s.putTaskOtherInfo taskid)
      | _ => none
  | .checkRunning keeps =>
      match s.turn with
      | .found taskid taskother => s.checkRunning keeps taskid taskother
      | _ => none
  | .insertHomePageUrl url forced alreadyfetched =>
      match s.turn, s.sections .getTaskThread with
      | .inserting taskid _, .idle => some (s.insertUrl .getTaskThread taskid url forced alreadyfetched)
      | _, _ => none
  | .clearUsed =>
      match s.turn, s.sections .getTaskThread with
      | .skipping taskother, .idle | .inserting _ taskother, .idle => s.clearUsed taskother
      | _, _ => none
  | .insertUrl n taskid url forced alreadyfetched =>
      if s.sections (.fetcher n) = .idle then
        some (s.insertUrl (.fetcher n) taskid url forced alreadyfetched)
      else none
  | .increaseTaskUrlNum n taskid =>
      if s.sections (.fetcher n) = .idle then
        some (s.setSection (.fetcher n) (.increaseTaskUrlNum taskid))
      else none
  | .decreaseTaskUrlNum n taskid =>
      if s.sections (.fetcher n) = .idle then some (s.decreaseTaskUrlNum (.fetcher n) taskid) else none
  | .advance thread => s.advance thread

/-- None of the operations is in progress. -/
def Quiet (s : RetireState) : Prop := s.turn = .waiting ∧ ∀ thread, s.sections thread = .idle

/-- The entry of a task in the map. -/
def entry (s : RetireState) (taskid : Int32) : Option TaskEntry := (s.tasksothermap taskid).bind s.heap

/-- Between the operations only tasks with URLs to do have an entry, and any other task starts with a
new one. -/
def Retires (s : RetireState) : Prop :=
  s.Quiet →
    (∀ taskid taskother, s.tasksothermap taskid = some taskother →
      ∃ entry, s.heap taskother = some entry ∧ 0 < entry.urlnum) ∧
    ∀ taskid, (∀ entry, s.entry taskid = some entry → ¬ 0 < entry.urlnum) →
      ∃ s₁ s₂, s.step (.getTaskOtherInfo taskid) = some s₁ ∧ s₁.step .putTaskOtherInfo = some s₂ ∧
        s₂.entry taskid = some { TaskEntry.new taskid with running := true }

/-- A thread is about to remove the entry of the task, or to count a URL in it. -/
def Pending (s : RetireState) (taskid : Int32) (taskother : EntryPtr) : Prop :=
  (∃ thread, s.sections thread = .poptaskother taskid) ∨ ∃ thread, s.sections thread = .increase taskother

/-- What a step has to meet: a URL that is counted down has been counted, and an entry of the map that
is given up counts a URL, or someone is about to count one or to remove it. -/
def Meets (s : RetireState) : RetireEvent → Prop
  | .clearUsed => ∀ taskid taskother entry, s.turn = .skipping taskother ∨
      s.turn = .inserting taskid taskother → s.heap taskother = some entry →
      s.tasksothermap entry.id = some taskother → 0 < entry.urlnum ∨ s.Pending entry.id taskother
  | .advance thread => ∀ taskid taskother entry, s.sections thread = .decrease taskid taskother →
      s.heap taskother = some entry → 0 < entry.urlnum
  | _ => True

/-- `getTaskThread` works on this entry. -/
def Holding (s : RetireState) (taskother : EntryPtr) : Prop :=
  (∃ taskid, s.turn = .found taskid taskother) ∨ s.turn = .skipping taskother ∨
    ∃ taskid, s.turn = .inserting taskid taskother

/-- What a thread knows about the entry that it is about to count down or to delete. -/
def Fits (s : RetireState) : UrlSection → Prop
  | .decrease taskid taskother =>
      taskother < s.next ∧ ∀ entry, s.heap taskother = some entry → entry.id = taskid
  | .delete taskother => taskother < s.next ∧ ∀ taskid, s.tasksothermap taskid ≠ some taskother
  | _ => True

/-- The map has live entries under their own ids, which are in use only by `getTaskThread`; one that
is not in use counts a URL or is about to change. -/
structure Sound (s : RetireState) : Prop where
  live : ∀ taskid taskother, s.tasksothermap taskid = some taskother →
    ∃ entry, s.heap taskother = some entry ∧ entry.id = taskid
  fresh : ∀ taskother, s.next ≤ taskother → s.heap taskother = none
  used : ∀ taskid taskother entry, s.tasksothermap taskid = some taskother →
    s.heap taskother = some entry → entry.alreadyused = true → s.Holding taskother
  counted : ∀ taskid taskother entry, s.tasksothermap taskid = some taskother →
    s.heap taskother = some entry → 0 ≤ entry.urlnum
  covered : ∀ taskid taskother entry, s.tasksothermap taskid = some taskother →
    s.heap taskother = some entry → entry.alreadyused = false →
    0 < entry.urlnum ∨ s.Pending taskid taskother
  fits : ∀ thread, s.Fits (s.sections thread)

variable {s t : RetireState} {thread : RetireThread} {sec : UrlSection} {taskid : Int32}
  {taskother : EntryPtr} {entry entry' : TaskEntry} {turn : TaskTurnAt}

theorem setEntry_heap_self (s : RetireState) (taskother : EntryPtr) (entry : TaskEntry) :
    (s.setEntry taskother entry).heap taskother = some entry := Function.update_self ..

theorem start_sound : start.Sound := by
  constructor <;> simp [start, Fits]

/-- That does not change while entries keep their ids and do not come back. -/
theorem Fits.mono (fits : s.Fits sec) (next : s.next ≤ t.next)
    (heap : ∀ taskother < s.next, ∀ entry, t.heap taskother = some entry →
      ∃ before, s.heap taskother = some before ∧ before.id = entry.id)
    (map : ∀ taskother < s.next, ∀ taskid, t.tasksothermap taskid = some taskother →
      s.tasksothermap taskid = some taskother) : t.Fits sec := by
  cases sec with
  | decrease taskid taskother =>
      obtain ⟨early, looked⟩ := fits
      refine ⟨Nat.lt_of_lt_of_le early next, ?_⟩
      intro entry held
      obtain ⟨before, was, id⟩ := heap taskother early entry held
      exact id.symm.trans (looked before was)
  | delete taskother =>
      obtain ⟨early, gone⟩ := fits
      exact ⟨Nat.lt_of_lt_of_le early next, fun taskid here => gone taskid (map taskother early taskid here)⟩
  | _ => exact trivial

theorem Sound.lt_next (sound : s.Sound) (held : s.heap taskother = some entry) : taskother < s.next := by
  by_contra late
  rw [sound.fresh taskother (Nat.le_of_not_lt late)] at held
  cases held

/-- A thread goes on, and what it was about to do for an entry is not needed or done otherwise. -/
theorem Sound.setSection (sound : s.Sound) (fits : s.Fits sec)
    (covered : ∀ taskid taskother entry, s.tasksothermap taskid = some taskother →
      s.heap taskother = some entry → entry.alreadyused = false → entry.urlnum = 0 →
      s.sections thread = .poptaskother taskid ∨ s.sections thread = .increase taskother →
      (s.setSection thread sec).Pending taskid taskother) :
    (s.setSection thread sec).Sound where
  live := sound.live
  fresh := sound.fresh
  used := sound.used
  counted := sound.counted
  covered := by
    intro taskid taskother entry here held free
    by_cases positive : 0 < entry.urlnum
    · exact Or.inl positive
    · right
      have low := sound.counted taskid taskother entry here held
      by_cases own : s.sections thread = .poptaskother taskid ∨ s.sections thread = .increase taskother
      · exact covered taskid taskother entry here held free (by omega) own
      · rcases (sound.covered taskid taskother entry here held free).resolve_left positive with
          ⟨other, pops⟩ | ⟨other, counts⟩
        · have apart : other ≠ thread := by
            rintro rfl
            exact own (Or.inl pops)
          exact Or.inl ⟨other, by rw [← pops]; exact Function.update_of_ne apart _ _⟩
        · have apart : other ≠ thread := by
            rintro rfl
            exact own (Or.inr counts)
          exact Or.inr ⟨other, by rw [← counts]; exact Function.update_of_ne apart _ _⟩
  fits := by
    intro other
    change s.Fits (Function.update s.sections thread sec other)
    by_cases same : other = thread
    · rwa [same, Function.update_self]
    · rw [Function.update_of_ne same]
      exact sound.fits other

/-- An entry changes. -/
theorem Sound.setEntry (sound : s.Sound) (held : s.heap taskother = some entry)
    (id : entry'.id = entry.id)
    (used : s.tasksothermap entry.id = some taskother → entry'.alreadyused = true → s.Holding taskother)
    (counted : s.tasksothermap entry.id = some taskother → 0 ≤ entry'.urlnum)
    (covered : s.tasksothermap entry.id = some taskother → entry'.alreadyused = false →
      0 < entry'.urlnum ∨ s.Pending entry.id taskother) :
    (s.setEntry taskother entry').Sound := by
  have own : ∀ taskid, s.tasksothermap taskid = some taskother → taskid = entry.id := by
    intro taskid here
    obtain ⟨e, found, same⟩ := sound.live taskid taskother here
    rw [held] at found
    cases found
    exact same.symm
  have read (other : EntryPtr) : (s.setEntry taskother entry').heap other =
      if other = taskother then some entry' else s.heap other := by
    simp only [RetireState.setEntry, Function.update_apply]
  constructor
  · intro taskid other here
    rw [read]
    split_ifs with same
    · subst same
      exact ⟨entry', rfl, id.trans (own taskid here).symm⟩
    · exact sound.live taskid other here
  · intro other late
    rw [read, if_neg]
    · exact sound.fresh other late
    · rintro rfl
      rw [sound.fresh other late] at held
      cases held
  · intro taskid other e here found flag
    rw [read] at found
    split_ifs at found with same
    · subst same
      cases found
      obtain rfl := own taskid here
      exact used here flag
    · exact sound.used taskid other e here found flag
  · intro taskid other e here found
    rw [read] at found
    split_ifs at found with same
    · subst same
      cases found
      obtain rfl := own taskid here
      exact counted here
    · exact sound.counted taskid other e here found
  · intro taskid other e here found free
    rw [read] at found
    split_ifs at found with same
    · subst same
      cases found
      obtain rfl := own taskid here
      exact covered here free
    · exact sound.covered taskid other e here found free
  · intro thread
    refine (sound.fits thread).mono ?_ ?_ ?_
    · exact Nat.le_refl _
    · intro other _ e found
      rw [read] at found
      split_ifs at found with same
      · subst same
        cases found
        exact ⟨entry, held, id.symm⟩
      · exact ⟨e, found, rfl⟩
    · exact fun _ _ _ here => here

/-- `getTaskThread` goes on; it keeps the entries of the map that are in use. -/
theorem Sound.setTurn (sound : s.Sound)
    (used : ∀ taskid taskother entry, s.tasksothermap taskid = some taskother →
      s.heap taskother = some entry → entry.alreadyused = true → (s.setTurn turn).Holding taskother) :
    (s.setTurn turn).Sound :=
  ⟨sound.live, sound.fresh, used, sound.counted, sound.covered, sound.fits⟩

/-! ### The thread that starts the tasks -/

theorem Holding.of_turn {other : EntryPtr} (holding : s.Holding other)
    (turn : s.turn = .skipping taskother ∨ s.turn = .inserting taskid taskother ∨
      s.turn = .found taskid taskother) : other = taskother := by
  rcases holding with ⟨_, at'⟩ | at' | ⟨_, at'⟩ <;> rcases turn with turn | turn | turn <;>
    rw [at'] at turn <;> cases turn <;> rfl

theorem Sound.getTaskOtherInfo (sound : s.Sound) (waits : s.turn = .waiting)
    (step : s.getTaskOtherInfo taskid = some t) : t.Sound := by
  have idle : ∀ taskid taskother entry, s.tasksothermap taskid = some taskother →
      s.heap taskother = some entry → entry.alreadyused ≠ true := by
    intro taskid taskother entry here held flag
    rcases sound.used taskid taskother entry here held flag with ⟨_, at'⟩ | at' | ⟨_, at'⟩ <;>
      rw [waits] at at' <;> cases at'
  unfold RetireState.getTaskOtherInfo at step
  cases here : s.tasksothermap taskid with
  | none =>
      rw [here] at step
      cases step
      exact sound.setTurn fun taskid taskother entry here held flag =>
        absurd flag (idle taskid taskother entry here held)
  | some taskother =>
      rw [here] at step
      obtain ⟨entry, held, step⟩ := Option.bind_eq_some_iff.mp step
      rw [if_neg (idle taskid taskother entry here held)] at step
      cases step
      have turned : (s.setTurn (.found taskid taskother)).Sound :=
        sound.setTurn fun taskid taskother entry here held flag =>
          absurd flag (idle taskid taskother entry here held)
      refine turned.setEntry held ?_ ?_ ?_ ?_
      · rfl
      · intro _ _
        exact Or.inl ⟨taskid, rfl⟩
      · exact fun here => sound.counted entry.id taskother entry here held
      · intro _ free
        cases free

theorem Sound.putTaskOtherInfo (sound : s.Sound) (missing : s.turn = .missing taskid) :
    (s.putTaskOtherInfo taskid).Sound := by
  have absent : s.heap s.next = none := sound.fresh s.next (Nat.le_refl _)
  have older : ∀ taskid taskother, s.tasksothermap taskid = some taskother → taskother ≠ s.next := by
    rintro other taskother here rfl
    obtain ⟨_, held, _⟩ := sound.live other _ here
    rw [absent] at held
    cases held
  have unused : ∀ taskid taskother entry, s.tasksothermap taskid = some taskother →
      s.heap taskother = some entry → entry.alreadyused ≠ true := by
    intro other taskother entry here held flag
    rcases sound.used other taskother entry here held flag with ⟨_, at'⟩ | at' | ⟨_, at'⟩ <;>
      rw [missing] at at' <;> cases at'
  -- what is in the map afterwards was there before, or is the new entry
  have split : ∀ other taskother, (s.putTaskOtherInfo taskid).tasksothermap other = some taskother →
      (s.tasksothermap other = some taskother ∧ taskother ≠ s.next) ∨
        (other = taskid ∧ taskother = s.next) := by
    intro other taskother here
    simp only [RetireState.putTaskOtherInfo] at here
    split_ifs at here
    · by_cases same : other = taskid
      · rw [same, Function.update_self] at here
        exact Or.inr ⟨same, (Option.some.inj here).symm⟩
      · rw [Function.update_of_ne same] at here
        exact Or.inl ⟨here, older other taskother here⟩
    · exact Or.inl ⟨here, older other taskother here⟩
  have old : ∀ taskother, taskother ≠ s.next →
      (s.putTaskOtherInfo taskid).heap taskother = s.heap taskother :=
    fun taskother other => Function.update_of_ne other _ _
  have new : (s.putTaskOtherInfo taskid).heap s.next =
      some { TaskEntry.new taskid with running := true } := Function.update_self ..
  constructor
  · intro other taskother here
    rcases split other taskother here with ⟨before, apart⟩ | ⟨rfl, rfl⟩
    · rw [old taskother apart]
      exact sound.live other taskother before
    · exact ⟨_, new, rfl⟩
  · intro taskother late
    rw [old taskother (Nat.ne_of_gt late)]
    exact sound.fresh taskother (Nat.le_of_succ_le late)
  · intro other taskother entry here held flag
    rcases split other taskother here with ⟨before, apart⟩ | ⟨rfl, rfl⟩
    · rw [old taskother apart] at held
      exact absurd flag (unused other taskother entry before held)
    · exact Or.inr (Or.inr ⟨_, rfl⟩)
  · intro other taskother entry here held
    rcases split other taskother here with ⟨before, apart⟩ | ⟨rfl, rfl⟩
    · rw [old taskother apart] at held
      exact sound.counted other taskother entry before held
    · rw [new] at held
      cases held
      exact Int.le_refl _
  · intro other taskother entry here held free
    rcases split other taskother here with ⟨before, apart⟩ | ⟨rfl, rfl⟩
    · rw [old taskother apart] at held
      exact sound.covered other taskother entry before held free
    · rw [new] at held
      cases held
      cases free
  · intro thread
    refine (sound.fits thread).mono ?_ ?_ ?_
    · exact Nat.le_succ _
    · intro taskother early entry held
      rw [old taskother (Nat.ne_of_lt early)] at held
      exact ⟨entry, held, rfl⟩
    · intro taskother early other here
      rcases split other taskother here with ⟨there, -⟩ | ⟨-, rfl⟩
      · exact there
      · exact absurd early (Nat.lt_irrefl _)

theorem Sound.checkRunning {keeps : Bool} (sound : s.Sound) (found : s.turn = .found taskid taskother)
    (step : s.checkRunning keeps taskid taskother = some t) : t.Sound := by
  obtain ⟨entry, held, step⟩ := Option.bind_eq_some_iff.mp step
  have turned (u : RetireState) (turn : u.turn = s.turn) (sound : u.Sound) (next : TaskTurnAt)
      (keeps : next = .skipping taskother ∨ next = .inserting taskid taskother) :
      (u.setTurn next).Sound := by
    apply sound.setTurn
    intro other ptr e here found' flag
    obtain rfl := (sound.used other ptr e here found' flag).of_turn
      (Or.inr (Or.inr (turn.trans found)))
    rcases keeps with rfl | rfl
    · exact Or.inr (Or.inl rfl)
    · exact Or.inr (Or.inr ⟨_, rfl⟩)
  split_ifs at step
  · cases step
    have started : (s.setEntry taskother { entry with running := true }).Sound := by
      refine sound.setEntry held ?_ ?_ ?_ ?_
      · rfl
      · exact fun _ _ => Or.inl ⟨taskid, found⟩
      · exact fun here => sound.counted entry.id taskother entry here held
      · exact fun here free => sound.covered entry.id taskother entry here held free
    exact turned (s.setEntry taskother { entry with running := true }) rfl started _ (Or.inr rfl)
  · cases step
    exact turned s rfl sound _ (Or.inl rfl)
  · cases step
    exact turned s rfl sound _ (Or.inr rfl)

theorem Sound.clearUsed (sound : s.Sound)
    (at' : s.turn = .skipping taskother ∨ s.turn = .inserting taskid taskother)
    (meets : ∀ entry, s.heap taskother = some entry → s.tasksothermap entry.id = some taskother →
      0 < entry.urlnum ∨ s.Pending entry.id taskother)
    (step : s.clearUsed taskother = some t) : t.Sound := by
  obtain ⟨entry, held, step⟩ := Option.bind_eq_some_iff.mp step
  cases step
  have cleared : (s.setEntry taskother { entry with alreadyused := false }).Sound := by
    refine sound.setEntry held ?_ ?_ ?_ ?_
    · rfl
    · intro _ flag
      cases flag
    · exact fun here => sound.counted entry.id taskother entry here held
    · exact fun here _ => meets entry held here
  apply cleared.setTurn
  intro other ptr e here found flag
  have same := (cleared.used other ptr e here found flag).of_turn
    (at'.imp_right Or.inl)
  subst same
  rw [setEntry_heap_self] at found
  cases found
  cases flag

/-! ### Calls -/

/-- A thread that is not about to remove an entry or to count a URL goes on. -/
theorem Sound.goOn (sound : s.Sound) (fits : s.Fits sec)
    (pops : ∀ taskid, s.sections thread ≠ .poptaskother taskid)
    (counts : ∀ taskother, s.sections thread ≠ .increase taskother) :
    (s.setSection thread sec).Sound := by
  apply sound.setSection fits
  intro taskid taskother _ _ _ _ _ own
  exact own.elim (fun same => absurd same (pops taskid)) fun same => absurd same (counts taskother)

/-- Entries leave the map or are deleted; the others stay as they are. -/
theorem Sound.shrink (sound : s.Sound)
    (rest : ∀ taskid taskother, t.tasksothermap taskid = some taskother →
      s.tasksothermap taskid = some taskother ∧ t.heap taskother = s.heap taskother)
    (fresh : ∀ taskother, t.next ≤ taskother → t.heap taskother = none) (turn : t.turn = s.turn)
    (pending : ∀ taskid taskother, t.tasksothermap taskid = some taskother →
      s.Pending taskid taskother → t.Pending taskid taskother)
    (fits : ∀ thread, t.Fits (t.sections thread)) : t.Sound where
  live := by
    intro taskid taskother here
    obtain ⟨before, same⟩ := rest taskid taskother here
    rw [same]
    exact sound.live taskid taskother before
  fresh := fresh
  used := by
    intro taskid taskother entry here held flag
    obtain ⟨before, same⟩ := rest taskid taskother here
    rw [same] at held
    have holding := sound.used taskid taskother entry before held flag
    unfold Holding at holding ⊢
    rwa [turn]
  counted := by
    intro taskid taskother entry here held
    obtain ⟨before, same⟩ := rest taskid taskother here
    rw [same] at held
    exact sound.counted taskid taskother entry before held
  covered := by
    intro taskid taskother entry here held free
    obtain ⟨before, same⟩ := rest taskid taskother here
    rw [same] at held
    exact (sound.covered taskid taskother entry before held free).imp_right
      (pending taskid taskother here)
  fits := fits

theorem setSection_of_ne {other : RetireThread} (apart : other ≠ thread) :
    (s.setSection thread sec).sections other = s.sections other := Function.update_of_ne apart _ _

theorem Sound.insertUrl {url : Url} {forced alreadyfetched : Bool} (sound : s.Sound)
    (idle : s.sections thread = .idle) :
    (s.insertUrl thread taskid url forced alreadyfetched).Sound := by
  have goes (sec : UrlSection) (fits : s.Fits sec) : (s.setSection thread sec).Sound :=
    sound.goOn fits (fun _ same => by rw [idle] at same; cases same)
      fun _ same => by rw [idle] at same; cases same
  unfold RetireState.insertUrl
  split
  · exact goes _ trivial
  · split_ifs
    · exact sound
    · exact goes _ trivial

theorem Sound.decreaseTaskUrlNum (sound : s.Sound) (idle : s.sections thread = .idle) :
    (s.decreaseTaskUrlNum thread taskid).Sound := by
  unfold RetireState.decreaseTaskUrlNum
  split
  · exact sound
  · rename_i taskother here
    obtain ⟨entry, held, id⟩ := sound.live taskid taskother here
    have fits : s.Fits (.decrease taskid taskother) :=
      ⟨sound.lt_next held, fun e found => by rw [held] at found; cases found; exact id⟩
    exact sound.goOn fits (fun _ same => by rw [idle] at same; cases same)
      fun _ same => by rw [idle] at same; cases same

theorem Sound.poptaskother (sound : s.Sound) (at' : s.sections thread = .poptaskother taskid)
    (step : s.poptaskother thread taskid = some t) : t.Sound := by
  unfold RetireState.poptaskother at step
  cases here : s.tasksothermap taskid with
  | none =>
      rw [here] at step
      cases step
      refine sound.setSection trivial ?_
      intro other taskother _ there _ _ _ own
      rw [at'] at own
      rcases own with same | same <;> cases same
      rw [here] at there
      cases there
  | some taskother =>
      rw [here] at step
      obtain ⟨entry, held, step⟩ := Option.bind_eq_some_iff.mp step
      split_ifs at step with flag
      · -- the entry is in use, and stays
        cases step
        refine sound.setSection trivial ?_
        intro other ptr e there found free _ own
        rw [at'] at own
        rcases own with same | same <;> cases same
        rw [here] at there
        cases there
        rw [held] at found
        cases found
        rw [flag] at free
        cases free
      · cases step
        have older := sound.lt_next held
        have others : ∀ other ptr, Function.update s.tasksothermap taskid none other = some ptr →
            other ≠ taskid ∧ s.tasksothermap other = some ptr ∧ ptr ≠ taskother := by
          intro other ptr there
          by_cases same : other = taskid
          · rw [same, Function.update_self] at there
            cases there
          · rw [Function.update_of_ne same] at there
            refine ⟨same, there, ?_⟩
            rintro rfl
            obtain ⟨e, one, id⟩ := sound.live other ptr there
            obtain ⟨e', two, id'⟩ := sound.live taskid ptr here
            rw [one] at two
            cases two
            exact same (id.symm.trans id')
        apply sound.shrink
        · intro other ptr there
          obtain ⟨-, before, apart⟩ := others other ptr there
          exact ⟨before, Function.update_of_ne apart _ _⟩
        · intro ptr late
          exact (Function.update_of_ne (Nat.ne_of_gt (older.trans_le late)) _ _).trans
            (sound.fresh ptr late)
        · rfl
        · intro other ptr there pending
          obtain ⟨apart, -, -⟩ := others other ptr there
          rcases pending with ⟨one, pops⟩ | ⟨one, counts⟩
          · have different : one ≠ thread := by
              rintro rfl
              rw [at'] at pops
              cases pops
              exact apart rfl
            exact Or.inl ⟨one, (setSection_of_ne different).trans pops⟩
          · have different : one ≠ thread := by
              rintro rfl
              rw [at'] at counts
              cases counts
            exact Or.inr ⟨one, (setSection_of_ne different).trans counts⟩
        · intro one
          by_cases same : one = thread
          · subst same
            change Fits _ (Function.update s.sections one (.delete taskother) one)
            rw [Function.update_self]
            exact ⟨older, fun other there => (others other taskother there).2.2 rfl⟩
          · rw [setSection_of_ne same]
            refine (sound.fits one).mono ?_ ?_ ?_
            · exact Nat.le_refl _
            · intro ptr _ e found
              by_cases own : ptr = taskother
              · rw [own] at found ⊢
                cases (Function.update_self ..).symm.trans found
                exact ⟨entry, held, rfl⟩
              · exact ⟨e, (Function.update_of_ne own _ _).symm.trans found, rfl⟩
            · exact fun ptr _ other there => (others other ptr there).2.1

/-- The next section of a call. -/
theorem Sound.advance (sound : s.Sound)
    (meets : ∀ taskid taskother entry, s.sections thread = .decrease taskid taskother →
      s.heap taskother = some entry → 0 < entry.urlnum)
    (step : s.advance thread = some t) : t.Sound := by
  unfold RetireState.advance at step
  cases at' : s.sections thread with
  | idle =>
      rw [at'] at step
      cases step
  | findurl taskid url forced taskother =>
      rw [at'] at step
      obtain ⟨entry, held, step⟩ := Option.bind_eq_some_iff.mp step
      have goes (sec : UrlSection) (fits : s.Fits sec) : (s.setSection thread sec).Sound :=
        sound.goOn fits (fun _ same => by rw [at'] at same; cases same)
          fun _ same => by rw [at'] at same; cases same
      split_ifs at step
      · cases step
        exact goes _ trivial
      · cases step
        exact goes _ trivial
      · cases step
        exact goes _ trivial
  | inserttaskurl taskid url taskother =>
      rw [at'] at step
      obtain ⟨entry, held, step⟩ := Option.bind_eq_some_iff.mp step
      cases step
      have inserted : (s.setEntry taskother { entry with urls := insert url entry.urls }).Sound := by
        refine sound.setEntry held ?_ ?_ ?_ ?_
        · rfl
        · exact fun here flag => sound.used entry.id taskother entry here held flag
        · exact fun here => sound.counted entry.id taskother entry here held
        · exact fun here free => sound.covered entry.id taskother entry here held free
      exact inserted.goOn trivial (fun _ same => by cases at'.symm.trans same)
        fun _ same => by cases at'.symm.trans same
  | increaseTaskUrlNum taskid =>
      rw [at'] at step
      have goes (sec : UrlSection) (fits : s.Fits sec) : (s.setSection thread sec).Sound :=
        sound.goOn fits (fun _ same => by rw [at'] at same; cases same)
          fun _ same => by rw [at'] at same; cases same
      dsimp only at step
      split at step
      · cases step
        exact goes _ trivial
      · cases step
        exact goes _ trivial
  | increase taskother =>
      rw [at'] at step
      obtain ⟨entry, held, step⟩ := Option.bind_eq_some_iff.mp step
      obtain ⟨urlnum, sum, step⟩ := Option.bind_eq_some_iff.mp step
      cases step
      have value : urlnum = entry.urlnum + 1 := by
        unfold intSum at sum
        split_ifs at sum
        exact (Option.some.inj sum).symm
      have positive (here : s.tasksothermap entry.id = some taskother) : 0 < urlnum := by
        have := sound.counted entry.id taskother entry here held
        omega
      have counted : (s.setEntry taskother { entry with urlnum }).Sound := by
        refine sound.setEntry held ?_ ?_ ?_ ?_
        · rfl
        · exact fun here flag => sound.used entry.id taskother entry here held flag
        · exact fun here => (positive here).le
        · exact fun here _ => Or.inl (positive here)
      refine counted.setSection trivial ?_
      intro other ptr e here found _ zero own
      have own' : s.sections thread = .poptaskother other ∨ s.sections thread = .increase ptr := own
      rw [at'] at own'
      rcases own' with same | same <;> cases same
      rw [setEntry_heap_self] at found
      cases found
      obtain ⟨e, held', id⟩ := sound.live other taskother here
      rw [held] at held'
      cases held'
      have := positive (id ▸ here)
      dsimp only at zero
      omega
  | decrease taskid taskother =>
      rw [at'] at step
      obtain ⟨entry, held, step⟩ := Option.bind_eq_some_iff.mp step
      obtain ⟨urlnum, sum, step⟩ := Option.bind_eq_some_iff.mp step
      cases step
      have value : urlnum = entry.urlnum - 1 := by
        unfold intSum at sum
        split_ifs at sum
        exact (Option.some.inj sum).symm
      have positive := meets taskid taskother entry at' held
      have fits := sound.fits thread
      rw [at'] at fits
      have id := fits.2 entry held
      -- first what the thread does next, for an entry without URLs is covered by that
      have goes : (s.setSection thread (if urlnum = 0 then .poptaskother taskid else .idle)).Sound := by
        refine sound.goOn ?_ (fun _ same => by cases at'.symm.trans same)
          fun _ same => by cases at'.symm.trans same
        split_ifs <;> exact trivial
      refine goes.setEntry held ?_ ?_ ?_ ?_
      · rfl
      · exact fun here flag => sound.used entry.id taskother entry here held flag
      · intro _
        dsimp only
        omega
      · intro _ _
        by_cases zero : urlnum = 0
        · right
          left
          refine ⟨thread, (Function.update_self ..).trans ?_⟩
          rw [if_pos zero, id]
        · left
          dsimp only
          omega
  | poptaskother taskid =>
      rw [at'] at step
      exact sound.poptaskother at' step
  | delete taskother =>
      rw [at'] at step
      obtain ⟨entry, held, step⟩ := Option.bind_eq_some_iff.mp step
      cases step
      have fits := sound.fits thread
      rw [at'] at fits
      obtain ⟨early, gone⟩ := fits
      have apart : ∀ other ptr, s.tasksothermap other = some ptr → ptr ≠ taskother := by
        rintro other ptr here rfl
        exact gone other here
      apply sound.shrink
      · exact fun other ptr here => ⟨here, Function.update_of_ne (apart other ptr here) _ _⟩
      · intro ptr late
        exact (Function.update_of_ne (Nat.ne_of_gt (early.trans_le late)) _ _).trans
          (sound.fresh ptr late)
      · rfl
      · intro other ptr here pending
        rcases pending with ⟨one, pops⟩ | ⟨one, counts⟩
        · have different : one ≠ thread := by
            rintro rfl
            cases at'.symm.trans pops
          exact Or.inl ⟨one, (setSection_of_ne different).trans pops⟩
        · have different : one ≠ thread := by
            rintro rfl
            cases at'.symm.trans counts
          exact Or.inr ⟨one, (setSection_of_ne different).trans counts⟩
      · intro one
        by_cases same : one = thread
        · subst same
          change Fits _ (Function.update s.sections one .idle one)
          rw [Function.update_self]
          exact trivial
        · rw [setSection_of_ne same]
          refine (sound.fits one).mono ?_ ?_ ?_
          · exact Nat.le_refl _
          · intro ptr _ e found
            by_cases own : ptr = taskother
            · rw [own] at found
              cases (Function.update_self ..).symm.trans found
            · exact ⟨e, (Function.update_of_ne own _ _).symm.trans found, rfl⟩
          · exact fun _ _ _ here => here

/-! ### Runs -/

theorem Sound.step {event : RetireEvent} (sound : s.Sound) (meets : s.Meets event)
    (step : s.step event = some t) : t.Sound := by
  unfold RetireState.step at step
  cases event with
  | getTaskOtherInfo taskid =>
      dsimp only at step
      split_ifs at step with waits
      exact sound.getTaskOtherInfo waits step
  | putTaskOtherInfo =>
      dsimp only at step
      split at step
      · cases step
        exact sound.putTaskOtherInfo ‹_›
      · cases step
  | checkRunning keeps =>
      dsimp only at step
      split at step
      · exact sound.checkRunning ‹_› step
      · cases step
  | insertHomePageUrl url forced alreadyfetched =>
      dsimp only at step
      split at step
      · cases step
        exact sound.insertUrl ‹_›
      · cases step
  | clearUsed =>
      dsimp only at step
      split at step
      · rename_i taskother at' _
        have skips : s.turn = .skipping taskother ∨ s.turn = .inserting 0 taskother := Or.inl at'
        exact sound.clearUsed skips (fun entry => meets 0 taskother entry skips) step
      · rename_i taskid taskother at' _
        exact sound.clearUsed (Or.inr at') (fun entry => meets taskid taskother entry (Or.inr at')) step
      · cases step
  | insertUrl n taskid url forced alreadyfetched =>
      dsimp only at step
      split_ifs at step with idle
      cases step
      exact sound.insertUrl idle
  | increaseTaskUrlNum n taskid =>
      dsimp only at step
      split_ifs at step with idle
      cases step
      exact sound.goOn trivial (fun _ same => by cases idle.symm.trans same)
        fun _ same => by cases idle.symm.trans same
  | decreaseTaskUrlNum n taskid =>
      dsimp only at step
      split_ifs at step with idle
      cases step
      exact sound.decreaseTaskUrlNum idle
  | advance thread => exact sound.advance meets step

/-- Without operations in progress no entry is in use, and nobody is about to count or to remove. -/
theorem Sound.retires (sound : s.Sound) : s.Retires := by
  rintro ⟨waits, idle⟩
  have positive : ∀ taskid taskother, s.tasksothermap taskid = some taskother →
      ∃ entry, s.heap taskother = some entry ∧ 0 < entry.urlnum := by
    intro taskid taskother here
    obtain ⟨entry, held, -⟩ := sound.live taskid taskother here
    refine ⟨entry, held, ?_⟩
    have free : entry.alreadyused = false := by
      by_contra flag
      rcases sound.used taskid taskother entry here held (Bool.eq_true_of_not_eq_false flag) with
        ⟨_, at'⟩ | at' | ⟨_, at'⟩ <;> cases waits.symm.trans at'
    rcases sound.covered taskid taskother entry here held free with
      positive | ⟨thread, at'⟩ | ⟨thread, at'⟩
    · exact positive
    · cases (idle thread).symm.trans at'
    · cases (idle thread).symm.trans at'
  refine ⟨positive, ?_⟩
  intro taskid done
  have none' : s.tasksothermap taskid = none := by
    cases here : s.tasksothermap taskid with
    | none => rfl
    | some taskother =>
        obtain ⟨entry, held, more⟩ := positive taskid taskother here
        exact absurd more (done entry (by rw [RetireState.entry, here]; exact held))
  refine ⟨s.setTurn (.missing taskid), (s.setTurn (.missing taskid)).putTaskOtherInfo taskid, ?_, rfl, ?_⟩
  · rw [RetireState.step, if_pos waits, RetireState.getTaskOtherInfo, none']
  · have mapped : ((s.setTurn (.missing taskid)).putTaskOtherInfo taskid).tasksothermap taskid =
        some s.next := (congrFun (if_pos none') taskid).trans (Function.update_self ..)
    rw [RetireState.entry, mapped]
    exact Function.update_self ..

end RetireState

/-- The sections of the threads, one after another. -/
def RetireSteps (s : RetireState) (event : RetireEvent) (t : RetireState) : Prop := s.step event = some t

/-- Tasks that are done leave the map, if every step counts down a URL that has been counted and every
entry given up still counts one, or is about to be counted in or removed. -/
theorem tasks_retire {events : List RetireEvent} {s : RetireState}
    (run : Run (Guarded RetireState.Meets RetireSteps) .start events s) : s.Retires := by
  have sound : s.Sound := run.invariant RetireState.start_sound
    fun t event u held step => held.step step.1 step.2
  exact sound.retires

/-- A check of the condition that does not look for threads. -/
def RetireState.meets (s : RetireState) : RetireEvent → Bool
  | .clearUsed =>
      match s.turn with
      | .skipping taskother | .inserting _ taskother => (s.heap taskother).all fun e => 0 < e.urlnum
      | _ => true
  | .advance thread =>
      match s.sections thread with
      | .decrease _ taskother => (s.heap taskother).all fun e => 0 < e.urlnum
      | _ => true
  | _ => true

theorem RetireState.meets_sound {s : RetireState} {event : RetireEvent} (checked : s.meets event = true) :
    s.Meets event := by
  cases event with
  | clearUsed =>
      intro taskid taskother entry at' held _
      left
      unfold meets at checked
      rcases at' with at' | at' <;> rw [at'] at checked <;> dsimp only at checked <;>
        rw [held] at checked <;> exact of_decide_eq_true checked
  | advance thread =>
      intro taskid taskother entry at' held
      unfold meets at checked
      dsimp only at checked
      rw [at'] at checked
      dsimp only at checked
      rw [held] at checked
      exact of_decide_eq_true checked
  | _ => exact trivial

def RetireState.checkedStep (s : RetireState) (event : RetireEvent) : Option RetireState :=
  if s.meets event then s.step event else none

theorem RetireState.checkedStep_sound (s : RetireState) (event : RetireEvent) (t : RetireState)
    (step : s.checkedStep event = some t) : Guarded RetireState.Meets RetireSteps s event t := by
  unfold checkedStep at step
  split_ifs at step with checked
  exact ⟨meets_sound checked, step⟩

/-- A task with one home page that a fetcher gets done, newest first. -/
def oneUrlDone : List RetireEvent :=
  [.advance (.fetcher 0), .advance (.fetcher 0), .advance (.fetcher 0), .decreaseTaskUrlNum 0 7, .clearUsed,
    .advance .getTaskThread, .advance .getTaskThread, .advance .getTaskThread, .advance .getTaskThread,
    .insertHomePageUrl "a" false false, .putTaskOtherInfo, .getTaskOtherInfo 7]

theorem tasks_retire_one : ∃ s, Run (Guarded RetireState.Meets RetireSteps) .start oneUrlDone s ∧
    s.tasksothermap 7 = none ∧ s.Retires := by
  have reached : (reach RetireState.checkedStep .start oneUrlDone).map (·.tasksothermap 7) =
      some none := by decide +kernel
  obtain ⟨s, value, gone⟩ := Option.map_eq_some_iff.mp reached
  have run := run_of_reach RetireState.checkedStep_sound value
  exact ⟨s, run, gone, tasks_retire run⟩

/-- A task without home pages, newest first. -/
def noUrl : List RetireEvent := [.clearUsed, .putTaskOtherInfo, .getTaskOtherInfo 7]

/-- What that leaves. -/
def stuckTask : RetireState :=
  (((RetireState.start.setTurn (.missing 7)).putTaskOtherInfo 7).setEntry 0 ⟨7, true, 0, false, ∅⟩).setTurn
    .waiting

theorem not_tasks_retire : Run RetireSteps .start noUrl stuckTask ∧ stuckTask.Quiet ∧
    ¬ stuckTask.Retires := by
  have reached : reach RetireState.step .start noUrl = some stuckTask := rfl
  have quiet : stuckTask.Quiet := ⟨rfl, fun _ => rfl⟩
  refine ⟨run_of_reach (fun _ _ _ step => step) reached, quiet, ?_⟩
  intro retires
  obtain ⟨entry, held, positive⟩ := (retires quiet).1 7 0 rfl
  cases held
  cases positive

end BloomServer
