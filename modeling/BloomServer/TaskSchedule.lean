import BloomServer.Library.LabelledRun
import BloomServer.Library.PriorityQueue
import BloomServer.Murmur
import Mathlib.Data.UInt

/-! `TaskScheduleManager`: the tasks waiting to be fetched, in a priority queue by the time of
their next fetch and in a map by their id. -/
namespace BloomServer
open LabelledRun

/-- What the scheduler reads and writes of a `Task`. -/
structure Task where
  id : Int32
  name : CString
  industry : CString
  homeurl : CString
  pageurl : CString
  sourcestate : Vector UInt8 16
  loginurl : CString
  ultimatepageurl : CString
  bbsultimatepageurl : CString
  ignoreurl : CString
  tasksendtype : Int32
  timeToFetch : Int64
  lastFetchNum : Int32
  interval : Int64
  currentInterval : Int64
  sourcetype : Int32
  depth : Int32
  intervalauto : Vector UInt8 4
  deriving DecidableEq

/-- A pointer to a task. -/
abbrev TaskPtr := ℕ

structure TaskScheduleManager where
  memory : TaskPtr → Task
  tasks : Array TaskPtr
  tasksmap : Int32 → Option TaskPtr

def taskFromDb : Int32 := 1
def taskUnfromDb : Int32 := 2

def sourceTypeBbs : Int32 := 2
def sourceTypeSearchengine : Int32 := 4
def sourceTypeTopic : Int32 := 5

/-- The two fields of a broken-down time that are looked at. -/
structure Tm where
  tm_hour : Int32
  tm_wday : Int32

/-- What `time` and `localtime_r` show in one call of `getNextTask`. -/
structure FetchClock where
  compared : Int64
  recalculated : Tm
  rated : Tm
  added : Int64

/-- The result of an operation on values of type `time_t`; overflow is undefined. -/
def timeT (z : ℤ) : Option Int64 := if -2 ^ 63 ≤ z ∧ z < 2 ^ 63 then some (Int64.ofInt z) else none

/-- The interval grows while nothing is fetched and shrinks towards that of the database. -/
def adjustInterval (task : Task) : Option Task :=
  if task.lastFetchNum = 0 then
    (timeT (task.currentInterval.toInt * 2)).map fun currentInterval => { task with currentInterval }
  else if task.interval < task.currentInterval then
    some { task with currentInterval := task.currentInterval / 2 }
  else some task

/-- No more than a week, and no less than the interval of the database. -/
def boundInterval (task : Task) : Task :=
  let task := if 604800 < task.currentInterval then { task with currentInterval := 604800 } else task
  if task.currentInterval < task.interval then { task with currentInterval := task.interval } else task

def recalculateTime (m : Tm) (task : Task) : Option Task :=
  if 17 < m.tm_hour ∨ m.tm_hour < 9 ∨ m.tm_wday = 0 ∨ m.tm_wday = 6 then some task
  else (adjustInterval task).map boundInterval

/-- What both branches of `getNextTask` do to the interval. -/
def recalculateAuto (m : Tm) (task : Task) : Option Task :=
  if task.intervalauto[0] = 49 then recalculateTime m task else some task

/-- The next time to fetch is `ratio` intervals after `now`. -/
def postpone (now : Int64) (ratio : Int64) (task : Task) : Option Task := do
  let wait ← timeT (task.currentInterval.toInt * ratio.toInt)
  let timeToFetch ← timeT (now.toInt + wait.toInt)
  return { task with timeToFetch, lastFetchNum := 0 }

def combineTask (des src : Task) : Task :=
  { des with
    name := src.name
    industry := src.industry
    homeurl := src.homeurl
    ultimatepageurl := src.ultimatepageurl
    bbsultimatepageurl := src.bbsultimatepageurl
    loginurl := src.loginurl
    sourcestate := (des.sourcestate.set 0 src.sourcestate[0]).set 1 src.sourcestate[1]
    interval := src.interval
    currentInterval := src.interval
    sourcetype := src.sourcetype
    pageurl := src.pageurl
    ignoreurl := src.ignoreurl
    timeToFetch := src.timeToFetch
    depth := src.depth
    tasksendtype := src.tasksendtype
    intervalauto := des.intervalauto.set 0 src.intervalauto[0] }

/-- The order of `TaskLesser` puts the earliest task on top. -/
def fetchTime (memory : TaskPtr → Task) (p : TaskPtr) : ℤ := (memory p).timeToFetch.toInt

/-- The loop that empties the queue, with as many rounds left as its first argument says. -/
def drain (memory : TaskPtr → Task) (id : Int32) : ℕ → Array TaskPtr → List TaskPtr
  | 0, _ => []
  | n + 1, tasks =>
      match tasks[0]? with
      | none => []
      | some t =>
          let rest := drain memory id n (PriorityQueue.pop (fetchTime memory) tasks)
          if (memory t).id ≠ id then t :: rest else rest

namespace TaskScheduleManager

def new : TaskScheduleManager where
  memory _ := ⟨0, [], [], [], [], .replicate 16 0, [], [], [], [], 1, 0, 1, 0, 0, 1, 3, .replicate 4 0⟩
  tasks := #[]
  tasksmap _ := none

def push (s : TaskScheduleManager) (task : TaskPtr) : TaskScheduleManager :=
  { s with tasks := PriorityQueue.push (fetchTime s.memory) s.tasks task }

/-- The top of an empty queue is undefined. -/
def pop (s : TaskScheduleManager) : Option (TaskPtr × TaskScheduleManager) := do
  let task ← s.tasks[0]?
  let s := { s with tasks := PriorityQueue.pop (fetchTime s.memory) s.tasks }
  return (task, { s with tasksmap := Function.update s.tasksmap (s.memory task).id none })

def removeTaskFromPriorityQueue (s : TaskScheduleManager) (id : Int32) :
    Option TaskScheduleManager := do
  let task ← s.tasks[0]?
  if (s.memory task).id = id then
    return { s with tasks := PriorityQueue.pop (fetchTime s.memory) s.tasks }
  else
    return (drain s.memory id s.tasks.size s.tasks).foldl push { s with tasks := #[] }

def write (s : TaskScheduleManager) (p : TaskPtr) (task : Task) : TaskScheduleManager :=
  { s with memory := Function.update s.memory p task }

def putTask (s : TaskScheduleManager) (task : TaskPtr) (taskfromdb : Int32) :
    Option (Int32 × TaskScheduleManager) :=
  let id := (s.memory task).id
  match s.tasksmap id with
  | none =>
      if (s.memory task).sourcestate[0] = 49 then
        some (1, { s with tasksmap := Function.update s.tasksmap id (some task) }.push task)
      else some (0, s)
  | some found =>
      if taskfromdb = taskFromDb then
        let s := s.write found (combineTask (s.memory found) (s.memory task))
        if (s.memory task).timeToFetch = 1 then
          (s.removeTaskFromPriorityQueue id).map fun s => (0, s.push found)
        else some (0, s)
      else (s.removeTaskFromPriorityQueue id).map fun s => (0, s.push found)

/-- The task handed out and the seconds to wait for the next. -/
def getNextTask (s : TaskScheduleManager) (clock : FetchClock) :
    Option ((Option TaskPtr × Int64) × TaskScheduleManager) :=
  match s.tasks[0]? with
  | none => some ((none, 10), s)
  | some task =>
      if (s.memory task).sourcestate[0] = 49 then
        if (s.memory task).timeToFetch ≤ clock.compared then do
          let value ← recalculateAuto clock.recalculated (s.memory task)
          let ratio :=
            if (value.sourcetype = sourceTypeBbs ∨ value.sourcetype = sourceTypeSearchengine ∨
              value.sourcetype = sourceTypeTopic) ∧ 0 ≤ clock.rated.tm_hour ∧ clock.rated.tm_hour < 6
            then 4 else 1
          let value ← postpone clock.added ratio value
          let (_, s) ← (s.write task value).putTask task taskUnfromDb
          return ((some task, 1), s)
        else some ((none, 10), s)
      else do
        let (task, s) ← s.pop
        let value ← recalculateAuto clock.recalculated (s.memory task)
        let value ← postpone clock.added 1 value
        return ((none, 1), s.write task value)

def remove (s : TaskScheduleManager) (id : Int32) : Option TaskScheduleManager :=
  match s.tasksmap id with
  | none => { s with tasksmap := Function.update s.tasksmap id none }.removeTaskFromPriorityQueue id
  | some _ => some s

end TaskScheduleManager

/-- The operations. A task that is put in or merged is given with the values of its fields. -/
inductive TaskCall
  | putTask (task : TaskPtr) (value : Task) (taskfromdb : Int32)
  | getNextTask (clock : FetchClock)
  | pop
  | remove (id : Int32)
  | combineTask (des src : TaskPtr) (value : Task)

open TaskScheduleManager

/-- The fields of a queued task are not changed from outside. -/
def Keeps (s : TaskScheduleManager) (p : TaskPtr) (value : Task) : Prop :=
  p ∈ s.tasks → value = s.memory p

instance (s : TaskScheduleManager) (p : TaskPtr) (value : Task) : Decidable (Keeps s p value) :=
  inferInstanceAs (Decidable (p ∈ s.tasks → value = s.memory p))

def perform (s : TaskScheduleManager) : TaskCall → Option TaskScheduleManager
  | .putTask p value taskfromdb =>
      if Keeps s p value then ((s.write p value).putTask p taskfromdb).map Prod.snd else none
  | .getNextTask clock => (s.getNextTask clock).map Prod.snd
  | .pop => s.pop.map Prod.snd
  | .remove id => s.remove id
  | .combineTask des src value =>
      if Keeps s src value then
        some ((s.write src value).write des (combineTask ((s.write src value).memory des) value))
      else none

/-- One operation. -/
def Schedules (s : TaskScheduleManager) (call : TaskCall) (s' : TaskScheduleManager) : Prop :=
  perform s call = some s'

/-! ### The two indexes hold the same tasks -/

/-- The ids of the map and the members of the queue correspond one to one. -/
structure Agree (s : TaskScheduleManager) : Prop where
  nodup : s.tasks.toList.Nodup
  same : ∀ id p, s.tasksmap id = some p ↔ p ∈ s.tasks ∧ (s.memory p).id = id

section Agree

variable {s s' : TaskScheduleManager} {p q : TaskPtr} {id : Int32} {value : Task}

theorem Agree.of_perm (agree : Agree s) (perm : s'.tasks.toList.Perm s.tasks.toList)
    (map : s'.tasksmap = s.tasksmap) (ids : ∀ p ∈ s.tasks, (s'.memory p).id = (s.memory p).id) :
    Agree s' := by
  constructor
  · exact perm.nodup_iff.mpr agree.nodup
  · intro id p
    rw [map, agree.same, ← Array.mem_toList_iff, ← Array.mem_toList_iff, perm.mem_iff]
    apply and_congr_right
    intro mem
    rw [ids p (Array.mem_toList_iff.mp mem)]

theorem Agree.write (agree : Agree s) (same : p ∈ s.tasks → value.id = (s.memory p).id) :
    Agree (s.write p value) := by
  refine agree.of_perm (List.Perm.refl _) rfl ?_
  intro q mem
  change (Function.update s.memory p value q).id = _
  by_cases self : q = p
  · subst self
    rw [Function.update_self]
    exact same mem
  · rw [Function.update_of_ne self]

theorem Keeps.memory (keeps : Keeps s p value) (mem : q ∈ s.tasks) :
    (s.write p value).memory q = s.memory q := by
  change Function.update s.memory p value q = _
  by_cases self : q = p
  · subst self
    rw [Function.update_self]
    exact keeps mem
  · rw [Function.update_of_ne self]

theorem Keeps.agree (keeps : Keeps s p value) (agree : Agree s) : Agree (s.write p value) :=
  agree.write fun mem => congrArg Task.id (keeps mem)

/-- A task with a new id. -/
theorem Agree.push (agree : Agree s) (fresh : s.tasksmap (s.memory p).id = none) :
    Agree ({ s with tasksmap := Function.update s.tasksmap (s.memory p).id (some p) }.push p) := by
  have absent : p ∉ s.tasks := by
    intro mem
    rw [(agree.same _ p).mpr ⟨mem, rfl⟩] at fresh
    cases fresh
  have perm := PriorityQueue.push_perm (fetchTime s.memory) s.tasks p
  constructor
  · apply perm.nodup_iff.mpr
    exact List.nodup_cons.mpr ⟨fun mem => absent (Array.mem_toList_iff.mp mem), agree.nodup⟩
  · intro id q
    have members : q ∈ PriorityQueue.push (fetchTime s.memory) s.tasks p ↔ q = p ∨ q ∈ s.tasks := by
      rw [← Array.mem_toList_iff, perm.mem_iff, List.mem_cons, Array.mem_toList_iff]
    change Function.update s.tasksmap (s.memory p).id (some p) id = some q ↔
      q ∈ PriorityQueue.push (fetchTime s.memory) s.tasks p ∧ (s.memory q).id = id
    rw [members]
    by_cases named : id = (s.memory p).id
    · subst named
      rw [Function.update_self, Option.some.injEq]
      constructor
      · intro same
        subst same
        exact ⟨Or.inl rfl, rfl⟩
      · intro held
        rcases held.1 with same | mem
        · exact same.symm
        · rw [(agree.same _ q).mpr ⟨mem, held.2⟩] at fresh
          cases fresh
    · rw [Function.update_of_ne named, agree.same]
      constructor
      · exact fun held => ⟨Or.inr held.1, held.2⟩
      · intro held
        rcases held.1 with same | mem
        · subst same
          exact absurd held.2.symm named
        · exact ⟨mem, held.2⟩

theorem Agree.pop (agree : Agree s) (h : s.pop = some (p, s')) : Agree s' ∧ p ∉ s'.tasks := by
  obtain ⟨task, top, rest⟩ := Option.bind_eq_some_iff.mp h
  cases rest
  have perm := PriorityQueue.pop_perm (fetchTime s.memory) top
  have nodup := perm.nodup_iff.mp agree.nodup
  have absent : p ∉ PriorityQueue.pop (fetchTime s.memory) s.tasks := fun mem =>
    (List.nodup_cons.mp nodup).1 (Array.mem_toList_iff.mpr mem)
  have member : p ∈ s.tasks := Array.mem_of_getElem? top
  refine ⟨⟨(List.nodup_cons.mp nodup).2, ?_⟩, absent⟩
  intro id q
  have members : q ∈ s.tasks ↔ q = p ∨ q ∈ PriorityQueue.pop (fetchTime s.memory) s.tasks := by
    rw [← Array.mem_toList_iff, perm.mem_iff, List.mem_cons, Array.mem_toList_iff]
  change Function.update s.tasksmap (s.memory p).id none id = some q ↔
    q ∈ PriorityQueue.pop (fetchTime s.memory) s.tasks ∧ (s.memory q).id = id
  by_cases named : id = (s.memory p).id
  · subst named
    rw [Function.update_self]
    constructor
    · intro impossible
      cases impossible
    · intro held
      have found := (agree.same (s.memory p).id q).mpr ⟨members.mpr (Or.inr held.1), held.2⟩
      rw [(agree.same _ p).mpr ⟨member, rfl⟩] at found
      cases found
      exact absurd held.1 absent
  · rw [Function.update_of_ne named, agree.same, members]
    constructor
    · intro held
      rcases held.1 with same | mem
      · subst same
        exact absurd held.2.symm named
      · exact ⟨mem, held.2⟩
    · exact fun held => ⟨Or.inr held.1, held.2⟩

/-! ### Taking a task out of the queue -/

theorem drain_perm (memory : TaskPtr → Task) (id : Int32) {n : ℕ} {tasks : Array TaskPtr}
    (few : tasks.size ≤ n) :
    (drain memory id n tasks).Perm (tasks.toList.filter fun p => (memory p).id ≠ id) := by
  induction n generalizing tasks with
  | zero =>
      have empty : tasks = #[] := Array.eq_empty_of_size_eq_zero (Nat.le_zero.mp few)
      subst empty
      exact List.Perm.refl _
  | succ n ih =>
      rw [drain]
      cases top : tasks[0]? with
      | none =>
          have empty : tasks = #[] :=
            Array.eq_empty_of_size_eq_zero (Nat.le_zero.mp (Array.getElem?_eq_none_iff.mp top))
          subst empty
          exact List.Perm.refl _
      | some t =>
          have perm := PriorityQueue.pop_perm (fetchTime memory) top
          have size := perm.length_eq
          rw [List.length_cons, Array.length_toList, Array.length_toList] at size
          have fewer : (PriorityQueue.pop (fetchTime memory) tasks).size ≤ n := by omega
          have rest := ih fewer
          have whole := perm.filter fun p => (memory p).id ≠ id
          dsimp only
          split_ifs with other
          · rw [List.filter_cons_of_pos (by simpa using other)] at whole
            exact (rest.cons t).trans whole.symm
          · rw [List.filter_cons_of_neg (by simpa using other)] at whole
            exact rest.trans whole.symm

theorem foldl_push (l : List TaskPtr) (s : TaskScheduleManager) :
    (l.foldl push s).memory = s.memory ∧ (l.foldl push s).tasksmap = s.tasksmap ∧
      (l.foldl push s).tasks.toList.Perm (l ++ s.tasks.toList) := by
  induction l generalizing s with
  | nil => exact ⟨rfl, rfl, List.Perm.refl _⟩
  | cons p l ih =>
      obtain ⟨memory, map, perm⟩ := ih (s.push p)
      refine ⟨memory, map, perm.trans ?_⟩
      exact ((PriorityQueue.push_perm _ s.tasks p).append_left l).trans List.perm_middle

theorem remove_perm (agree : Agree s) (h : s.removeTaskFromPriorityQueue id = some s') :
    s'.memory = s.memory ∧ s'.tasksmap = s.tasksmap ∧
      s'.tasks.toList.Perm (s.tasks.toList.filter fun p => (s.memory p).id ≠ id) := by
  obtain ⟨task, top, rest⟩ := Option.bind_eq_some_iff.mp h
  split_ifs at rest with named
  · cases rest
    have perm := PriorityQueue.pop_perm (fetchTime s.memory) top
    have nodup := List.nodup_cons.mp (perm.nodup_iff.mp agree.nodup)
    have whole := perm.filter fun p => (s.memory p).id ≠ id
    rw [List.filter_cons_of_neg (by simpa using named)] at whole
    -- No other member has the id of the top.
    have others : (PriorityQueue.pop (fetchTime s.memory) s.tasks).toList.filter
        (fun p => (s.memory p).id ≠ id) = (PriorityQueue.pop (fetchTime s.memory) s.tasks).toList := by
      apply List.filter_eq_self.mpr
      intro q mem
      apply decide_eq_true
      intro also
      have member : q ∈ s.tasks :=
        Array.mem_toList_iff.mp (perm.mem_iff.mpr (List.mem_cons_of_mem task mem))
      have found := (agree.same id q).mpr ⟨member, also⟩
      rw [(agree.same id task).mpr ⟨Array.mem_of_getElem? top, named⟩] at found
      cases found
      exact nodup.1 mem
    rw [others] at whole
    exact ⟨rfl, rfl, whole.symm⟩
  · cases rest
    obtain ⟨memory, map, perm⟩ :=
      foldl_push (drain s.memory id s.tasks.size s.tasks) { s with tasks := #[] }
    refine ⟨memory, map, perm.trans ?_⟩
    rw [List.append_nil]
    exact drain_perm s.memory id (Nat.le_refl _)

/-- A task that is taken out and pushed again. -/
theorem Agree.again (agree : Agree s) (found : s.tasksmap id = some q)
    (h : s.removeTaskFromPriorityQueue id = some s') : Agree (s'.push q) := by
  obtain ⟨memory, map, perm⟩ := remove_perm agree h
  obtain ⟨member, named⟩ := (agree.same id q).mp found
  have single : (s.tasks.toList.filter fun p => (s.memory p).id ≠ id) = s.tasks.toList.erase q := by
    rw [agree.nodup.erase_eq_filter]
    apply List.filter_congr
    intro p mem
    rw [Bool.eq_iff_iff, decide_eq_true_eq, bne_iff_ne, not_iff_not]
    constructor
    · intro also
      have both := (agree.same id p).mpr ⟨Array.mem_toList_iff.mp mem, also⟩
      rw [found] at both
      cases both
      rfl
    · intro same
      rw [same, named]
  rw [single] at perm
  apply agree.of_perm
  · exact (PriorityQueue.push_perm _ s'.tasks q).trans ((perm.cons q).trans
      (List.perm_cons_erase (Array.mem_toList_iff.mpr member)).symm)
  · exact map
  · intro p _
    change (s'.memory p).id = _
    rw [memory]

end Agree

/-! ### The queue is a heap -/

def Sorted (s : TaskScheduleManager) : Prop := PriorityQueue.IsHeap (fetchTime s.memory) s.tasks

/-- The time fits where the task is: no earlier than at its parent, no later than at its children. -/
def Fits (s : TaskScheduleManager) (q : TaskPtr) (time : Int64) : Prop :=
  ∀ i, 0 < i → ∀ x y, s.tasks[PriorityQueue.parent i]? = some x → s.tasks[i]? = some y →
    (y = q → (s.memory x).timeToFetch ≤ time) ∧ (x = q → time ≤ (s.memory y).timeToFetch)

section Sorted

variable {s s' : TaskScheduleManager} {p q : TaskPtr} {id : Int32} {value : Task}

theorem Keeps.sorted (keeps : Keeps s p value) (sorted : Sorted s) : Sorted (s.write p value) :=
  PriorityQueue.IsHeap.congr
    (fun _ mem => congrArg (fun task => task.timeToFetch.toInt) (keeps.memory mem)) sorted

theorem Agree.place_inj (agree : Agree s) {i j : ℕ} {x : TaskPtr} (one : s.tasks[i]? = some x)
    (other : s.tasks[j]? = some x) : i = j := by
  rw [← Array.getElem?_toList] at one other
  have inside := (List.getElem?_eq_some_iff.mp one).1
  exact (List.getElem?_inj inside agree.nodup).mp (one.trans other.symm)

theorem Agree.ne_of_parent (agree : Agree s) {i : ℕ} (positive : 0 < i) {x y : TaskPtr}
    (upper : s.tasks[PriorityQueue.parent i]? = some x) (lower : s.tasks[i]? = some y) : x ≠ y := by
  intro same
  rw [same] at upper
  exact (PriorityQueue.parent_lt positive).ne (agree.place_inj upper lower)

theorem fetchTime_write_self : fetchTime (s.write p value).memory p = value.timeToFetch.toInt := by
  change (Function.update s.memory p value p).timeToFetch.toInt = _
  rw [Function.update_self]

theorem fetchTime_write_ne (other : q ≠ p) :
    fetchTime (s.write p value).memory q = fetchTime s.memory q := by
  change (Function.update s.memory p value q).timeToFetch.toInt = _
  rw [Function.update_of_ne other]
  rfl

/-- A time that fits leaves the heap in order. -/
theorem Sorted.write (sorted : Sorted s) (agree : Agree s) (fits : Fits s q value.timeToFetch) :
    Sorted (s.write q value) := by
  apply PriorityQueue.isHeap_iff.mpr
  intro i positive x y upper lower
  have edge := PriorityQueue.isHeap_iff.mp sorted i positive x y upper lower
  have differ := agree.ne_of_parent positive upper lower
  obtain ⟨under, above⟩ := fits i positive x y upper lower
  by_cases left : x = q
  · subst left
    rw [fetchTime_write_self, fetchTime_write_ne differ.symm]
    exact Int64.le_iff_toInt_le.mp (above rfl)
  · by_cases right : y = q
    · subst right
      rw [fetchTime_write_self, fetchTime_write_ne differ]
      exact Int64.le_iff_toInt_le.mp (under rfl)
    · rw [fetchTime_write_ne left, fetchTime_write_ne right]
      exact edge

/-- Whatever is written to the top, the rest stays in order. -/
theorem Sorted.below (sorted : Sorted s) (agree : Agree s) (top : s.tasks[0]? = some q) :
    PriorityQueue.IsHeapBelow (fetchTime (s.write q value).memory) (s.write q value).tasks := by
  apply PriorityQueue.isHeapBelow_iff.mpr
  intro i positive high x y upper lower
  have edge := PriorityQueue.isHeap_iff.mp sorted i positive x y upper lower
  have other {j : ℕ} {z : TaskPtr} (place : s.tasks[j]? = some z) (later : 0 < j) : z ≠ q := by
    intro same
    rw [same] at place
    exact later.ne (agree.place_inj top place)
  rw [fetchTime_write_ne (other upper (Nat.pos_of_ne_zero high)),
    fetchTime_write_ne (other lower positive)]
  exact edge

theorem Sorted.push (sorted : Sorted s) (p : TaskPtr) : Sorted (s.push p) :=
  PriorityQueue.push_heap sorted p

theorem Sorted.pop (sorted : Sorted s) (h : s.pop = some (p, s')) : Sorted s' := by
  obtain ⟨task, _, rest⟩ := Option.bind_eq_some_iff.mp h
  cases rest
  exact PriorityQueue.pop_heap (PriorityQueue.IsHeap.below sorted)

theorem Sorted.foldl (sorted : Sorted s) (l : List TaskPtr) :
    Sorted (l.foldl TaskScheduleManager.push s) := by
  induction l generalizing s with
  | nil => exact sorted
  | cons p l ih => exact ih (sorted.push p)

/-- The queue is in order once a task is taken out: either it was the top, or everything is pushed
anew. -/
theorem remove_sorted (h : s.removeTaskFromPriorityQueue id = some s')
    (below : ∀ p, s.tasks[0]? = some p → (s.memory p).id = id →
      PriorityQueue.IsHeapBelow (fetchTime s.memory) s.tasks) : Sorted s' := by
  obtain ⟨task, top, rest⟩ := Option.bind_eq_some_iff.mp h
  split_ifs at rest with named
  · cases rest
    exact PriorityQueue.pop_heap (below task top named)
  · cases rest
    have empty : Sorted { s with tasks := #[] } := PriorityQueue.heap_empty
    exact empty.foldl _

end Sorted

/-! ### What one operation does -/

/-- The branches of `putTask`. -/
inductive PutEffect (s : TaskScheduleManager) (p : TaskPtr) (taskfromdb : Int32) :
    TaskScheduleManager → Prop
  | added (fresh : s.tasksmap (s.memory p).id = none) :
      PutEffect s p taskfromdb
        ({ s with tasksmap := Function.update s.tasksmap (s.memory p).id (some p) }.push p)
  | refused (fresh : s.tasksmap (s.memory p).id = none) : PutEffect s p taskfromdb s
  | merged {q} (found : s.tasksmap (s.memory p).id = some q) (fromdb : taskfromdb = taskFromDb)
      (later : ((s.write q (combineTask (s.memory q) (s.memory p))).memory p).timeToFetch ≠ 1) :
      PutEffect s p taskfromdb (s.write q (combineTask (s.memory q) (s.memory p)))
  | refreshed {q s'} (found : s.tasksmap (s.memory p).id = some q)
      (fromdb : taskfromdb = taskFromDb)
      (h : (s.write q (combineTask (s.memory q) (s.memory p))).removeTaskFromPriorityQueue
        (s.memory p).id = some s') : PutEffect s p taskfromdb (s'.push q)
  | again {q s'} (found : s.tasksmap (s.memory p).id = some q) (running : taskfromdb ≠ taskFromDb)
      (h : s.removeTaskFromPriorityQueue (s.memory p).id = some s') :
      PutEffect s p taskfromdb (s'.push q)

section Effect

variable {s s' : TaskScheduleManager} {p q : TaskPtr} {id taskfromdb ret : Int32} {value : Task}

theorem putTask_effect (h : s.putTask p taskfromdb = some (ret, s')) :
    PutEffect s p taskfromdb s' := by
  unfold putTask at h
  dsimp only at h
  cases found : s.tasksmap (s.memory p).id with
  | none =>
      rw [found] at h
      dsimp only at h
      split_ifs at h
      · cases h
        exact .added found
      · cases h
        exact .refused found
  | some q =>
      rw [found] at h
      dsimp only at h
      split_ifs at h with fromdb soon
      · obtain ⟨s₁, removed, same⟩ := Option.map_eq_some_iff.mp h
        cases same
        exact .refreshed found fromdb removed
      · cases h
        exact .merged found fromdb soon
      · obtain ⟨s₁, removed, same⟩ := Option.map_eq_some_iff.mp h
        cases same
        exact .again found fromdb removed

theorem Agree.merge (agree : Agree s) (q : TaskPtr) (src : Task) :
    Agree (s.write q (combineTask (s.memory q) src)) := agree.write fun _ => rfl

theorem PutEffect.agree (effect : PutEffect s p taskfromdb s') (agree : Agree s) : Agree s' := by
  cases effect with
  | added fresh => exact agree.push fresh
  | refused => exact agree
  | merged => exact agree.merge _ _
  | refreshed found _ h => exact (agree.merge _ _).again found h
  | again found _ h => exact agree.again found h

/-- The queue stays in order when the time of a task that is merged where it stands fits. -/
theorem PutEffect.sorted (effect : PutEffect s p taskfromdb s') (agree : Agree s) (sorted : Sorted s)
    (fits : taskfromdb = taskFromDb → (s.memory p).timeToFetch ≠ 1 →
      ∀ q, s.tasksmap (s.memory p).id = some q → Fits s q (s.memory p).timeToFetch) : Sorted s' := by
  cases effect with
  | added => exact PriorityQueue.push_heap sorted p
  | refused => exact sorted
  | @merged q found fromdb later =>
      have time : (s.memory p).timeToFetch ≠ 1 := by
        intro soon
        apply later
        change (Function.update s.memory q _ p).timeToFetch = 1
        by_cases self : p = q
        · subst self
          rw [Function.update_self]
          exact soon
        · rw [Function.update_of_ne self]
          exact soon
      exact sorted.write agree (fits fromdb time q found)
  | @refreshed q s' found _ h =>
      refine (remove_sorted h fun top place named => ?_).push q
      have same := ((agree.merge q (s.memory p)).same _ top).mpr ⟨Array.mem_of_getElem? place, named⟩
      rw [show (s.write q _).tasksmap = s.tasksmap from rfl, found] at same
      cases same
      exact sorted.below agree place
  | again _ _ h => exact (remove_sorted h fun _ _ _ => PriorityQueue.IsHeap.below sorted).push _

theorem adjustInterval_id {task value : Task} (h : adjustInterval task = some value) :
    value.id = task.id := by
  unfold adjustInterval at h
  split_ifs at h
  · obtain ⟨_, _, same⟩ := Option.map_eq_some_iff.mp h
    cases same
    rfl
  · cases h
    rfl
  · cases h
    rfl

theorem boundInterval_id (task : Task) : (boundInterval task).id = task.id := by
  unfold boundInterval
  dsimp only
  split_ifs <;> rfl

theorem recalculateAuto_id {m : Tm} {task value : Task} (h : recalculateAuto m task = some value) :
    value.id = task.id := by
  unfold recalculateAuto recalculateTime at h
  split_ifs at h
  · cases h
    rfl
  · obtain ⟨adjusted, first, same⟩ := Option.map_eq_some_iff.mp h
    rw [← same, boundInterval_id, adjustInterval_id first]
  · cases h
    rfl

theorem postpone_id {now ratio : Int64} {task value : Task}
    (h : postpone now ratio task = some value) : value.id = task.id := by
  obtain ⟨_, _, rest⟩ := Option.bind_eq_some_iff.mp h
  obtain ⟨_, _, same⟩ := Option.bind_eq_some_iff.mp rest
  cases same
  rfl

/-- The branches of `getNextTask`. -/
inductive FetchEffect (s : TaskScheduleManager) : Option TaskPtr → TaskScheduleManager → Prop
  | idle : FetchEffect s none s
  | fetched {task value ret s'} (top : s.tasks[0]? = some task)
      (same : value.id = (s.memory task).id)
      (h : (s.write task value).putTask task taskUnfromDb = some (ret, s')) :
      FetchEffect s (some task) s'
  | dropped {task value s'} (h : s.pop = some (task, s')) :
      FetchEffect s none (s'.write task value)

theorem getNextTask_effect {clock : FetchClock} {task : Option TaskPtr} {nexttime : Int64}
    (h : s.getNextTask clock = some ((task, nexttime), s')) : FetchEffect s task s' := by
  unfold getNextTask at h
  cases top : s.tasks[0]? with
  | none =>
      rw [top] at h
      cases h
      exact .idle
  | some p =>
      rw [top] at h
      dsimp only at h
      split_ifs at h
      · obtain ⟨value, recalculated, h⟩ := Option.bind_eq_some_iff.mp h
        obtain ⟨value', postponed, h⟩ := Option.bind_eq_some_iff.mp h
        obtain ⟨⟨ret, s₁⟩, put, h⟩ := Option.bind_eq_some_iff.mp h
        cases h
        exact .fetched top ((postpone_id postponed).trans (recalculateAuto_id recalculated)) put
      · cases h
        exact .idle
      · obtain ⟨⟨q, s₁⟩, popped, h⟩ := Option.bind_eq_some_iff.mp h
        obtain ⟨value, _, h⟩ := Option.bind_eq_some_iff.mp h
        obtain ⟨value', _, h⟩ := Option.bind_eq_some_iff.mp h
        cases h
        exact .dropped popped

theorem FetchEffect.agree {task : Option TaskPtr} (effect : FetchEffect s task s') (agree : Agree s) :
    Agree s' := by
  cases effect with
  | idle => exact agree
  | fetched _ same h => exact (putTask_effect h).agree (agree.write fun _ => same)
  | dropped h =>
      obtain ⟨rest, absent⟩ := agree.pop h
      exact rest.write fun mem => absurd mem absent

theorem FetchEffect.sorted {task : Option TaskPtr} (effect : FetchEffect s task s') (agree : Agree s)
    (sorted : Sorted s) : Sorted s' := by
  cases effect with
  | idle => exact sorted
  | @fetched task value _ _ top same h =>
      have written : Agree (s.write task value) := agree.write fun _ => same
      have held : ((s.write task value).memory task) = value := Function.update_self ..
      have found : (s.write task value).tasksmap ((s.write task value).memory task).id = some task := by
        rw [held, same]
        exact (agree.same _ task).mpr ⟨Array.mem_of_getElem? top, rfl⟩
      cases putTask_effect h with
      | added fresh =>
          rw [found] at fresh
          cases fresh
      | refused fresh =>
          rw [found] at fresh
          cases fresh
      | merged _ fromdb => exact absurd fromdb (by decide)
      | refreshed _ fromdb => exact absurd fromdb (by decide)
      | again _ _ removed =>
          exact (remove_sorted removed fun _ _ _ => sorted.below agree top).push _
  | dropped h =>
      have absent := (agree.pop h).2
      exact Keeps.sorted (fun mem => absurd mem absent) (sorted.pop h)

end Effect

/-! ### Runs -/

/-- A task that is merged where it stands gets a time that fits there. A merge from the database with
time 1 takes the task out of the queue and pushes it again. -/
def MergeFits (s : TaskScheduleManager) : TaskCall → Prop
  | .putTask _ value taskfromdb =>
      taskfromdb = taskFromDb → value.timeToFetch ≠ 1 →
        ∀ q, s.tasksmap value.id = some q → Fits s q value.timeToFetch
  | .combineTask des _ value => des ∈ s.tasks → Fits s des value.timeToFetch
  | _ => True

section Runs

variable {s s' : TaskScheduleManager} {call : TaskCall}

theorem Keeps.fits {p q : TaskPtr} {value : Task} {time : Int64} (keeps : Keeps s p value)
    (fits : Fits s q time) : Fits (s.write p value) q time := by
  intro i positive x y upper lower
  rw [keeps.memory (Array.mem_of_getElem? upper), keeps.memory (Array.mem_of_getElem? lower)]
  exact fits i positive x y upper lower

theorem Schedules.putTask {p : TaskPtr} {value : Task} {taskfromdb : Int32}
    (step : Schedules s (.putTask p value taskfromdb) s') :
    Keeps s p value ∧ PutEffect (s.write p value) p taskfromdb s' := by
  simp only [Schedules, perform] at step
  split_ifs at step with keeps
  obtain ⟨⟨ret, s₁⟩, put, same⟩ := Option.map_eq_some_iff.mp step
  cases same
  exact ⟨keeps, putTask_effect put⟩

theorem Schedules.combineTask {des src : TaskPtr} {value : Task}
    (step : Schedules s (.combineTask des src value) s') : Keeps s src value ∧
      s' = (s.write src value).write des
        (BloomServer.combineTask ((s.write src value).memory des) value) := by
  simp only [Schedules, perform] at step
  split_ifs at step with keeps
  cases step
  exact ⟨keeps, rfl⟩

/-- Nothing is removed of a task that is there. -/
theorem Schedules.remove {id : Int32} (step : Schedules s (.remove id) s') :
    (s.tasksmap id = none ∧ s.removeTaskFromPriorityQueue id = some s') ∨ s' = s := by
  change TaskScheduleManager.remove s id = some s' at step
  unfold TaskScheduleManager.remove at step
  cases found : s.tasksmap id with
  | none =>
      have same : Function.update s.tasksmap id none = s.tasksmap := by
        rw [← found, Function.update_eq_self]
      rw [found] at step
      dsimp only at step
      rw [same] at step
      exact Or.inl ⟨rfl, step⟩
  | some p =>
      rw [found] at step
      cases step
      exact Or.inr rfl

theorem Agree.absent {id : Int32} (agree : Agree s) (missing : s.tasksmap id = none)
    (h : s.removeTaskFromPriorityQueue id = some s') : Agree s' := by
  obtain ⟨memory, map, perm⟩ := remove_perm agree h
  have all : (s.tasks.toList.filter fun p => (s.memory p).id ≠ id) = s.tasks.toList := by
    apply List.filter_eq_self.mpr
    intro p mem
    apply decide_eq_true
    intro named
    rw [(agree.same id p).mpr ⟨Array.mem_toList_iff.mp mem, named⟩] at missing
    cases missing
  rw [all] at perm
  exact agree.of_perm perm map fun p _ => by rw [memory]

theorem Schedules.agree (step : Schedules s call s') (agree : Agree s) : Agree s' := by
  cases call with
  | putTask p value taskfromdb =>
      obtain ⟨keeps, effect⟩ := step.putTask
      exact effect.agree (keeps.agree agree)
  | getNextTask clock =>
      obtain ⟨⟨⟨task, nexttime⟩, s₁⟩, fetched, same⟩ := Option.map_eq_some_iff.mp step
      cases same
      exact (getNextTask_effect fetched).agree agree
  | pop =>
      obtain ⟨⟨task, s₁⟩, popped, same⟩ := Option.map_eq_some_iff.mp step
      cases same
      exact (agree.pop popped).1
  | remove id =>
      rcases step.remove with ⟨missing, removed⟩ | same
      · exact agree.absent missing removed
      · rw [same]
        exact agree
  | combineTask des src value =>
      obtain ⟨keeps, same⟩ := step.combineTask
      rw [same]
      exact (keeps.agree agree).merge des value

theorem Schedules.sorted (step : Schedules s call s') (fits : MergeFits s call) (agree : Agree s)
    (sorted : Sorted s) : Sorted s' := by
  cases call with
  | putTask p value taskfromdb =>
      obtain ⟨keeps, effect⟩ := step.putTask
      have held : (s.write p value).memory p = value := Function.update_self ..
      apply effect.sorted (keeps.agree agree) (keeps.sorted sorted)
      rw [held]
      intro fromdb later q found
      exact keeps.fits (fits fromdb later q found)
  | getNextTask clock =>
      obtain ⟨⟨⟨task, nexttime⟩, s₁⟩, fetched, same⟩ := Option.map_eq_some_iff.mp step
      cases same
      exact (getNextTask_effect fetched).sorted agree sorted
  | pop =>
      obtain ⟨⟨task, s₁⟩, popped, same⟩ := Option.map_eq_some_iff.mp step
      cases same
      exact sorted.pop popped
  | remove id =>
      rcases step.remove with ⟨_, removed⟩ | same
      · exact remove_sorted removed fun _ _ _ => PriorityQueue.IsHeap.below sorted
      · rw [same]
        exact sorted
  | combineTask des src value =>
      obtain ⟨keeps, same⟩ := step.combineTask
      rw [same]
      by_cases member : des ∈ s.tasks
      · exact (keeps.sorted sorted).write (keeps.agree agree) (keeps.fits (fits member))
      · exact Keeps.sorted (fun mem => absurd mem member) (keeps.sorted sorted)

theorem agree_new : Agree .new := by
  constructor
  · exact List.nodup_nil
  · intro id p
    constructor
    · intro impossible
      cases impossible
    · intro held
      exact absurd held.1 (Array.not_mem_empty p)

theorem Sorted.least (sorted : Sorted s) {p q : TaskPtr} (top : s.tasks[0]? = some p)
    (mem : q ∈ s.tasks) : (s.memory p).timeToFetch ≤ (s.memory q).timeToFetch :=
  Int64.le_iff_toInt_le.mpr (PriorityQueue.IsHeap.least sorted top mem)

theorem getNextTask_top {clock : FetchClock} {p : TaskPtr} {nexttime : Int64}
    (h : s.getNextTask clock = some ((some p, nexttime), s')) : s.tasks[0]? = some p := by
  cases getNextTask_effect h with
  | fetched top => exact top

/-- In every state that is reached the two indexes hold the same tasks, each once; and when every
task merged where it stands fits there, an earliest task is on top, and is handed out. -/
theorem scheduler_indexes_agree {calls : List TaskCall} (run : Run Schedules .new calls s) :
    Agree s ∧ (Run (Guarded MergeFits Schedules) .new calls s →
      (∀ p, s.tasks[0]? = some p →
        ∀ q ∈ s.tasks, (s.memory p).timeToFetch ≤ (s.memory q).timeToFetch) ∧
      ∀ clock p nexttime s', s.getNextTask clock = some ((some p, nexttime), s') →
        p ∈ s.tasks ∧ ∀ q ∈ s.tasks, (s.memory p).timeToFetch ≤ (s.memory q).timeToFetch) := by
  refine ⟨run.invariant agree_new fun _ _ _ held step => step.agree held, fun guarded => ?_⟩
  have both : Agree s ∧ Sorted s := by
    apply guarded.invariant ⟨agree_new, PriorityQueue.heap_empty⟩
    intro t call u held step
    exact ⟨step.2.agree held.1, step.2.sorted step.1 held.1 held.2⟩
  refine ⟨fun p top q mem => both.2.least top mem, ?_⟩
  intro clock p nexttime s' h
  have top := getNextTask_top h
  exact ⟨Array.mem_of_getElem? top, fun q mem => both.2.least top mem⟩

end Runs

/-! Two tasks, and the row that the second of them has in the database. -/

/-- A task of the news kind. -/
def newsTask (id : Int32) (timeToFetch : Int64) : Task :=
  ⟨id, [], [], [], [], #v[49, 0, 0, 0, 0, 0, 0, 0, 0, 0, 0, 0, 0, 0, 0, 0], [], [], [], [], 1,
    timeToFetch, 1, 600, 600, 1, 3, #v[48, 0, 0, 0]⟩

/-- The calls that put them in, newest first. -/
def twoTasks : List TaskCall :=
  [.putTask 2 (newsTask 2 2000) taskUnfromDb, .putTask 1 (newsTask 1 1000) taskUnfromDb]

def mergeRow (timeToFetch : Int64) : TaskCall := .putTask 3 (newsTask 2 timeToFetch) taskFromDb

theorem schedules_of_reach {calls : List TaskCall} {s : TaskScheduleManager}
    (h : reach perform .new calls = some s) : Run Schedules .new calls s :=
  run_of_reach (fun _ _ _ step => step) h

theorem twoTasks_guarded {s : TaskScheduleManager} (run : Run Schedules .new twoTasks s) :
    Run (Guarded MergeFits Schedules) .new twoTasks s := by
  apply run.guarded
  intro l₁ l₂ call t same _
  have mem : call ∈ twoTasks := by
    rw [same]
    exact List.mem_append_right l₂ List.mem_cons_self
  rw [twoTasks, List.mem_cons, List.mem_singleton] at mem
  rcases mem with rfl | rfl
  · exact fun fromdb => absurd fromdb (by decide)
  · exact fun fromdb => absurd fromdb (by decide)

/-- The second task becomes due later, and fits where it is. -/
theorem scheduler_indexes_agree_two : ∃ s, Run Schedules .new (mergeRow 2500 :: twoTasks) s ∧
    Agree s ∧ s.tasks.toList = [1, 2] ∧
    ∀ q ∈ s.tasks, (s.memory 1).timeToFetch ≤ (s.memory q).timeToFetch := by
  have first : ((reach perform .new twoTasks).map fun s =>
      (s.tasks.toList, (s.memory 1).timeToFetch, s.tasksmap 2)) =
      some ([1, 2], 1000, some 2) := by
    decide +kernel
  have whole : ((reach perform .new (mergeRow 2500 :: twoTasks)).map fun s => s.tasks.toList) =
      some [1, 2] := by
    decide +kernel
  obtain ⟨t, before, parts⟩ := Option.map_eq_some_iff.mp first
  obtain ⟨s, after, members⟩ := Option.map_eq_some_iff.mp whole
  rw [Prod.mk.injEq, Prod.mk.injEq] at parts
  obtain ⟨queue, time, found⟩ := parts
  have last : Schedules t (mergeRow 2500) s := by
    rw [reach, before] at after
    exact after
  have run := schedules_of_reach before
  have fits : MergeFits t (mergeRow 2500) := by
    intro _ _ q held i positive x y upper lower
    rw [show (newsTask 2 2500).id = 2 from rfl, found] at held
    cases held
    rw [← Array.getElem?_toList, queue] at upper lower
    have inside : i < 2 := (List.getElem?_eq_some_iff.mp lower).1
    have second : i = 1 := by omega
    subst second
    cases upper
    cases lower
    rw [time]
    exact ⟨fun _ => by decide, fun same => absurd same (by decide)⟩
  have all := scheduler_indexes_agree (run.snoc last)
  have top : s.tasks[0]? = some 1 := by
    rw [← Array.getElem?_toList, members]
    rfl
  exact ⟨s, run.snoc last, all.1, members,
    (all.2 ((twoTasks_guarded run).snoc ⟨fits, last⟩)).1 1 top⟩

/-- The second task becomes due at 500, before the first; it is passed by. -/
theorem scheduler_indexes_disagree : ∃ s, Run Schedules .new (mergeRow 500 :: twoTasks) s ∧
    s.tasks[0]? = some 1 ∧
    (∃ next s', s.getNextTask ⟨1200, ⟨20, 1⟩, ⟨20, 1⟩, 1200⟩ = some ((some 1, next), s')) ∧
    2 ∈ s.tasks ∧ (s.memory 2).timeToFetch < (s.memory 1).timeToFetch := by
  have reached : ((reach perform .new (mergeRow 500 :: twoTasks)).map fun s =>
      ((s.getNextTask ⟨1200, ⟨20, 1⟩, ⟨20, 1⟩, 1200⟩).map Prod.fst, s.tasks.toList,
        (s.memory 1).timeToFetch, (s.memory 2).timeToFetch)) =
      some (some (some 1, 1), [1, 2], 1000, 500) := by
    decide +kernel
  obtain ⟨s, value, parts⟩ := Option.map_eq_some_iff.mp reached
  rw [Prod.mk.injEq, Prod.mk.injEq, Prod.mk.injEq] at parts
  obtain ⟨handed, queue, one, two⟩ := parts
  obtain ⟨⟨answer, s'⟩, call, same⟩ := Option.map_eq_some_iff.mp handed
  refine ⟨s, schedules_of_reach value, ?_, ⟨1, s', ?_⟩, ?_, ?_⟩
  · rw [← Array.getElem?_toList, queue]
    rfl
  · rw [call]
    exact congrArg (fun a => some (a, s')) same
  · rw [← Array.mem_toList_iff, queue]
    decide
  · rw [one, two]
    decide

end BloomServer
