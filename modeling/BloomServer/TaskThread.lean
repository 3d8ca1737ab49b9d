import BloomServer.Library.LabelledRun
import BloomServer.Library.LockTrace
import BloomServer.TaskSchedule

/-! `getTaskThread`: the loop that hands out the tasks that are due, and what it does to the locks of
the `TaskScheduleManager`. Calls into the other managers are left out. -/
namespace BloomServer
open LabelledRun LockTrace

inductive TaskLock
  | mutexGettaskthread
  | priorityQueue
  | map
  | mapother
  | taskRunning
  | keywordmaps
  deriving DecidableEq

structure TaskOtherInfo where
  id : Int32
  running : Bool
  fetchnum : Int32
  alreadyused : Bool
  taskbatch : Int32
  begintime : UInt64
  deriving DecidableEq

def TaskOtherInfo.new (id : Int32) (now : UInt64) : TaskOtherInfo :=
  ⟨id, false, 0, true, 0, now⟩

structure TaskManager where
  schedule : TaskScheduleManager
  tasksothermap : Int32 → Option TaskOtherInfo
  keywordsmap : Int32 → List CString

abbrev TaskLocks := List (LockOp TaskLock)

/-! ### Locks taken while a task is handed out -/

def pushLocks : TaskLocks := bracket .priorityQueue []

def popLocks : TaskLocks := bracket .priorityQueue [] ++ bracket .map []

/-- Every task that stays is pushed on its own. -/
def removeTaskFromPriorityQueueLocks (s : TaskScheduleManager) (id : Int32) : TaskLocks :=
  bracket .priorityQueue [] ++
    match s.tasks[0]? with
    | none => []
    | some task =>
        if (s.memory task).id = id then []
        else (drain s.memory id s.tasks.size s.tasks).flatMap fun _ => pushLocks

def putTaskLocks (s : TaskScheduleManager) (task : TaskPtr) (taskfromdb : Int32) : TaskLocks :=
  let id := (s.memory task).id
  bracket .map <|
    match s.tasksmap id with
    | none => if (s.memory task).sourcestate.get 0 = 49 then pushLocks else []
    | some _ =>
        if taskfromdb = taskFromDb then
          if (s.memory task).timeToFetch = 1 then
            removeTaskFromPriorityQueueLocks s id ++ pushLocks
          else []
        else removeTaskFromPriorityQueueLocks s id ++ pushLocks

/-- What is written to the task before it is put back does not change its id. -/
def getNextTaskLocks (s : TaskScheduleManager) (clock : FetchClock) : TaskLocks :=
  bracket .priorityQueue [] ++
    match s.tasks[0]? with
    | none => []
    | some task =>
        if (s.memory task).sourcestate.get 0 = 49 then
          if (s.memory task).timeToFetch ≤ clock.compared then putTaskLocks s task taskUnfromDb
          else []
        else popLocks

/-! ### The loop -/

def sourceTypeCompany : Int32 := 6

/-- What an iteration reads besides the manager. -/
structure TaskTurn where
  running : Bool
  canInsertTask : Bool
  clock : FetchClock
  now : UInt64             -- `time(NULL)` after the task is found
  resinsertinterval : Int32

/-- The pieces between the bytes of `"\n\r\t "`, as `strtok_r` gives them. -/
def strtok (current : CString) : CString → List CString
  | [] => if current = [] then [] else [current.reverse]
  | c :: rest =>
      if c = 10 ∨ c = 13 ∨ c = 9 ∨ c = 32 then
        if current = [] then strtok [] rest else current.reverse :: strtok [] rest
      else strtok (c :: current) rest

/-- Writing to the entry of a task. -/
def TaskManager.setOther (m : TaskManager) (id : Int32) (o : TaskOtherInfo) : TaskManager :=
  { m with tasksothermap := Function.update m.tasksothermap id (some o) }

/-- `getTaskOtherInfo` with `needmutex`: what it returns, whether there is an entry, its locks. -/
def TaskManager.getTaskOtherInfo (m : TaskManager) (id : Int32) :
    (Option TaskOtherInfo × Bool) × TaskLocks × TaskManager :=
  match m.tasksothermap id with
  | some o =>
      if o.alreadyused then ((none, true), bracket .mapother [], m)
      else
        let o := { o with alreadyused := true }
        ((some o, true), bracket .mapother [], m.setOther id o)
  | none => ((none, false), bracket .mapother [], m)

def TaskManager.putTaskOtherInfo (m : TaskManager) (o : TaskOtherInfo) : TaskLocks × TaskManager :=
  match m.tasksothermap o.id with
  | none => (bracket .mapother [], m.setOther o.id o)
  | some _ => (bracket .mapother [], m)

/-- One token after the other is inserted, under the lock if the task has keywords. -/
def tokenLocks (m : TaskManager) (task : Task) : TaskLocks :=
  (strtok [] task.homeurl).flatMap fun _ =>
    if m.keywordsmap task.id ≠ [] then
      -- the home pages with each keyword are inserted before the release
      [.lock .keywordmaps, .unlock .keywordmaps]
    else [.lock .keywordmaps, .unlock .keywordmaps]

/-- `if (time(NULL) - taskother->begintime < reinsertintervaltmp)` and the types beside it. -/
def keepsRunning (turn : TaskTurn) (task : Task) (o : TaskOtherInfo) : Bool :=
  let reinsertintervaltmp : Int32 :=
    if task.interval < turn.resinsertinterval.toInt64 then task.interval.toInt32
    else turn.resinsertinterval
  decide (task.sourcetype = sourceTypeBbs) || decide (task.sourcetype = sourceTypeCompany) ||
    decide (turn.now - o.begintime < reinsertintervaltmp.toInt64.toUInt64)

/-- The part of the iteration after the lock of the batch has been given up. -/
def fetchTask (m : TaskManager) (task : Task) (o : TaskOtherInfo) : TaskLocks × TaskManager :=
  (tokenLocks m task, m.setOther task.id { o with alreadyused := false })

/-- The iteration once it has a task. -/
def startTask (turn : TaskTurn) (task : Task) (m : TaskManager) : TaskLocks × TaskManager :=
  let ((taskother, taskotherexists), looked, m) := m.getTaskOtherInfo task.id
  match taskother with
  | some o =>
      let looked := looked ++ [.lock .taskRunning, .unlock .taskRunning]
      if !o.running then
        let (inserted, m) := fetchTask m task { o with running := true, taskbatch := 0 }
        (looked ++ inserted, m)
      else
        let o := { o with fetchnum := o.fetchnum + task.lastFetchNum }
        if keepsRunning turn task o then (looked, m.setOther task.id { o with alreadyused := false })
        else
          let (inserted, m) := fetchTask m task { o with begintime := turn.now }
          (looked ++ inserted, m)
  | none =>
      if !taskotherexists then
        let o := TaskOtherInfo.new task.id turn.now
        let (put, m) := m.putTaskOtherInfo o
        -- both branches on `running` give the lock up
        let o := if !o.running then { o with running := true, taskbatch := 0 } else o
        let (inserted, m) := fetchTask m task o
        (looked ++ .lock .taskRunning :: put ++ [.unlock .taskRunning] ++ inserted, m)
      else (looked ++ [.unlock .taskRunning], m)

/-- One iteration of the loop with its locks; it has no result where times overflow. -/
def getTaskIteration (turn : TaskTurn) (m : TaskManager) : Option (TaskLocks × TaskManager) :=
  let waited := bracket .mutexGettaskthread []
  if !turn.running then some (waited, m)
  else if !turn.canInsertTask then some (waited, m)
  else
    (m.schedule.getNextTask turn.clock).map fun ((next, _), schedule) =>
      let asked := waited ++ getNextTaskLocks m.schedule turn.clock
      match next with
      | none => (asked, { m with schedule })
      | some p =>
          let (ops, m) := startTask turn (schedule.memory p) { m with schedule }
          (asked ++ ops, m)

/-! ### Balance -/

theorem pushLocks_neutral : Neutral pushLocks := Neutral.nil.bracket _

theorem popLocks_neutral : Neutral popLocks := (Neutral.nil.bracket _).append (Neutral.nil.bracket _)

theorem removeTaskFromPriorityQueueLocks_neutral (s : TaskScheduleManager) (id : Int32) :
    Neutral (removeTaskFromPriorityQueueLocks s id) := by
  apply (Neutral.nil.bracket _).append
  split
  · exact .nil
  · split_ifs
    · exact .nil
    · exact Neutral.flatMap _ fun _ _ => pushLocks_neutral

theorem putTaskLocks_neutral (s : TaskScheduleManager) (task : TaskPtr) (taskfromdb : Int32) :
    Neutral (putTaskLocks s task taskfromdb) := by
  have moved : Neutral (removeTaskFromPriorityQueueLocks s (s.memory task).id ++ pushLocks) :=
    (removeTaskFromPriorityQueueLocks_neutral s _).append pushLocks_neutral
  apply Neutral.bracket
  split
  · split_ifs
    · exact pushLocks_neutral
    · exact .nil
  · split_ifs
    · exact moved
    · exact .nil
    · exact moved

theorem getNextTaskLocks_neutral (s : TaskScheduleManager) (clock : FetchClock) :
    Neutral (getNextTaskLocks s clock) := by
  apply (Neutral.nil.bracket _).append
  split
  · exact .nil
  · split_ifs
    · exact putTaskLocks_neutral s _ _
    · exact .nil
    · exact popLocks_neutral

theorem tokenLocks_neutral (m : TaskManager) (task : Task) : Neutral (tokenLocks m task) := by
  apply Neutral.flatMap
  intro _ _
  split_ifs <;> exact Neutral.nil.bracket _

theorem putTaskOtherInfo_neutral (m : TaskManager) (o : TaskOtherInfo) :
    Neutral (m.putTaskOtherInfo o).1 := by
  unfold TaskManager.putTaskOtherInfo
  split <;> exact Neutral.nil.bracket _

/-- The task has an entry that someone else is using. -/
def TaskManager.Used (m : TaskManager) (id : Int32) : Prop :=
  ∃ o, m.tasksothermap id = some o ∧ o.alreadyused = true

/-- With a task in hand, only the branch for a used entry is out of balance: it ends with the
release of a lock that has not been taken. -/
theorem startTask_locks (turn : TaskTurn) (task : Task) (m : TaskManager) :
    (¬ m.Used task.id → Neutral (startTask turn task m).1) ∧
      (m.Used task.id → ∃ before, Neutral before ∧
        (startTask turn task m).1 = before ++ [.unlock .taskRunning]) := by
  have looked : Neutral (bracket TaskLock.mapother []) := Neutral.nil.bracket _
  have batch : Neutral [LockOp.lock TaskLock.taskRunning, .unlock .taskRunning] :=
    Neutral.nil.bracket _
  unfold startTask TaskManager.getTaskOtherInfo TaskManager.Used
  cases entry : m.tasksothermap task.id with
  | none =>
      constructor
      · intro _
        exact ((looked.append ((putTaskOtherInfo_neutral m _).bracket _)).append
          (tokenLocks_neutral _ _))
      · rintro ⟨o, same, -⟩
        cases same
  | some o =>
      cases used : o.alreadyused with
      | true =>
          constructor
          · intro free
            exact absurd ⟨o, rfl, used⟩ free
          · intro _
            simp only [used, if_true]
            exact ⟨_, looked, rfl⟩
      | false =>
          constructor
          · intro _
            simp only [used, Bool.false_eq_true, if_false]
            cases o.running with
            | false => exact (looked.append batch).append (tokenLocks_neutral _ _)
            | true =>
                simp only [Bool.not_true, Bool.false_eq_true, if_false]
                split_ifs
                · exact looked.append batch
                · exact (looked.append batch).append (tokenLocks_neutral _ _)
          · rintro ⟨o', same, there⟩
            cases same
            rw [used] at there
            cases there

/-- The iteration comes to a task that someone else is using. -/
def InUse (turn : TaskTurn) (m : TaskManager) : Prop :=
  turn.running = true ∧ turn.canInsertTask = true ∧
    ∃ p wait schedule, m.schedule.getNextTask turn.clock = some ((some p, wait), schedule) ∧
      m.Used (schedule.memory p).id

/-- An iteration gives up what it takes, and nothing else, unless it comes to a used task. -/
theorem getTaskIteration_locks {turn : TaskTurn} {m m' : TaskManager} {ops : TaskLocks}
    (run : getTaskIteration turn m = some (ops, m')) :
    (¬ InUse turn m → Neutral ops) ∧ (InUse turn m → LockTrace.replay free ops = none) := by
  have waited : Neutral (bracket TaskLock.mutexGettaskthread []) := Neutral.nil.bracket _
  unfold getTaskIteration at run
  dsimp only at run
  split_ifs at run with stopped paused
  · cases run
    refine ⟨fun _ => waited, ?_⟩
    rintro ⟨running, -⟩
    rw [running] at stopped
    cases stopped
  · cases run
    refine ⟨fun _ => waited, ?_⟩
    rintro ⟨-, canInsertTask, -⟩
    rw [canInsertTask] at paused
    cases paused
  · have asked := waited.append (getNextTaskLocks_neutral m.schedule turn.clock)
    obtain ⟨⟨⟨next, wait⟩, schedule⟩, fetched, same⟩ := Option.map_eq_some_iff.mp run
    cases next with
    | none =>
        cases same
        refine ⟨fun _ => asked, ?_⟩
        rintro ⟨-, -, p, wait', schedule', found, -⟩
        rw [fetched] at found
        cases found
    | some p =>
        obtain ⟨free, used⟩ := startTask_locks turn (schedule.memory p) { m with schedule }
        cases same
        constructor
        · intro unused
          apply asked.append
          apply free
          intro other
          apply unused
          refine ⟨?_, ?_, p, wait, schedule, fetched, other⟩
          · simpa using stopped
          · simpa using paused
        · rintro ⟨-, -, p', wait', schedule', found, other⟩
          rw [fetched] at found
          cases found
          obtain ⟨before, neutral, last⟩ := used other
          rw [last, ← List.append_assoc]
          exact (asked.append neutral).replay_unlock _

/-! ### Runs -/

/-- An iteration, with the manager as it finds it, or whatever the other threads do. -/
inductive TaskEvent
  | iterated (m : TaskManager) (turn : TaskTurn) (ops : TaskLocks)
  | others

inductive TaskStep : TaskManager → TaskEvent → TaskManager → Prop
  | iterated {m m' : TaskManager} {turn : TaskTurn} {ops : TaskLocks}
      (run : getTaskIteration turn m = some (ops, m')) : TaskStep m (.iterated m turn ops) m'
  | others {m m' : TaskManager} : TaskStep m .others m'

/-- What the thread holds after its iterations, if every release was of a lock it held. -/
def heldAfter : List TaskEvent → Option (Holds TaskLock)
  | [] => some free
  | .iterated _ _ ops :: l => (heldAfter l).bind fun held => LockTrace.replay held ops
  | .others :: l => heldAfter l

def TaskEvent.Unused : TaskEvent → Prop
  | .iterated m turn _ => ¬ InUse turn m
  | .others => True

/-- The thread holds nothing at the end of each iteration, and releases only what it holds. -/
def HoldsNothing (l : List TaskEvent) : Prop := ∀ l₁ l₂, l = l₂ ++ l₁ → heldAfter l₁ = some free

theorem holdsNothing_cons (e : TaskEvent) (l : List TaskEvent) :
    HoldsNothing (e :: l) ↔ heldAfter (e :: l) = some free ∧ HoldsNothing l := by
  constructor
  · intro all
    refine ⟨all (e :: l) [] rfl, ?_⟩
    intro l₁ l₂ split
    exact all l₁ (e :: l₂) (by rw [split]; rfl)
  · rintro ⟨last, all⟩ l₁ l₂ split
    cases l₂ with
    | nil =>
        rw [← last, split]
        rfl
    | cons e' l₂ =>
        cases split
        exact all l₁ l₂ rfl

/-- What one more event does to a thread that holds nothing. -/
theorem TaskStep.heldAfter {m m' : TaskManager} {e : TaskEvent} {l : List TaskEvent}
    (step : TaskStep m e m') (before : BloomServer.heldAfter l = some free) :
    BloomServer.heldAfter (e :: l) = some free ↔ e.Unused := by
  cases step with
  | others => exact iff_of_true before trivial
  | iterated run =>
      obtain ⟨unused, used⟩ := getTaskIteration_locks run
      unfold BloomServer.heldAfter TaskEvent.Unused
      rw [before, Option.bind_some]
      constructor
      · intro balanced other
        rw [used other] at balanced
        cases balanced
      · intro free
        exact unused free _

/-- In every run the locks are in balance exactly if no iteration comes to a task that someone else
is using. -/
theorem getTaskThread_balanced_iff {l : List TaskEvent} {m m' : TaskManager}
    (run : Run TaskStep m l m') : HoldsNothing l ↔ ∀ e ∈ l, e.Unused := by
  induction run with
  | nil =>
      constructor
      · intro _ e mem
        cases mem
      · intro _ l₁ l₂ split
        rw [(List.append_eq_nil_iff.mp split.symm).2]
        rfl
  | @snoc l t u e before last ih =>
      rw [holdsNothing_cons, ih, List.forall_mem_cons]
      constructor
      · rintro ⟨now, all⟩
        exact ⟨(last.heldAfter (ih.mpr all l [] rfl)).mp now, all⟩
      · rintro ⟨unused, all⟩
        exact ⟨(last.heldAfter (ih.mpr all l [] rfl)).mpr unused, all⟩

/-- A manager with one task that is due, and what there is about it. -/
def oneDueTask (entry : Option TaskOtherInfo) : TaskManager :=
  ⟨⟨fun _ => newsTask 1 1000, #[1], Function.update (fun _ => none) 1 (some 1)⟩,
    Function.update (fun _ => none) 1 entry, fun _ => []⟩

/-- An iteration at second 2000, at noon. -/
def noonTurn : TaskTurn := ⟨true, true, ⟨2000, ⟨12, 3⟩, ⟨12, 3⟩, 2000⟩, 2000, 7200⟩

/-- The thread gives up a lock that it does not hold. -/
theorem getTaskThread_not_balanced :
    ¬ ∀ (l : List TaskEvent) (m m' : TaskManager), Run TaskStep m l m' → HoldsNothing l := by
  intro all
  have result : ((getTaskIteration noonTurn (oneDueTask (some (.new 1 1900)))).map fun r =>
      (LockTrace.replay free r.1).isNone) = some true := by
    decide +kernel
  obtain ⟨⟨ops, m'⟩, run, bad⟩ := Option.map_eq_some_iff.mp result
  have nothing := all _ _ _ (.single (.iterated run)) _ [] rfl
  unfold heldAfter heldAfter at nothing
  rw [Option.bind_some] at nothing
  dsimp only at bad
  rw [nothing] at bad
  cases bad

/-- The first batch of a task begins. -/
theorem getTaskThread_balanced_once : ∃ (ops : TaskLocks) (m' : TaskManager),
    Run TaskStep (oneDueTask none) [.iterated (oneDueTask none) noonTurn ops] m' ∧
      HoldsNothing [.iterated (oneDueTask none) noonTurn ops] := by
  have result : (getTaskIteration noonTurn (oneDueTask none)).isSome = true := by
    decide +kernel
  obtain ⟨⟨ops, m'⟩, run⟩ := Option.isSome_iff_exists.mp result
  have once := Run.single (TaskStep.iterated run)
  refine ⟨ops, m', once, (getTaskThread_balanced_iff once).mpr fun e mem => ?_⟩
  rw [List.mem_singleton.mp mem]
  rintro ⟨_, _, p, _, schedule, _, o, here, _⟩
  change Function.update (fun _ => none) 1 none (schedule.memory p).id = some o at here
  rw [Function.update_eq_self] at here
  cases here

/-- Nobody is using an entry. -/
def TaskManager.Idle (m : TaskManager) : Prop := ∀ id, ¬ m.Used id

theorem used_setOther_of_ne {m : TaskManager} {id id' : Int32} {o : TaskOtherInfo}
    (other : id' ≠ id) : (m.setOther id o).Used id' ↔ m.Used id' := by
  unfold TaskManager.Used TaskManager.setOther
  dsimp only
  rw [Function.update_of_ne other]

/-- Whatever else is written to an entry, in the end it is marked unused. -/
theorem TaskManager.Idle.setOther_twice {m : TaskManager} (idle : m.Idle) (id : Int32)
    (o : TaskOtherInfo) {o' : TaskOtherInfo} (unused : o'.alreadyused = false) :
    ((m.setOther id o).setOther id o').Idle := by
  intro id' used
  by_cases same : id' = id
  · subst same
    obtain ⟨last, here, marked⟩ := used
    unfold TaskManager.setOther at here
    dsimp only at here
    rw [Function.update_self] at here
    cases here
    rw [unused] at marked
    cases marked
  · rw [used_setOther_of_ne same, used_setOther_of_ne same] at used
    exact idle id' used

theorem TaskManager.Idle.startTask {m : TaskManager} (idle : m.Idle) (turn : TaskTurn)
    (task : Task) : (startTask turn task m).2.Idle := by
  unfold BloomServer.startTask TaskManager.getTaskOtherInfo
  cases entry : m.tasksothermap task.id with
  | none =>
      have put : m.putTaskOtherInfo (.new task.id turn.now) =
          (bracket .mapother [], m.setOther task.id (.new task.id turn.now)) := by
        have absent : m.tasksothermap (TaskOtherInfo.new task.id turn.now).id = none := entry
        unfold TaskManager.putTaskOtherInfo
        rw [absent]
        rfl
      simp only [put]
      exact idle.setOther_twice task.id _ rfl
  | some o =>
      cases used : o.alreadyused with
      | true => exact absurd ⟨o, entry, used⟩ (idle task.id)
      | false =>
          simp only [used, Bool.false_eq_true, if_false]
          split_ifs
          · exact idle.setOther_twice task.id _ rfl
          · exact idle.setOther_twice task.id _ rfl
          · exact idle.setOther_twice task.id _ rfl

theorem TaskManager.Idle.iteration {turn : TaskTurn} {m m' : TaskManager} {ops : TaskLocks}
    (idle : m.Idle) (run : getTaskIteration turn m = some (ops, m')) : m'.Idle := by
  unfold getTaskIteration at run
  dsimp only at run
  split_ifs at run
  · cases run
    exact idle
  · cases run
    exact idle
  · obtain ⟨⟨⟨next, wait⟩, schedule⟩, fetched, same⟩ := Option.map_eq_some_iff.mp run
    cases next with
    | none =>
        cases same
        exact idle
    | some p =>
        cases same
        have rest : TaskManager.Idle { m with schedule } := idle
        exact rest.startTask turn _

/-- A thread that alone marks entries as used never comes to one. -/
theorem getTaskThread_alone {l : List TaskEvent} {m m' : TaskManager} (idle : m.Idle)
    (run : Run (fun s e t => TaskStep s e t ∧ (e = .others → t.Idle)) m l m') :
    m'.Idle ∧ ∀ e ∈ l, e.Unused := by
  apply run.history (I := fun l m => m.Idle ∧ ∀ e ∈ l, e.Unused)
  · refine ⟨idle, ?_⟩
    intro e mem
    cases mem
  · rintro l t e u ⟨idle, all⟩ ⟨step, others⟩
    rw [List.forall_mem_cons]
    cases step with
    | others => exact ⟨others rfl, trivial, all⟩
    | iterated run =>
        refine ⟨idle.iteration run, ?_, all⟩
        rintro ⟨-, -, p, wait, schedule, -, used⟩
        exact idle _ used

end BloomServer
