import BloomServer.TaskSchedule

/-! `TaskScheduleManager::remove`: what is left of a task in the map and in the queue. -/
namespace BloomServer
open LabelledRun TaskScheduleManager

def TaskScheduleManager.getTask (s : TaskScheduleManager) (id : Int32) : Option TaskPtr :=
  s.tasksmap id

/-- The task is in neither index, and every other task is still in both. -/
structure TaskRemoved (s s' : TaskScheduleManager) (id : Int32) : Prop where
  notFound : s'.getTask id = none
  notQueued : ∀ p ∈ s'.tasks, (s'.memory p).id ≠ id
  others : ∀ other p, other ≠ id → s.getTask other = some p →
    s'.getTask other = some p ∧ p ∈ s'.tasks ∧ s'.memory p = s.memory p

/-- The call returns and has removed the task. -/
def RemovesTask (s : TaskScheduleManager) (id : Int32) : Prop :=
  ∃ s', s.remove id = some s' ∧ TaskRemoved s s' id

section Removal

variable {s s' : TaskScheduleManager} {id : Int32} {p : TaskPtr}

theorem mem_filter_iff : p ∈ (s.tasks.toList.filter fun q => (s.memory q).id ≠ id) ↔
    p ∈ s.tasks ∧ (s.memory p).id ≠ id := by
  rw [List.mem_filter, Array.mem_toList_iff, decide_eq_true_iff]

/-- The top is looked at whatever the queue holds. -/
theorem removeTaskFromPriorityQueue_eq_none :
    s.removeTaskFromPriorityQueue id = none ↔ s.tasks = #[] := by
  unfold removeTaskFromPriorityQueue
  cases top : s.tasks[0]? with
  | none =>
      have empty : s.tasks = #[] :=
        Array.eq_empty_of_size_eq_zero (Nat.le_zero.mp (Array.getElem?_eq_none_iff.mp top))
      exact ⟨fun _ => empty, fun _ => rfl⟩
  | some task =>
      constructor
      · intro undefined
        simp only [Option.bind_eq_bind, Option.bind_some] at undefined
        split_ifs at undefined
      · intro empty
        rw [empty] at top
        cases top

/-- A task of the map is not touched. -/
theorem remove_found (found : s.tasksmap id = some p) : s.remove id = some s := by
  unfold TaskScheduleManager.remove
  rw [found]

theorem remove_missing (missing : s.tasksmap id = none) :
    s.remove id = s.removeTaskFromPriorityQueue id := by
  have same : Function.update s.tasksmap id none = s.tasksmap := by
    rw [← missing, Function.update_eq_self]
  unfold TaskScheduleManager.remove
  rw [missing]
  dsimp only
  rw [same]

/-- The queue is emptied and filled again. -/
theorem TaskRemoved.of_missing (agree : Agree s) (missing : s.tasksmap id = none)
    (h : s.removeTaskFromPriorityQueue id = some s') : TaskRemoved s s' id := by
  obtain ⟨memory, map, perm⟩ := remove_perm agree h
  have members (p : TaskPtr) : p ∈ s'.tasks ↔ p ∈ s.tasks ∧ (s.memory p).id ≠ id := by
    rw [← mem_filter_iff, ← perm.mem_iff, Array.mem_toList_iff]
  refine ⟨?_, ?_, ?_⟩
  · rw [getTask, map]
    exact missing
  · intro p mem
    rw [memory]
    exact ((members p).mp mem).2
  · intro other p differs found
    obtain ⟨mem, named⟩ := (agree.same other p).mp found
    refine ⟨?_, (members p).mpr ⟨mem, ?_⟩, by rw [memory]⟩
    · rw [getTask, map]
      exact found
    · rw [named]
      exact differs

/-- A task is removed, and no other, exactly when it was not there to begin with and the queue is
not empty. -/
theorem task_removed_iff {calls : List TaskCall} (run : Run Schedules .new calls s) :
    RemovesTask s id ↔ s.getTask id = none ∧ s.tasks ≠ #[] := by
  have agree : Agree s := run.invariant agree_new fun _ _ _ held step => step.agree held
  constructor
  · rintro ⟨s', call, removed⟩
    have missing : s.tasksmap id = none := by
      cases found : s.tasksmap id with
      | none => rfl
      | some p =>
          rw [remove_found found] at call
          cases call
          exact found.symm.trans removed.notFound
    refine ⟨missing, fun empty => ?_⟩
    rw [remove_missing missing, removeTaskFromPriorityQueue_eq_none.mpr empty] at call
    cases call
  · rintro ⟨missing, filled⟩
    cases h : s.removeTaskFromPriorityQueue id with
    | none => exact absurd (removeTaskFromPriorityQueue_eq_none.mp h) filled
    | some s' =>
        exact ⟨s', (remove_missing missing).trans h, TaskRemoved.of_missing agree missing h⟩

end Removal

/-- Of two tasks neither is the third. -/
theorem task_removed_third : ∃ s, Run Schedules .new twoTasks s ∧ RemovesTask s 3 := by
  have reached : ((reach perform .new twoTasks).map fun s => (s.tasksmap 3, s.tasks.size)) =
      some (none, 2) := by
    decide +kernel
  obtain ⟨s, value, parts⟩ := Option.map_eq_some_iff.mp reached
  rw [Prod.mk.injEq] at parts
  have run := schedules_of_reach value
  refine ⟨s, run, (task_removed_iff run).mpr ⟨parts.1, fun empty => ?_⟩⟩
  rw [empty] at parts
  exact absurd parts.2 (by decide)

/-- The second of two tasks is left where it is. -/
theorem not_task_removed : ∃ s, Run Schedules .new twoTasks s ∧ s.getTask 2 = some 2 ∧
    ¬ RemovesTask s 2 := by
  have reached : ((reach perform .new twoTasks).map fun s => s.tasksmap 2) = some (some 2) := by
    decide +kernel
  obtain ⟨s, value, found⟩ := Option.map_eq_some_iff.mp reached
  refine ⟨s, schedules_of_reach value, found, ?_⟩
  rintro ⟨s', call, removed⟩
  rw [remove_found found] at call
  cases call
  have missing : s.tasksmap 2 = none := removed.notFound
  rw [found] at missing
  cases missing

end BloomServer
