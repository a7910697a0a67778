import Mathlib.Logic.Function.Basic

/-!
Task states (`kernel/task.h`) and the inline functions of `kernel/sched.h` that
write them. Every write also asks the scheduler for a refresh of its queues.
-/

namespace OsdevArchive.Minirighi

/-- The states of a task. -/
inductive TaskState where
  | new
  | ready
  | wait
  | zombie
  deriving DecidableEq

/-- The states of all tasks, and `refresh_queues_flag`. -/
structure Tasks (T : Type*) where
  state : T → TaskState
  refreshQueues : Bool

namespace Tasks

variable {T : Type*} [DecidableEq T]

/-- `set_task_state`. -/
def setTaskState (tasks : Tasks T) (t : T) (v : TaskState) : Tasks T :=
  ⟨Function.update tasks.state t v, true⟩

/-- `wakeup_task`. -/
def wakeupTask (tasks : Tasks T) (t : T) : Tasks T :=
  if tasks.state t ≠ .ready then tasks.setTaskState t .ready else tasks

/-- The state write of `sleep_task`, which precedes its call of `schedule`. -/
def sleepTask (tasks : Tasks T) (t : T) : Tasks T :=
  if tasks.state t ≠ .wait then tasks.setTaskState t .wait else tasks

variable {tasks : Tasks T} {t u : T} {v : TaskState}

@[simp] theorem setTaskState_state :
    (tasks.setTaskState t v).state = Function.update tasks.state t v := rfl

@[simp] theorem wakeupTask_state :
    (tasks.wakeupTask t).state = Function.update tasks.state t .ready := by
  unfold wakeupTask
  split
  · rfl
  · have hready : tasks.state t = .ready := not_not.mp ‹_›
    rw [← hready, Function.update_eq_self]

theorem wakeupTask_refreshQueues (h : tasks.refreshQueues = true) :
    (tasks.wakeupTask t).refreshQueues = true := by
  unfold wakeupTask
  split
  · rfl
  · exact h

end Tasks

end OsdevArchive.Minirighi
