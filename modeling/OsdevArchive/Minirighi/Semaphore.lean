import OsdevArchive.Lib.Runs
import OsdevArchive.Minirighi.Sched

/-!
The semaphore of minirighi (`kernel/semaphore.h`, `kernel/semaphore.c`) and the
tasks that use it. Each task repeats `DOWN`, a critical section and `UP`. A task
stands at a program point; one action performs the instruction or the inline
call at that point. Tasks interleave in any order, so an action of one task may
fall between any two of another, also while that one holds the spinlock.

The waiting tasks are listed in queue order: `add_queue` appends, `rem_queue`
removes the first occurrence, `queue_get_entry` reads the head.
-/

namespace OsdevArchive.Minirighi.Semaphore

/-- Program points. -/
inductive Pc where
  /-- Outside: the next instruction is the `lock decl` of `DOWN`. -/
  | down
  /-- `__down_failed`: `spin_lock_irqsave`. -/
  | failLock
  /-- `add_queue`. -/
  | addQueue
  /-- `sem->sleepers++`. -/
  | countSleeper
  /-- `sleepers = sem->sleepers`. -/
  | loadSleepers
  /-- `atomic_add_negative(sleepers - 1, ..)`, with the loaded value. -/
  | addNegative (sleepers : Int)
  /-- `sem->sleepers = 0`, on the way out of the loop. -/
  | clearSleepers
  /-- `sem->sleepers = 1`, on the way to sleep. -/
  | oneSleeper
  /-- `spin_unlock_irqrestore` before sleeping. -/
  | sleepUnlock
  /-- `sleep_task`: the test of the state. -/
  | sleepTest
  /-- `sleep_task`: the write of the state. -/
  | sleepWrite
  /-- `sleep_task`: inside `schedule`. -/
  | asleep
  /-- `spin_lock_irqsave` after sleeping. -/
  | retryLock
  /-- `rem_queue`. -/
  | remQueue
  /-- Wake up the next task of the queue. -/
  | wakeNext
  /-- The last `spin_unlock_irqrestore` of `__down_failed`. -/
  | doneUnlock
  /-- The critical section: the next instruction is the `lock incl` of `UP`. -/
  | critical
  /-- `__up_wakeup`: `spin_lock_irqsave`. -/
  | upLock
  /-- `__up_wakeup`: wake up the head of the queue. -/
  | upWake
  /-- `__up_wakeup`: `spin_unlock_irqrestore`. -/
  | upUnlock
  deriving DecidableEq

/-- The semaphore (`count`, `sleepers`, `waitq`), the spinlock `semaphore_lock`
with the task that holds it, and the tasks. -/
structure St (T : Type*) where
  count : Int
  sleepers : Int
  waitq : List T
  semaphoreLock : Option T
  tasks : Tasks T
  pc : T → Pc

/-- What happens next. `run` is one action of a task; `noMem` and
`schedDisabled` are what it would see of the rest of the kernel: `kmalloc` fails,
or scheduling is disabled so that `schedule` returns at once. `wakeup` is a
wakeup of a task from elsewhere in the kernel. -/
inductive Act (T : Type*) where
  | run (t : T) (noMem schedDisabled : Bool)
  | wakeup (t : T)

variable {T : Type*} [DecidableEq T]

/-- The task moves on to the program point `pc`. -/
def St.goto (s : St T) (t : T) (pc : Pc) : St T := { s with pc := Function.update s.pc t pc }

/-- `spin_lock_irqsave`: possible only when the lock is free. -/
def St.spinLock (s : St T) (t : T) (pc : Pc) : Option (St T) :=
  if s.semaphoreLock = none then some ({ s with semaphoreLock := some t }.goto t pc) else none

def St.spinUnlock (s : St T) (t : T) (pc : Pc) : St T :=
  { s with semaphoreLock := none }.goto t pc

/-- `t = queue_get_entry( sem->waitq ); if( t != NULL ) wakeup_task( t );` -/
def St.wakeHead (s : St T) : St T :=
  match s.waitq.head? with
  | none => s
  | some t => { s with tasks := s.tasks.wakeupTask t }

/-- One action of the task `t`. -/
def St.run (s : St T) (t : T) (noMem schedDisabled : Bool) : Option (St T) :=
  match s.pc t with
  | .down =>
      let s := { s with count := s.count - 1 }
      some (s.goto t (if 0 ≤ s.count then .critical else .failLock))
  | .failLock => s.spinLock t .addQueue
  | .addQueue =>
      let s := if noMem then s else { s with waitq := s.waitq ++ [t] }
      some (s.goto t .countSleeper)
  | .countSleeper => some ({ s with sleepers := s.sleepers + 1 }.goto t .loadSleepers)
  | .loadSleepers => some (s.goto t (.addNegative s.sleepers))
  | .addNegative sleepers =>
      let s := { s with count := s.count + (sleepers - 1) }
      some (s.goto t (if s.count < 0 then .oneSleeper else .clearSleepers))
  | .clearSleepers => some ({ s with sleepers := 0 }.goto t .remQueue)
  | .oneSleeper => some ({ s with sleepers := 1 }.goto t .sleepUnlock)
  | .sleepUnlock => some (s.spinUnlock t .sleepTest)
  | .sleepTest =>
      some (s.goto t (if s.tasks.state t ≠ .wait then .sleepWrite else .asleep))
  | .sleepWrite =>
      some ({ s with tasks := s.tasks.setTaskState t .wait }.goto t .asleep)
  | .asleep =>
      if schedDisabled ∨ s.tasks.state t = .ready then some (s.goto t .retryLock) else none
  | .retryLock => s.spinLock t .loadSleepers
  | .remQueue => some ({ s with waitq := s.waitq.erase t }.goto t .wakeNext)
  | .wakeNext => some (s.wakeHead.goto t .doneUnlock)
  | .doneUnlock => some (s.spinUnlock t .critical)
  | .critical =>
      let s := { s with count := s.count + 1 }
      some (s.goto t (if 0 < s.count then .down else .upLock))
  | .upLock => s.spinLock t .upWake
  | .upWake => some (s.wakeHead.goto t .upUnlock)
  | .upUnlock => some (s.spinUnlock t .down)

def St.step (s : St T) : Act T → Option (St T)
  | .run t noMem schedDisabled => s.run t noMem schedDisabled
  | .wakeup t => some { s with tasks := s.tasks.wakeupTask t }

/-- `init_MUTEX`, with every task outside. Tasks may be in any state. -/
def St.initMutex (tasks : Tasks T) : St T := ⟨1, 0, [], none, tasks, fun _ => .down⟩

end OsdevArchive.Minirighi.Semaphore
