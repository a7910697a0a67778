import Mathlib.Algebra.Group.Int.Defs
import OsdevArchive.Minirighi.RefreshQueues
import OsdevArchive.Minirighi.Semaphore

/-!
The life of tasks: creation and `kill` (`kernel/task.c`), `schedule`
(`kernel/sched.c`), the killing daemon (`kernel/kpagerd.c`), and every place of
the kernel that writes the state of a task. The machine has one processor. An
action is a piece of kernel code of the running task, or an interrupt, which may
come between any two of them. The queues are the lists of `RefreshQueues`, the
semaphores are those of `Semaphore`, all working on the same task states.
-/

namespace OsdevArchive.Minirighi.Task

open OsdevArchive.Minirighi.RefreshQueues

/-- `INT_MAX`. -/
def intMax : Int := 2 ^ 31 - 1

/-- The kernel's view of its tasks. `P` are the entries of the run queues, `T` the
addresses of task structures, `S` the semaphores and `W` the wait queues. -/
structure Kernel (P T S W : Type*) extends Lists P T where
  /-- The task that an entry of a run queue points to. -/
  value : P → T
  /-- The blocks that are allocated as task structures. -/
  allocated : T → Bool
  father : T → Option T
  /-- `flags.type` is `THREAD_TYPE`. -/
  isThread : T → Bool
  pid : T → Int
  priority : T → Int
  lastPid : Int
  currTask : T
  /-- The task being created; `sched_enabled` is locked meanwhile. -/
  creating : Option T
  /-- `curr_task` has found itself dead in `kill` and is about to call `schedule`. -/
  exiting : Bool
  /-- The task that `kpagerd` has picked from the zombie queue. -/
  picked : Option T
  semaphore : S → Semaphore.St T
  /-- The pids in the wait queues. -/
  waitQueue : W → List Int

/-- What happens next. -/
inductive Act (P T S W : Type*) where
  /-- `schedule`, called by the running task or by the timer interrupt. -/
  | schedule
  /-- The state write of `sleep_task( curr_task )`. -/
  | sleep
  /-- `wakeup_task`, called by a driver. -/
  | wakeup (t : T)
  /-- The running task performs its next action on a semaphore. -/
  | semaphore (i : S) (noMem schedDisabled : Bool)
  /-- `add_wait_queue` of `wait_event`. -/
  | addWaitQueue (w : W) (noMem : Bool)
  | wakeupQueue (w : W)
  /-- A task structure is allocated at `t` and linked in the zombie queue by the
  entry `e`, unless `add_queue` fails. -/
  | createBegin (t : T) (e : Option P)
  /-- The creation fails: the structure is freed. -/
  | createFail
  /-- The new task gets ready. -/
  | createEnd (isThread : Bool) (e : Option P)
  | kill (pid : Int)
  /-- `kpagerd`: `pick_queue`. -/
  | pickZombie
  /-- `kpagerd`: `rem_queue` and `kfree` of the picked task. -/
  | freeZombie (t : T)
  deriving DecidableEq

variable {P T S W : Type*} [DecidableEq P] [DecidableEq T] [DecidableEq S] [DecidableEq W]
  (idleTask kpagd : T)

namespace Kernel

/-- `ready_queue` and behind it `wait_queue`: where a task is searched. -/
def searched (k : Kernel P T S W) : List P := k.queue .ready ++ k.queue .wait

/-- The first task with this pid. -/
def find (k : Kernel P T S W) (pid : Int) : Option T :=
  (k.searched.find? fun e => k.pid (k.value e) = pid).map k.value

/-- `get_task_info`. -/
def getTaskInfo (k : Kernel P T S W) (pid : Int) : Option T :=
  if k.pid k.currTask = pid ∨ pid = -1 then some k.currTask
  else if pid = 1 then some idleTask
  else k.find pid

/-! ## The scheduler -/

/-- The candidate of `schedule`, `min_counter`, and the dynamic priorities. -/
structure Choice (T : Type*) where
  currTask : T
  minCounter : Int
  counter : T → Int

/-- The loop body of `schedule`. -/
def Choice.visit (value : P → T) (c : Choice T) (e : P) : Choice T :=
  let next := value e
  let c := if c.counter next < c.minCounter then
      { c with currTask := next, minCounter := c.counter next } else c
  if highPriority * 2 < c.counter next then
    { c with counter := Function.update c.counter next (c.counter next - 1) } else c

/-- The run queues after `do_refresh_queues`, if a refresh was requested. -/
def refreshed (k : Kernel P T S W) : Lists P T :=
  if k.tasks.refreshQueues then k.toLists.refresh kpagd k.priority k.value else k.toLists

/-- The dynamic priorities when the loop of `schedule` starts. -/
def startCounter (k : Kernel P T S W) : T → Int :=
  Function.update (k.refreshed kpagd).counter k.currTask (k.priority k.currTask)

/-- `schedule`. -/
def schedule (k : Kernel P T S W) : Kernel P T S W :=
  if k.creating.isSome then k
  else
    let lists := k.refreshed kpagd
    let c := (lists.queue .ready).foldl (Choice.visit k.value)
      ⟨idleTask, intMax, k.startCounter kpagd⟩
    { k with
      toLists := { lists with counter := c.counter }
      currTask := c.currTask
      exiting := false }

/-! ## `kill` -/

/-- `kill`: the victim gets a zombie, its father is woken. -/
def strike (k : Kernel P T S W) (p : T) : Kernel P T S W :=
  let tasks := k.tasks.setTaskState p .zombie
  match k.father p with
  | none => { k with tasks := tasks }
  | some f => { k with tasks := tasks.wakeupTask f }

/-- The body of the second loop of `kill`, with `flag_repeat`: the children of a
zombie lose their father, and its threads die with it. -/
def orphan (r : Kernel P T S W × Bool) (e : P) : Kernel P T S W × Bool :=
  let k := r.1
  let p := k.value e
  match k.father p with
  | none => r
  | some f =>
      if k.tasks.state f = .zombie then
        let k := { k with father := Function.update k.father p none }
        if k.isThread p then ({ k with tasks := k.tasks.setTaskState p .zombie }, true)
        else (k, r.2)
      else r

/-- One execution of the second loop of `kill`. -/
def sweep (k : Kernel P T S W) : Kernel P T S W × Bool :=
  k.searched.foldl orphan (k, false)

/-- `if( flag_repeat ) goto found;`, at most `fuel` times. -/
def sweepLoop : Nat → Kernel P T S W → Kernel P T S W
  | 0, k => k
  | fuel + 1, k =>
      let r := k.sweep
      if r.2 then sweepLoop fuel r.1 else r.1

/-- The search of `kill`. -/
def strikePid (k : Kernel P T S W) (pid : Int) : Kernel P T S W :=
  match k.find pid with
  | none => k
  | some p => k.strike p

/-- The critical region of `kill`. -/
def cull (k : Kernel P T S W) (pid : Int) : Kernel P T S W :=
  sweepLoop (k.searched.length + 1) (k.strikePid pid)

/-- `kill`, up to the test whether the running task has killed itself. -/
def kill (k : Kernel P T S W) (pid : Int) : Kernel P T S W :=
  let k := k.cull pid
  { k with exiting := decide (k.tasks.state k.currTask = .zombie) }

/-! ## Creation -/

/-- `add_queue`, which fails when there is no memory for the entry. -/
def addQueue (k : Kernel P T S W) (st : TaskState) (t : T) : Option P → Kernel P T S W
  | none => k
  | some e =>
      { k with
        queue := Function.update k.queue st (k.queue st ++ [e])
        value := Function.update k.value e t }

/-- `rem_queue` on the zombie queue. -/
def remZombie (k : Kernel P T S W) (t : T) : Kernel P T S W :=
  { k with
    queue := Function.update k.queue .zombie
      ((k.queue .zombie).eraseP fun e => decide (k.value e = t)) }

/-- A state write without `set_task_state`. -/
def writeState (k : Kernel P T S W) (t : T) (v : TaskState) : Kernel P T S W :=
  { k with tasks := ⟨Function.update k.tasks.state t v, k.tasks.refreshQueues⟩ }

/-- The entry, if any, is not in use. -/
def Unused (k : Kernel P T S W) (e : Option P) : Prop := ∀ p ∈ e, p ∉ k.entries

instance (k : Kernel P T S W) (e : Option P) : Decidable (k.Unused e) :=
  match e with
  | none => isTrue fun _ h => nomatch h
  | some p => decidable_of_iff (p ∉ k.entries)
      ⟨fun h _ hq => Option.some.inj hq ▸ h, fun h => h p rfl⟩

/-- The task structure is allocated, linked in the zombie queue and marked
`TASK_NEW`. -/
def createBegin (k : Kernel P T S W) (t : T) (e : Option P) : Kernel P T S W :=
  { (k.addQueue .zombie t e).writeState t .new with
    allocated := Function.update k.allocated t true
    creating := some t }

/-- The rest of the new task is filled in, and the task is linked in the ready
queue. It starts outside of every semaphore. -/
def createEnd (k : Kernel P T S W) (t : T) (isThread : Bool) (e : Option P) :
    Kernel P T S W :=
  { (k.addQueue .ready t e).writeState t .ready with
    isThread := Function.update k.isThread t isThread
    pid := Function.update k.pid t (k.lastPid + 1)
    lastPid := k.lastPid + 1
    father := Function.update k.father t (some k.currTask)
    priority := Function.update k.priority t highPriority
    counter := Function.update k.counter t highPriority
    semaphore := fun i =>
      { k.semaphore i with pc := Function.update (k.semaphore i).pc t .down }
    creating := none }

/-! ## Semaphores and wait queues -/

/-- The semaphore `i` with the states of the kernel's tasks. -/
def sem (k : Kernel P T S W) (i : S) : Semaphore.St T :=
  { k.semaphore i with tasks := k.tasks }

/-- An action of the running task on the semaphore `i`. -/
def semAct (k : Kernel P T S W) (i : S) (noMem schedDisabled : Bool) :
    Option (Kernel P T S W) :=
  ((k.sem i).run k.currTask noMem schedDisabled).map fun s =>
    { k with tasks := s.tasks, semaphore := Function.update k.semaphore i s }

/-- `add_wait_queue` for the running task. -/
def addWaitQueue (k : Kernel P T S W) (w : W) (noMem : Bool) : Kernel P T S W :=
  if noMem then k
  else
    { k with
      waitQueue := Function.update k.waitQueue w (k.waitQueue w ++ [k.pid k.currTask]) }

/-- The loop body of `__wakeup_queue`. -/
def wakeupPid (k : Kernel P T S W) (pid : Int) : Kernel P T S W :=
  match k.getTaskInfo idleTask pid with
  | none => k
  | some p => { k with tasks := k.tasks.wakeupTask p }

/-- `__wakeup_queue`. -/
def wakeupQueue (k : Kernel P T S W) (w : W) : Kernel P T S W :=
  { (k.waitQueue w).foldl (wakeupPid idleTask) k with
    waitQueue := Function.update k.waitQueue w [] }

/-- One action. What the running task does itself is impossible while it is on
its way out of `kill`. -/
def step (k : Kernel P T S W) : Act P T S W → Option (Kernel P T S W)
  | .schedule => some (k.schedule idleTask kpagd)
  | .sleep =>
      if k.exiting then none
      else some { k with tasks := k.tasks.sleepTask k.currTask }
  | .wakeup t => some { k with tasks := k.tasks.wakeupTask t }
  | .semaphore i noMem schedDisabled =>
      if k.exiting then none else k.semAct i noMem schedDisabled
  | .addWaitQueue w noMem =>
      if k.exiting then none else some (k.addWaitQueue w noMem)
  | .wakeupQueue w => some (k.wakeupQueue idleTask w)
  | .createBegin t e =>
      if k.exiting = false ∧ k.creating = none ∧ k.allocated t = false ∧ k.Unused e then
        some (k.createBegin t e) else none
  | .createFail =>
      k.creating.map fun t =>
        { k with allocated := Function.update k.allocated t false, creating := none }
  | .createEnd isThread e =>
      k.creating.bind fun t =>
        let k := k.remZombie t
        if k.Unused e then some (k.createEnd t isThread e) else none
  | .kill pid =>
      if k.exiting = false ∧ k.creating = none then some (k.kill pid) else none
  | .pickZombie =>
      if k.exiting = false ∧ k.creating = none ∧ k.currTask = kpagd ∧ k.picked = none then
        some { k with
          picked := (k.queue .zombie).head?.map k.value
          queue := Function.update k.queue .zombie ((k.queue .zombie).rotate 1) }
      else none
  | .freeZombie t =>
      if k.exiting = false ∧ k.creating = none ∧ k.currTask = kpagd ∧ k.picked = some t then
        some { k.remZombie t with
          allocated := Function.update k.allocated t false, picked := none }
      else none

/-- What an action does, with the guards it has passed. -/
inductive Moves (k : Kernel P T S W) : Act P T S W → Kernel P T S W → Prop
  | schedule : k.Moves .schedule (k.schedule idleTask kpagd)
  | sleep (hrun : k.exiting = false) :
      k.Moves .sleep { k with tasks := k.tasks.sleepTask k.currTask }
  | wakeup (t : T) : k.Moves (.wakeup t) { k with tasks := k.tasks.wakeupTask t }
  | semaphore (i : S) (noMem schedDisabled : Bool) (s : Semaphore.St T) (hrun : k.exiting = false)
      (hs : (k.sem i).run k.currTask noMem schedDisabled = some s) :
      k.Moves (.semaphore i noMem schedDisabled)
        { k with tasks := s.tasks, semaphore := Function.update k.semaphore i s }
  | addWaitQueue (w : W) (noMem : Bool) : k.Moves (.addWaitQueue w noMem) (k.addWaitQueue w noMem)
  | wakeupQueue (w : W) : k.Moves (.wakeupQueue w) (k.wakeupQueue idleTask w)
  | createBegin (t : T) (e : Option P) (hfree : k.allocated t = false) (hunused : k.Unused e) :
      k.Moves (.createBegin t e) (k.createBegin t e)
  | createFail (t : T) (ht : k.creating = some t) :
      k.Moves .createFail
        { k with allocated := Function.update k.allocated t false, creating := none }
  | createEnd (t : T) (isThread : Bool) (e : Option P) (ht : k.creating = some t)
      (hunused : (k.remZombie t).Unused e) :
      k.Moves (.createEnd isThread e) ((k.remZombie t).createEnd t isThread e)
  | kill (pid : Int) (hcreating : k.creating = none) : k.Moves (.kill pid) (k.kill pid)
  | pickZombie :
      k.Moves .pickZombie { k with
        picked := (k.queue .zombie).head?.map k.value
        queue := Function.update k.queue .zombie ((k.queue .zombie).rotate 1) }
  | freeZombie (t : T) (hcreating : k.creating = none) :
      k.Moves (.freeZombie t) { k.remZombie t with
        allocated := Function.update k.allocated t false, picked := none }

theorem moves_of_step {k k' : Kernel P T S W} {act : Act P T S W}
    (hstep : k.step idleTask kpagd act = some k') : k.Moves idleTask kpagd act k' := by
  cases act with
  | schedule =>
      obtain rfl := Option.some.inj hstep
      exact .schedule
  | sleep =>
      obtain ⟨hexit, h⟩ := Option.ite_none_left_eq_some.mp hstep
      obtain rfl := Option.some.inj h
      exact .sleep (Bool.eq_false_of_not_eq_true hexit)
  | wakeup t =>
      obtain rfl := Option.some.inj hstep
      exact .wakeup t
  | semaphore i noMem schedDisabled =>
      obtain ⟨hexit, h⟩ := Option.ite_none_left_eq_some.mp hstep
      obtain ⟨s, hs, rfl⟩ := Option.map_eq_some_iff.mp h
      exact .semaphore i noMem schedDisabled s (Bool.eq_false_of_not_eq_true hexit) hs
  | addWaitQueue w noMem =>
      obtain ⟨-, h⟩ := Option.ite_none_left_eq_some.mp hstep
      obtain rfl := Option.some.inj h
      exact .addWaitQueue w noMem
  | wakeupQueue w =>
      obtain rfl := Option.some.inj hstep
      exact .wakeupQueue w
  | createBegin t e =>
      obtain ⟨⟨-, -, hfree, hunused⟩, rfl⟩ := Option.ite_some_none_eq_some.mp hstep
      exact .createBegin t e hfree hunused
  | createFail =>
      obtain ⟨t, ht, rfl⟩ := Option.map_eq_some_iff.mp hstep
      exact .createFail t ht
  | createEnd isThread e =>
      obtain ⟨t, ht, hend⟩ := Option.bind_eq_some_iff.mp hstep
      obtain ⟨hunused, rfl⟩ := Option.ite_some_none_eq_some.mp hend
      exact .createEnd t isThread e ht hunused
  | kill pid =>
      obtain ⟨⟨-, hcreating⟩, rfl⟩ := Option.ite_some_none_eq_some.mp hstep
      exact .kill pid hcreating
  | pickZombie =>
      obtain ⟨-, rfl⟩ := Option.ite_some_none_eq_some.mp hstep
      exact .pickZombie
  | freeZombie t =>
      obtain ⟨⟨-, hcreating, -⟩, rfl⟩ := Option.ite_some_none_eq_some.mp hstep
      exact .freeZombie t hcreating

end Kernel

end OsdevArchive.Minirighi.Task
