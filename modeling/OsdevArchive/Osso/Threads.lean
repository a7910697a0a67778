import OsdevArchive.Osso.Semaphore

/-!
The threads of OSSO: how they are made, stopped, continued and destroyed
(`kernel/process.c`, `kernel/signals.c`). A call runs from one `Bool_P` to the next; a
step ends there, granted or not. Of `Linear_alloc` and `Linear_free` only `Mem_Sem` is
modelled, of the thread table what decides where a thread is. Processes do not end here;
so a slot of the process table is taken once, with its semaphores free.
-/

namespace OsdevArchive.Osso.Threads

open OsdevArchive.Lib.RingBuffer OsdevArchive.Lib.Runs

/-- `MAX_SIGNALS_PENDING`. -/
def maxSignalsPending : Nat := 20

instance : NeZero maxSignalsPending := ⟨by decide⟩

abbrev signalDestroy : Dword := 20

abbrev signalStop : Dword := 21

abbrev signalCont : Dword := 22

inductive Level where
  | user
  | superVisor
  deriving DecidableEq

instance instNeZeroTable : NeZero 10 := ⟨by decide⟩

/-- The entries of `threads` in the descriptor of a process. -/
abbrev ThreadTable (T : Type) := Fin 10 → ThreadIdx T

/-- The descriptor of a process. -/
structure Task (T : Type) where
  threads : ThreadTable T
  pid : Dword
  level : Level
  active : Bool
  signalsPending : Dword
  signalsQueue : RingQueue maxSignalsPending Dword

/-- The kernel's mutexes, those of each process, and other boolean semaphores. -/
inductive Lock (P B : Type) where
  | processiMutex
  | threadsMutex
  | mutex (processo : P)
  | memSem (processo : P)
  | sigSem (processo : P)
  | other (sem : B)
  deriving DecidableEq

/-- Where a thread stands: it got what the name says, or waits for it. -/
inductive Pc (P T : Type) where
  | user
  /-- `Get_Free_Process_Slot`; without a level it is that of `fork`. -/
  | processSlot (level : Option Level)
  | newProcess (processo : P) (level : Level)
  /-- `Get_Free_Thread_Slot`, for the first thread of a new process or one of its own. -/
  | threadSlot (first : Option P)
  | forkSlot (processo : P)
  | allocKernelStack (first : Option P) (tid : T)
  | allocUserStack (first : Option P) (tid : T)
  | addThread (tid : T)
  | sigQueue (processo : P) (segnale : Dword)
  | destroyMutex (tid : T)
  | destroyKernelStack (tid : T) (processo : P)
  | destroyUserStack (tid : T) (processo : P)
  | exitMutex
  | exitKernelStack
  | exitUserStack

/-- What becomes of a thread; no field of the source says it. -/
inductive Stage where
  /-- Not made, or destroyed. -/
  | free
  /-- Until its call has put it into the table of its process. -/
  | making
  /-- To be continued by a signal: the first thread of a new process, or a thread that was
  taken out of the ready ones. -/
  | suspended
  | released
  deriving DecidableEq

/-- The slots of the process table and of the thread table, in their order, and the
kernel's own, which are the first. -/
structure Config (P T : Type) where
  processi : List P
  threads : List T
  pidKernel : P
  kernelThread : T

variable {S B P T : Type} [DecidableEq S] [DecidableEq B] [DecidableEq P] [DecidableEq T]

/-- The system; `kernelStack` and `userStack` say which threads have one. -/
structure State (P : Type) {S B T : Type} [DecidableEq S] [DecidableEq B] [DecidableEq P]
    (W : Queues (S ⊕ Lock P B) T) where
  sems : Semaphore.State W
  stage : T → Stage
  pc : T → Pc P T
  processi : P → Task T
  lastPidUsed : Dword
  task : T → P
  pid : T → Dword
  kernelStack : T → Bool
  userStack : T → Bool

variable {W : Queues (S ⊕ Lock P B) T}

/-- The first entry with this value. -/
def entry (threads : ThreadTable T) (tid : ThreadIdx T) : Option (Fin 10) :=
  (List.finRange 10).find? fun jj => threads jj = tid

namespace State

variable (s : State P W)

def goto (t : T) (pc : Pc P T) : State P W := { s with pc := Function.update s.pc t pc }

def setStage (t : T) (stage : Stage) : State P W :=
  { s with stage := Function.update s.stage t stage }

def setSched (sched : Sched T) : State P W := { s with sems := { s.sems with sched := sched } }

def setActive (t : T) (active : Bool) : State P W :=
  s.setSched { s.sems.sched with active := Function.update s.sems.sched.active t active }

def setTask (processo : P) (task : Task T) : State P W :=
  { s with processi := Function.update s.processi processo task }

def setThread (processo : P) (jj : Fin 10) (tid : ThreadIdx T) : State P W :=
  s.setTask processo { s.processi processo with
    threads := Function.update (s.processi processo).threads jj tid }

def setKernelStack (t : T) (has : Bool) : State P W :=
  { s with kernelStack := Function.update s.kernelStack t has }

def setUserStack (t : T) (has : Bool) : State P W :=
  { s with userStack := Function.update s.userStack t has }

/-- After `Bool_P` of thread `t`, which goes on at `pc`. -/
def acquired (t : T) (pc : Pc P T) (l : Lock P B) : Option (State P W) := do
  let sems ← s.sems.boolP l
  some ({ s with sems := sems }.goto t pc)

/-- After `Bool_V`. -/
def released (l : Lock P B) : Option (State P W) := do
  let sems ← s.sems.boolV l
  some { s with sems := sems }

/-- After `Add_Thread_To_CodaPronti`. -/
def added : ThreadIdx T → Option (State P W)
  | none => none
  | some tid => do
    let sched ← s.sems.sched.addThreadToCodaPronti (some tid)
    some ((s.setSched sched).setStage tid .released)

/-- After `Remove_Thread_From_CodaPronti`. -/
def removed (cfg : Config P T) (tid : T) : Option (State P W) := do
  let (found, sched) ← s.sems.sched.removeThreadFromCodaPronti cfg.kernelThread (some tid)
  some (if found then (s.setSched sched).setStage tid .suspended else s.setSched sched)

/-! ### Making threads -/

/-- `Get_Free_Process_Slot`, with its mutex. -/
def getFreeProcessSlot (cfg : Config P T) : Option (P × State P W) := do
  let processo ← cfg.processi.find? fun p => !(s.processi p).active
  let pid := s.lastPidUsed + 1
  let task := { s.processi processo with active := true, pid := pid }
  let s ← { s.setTask processo task with lastPidUsed := pid }.released .processiMutex
  some (processo, s)

/-- `Get_Free_Thread_Slot`, with its mutex. -/
def getFreeThreadSlot (cfg : Config P T) : Option (T × State P W) := do
  let tid ← cfg.threads.find? fun t => !s.sems.sched.active t
  let s ← ((s.setActive tid true).setStage tid .making).released .threadsMutex
  some (tid, s)

/-- A thread in its slot, which starts in user mode. -/
def setOwner (tid : T) (processo : P) : State P W :=
  { s with
    task := Function.update s.task tid processo
    pid := Function.update s.pid tid (s.processi processo).pid }.goto tid .user

/-- The end of `Create_Thread`, and what its caller does with the thread. -/
def created (t : T) (first : Option P) (tid : T) : Option (State P W) :=
  match first with
  | none => s.acquired t (.addThread tid) (.mutex (s.task t))
  | some processo =>
    (((s.setThread processo 0 (some tid)).setStage tid .suspended).goto t .user).released
      (.mutex processo)

/-- `Create_Thread` after the kernel stack is allocated. -/
def createUserStack (t : T) (first : Option P) (tid : T) : Option (State P W) :=
  let processo := first.getD (s.task t)
  if (s.processi processo).level = .superVisor then (s.setUserStack tid false).created t first tid
  else s.acquired t (.allocUserStack first tid) (.memSem processo)

/-- The thread of `fork`, a copy of the running one. -/
def forkThread (t : T) (processo : P) (tid : T) : Option (State P W) :=
  ((((s.setThread processo 0 (some tid)).setKernelStack tid (s.kernelStack t)).setUserStack tid
    (s.userStack t)).setOwner tid processo |>.goto t .user).added (some tid)

/-- `Add_Thread_To_Process`, and the thread made ready. Where the table is full the call
reads what stands in front of it. -/
def addThreadToProcess (t tid : T) (front : ThreadIdx T) : Option (State P W) :=
  let processo := s.task t
  match entry (s.processi processo).threads none with
  | some jj => do
    let s ← (s.setThread processo jj (some tid)).released (.mutex processo)
    (s.goto t .user).added (some tid)
  | none => do
    let s ← s.released (.mutex processo)
    (s.goto t .user).added front

/-! ### Destroying threads -/

/-- The end of `Destroy_Thread`. -/
def destroyed (t tid : T) : State P W := ((s.setActive tid false).setStage tid .free).goto t .user

/-- `Destroy_Thread` after the kernel stack; what it tests is the stack of the thread
that is destroyed, what it clears is the caller's. -/
def destroyUser (t tid : T) : Option (State P W) :=
  if s.userStack tid then
    s.acquired t (.destroyUserStack tid (s.task tid)) (.memSem (s.task tid))
  else some (s.destroyed t tid)

/-- The table without the thread, if it is there. -/
def clearThread (processo : P) (t : T) : State P W :=
  match entry (s.processi processo).threads (some t) with
  | some jj => s.setThread processo jj none
  | none => s

/-- `Destroy_Thread` after `Mutex`: the entry that it clears is the caller's. The process
is looked up by its identifier, not by its slot. -/
def destroyLocked (cfg : Config P T) (t tid : T) : Option (State P W) := do
  let processo ← cfg.processi[(s.pid tid).toNat]?
  let s ← (s.clearThread processo t).released (.mutex processo)
  if s.kernelStack t then
    s.acquired t (.destroyKernelStack tid (s.task tid)) (.memSem (s.task tid))
  else s.destroyUser t tid

/-- `Destroy_Thread`; behind the process table there is no next state. -/
def destroyThread (cfg : Config P T) (t tid : T) : Option (State P W) :=
  if tid = cfg.kernelThread then none
  else do
    let s ← s.removed cfg tid
    if tid = t then none
    else do
      let processo ← cfg.processi[(s.pid tid).toNat]?
      s.acquired t (.destroyMutex tid) (.mutex processo)

/-- `Linear_free`; a thread that blocks in it has `rest` before it. -/
def linearFree (t : T) (processo : P) (rest : Pc P T) (next : State P W → Option (State P W)) :
    Option (State P W) :=
  if 0 < s.sems.status (.inr (.memSem processo)) then do
    let sems ← s.sems.boolP (.memSem processo)
    let s ← { s with sems := sems }.released (.memSem processo)
    next s
  else s.acquired t rest (.memSem processo)

/-- The end of `Exit_Thread`, which must not return. -/
def exitEnd (t : T) : Option (State P W) := do
  let sched ← { s.sems.sched with threadInEsecuzione := none }.scheduleNextThread
  if sched.threadInEsecuzione = none then none else some ((s.setSched sched).goto t .user)

def exitUser (t : T) : Option (State P W) :=
  if s.userStack t then
    s.linearFree t (s.task t) .exitUserStack fun s => (s.setUserStack t false).exitEnd t
  else s.exitEnd t

def exitKernel (t : T) : Option (State P W) :=
  if s.kernelStack t then
    s.linearFree t (s.task t) .exitKernelStack fun s => (s.setKernelStack t false).exitUser t
  else s.exitUser t

/-- `Exit_Thread` after `Mutex`. -/
def exitLocked (cfg : Config P T) (t : T) : Option (State P W) := do
  let processo := s.task t
  let jj ← entry (s.processi processo).threads (some t)
  let s ← (s.setThread processo jj none).released (.mutex processo)
  let s ← s.removed cfg t
  ((s.setActive t false).setStage t .free).exitKernel t

/-! ### Signals -/

/-- `Signalk`; without a thread it panics, or reads in front of the thread table. -/
def signalk (cfg : Config P T) (t : T) (segnale : Dword) : ThreadIdx T → Option (State P W)
  | none => none
  | some tid =>
    if segnale = signalDestroy then s.destroyThread cfg t tid
    else if segnale = signalCont then s.added (some tid)
    else if segnale = signalStop then s.removed cfg tid
    else s.acquired t (.sigQueue (s.task tid) segnale) (.sigSem (s.task tid))

/-- `Signal`, which sends the signal to the first entry of the table. -/
def signal (cfg : Config P T) (t : T) (pid segnale : Dword) : Option (State P W) :=
  match cfg.processi.find? fun p => (s.processi p).pid = pid with
  | none => some s
  | some processo =>
    if (s.processi processo).active then
      s.signalk cfg t segnale ((s.processi processo).threads 0)
    else some s

/-- `Signalk` after `Sig_Sem`. -/
def queueSignal (processo : P) (segnale : Dword) : Option (State P W) :=
  let task := s.processi processo
  if task.signalsQueue.head = advance task.signalsQueue.tail then none
  else s.setTask processo { task with
    signalsPending := task.signalsPending + 1
    signalsQueue := task.signalsQueue.put segnale } |>.released (.sigSem processo)

end State

/-! ### Steps -/

/-- The calls of the running thread, interrupts and what interrupt handlers call. -/
inductive Act (S B T : Type) where
  | P (sem : S)
  | boolP (sem : B)
  | nonBlockP (sem : S)
  | nonBlockBoolP (sem : B)
  | V (sem : S)
  | boolV (sem : B)
  | schedule
  | createProcess (level : Level)
  | fork
  | createThread
  | exitThread
  | signal (pid segnale : Dword)
  /-- The running thread goes on in its call; `front` is what stands in front of the table of
  its process. -/
  | proceed (front : ThreadIdx T)

namespace State

variable (s : State P W)

/-- The part of a call behind a `Bool_P`. -/
def proceed (cfg : Config P T) (t : T) (front : ThreadIdx T) : Pc P T → Option (State P W)
  | .user => none
  | .processSlot (some level) => do
    let (processo, s) ← s.getFreeProcessSlot cfg
    s.acquired t (.newProcess processo level) (.mutex processo)
  | .processSlot none => do
    let (processo, s) ← s.getFreeProcessSlot cfg
    let old := s.processi (s.task t)
    s.setTask processo { old with
      threads := fun _ => none
      pid := (s.processi processo).pid
      signalsPending := 0
      signalsQueue := { old.signalsQueue with head := 0, tail := 0 } }
      |>.acquired t (.forkSlot processo) .threadsMutex
  | .newProcess processo level =>
    let old := s.processi processo
    s.setTask processo { old with
      threads := fun _ => none
      level := level
      signalsPending := 0
      signalsQueue := { old.signalsQueue with head := 0, tail := 0 } }
      |>.acquired t (.threadSlot (some processo)) .threadsMutex
  | .threadSlot first => do
    let (tid, s) ← s.getFreeThreadSlot cfg
    let processo := first.getD (s.task t)
    (s.setOwner tid processo).acquired t (.allocKernelStack first tid) (.memSem processo)
  | .forkSlot processo => do
    let (tid, s) ← s.getFreeThreadSlot cfg
    s.forkThread t processo tid
  | .allocKernelStack first tid => do
    let s ← s.released (.memSem (first.getD (s.task t)))
    (s.setKernelStack tid true).createUserStack t first tid
  | .allocUserStack first tid => do
    let s ← s.released (.memSem (first.getD (s.task t)))
    (s.setUserStack tid true).created t first tid
  | .addThread tid => s.addThreadToProcess t tid front
  | .sigQueue processo segnale => (s.goto t .user).queueSignal processo segnale
  | .destroyMutex tid => s.destroyLocked cfg t tid
  | .destroyKernelStack tid processo => do
    let s ← s.released (.memSem processo)
    (s.setKernelStack t false).destroyUser t tid
  | .destroyUserStack tid processo => do
    let s ← s.released (.memSem processo)
    some ((s.setUserStack t false).destroyed t tid)
  | .exitMutex => s.exitLocked cfg t
  | .exitKernelStack => do
    let s ← s.released (.memSem (s.task t))
    (s.setKernelStack t false).exitUser t
  | .exitUserStack => do
    let s ← s.released (.memSem (s.task t))
    (s.setUserStack t false).exitEnd t

/-- A call of a thread that runs in user mode. -/
def call (cfg : Config P T) (t : T) : Act S B T → Option (State P W)
  | .P sem => do
    let sems ← s.sems.P sem
    some { s with sems := sems }
  | .boolP sem => s.acquired t .user (.other sem)
  | .nonBlockP sem => some { s with sems := (s.sems.nonBlockP sem).2 }
  | .nonBlockBoolP sem => some { s with sems := (s.sems.nonBlockBoolP (.other sem)).2 }
  | .createProcess level => s.acquired t (.processSlot (some level)) .processiMutex
  | .fork => s.acquired t (.processSlot none) .processiMutex
  | .createThread => s.acquired t (.threadSlot none) .threadsMutex
  | .exitThread =>
    if t = cfg.kernelThread then none else s.acquired t .exitMutex (.mutex (s.task t))
  | .signal pid segnale => s.signal cfg t pid segnale
  | .V _ | .boolV _ | .schedule | .proceed _ => none

end State

/-- One step; a panic has no next state. Without a running thread there is none either:
the code then goes on as `THREAD_INVALID`. -/
def exec (cfg : Config P T) (s : State P W) (act : Act S B T) : Option (State P W) :=
  match s.sems.sched.threadInEsecuzione with
  | none => none
  | some t =>
    match act with
    | .V sem => do
      let sems ← s.sems.V sem
      some { s with sems := sems }
    | .boolV sem => s.released (.other sem)
    | .schedule => do
      let sched ← s.sems.sched.scheduleNextThread
      some (s.setSched sched)
    | .proceed front => s.proceed cfg t front (s.pc t)
    | act =>
      match s.pc t with
      | .user => s.call cfg t act
      | _ => none

/-- The kernel's process, with its thread running, and nothing else. -/
def boot (cfg : Config P T) (W : Queues (S ⊕ Lock P B) T) (value : S ⊕ B → Dword) : State P W where
  sems := Semaphore.boot W
    (Sum.elim (fun sem => value (.inl sem)) fun
      | .other sem => value (.inr sem)
      | _ => 1) cfg.kernelThread
  stage t := if t = cfg.kernelThread then .released else .free
  pc _ := .user
  processi p :=
    { threads := if p = cfg.pidKernel then fun jj => if jj = 0 then cfg.kernelThread else none
        else fun _ => none
      pid := if p = cfg.pidKernel then 4 else 0
      level := .superVisor
      active := decide (p = cfg.pidKernel)
      signalsPending := 0
      signalsQueue := { cells := fun _ => 0, head := 0, tail := 0 } }
  lastPidUsed := 4
  task _ := cfg.pidKernel
  pid _ := 0
  kernelStack _ := false
  userStack _ := false

end OsdevArchive.Osso.Threads
