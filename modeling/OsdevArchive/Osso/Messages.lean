import OsdevArchive.Osso.Memory
import OsdevArchive.Osso.Semaphore

/-!
The messages of OSSO (`kernel/messages.c`). A message is a page: `sendmsg` unmaps it from
the sender and queues its frame, `recmsg` maps it behind the last page that the receiver
uses. A call runs from one semaphore operation to the next; between any two of them other
threads can run. Processes and their threads stay as they are, and the kernel thread,
which only idles, makes no calls.
-/

namespace OsdevArchive.Osso.Messages

open OsdevArchive.Lib.RingBuffer OsdevArchive.Lib.Runs

/-- What `PDE` and `PTE` arrays are indexed by. -/
abbrev Index := Fin 1024

instance instNeZeroIndex : NeZero 1024 := ⟨by decide⟩

/-- `MAX_MESSAGES`: a page of `MSG_HEADER`. -/
def maxMessages : Nat := 4096 / 12

instance : NeZero maxMessages := ⟨by decide⟩

/-- `NO_BLOCK`. -/
def noBlock : Dword := 100

/-- `MSG_HEADER`; the page is given by its physical page number. -/
structure MsgHeader where
  mittente : Dword
  dimensione : Dword
  paginaFisica : Nat
  deriving DecidableEq

structure Pte where
  pageBaseAddr : Nat
  present : Bool
  deriving DecidableEq

/-- The page tables: of the kernel part, which all processes share, and of the user part
of a process. An entry of a page directory that was never present leads to page 0. -/
inductive Table (P : Type) where
  | pageZero
  | kernel (k : Index)
  | user (processo : P) (k : Index)
  deriving DecidableEq

/-- `Mem_Sem`, `Msg_Sem` and `Processi_Mutex`. -/
inductive Lock (P : Type) where
  | memSem (processo : P)
  | msgSem (processo : P)
  | processiMutex
  deriving DecidableEq

inductive Panic where
  /-- In `P` or `V`. -/
  | semaphore
  /-- `P` returns without a grant, for no thread is ready. -/
  | ungranted
  | memoryFinished
  | maxMessages
  /-- The branch of `recmsg` for an empty queue. -/
  | shouldNotHappen
  /-- Not a panic: there is no such step. -/
  | noCall
  deriving DecidableEq

/-! ### The pages of the processes -/

/-- Page directories, page tables and the physical pages. The first `kernelDirs` entries
of the directories are those of `Kernel_Page_Dir`; `pagine` is the number of the first
page that the allocator hands out. -/
structure Space (P : Type) where
  kernelDirs : Nat
  present : P → Index → Bool
  tables : Table P → Index → Pte
  lastUsedPage : P → Dword
  pagine : Nat
  mem : Memory.State

def dirIndex (addr : Dword) : Index := Fin.ofNat 1024 (addr >>> 22).toNat

/-- The index is taken modulo 1024. -/
def tableIndex (addr : Dword) : Index := Fin.ofNat 1024 (addr >>> 12).toNat

namespace Space

variable {P : Type} [DecidableEq P]

omit [DecidableEq P] in
/-- Where the entry of a page directory leads. -/
def table (m : Space P) (processo : P) (k : Index) : Table P :=
  if k.val < m.kernelDirs then .kernel k
  else if m.present processo k then .user processo k
  else .pageZero

omit [DecidableEq P] in
def pte (m : Space P) (processo : P) (addr : Dword) : Pte :=
  m.tables (m.table processo (dirIndex addr)) (tableIndex addr)

def setPte (m : Space P) (processo : P) (addr : Dword) (entry : Pte) : Space P :=
  let table := m.table processo (dirIndex addr)
  { m with
    tables := Function.update m.tables table
      (Function.update (m.tables table) (tableIndex addr) entry) }

/-- `page_table[k].Present=0`. -/
def unmap (m : Space P) (processo : P) (addr : Dword) : Space P :=
  m.setPte processo addr { m.pte processo addr with present := false }

omit [DecidableEq P] in
/-- `freepage`, which for a page below `pagine` writes in front of `pagelist`. -/
def freepage (m : Space P) (page : Nat) : Space P :=
  if m.pagine ≤ page then { m with mem := (Memory.freepage (page - m.pagine) m.mem).2 } else m

/-- The page table for the address, or a new one. -/
def withTable (m : Space P) (processo : P) (addr : Dword) : Except Panic (Space P) :=
  let k := dirIndex addr
  if k.val < m.kernelDirs ∨ m.present processo k then .ok m
  else
    let (result, mem) := Memory.getpagetable m.mem
    if result = .null then .error .memoryFinished
    else .ok { m with
      mem := mem
      present := Function.update m.present processo (Function.update (m.present processo) k true)
      tables := Function.update m.tables (.user processo k) fun _ => ⟨0, false⟩ }

/-- What `getbmsg` and `recmsg` do with a page while they hold `Mem_Sem`. -/
def map (m : Space P) (processo : P) (page : Nat) : Except Panic (Space P) := do
  let addr := m.lastUsedPage processo + 4096
  let m ← { m with lastUsedPage := Function.update m.lastUsedPage processo addr }
    |>.withTable processo addr
  .ok (m.setPte processo addr ⟨page, true⟩)

end Space

/-! ### The calls -/

/-- Where a thread stands; what it does next is in the name. -/
inductive Pc (P : Type) where
  | user
  | bmsgMap (buffer : Nat)
  | sendFind (destinatario dimensione msgAddr : Dword)
  | sendUnmap (dest : P) (dimensione msgAddr : Dword)
  | sendMsgSem (dest : P) (header : MsgHeader)
  | sendQueue (dest : P) (header : MsgHeader)
  | sendMutex (dest : P)
  | sendMessages (dest : P)
  | recMsgSem
  | recTake
  | recMemSem (physical : Nat)
  | recMap (physical : Nat)

/-- The process table, the processes of the threads, and memory when messages start:
the pages that a process uses end on a page boundary above the kernel's part. -/
structure Config (P T : Type) where
  processi : List P
  pid : P → Dword
  active : P → Bool
  task : T → P
  kernelThread : T
  space : Space P
  boundary : ∀ p, (space.lastUsedPage p).toNat % 4096 = 0
  above : ∀ p, space.kernelDirs * 2 ^ 22 ≤ (space.lastUsedPage p).toNat

/-- The system. `sent` and `received` are the messages that were queued for each process
and taken from its queue. -/
structure State (P T : Type) [DecidableEq P] (W : Queues (P ⊕ Lock P) T) where
  sems : Semaphore.State W
  pc : T → Pc P
  space : Space P
  msgqueue : P → RingQueue maxMessages MsgHeader
  sent : P → List MsgHeader
  received : P → List MsgHeader

inductive Act (T : Type) where
  | getbmsg
  | freemsg (msg : Dword)
  | sendmsg (destinatario dimensione msgAddr : Dword)
  | recmsg (flags : Dword)
  /-- The running thread goes on to its next semaphore operation. -/
  | proceed
  | schedule
  | create (t : T)

variable {P T : Type} [DecidableEq P] [DecidableEq T] {W : Queues (P ⊕ Lock P) T}

namespace State

variable (s : State P T W) (t : T)

/-- After `P` or `Bool_P` of the running thread. -/
def acquired (pc : Pc P) : Option (Semaphore.State W) → Except Panic (State P T W)
  | none => .error .semaphore
  | some sems =>
    if sems.sched.threadInEsecuzione = none then .error .ungranted
    else .ok { s with sems := sems, pc := Function.update s.pc t pc }

/-- After `V` or `Bool_V`. -/
def released (pc : Pc P) : Option (Semaphore.State W) → Except Panic (State P T W)
  | none => .error .semaphore
  | some sems => .ok { s with sems := sems, pc := Function.update s.pc t pc }

def getbmsg (processo : P) : Except Panic (State P T W) :=
  match Memory.getpage s.space.mem with
  | (.page i, mem) =>
    { s with space := { s.space with mem := mem } }.acquired t (.bmsgMap (s.space.pagine + i))
      (s.sems.boolP (.memSem processo))
  | _ => .error .memoryFinished

def freemsg (processo : P) (msg : Dword) : Except Panic (State P T W) :=
  let page := (s.space.pte processo msg).pageBaseAddr
  .ok { s with space := (s.space.unmap processo msg).freepage page }

def recmsg (processo : P) (flags : Dword) : Except Panic (State P T W) :=
  if flags = noBlock then
    let (code, sems) := s.sems.nonBlockP processo
    if code = .shouldBlock then .ok s
    else .ok { s with sems := sems, pc := Function.update s.pc t .recMsgSem }
  else s.acquired t .recMsgSem (s.sems.P processo)

/-- The message at the end of the queue. -/
def queueMsg (dest : P) (header : MsgHeader) : State P T W :=
  { s with
    msgqueue := Function.update s.msgqueue dest ((s.msgqueue dest).put header)
    sent := Function.update s.sent dest (s.sent dest ++ [header]) }

/-- The queue without its first message. -/
def takeMsg (processo : P) (header : MsgHeader) : State P T W :=
  { s with
    msgqueue := Function.update s.msgqueue processo (s.msgqueue processo).take
    received := Function.update s.received processo (s.received processo ++ [header]) }

/-- The rest of a call, up to its next semaphore operation. -/
def proceed (cfg : Config P T) : Pc P → Except Panic (State P T W)
  | .user => .error .noCall
  | .bmsgMap page | .recMap page => do
    let space ← s.space.map (cfg.task t) page
    { s with space := space }.released t .user (s.sems.boolV (.memSem (cfg.task t)))
  | .sendFind destinatario dimensione msgAddr =>
    match cfg.processi.find? fun p => cfg.pid p = destinatario with
    | none => s.released t .user (s.sems.boolV .processiMutex)
    | some dest =>
      if cfg.active dest then
        s.acquired t (.sendUnmap dest dimensione msgAddr) (s.sems.boolP (.memSem (cfg.task t)))
      else s.released t .user (s.sems.boolV .processiMutex)
  | .sendUnmap dest dimensione msgAddr =>
    let page := (s.space.pte (cfg.task t) msgAddr).pageBaseAddr
    { s with space := s.space.unmap (cfg.task t) msgAddr }.released t
      (.sendMsgSem dest ⟨cfg.pid (cfg.task t), dimensione, page⟩)
      (s.sems.boolV (.memSem (cfg.task t)))
  | .sendMsgSem dest header => s.acquired t (.sendQueue dest header) (s.sems.boolP (.msgSem dest))
  | .sendQueue dest header =>
    if (s.msgqueue dest).head = advance (s.msgqueue dest).tail then .error .maxMessages
    else (s.queueMsg dest header).released t (.sendMutex dest) (s.sems.boolV (.msgSem dest))
  | .sendMutex dest => s.released t (.sendMessages dest) (s.sems.boolV .processiMutex)
  | .sendMessages dest => s.released t .user (s.sems.V dest)
  | .recMsgSem => s.acquired t .recTake (s.sems.boolP (.msgSem (cfg.task t)))
  | .recTake =>
    let queue := s.msgqueue (cfg.task t)
    if queue.tail = queue.head then .error .shouldNotHappen
    else
      let header := queue.cells queue.head
      (s.takeMsg (cfg.task t) header).released t (.recMemSem header.paginaFisica)
        (s.sems.boolV (.msgSem (cfg.task t)))
  | .recMemSem physical =>
    s.acquired t (.recMap physical) (s.sems.boolP (.memSem (cfg.task t)))

/-- A thread that runs in user mode makes a call. -/
def call (cfg : Config P T) : Act T → Except Panic (State P T W)
  | .getbmsg => s.getbmsg t (cfg.task t)
  | .freemsg msg => s.freemsg (cfg.task t) msg
  | .sendmsg destinatario dimensione msgAddr =>
    s.acquired t (.sendFind destinatario dimensione msgAddr) (s.sems.boolP .processiMutex)
  | .recmsg flags => s.recmsg t (cfg.task t) flags
  | .proceed | .schedule | .create _ => .error .noCall

/-- `Schedule_Next_Thread` and the creation of threads. -/
def systemStep (act : Semaphore.Act P (Lock P) T) : Except Panic (State P T W) :=
  match Semaphore.exec s.sems act with
  | none => .error .semaphore
  | some sems => .ok { s with sems := sems }

end State

/-- One step. -/
def exec (cfg : Config P T) (s : State P T W) (act : Act T) : Except Panic (State P T W) :=
  match act, s.sems.sched.threadInEsecuzione with
  | .schedule, _ => s.systemStep .schedule
  | .create t, _ => s.systemStep (.create t)
  | _, none => .error .noCall
  | .proceed, some t => s.proceed t cfg (s.pc t)
  | act, some t =>
    match s.pc t with
    | .user => if t = cfg.kernelThread then .error .noCall else s.call t cfg act
    | _ => .error .noCall

/-- The state after a step without a panic. -/
def next (cfg : Config P T) (s : State P T W) (act : Act T) : Option (State P T W) :=
  (exec cfg s act).toOption

/-- Pages that are mapped above the last page a process uses are none of its own. -/
def Space.fresh (m : Space P) : Space P :=
  { m with
    tables := fun
      | .user processo k => fun j =>
        if (m.lastUsedPage processo).toNat / 4096 < 1024 * k.val + j.val then ⟨0, false⟩
        else m.tables (.user processo k) j
      | .kernel k => m.tables (.kernel k)
      | .pageZero => m.tables .pageZero }

/-- After the processes are created: the queues are empty and nothing is mapped above
the last page that a process uses. -/
def boot (cfg : Config P T) (W : Queues (P ⊕ Lock P) T) : State P T W where
  sems := Semaphore.boot W (Sum.elim (fun _ => 0) fun _ => 1) cfg.kernelThread
  pc _ := .user
  space := cfg.space.fresh
  msgqueue _ := { cells := fun _ => ⟨0, 0, 0⟩, head := 0, tail := 0 }
  sent _ := []
  received _ := []

end OsdevArchive.Osso.Messages
