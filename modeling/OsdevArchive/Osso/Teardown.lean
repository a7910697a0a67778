import OsdevArchive.Osso.Messages
import OsdevArchive.Osso.Threads

/-!
How a process of OSSO ends: `Exit_Process` and `Destroy_Process` (`kernel/process.c`), with
`Linear_free` (`kernel/memory.c`) and the pages of `kernel/dma_memory.c`. Interrupts are
off and each semaphore is free: a call that has to wait for one goes on like this when it
gets it. Of a thread only its process and its stacks are modelled.
-/

namespace OsdevArchive.Osso.Teardown

open OsdevArchive.Lib.RingBuffer
open OsdevArchive.Osso.Messages (Index MsgHeader Pte Space Table dirIndex maxMessages tableIndex)
open OsdevArchive.Osso.Threads (Config ThreadTable entry)

/-- `DMA_Memory_Start`, as a page. -/
abbrev dmaMemoryStart : Nat := 0x10

/-- `DMA_Memory_Block_Number`. -/
abbrev dmaMemoryBlockNumber : Nat := 0x10

/-- `THREAD_KERNEL_STACKS_SIZE` and `THREAD_USER_STACKS_SIZE`. -/
def threadStacksSize : Nat := 8000

/-- An entry of a page table. -/
abbrev Slot (P : Type) := Table P × Index

/-- The pages of the processes. `tablePage` is where a page table stands; `freed` are the
pages that `freepage` got, in their order. -/
structure Pages (P : Type) where
  space : Space P
  tablePage : Table P → Nat
  freed : List Nat

/-- What `E_PID_DEAD` and `E_SUCCESS` tell. -/
inductive Result where
  | pidDead
  | success
  deriving DecidableEq

/-! ### Freeing pages -/

namespace Pages

variable {P : Type} [DecidableEq P] (m : Pages P) (processo : P)

omit [DecidableEq P] in
def freepage (page : Nat) : Pages P :=
  { m with space := m.space.freepage page, freed := m.freed ++ [page] }

omit [DecidableEq P] in
def entry (slot : Slot P) : Pte := m.space.tables slot.1 slot.2

omit [DecidableEq P] in
def slot (indirizzo : Dword) : Slot P :=
  (m.space.table processo (dirIndex indirizzo), tableIndex indirizzo)

/-- The page of an entry is freed, and the entry is no longer present. -/
def freeSlot (slot : Slot P) : Pages P :=
  let freed := m.freepage (m.entry slot).pageBaseAddr
  { freed with space := { freed.space with
      tables := Function.update m.space.tables slot.1
        (Function.update (m.space.tables slot.1) slot.2
          { m.entry slot with present := false }) } }

/-- `pages_needed` of `Linear_free`. -/
def pagesNeeded (dimensione : Nat) : Nat :=
  (dimensione + 4) / 4096 + if (dimensione + 4) % 4096 = 0 then 0 else 1

/-- The loop of `Linear_free`; it panics where nothing is mapped. -/
def freeLoop (m : Pages P) : Dword → Nat → Option (Pages P)
  | _, 0 => some m
  | indirizzo, pages + 1 =>
    let slot := m.slot processo indirizzo
    if slot.1 = .pageZero then none
    else if (m.entry slot).present then
      (m.freeSlot slot).freeLoop (indirizzo + 4096) pages
    else none

def linearFree (indirizzo : Dword) (dimensione : Nat) : Option (Pages P) :=
  m.freeLoop processo indirizzo (pagesNeeded dimensione)

/-- The inner loop of a teardown. -/
def freeFrames (m : Pages P) (pinko : Table P) : List Index → Pages P
  | [] => m
  | i :: rest =>
    if (m.entry (pinko, i)).present then (m.freeSlot (pinko, i)).freeFrames pinko rest
    else m.freeFrames pinko rest

/-- The pages of a page table, and its own. -/
def freeTable (pinko : Table P) : Pages P :=
  (m.freeFrames pinko (List.finRange 1024)).freepage (m.tablePage pinko)

/-- The outer loop. That `Exit_Process` clears the entries of a directory that it frees
makes no difference. -/
def freeTables (m : Pages P) : List Index → Pages P
  | [] => m
  | t :: rest =>
    let pinko := m.space.table processo t
    if pinko = .pageZero then m.freeTables rest else (m.freeTable pinko).freeTables rest

/-- A page is mapped behind the last one, in a new page table if need be. -/
def mapPage (page : Nat) : Option (Pages P) :=
  let k := dirIndex (m.space.lastUsedPage processo + 4096)
  match m.space.map processo page with
  | .error _ => none
  | .ok space => some { m with
      space := space
      tablePage :=
        if k.val < m.space.kernelDirs ∨ m.space.present processo k then m.tablePage
        else Function.update m.tablePage (.user processo k)
          (m.space.pagine + m.space.mem.ptPages.toNat) }

end Pages

/-- The entries of a directory from `first` on. -/
def dirsFrom (first : Nat) : List Index := (List.finRange 1024).filter fun t => first ≤ t.val

/-! ### The calls -/

structure Machine (P T : Type) where
  pages : Pages P
  pageDir : P → Nat
  /-- The page that `msgqueue` points to. -/
  msgPage : P → Nat
  msgqueue : P → RingQueue maxMessages MsgHeader
  threads : P → ThreadTable T
  active : P → Bool
  task : T → P
  pid : T → Dword
  kernelStack : T → Dword
  userStack : T → Dword
  blockUsed : Fin dmaMemoryBlockNumber → Bool

namespace Machine

variable {P T : Type} [DecidableEq P] [DecidableEq T] (m : Machine P T) (running tid : T)
  (processo : P)

omit [DecidableEq T] in
def setThread (i : Fin 10) (thread : ThreadIdx T) : Machine P T :=
  { m with
    threads := Function.update m.threads processo
      (Function.update (m.threads processo) i thread) }

/-- The table without the running thread, if it is there. -/
def clearRunning : Machine P T :=
  match entry (m.threads processo) (some running) with
  | some jj => m.setThread processo jj none
  | none => m

/-- What is tested and cleared is the kernel stack of the running thread. -/
def freeKernelStack : Option (Machine P T) :=
  if m.kernelStack running = 0 then some m
  else do
    let pages ← m.pages.linearFree (m.task tid) (m.kernelStack tid) threadStacksSize
    some { m with pages := pages, kernelStack := Function.update m.kernelStack running 0 }

/-- What is cleared is the user stack of the running thread. -/
def freeUserStack : Option (Machine P T) :=
  if m.userStack tid = 0 then some m
  else do
    let pages ← m.pages.linearFree (m.task tid) (m.userStack tid) threadStacksSize
    some { m with pages := pages, userStack := Function.update m.userStack running 0 }

/-- `Destroy_Thread`, which looks the process up by its identifier; behind the process
table there is no next state. -/
def destroyThread (cfg : Config P T) : Option (Machine P T) :=
  if tid = cfg.kernelThread ∨ tid = running then none
  else do
    let slot ← cfg.processi[(m.pid tid).toNat]?
    let m ← (m.clearRunning running slot).freeKernelStack running tid
    m.freeUserStack running tid

/-- The loop of `Exit_Process` over the threads of the process. -/
def exitThreads (cfg : Config P T) (m : Machine P T) : List (Fin 10) → Option (Machine P T)
  | [] => some m
  | i :: rest =>
    match m.threads processo i with
    | none => m.exitThreads cfg rest
    | some tid =>
      if tid = running then m.exitThreads cfg rest
      else do
        let m ← m.destroyThread running tid cfg
        (m.setThread processo i none).exitThreads cfg rest

/-- The loop of `Destroy_Process`, which panics at the running thread. -/
def destroyThreads (cfg : Config P T) (m : Machine P T) : List (Fin 10) → Option (Machine P T)
  | [] => some m
  | i :: rest =>
    match m.threads processo i with
    | none => m.destroyThreads cfg rest
    | some tid =>
      if tid = running then none
      else do
        let m ← m.destroyThread running tid cfg
        m.destroyThreads cfg rest

omit [DecidableEq P] [DecidableEq T] in
def queuedPages : List Nat := (m.msgqueue processo).contents.map MsgHeader.paginaFisica

omit [DecidableEq P] [DecidableEq T] in
/-- The pages of the queue, from `msg_head` to `msg_tail`, and the queue's own. -/
def freeMessages : Machine P T :=
  { m with pages :=
      ((m.queuedPages processo).foldl Pages.freepage m.pages).freepage (m.msgPage processo) }

omit [DecidableEq T] in
/-- The mapped pages, the page tables and the page directory, from entry `first` on. -/
def freeSpace (first : Nat) : Machine P T :=
  { m with pages := (m.pages.freeTables processo (dirsFrom first)).freepage (m.pageDir processo) }

/-- `Exit_Process` after the other threads, as far as the thread that runs then. -/
def exitSpace : Option (Machine P T) := do
  let m := m.freeMessages processo
  let m ← m.freeKernelStack running running
  let m ← m.freeUserStack running running
  some { m.freeSpace processo 31 with active := Function.update m.active processo false }

def exitProcess (cfg : Config P T) : Option (Machine P T) := do
  let processo := m.task running
  let m ← m.exitThreads running processo cfg (List.finRange 10)
  m.exitSpace running processo

def destroyProcess (cfg : Config P T) : Option (Result × Machine P T) :=
  if m.active processo = false then some (.pidDead, m)
  else do
    let m ← { m with active := Function.update m.active processo false }.destroyThreads
      running processo cfg (List.finRange 10)
    some (.success, (m.freeMessages processo).freeSpace processo 0x20)

omit [DecidableEq T] in
/-- `DMA_Memory_Get_Block`: the first free block is mapped, if there is one. -/
def dmaMemoryGetBlock : Option (Machine P T) :=
  match (List.finRange dmaMemoryBlockNumber).find? fun i => !m.blockUsed i with
  | none => some m
  | some i => do
    let pages ← m.pages.mapPage (m.task running) (dmaMemoryStart + i)
    some { m with pages := pages, blockUsed := Function.update m.blockUsed i true }

end Machine

end OsdevArchive.Osso.Teardown
