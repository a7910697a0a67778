import Mathlib.Data.Finset.Insert
import Mathlib.Data.Finset.Lattice.Fold
import OsdevArchive.Minirighi.Cow

/-!
`create_process`, `create_thread`, `do_fork` and `exec_file` (`kernel/task.c`) with
all their failure points and what each of them undoes. Every allocation takes its
outcome from the environment; a block that is allocated was not live before.

`exec_file` reads from the floppy disk, through the block cache of the driver
(`drivers/floppy/floppy.c`): the blocks that it pushes there stay allocated, and those
that it drops are freed.

The error paths free the task structure first and read `pl0_stack` and `tss_sel` from
it afterwards. `kfree` releases the pages of a free block, so these reads find the
old value or, on a page that is mapped anew, zero.
-/

namespace OsdevArchive.Minirighi.TaskCreate

abbrev Addr := Nat

/-- Where memory is allocated from the kernel heap. -/
inductive Site where
  /-- `filebuffer` of `exec_file`. -/
  | file
  /-- The task structure. -/
  | task
  /-- The entry of the new task in the zombie queue. -/
  | zombieEntry
  /-- `pl0_stack`. -/
  | stack
  /-- The entry of the new task in the ready queue. -/
  | readyEntry
  /-- `set_shared_page` for the father's page directory entry `i`. -/
  | cow (i : Nat)
  | cowEntry (i : Nat)
  deriving DecidableEq

/-- The two functions through which `exec_file` reads the disk. -/
inductive Read where
  /-- `fat12_file_size`. -/
  | size
  /-- `elf32_load_file`. -/
  | load
  deriving DecidableEq

/-- What a creation meets on its way. -/
structure Env where
  /-- Whether `kmalloc` succeeds. -/
  mem : Site → Bool
  /-- The block that it returns then. -/
  block : Site → (live : Finset Addr) → {a : Addr // a ∉ live ∧ a ≠ 0}
  /-- `get_temp_page`, which never returns a page in use. -/
  tempPage : (used : Addr) → Option {a : Addr // a ≠ used}
  /-- `umalloc` finds room for the stack of a user thread. -/
  umalloc : Bool
  /-- The blocks that the floppy cache holds after a read: those of before, with what
  `floppy_cache_push_block` has allocated and what the driver has freed. -/
  cached : Read → (heap cache : Finset Addr) → {c : Finset Addr // Disjoint c heap}
  /-- What `fat12_file_size` returns. -/
  fileSize : Int
  /-- `elf32_load_file` has read the file and finds a valid header. -/
  loads : Bool
  /-- `elf32_copy_sections` finds the sections in user space. -/
  copies : Bool
  /-- The freed task structure still holds its content. -/
  kept : Bool
  /-- It does so too after the next `kfree`. -/
  keptOn : Bool

/-- An entry of a page directory. -/
structure Pde where
  present : Bool
  write : Bool
  addr : Addr
  deriving DecidableEq

/-- The state that a creation works on. An entry of a queue is its own block and the
task it points to. -/
structure Sys where
  /-- The live blocks of the kernel heap, without those of the floppy cache. -/
  heap : Finset Addr
  /-- The `floppy_cache_block_t`s and the entries of `floppy_cache`, all of them live. -/
  floppyCache : Finset Addr
  readyQueue : List (Addr × Addr)
  zombieQueue : List (Addr × Addr)
  /-- The base of each descriptor in use. -/
  gdt : Nat → Option Addr
  cow : Cow Addr
  /-- The user half of each page directory. -/
  dirs : Addr → Nat → Pde
  /-- `curr_task != NULL`. -/
  hasCurr : Bool
  /-- `curr_task->pdbr`. -/
  currPdbr : Addr
  /-- `curr_task->privilege == USER_PRIVILEGE`. -/
  userPrivilege : Bool
  /-- The page directory that is loaded. -/
  cr3 : Addr
  lastPid : Nat

/-- What a creation leaves behind: its effects, the values it returns, in `do_fork`
to the father and to the child, and whether it has succeeded. -/
structure Ret where
  sys : Sys
  values : List Nat
  ok : Bool

namespace Sys

/-! ## Resources -/

/-- `kmalloc` and `kmemalign`. -/
def kmalloc (s : Sys) (env : Env) (site : Site) : Option (Addr × Sys) :=
  if env.mem site then
    let a := (env.block site (s.heap ∪ s.floppyCache)).1
    some (a, { s with heap := insert a s.heap })
  else none

def kfree (s : Sys) (a : Addr) : Sys :=
  { s with heap := if a = 0 then s.heap else s.heap.erase a }

/-- The reads of `exec_file`, and what they leave in the heap. -/
def readFile (s : Sys) (env : Env) (read : Read) : Sys :=
  { s with floppyCache := (env.cached read s.heap s.floppyCache).1 }

/-- `add_queue( &zombie_queue, t )`, whose result is ignored. -/
def addZombie (s : Sys) (env : Env) (t : Addr) : Sys :=
  match s.kmalloc env .zombieEntry with
  | none => s
  | some (e, s) => { s with zombieQueue := s.zombieQueue ++ [(e, t)] }

/-- `rem_queue( &zombie_queue, t )`. -/
def remZombie (s : Sys) (t : Addr) : Sys :=
  match s.zombieQueue.find? fun e => e.2 = t with
  | none => s
  | some e => { s with zombieQueue := s.zombieQueue.eraseP fun e => e.2 = t }.kfree e.1

/-- `add_queue( &ready_queue, t )`. -/
def addReady (s : Sys) (env : Env) (t : Addr) : Sys :=
  match s.kmalloc env .readyEntry with
  | none => s
  | some (e, s) => { s with readyQueue := s.readyQueue ++ [(e, t)] }

/-- `GDT_DIM`. -/
def gdtDim : Nat := 8192

/-- The first unused descriptor; the dummy one is skipped. -/
def freeSel (s : Sys) : Option Nat :=
  (List.range' 1 (gdtDim - 1)).find? fun i => s.gdt i = none

/-- `setup_GDT_entry`. -/
def setupGDTEntry (s : Sys) (base : Addr) : Option (Nat × Sys) :=
  s.freeSel.map fun i => (i, { s with gdt := Function.update s.gdt i (some base) })

/-- `remove_GDT_entry`. -/
def removeGDTEntry (s : Sys) (sel : Nat) : Sys :=
  { s with gdt := Function.update s.gdt sel none }

def setPde (s : Sys) (dir : Addr) (i : Nat) (pde : Pde) : Sys :=
  { s with dirs := Function.update s.dirs dir (Function.update (s.dirs dir) i pde) }

/-- `set_shared_page`, with the two blocks of a new entry. -/
def setSharedPage (s : Sys) (env : Env) (i : Nat) (addr : Addr) : Except Sys Sys :=
  if (s.cow addr).isSome then
    match s.cow.setSharedPage addr true with
    | none => .error s
    | some cow => .ok { s with cow := cow }
  else
    match s.kmalloc env (.cow i) with
    | none => .error s
    | some (p, s) =>
        match s.kmalloc env (.cowEntry i) with
        | none => .error (s.kfree p)
        | some (_, s) =>
            match s.cow.setSharedPage addr true with
            | none => .error s
            | some cow => .ok { s with cow := cow }

end Sys

/-! ## The parts that the four functions share -/

/-- The new task: its structure, `pl0_stack`, and `tss_sel` as an index. -/
structure NewTask where
  task : Addr
  pl0Stack : Addr
  tssSel : Nat

open Sys

/-- `kfree( new_task ); kfree( (void *)(new_task->pl0_stack) );` -/
def Sys.abandon (s : Sys) (env : Env) (n : NewTask) : Sys :=
  (s.kfree n.task).kfree (if env.kept then n.pl0Stack else 0)

/-- The same, with `remove_GDT_entry( new_task->tss_sel )` behind it. -/
def Sys.abandonGDT (s : Sys) (env : Env) (n : NewTask) : Sys :=
  (s.abandon env n).removeGDTEntry (if env.kept && env.keptOn then n.tssSel else 0)

/-- The structure, its link in the zombie queue, the stack and the descriptor. Only
`exec_file` has a file buffer to free; the others pass `NULL`. -/
def beginTask (env : Env) (file : Addr) (s : Sys) : Except Sys (NewTask × Sys) :=
  match s.kmalloc env .task with
  | none => .error (s.kfree file)
  | some (t, s) =>
      let s := s.addZombie env t
      match s.kmalloc env .stack with
      | none => .error ((s.kfree file).kfree t)
      | some (stack, s) =>
          match s.setupGDTEntry t with
          | none => .error ((s.kfree file).abandon env ⟨t, stack, 0⟩)
          | some (sel, s) => .ok (⟨t, stack, sel⟩, s)

/-- `new_vspace`: an empty user half. -/
def newVspace (env : Env) (s : Sys) : Option (Addr × Sys) :=
  (env.tempPage s.currPdbr).map fun p =>
    (p.1, { s with dirs := Function.update s.dirs p.1 fun _ => ⟨false, false, 0⟩ })

/-- The new task gets its pid and moves to the ready queue. -/
def finishTask (env : Env) (n : NewTask) (s : Sys) : Sys :=
  { ((s.remZombie n.task).addReady env n.task) with lastPid := s.lastPid + 1 }

/-- `return( NULL )`. -/
def failed (s : Sys) : Ret := ⟨s, [0], false⟩

/-! ## The four functions -/

def createProcess (env : Env) (s : Sys) : Ret :=
  match beginTask env 0 s with
  | .error s => failed s
  | .ok (n, s) =>
      match newVspace env s with
      | none => failed (s.abandonGDT env n)
      | some (pdbr, s) =>
          let s := { s with cr3 := if s.hasCurr then s.currPdbr else pdbr }
          ⟨finishTask env n s, [n.task], true⟩

def createThread (env : Env) (s : Sys) : Ret :=
  if s.hasCurr then
    match beginTask env 0 s with
    | .error s => failed s
    | .ok (n, s) =>
        if s.userPrivilege && !env.umalloc then failed (s.abandon env n)
        else ⟨finishTask env n s, [n.task], true⟩
  else failed s

/-- The loop body of `do_fork`: the father's entry is write-protected, copied, and its
page table counted as shared. -/
def forkPde (env : Env) (pdbr : Addr) (s : Sys) (i : Nat) : Except Sys Sys :=
  let pde := { s.dirs s.currPdbr i with write := false }
  let s := (s.setPde s.currPdbr i pde).setPde pdbr i pde
  if pde.present then s.setSharedPage env i pde.addr else .ok s

/-- `PDE_INDEX( K_VIR_START )`. -/
def userPdes : Nat := 768

def doFork (env : Env) (s : Sys) : Ret :=
  match beginTask env 0 s with
  | .error s => failed s
  | .ok (n, s) =>
      match newVspace env s with
      | none => failed (s.abandonGDT env n)
      | some (pdbr, s) =>
          match (List.range userPdes).foldlM (forkPde env pdbr) s with
          | .error s => failed (s.abandonGDT env n)
          | .ok s =>
              let s := finishTask env n s
              -- `eax` of the child is 0.
              ⟨s, [s.lastPid, 0], true⟩

def execFile (env : Env) (s : Sys) : Ret :=
  let s := s.readFile env .size
  if env.fileSize ≤ 0 then failed s
  else
    match s.kmalloc env .file with
    | none => failed s
    | some (file, s) =>
        let s := s.readFile env .load
        if env.loads then
          match beginTask env file s with
          | .error s => failed s
          | .ok (n, s) =>
              match newVspace env s with
              | none => failed ((s.kfree file).abandonGDT env n)
              | some (pdbr, s) =>
                  if env.copies then
                    let s := { s with cr3 := s.currPdbr }
                    ⟨(finishTask env n s).kfree file, [n.task], true⟩
                  else failed (({ s with cr3 := pdbr }.kfree file).abandonGDT env n)
        else failed (s.kfree file)

inductive Call where
  | createProcess
  | createThread
  | doFork
  | execFile

def Call.run (call : Call) (env : Env) (s : Sys) : Ret :=
  match call with
  | .createProcess => TaskCreate.createProcess env s
  | .createThread => TaskCreate.createThread env s
  | .doFork => TaskCreate.doFork env s
  | .execFile => TaskCreate.execFile env s

end OsdevArchive.Minirighi.TaskCreate
