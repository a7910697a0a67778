import OsdevArchive.Minirighi.Cow
import Mathlib.Data.List.FinRange

/-!
The user half of the address spaces of minirighi: `map_page`, `delete_page` and the two page
fault handlers (`arch/i386/kernel/paging.c`), the part of `do_fork` that copies the page
directory (`kernel/task.c`), and the loop of `kpagerd` that frees an address space
(`kernel/kpagerd.c`). `A` names the address spaces and `F` the frames. An address space that
is not loaded is worked on after a switch to it, so that every function takes the address
space that it works on. What the frames hold as pages of user memory is not modelled.
-/

namespace OsdevArchive.Minirighi.Paging

/-- The entries of a page directory below `PDE_INDEX(K_VIR_START)`. -/
abbrev PdIndex := Fin 768

abbrev PtIndex := Fin 1024

/-- A present entry of a page directory or a page table. -/
structure Entry (F : Type*) where
  frame : F
  write : Bool
  deriving DecidableEq

structure St (A F : Type*) where
  /-- The entries of the page directories. -/
  dirs : A × PdIndex → Option (Entry F)
  /-- A frame as a page table. -/
  tables : F → PtIndex → Option (Entry F)
  cow : Cow F
  freeFrames : List F
  /-- How far `free_frames` is above the end of the kernel. -/
  popped : Nat
  /-- The frames that were popped for the kernel half of the address spaces. -/
  kernel : List F
  /-- The frame of the page directory of an address space. -/
  pdbr : A → Option F

/-- What a function returns; `panic` is a fault of the kernel itself. -/
inductive Ret where
  | ok
  | enomem
  | efault
  | panic
  deriving DecidableEq

variable {A F : Type*}

namespace St

/-! ### Free frames -/

/-- `pop_frame`. -/
def popFrame (s : St A F) : Option (F × St A F) :=
  match s.freeFrames with
  | [] => none
  | f :: rest => some (f, { s with freeFrames := rest, popped := s.popped + 1 })

/-- `push_frame`. -/
def pushFrame (s : St A F) (f : F) : St A F :=
  if s.popped = 0 then s else { s with freeFrames := f :: s.freeFrames, popped := s.popped - 1 }

/-! ### Entries -/

/-- The entries of the copy of a page table. -/
def readOnly (table : PtIndex → Option (Entry F)) (k : PtIndex) : Option (Entry F) :=
  (table k).map fun pte => { pte with write := false }

def setPde [DecidableEq A] (s : St A F) (a : A) (i : PdIndex) (pde : Option (Entry F)) :
    St A F :=
  { s with dirs := Function.update s.dirs (a, i) pde }

variable [DecidableEq F]

def setTable (s : St A F) (t : F) (table : PtIndex → Option (Entry F)) : St A F :=
  { s with tables := Function.update s.tables t table }

def setPte (s : St A F) (t : F) (j : PtIndex) (pte : Option (Entry F)) : St A F :=
  s.setTable t (Function.update (s.tables t) j pte)

variable [DecidableEq A]

/-! ### Mapping -/

/-- `map_page`, for a present page. Since `CR0.WP` is set, the kernel cannot write into a page
table whose directory entry is not writable. -/
def mapPage (s : St A F) (a : A) (i : PdIndex) (j : PtIndex) (f : F) (write : Bool) :
    St A F × Ret :=
  match s.dirs (a, i) with
  | none =>
    match s.popFrame with
    | none => (s, .enomem)
    | some (t, s) =>
      let s := (s.setPde a i (some ⟨t, true⟩)).setTable t fun _ => none
      (s.setPte t j (some ⟨f, write⟩), .ok)
  | some pde =>
    if pde.write then (s.setPte pde.frame j (some ⟨f, write⟩), .ok) else (s, .panic)

/-- The loop over a page table that is copied: each page that it maps becomes shared. The
second component tells whether there was memory for all counters. -/
def shareEntries (mem : PtIndex → Bool) (table : PtIndex → Option (Entry F)) :
    List PtIndex → Cow F → Cow F × Bool
  | [], cow => (cow, true)
  | k :: rest, cow =>
    match table k with
    | none => shareEntries mem table rest cow
    | some pte =>
      match cow.setSharedPage pte.frame (mem k) with
      | none => (cow, false)
      | some cow => shareEntries mem table rest cow

/-- The first write to a shared page table `t`: the copy of it in `new`. -/
def copyTable (s : St A F) (mem : PtIndex → Bool) (a : A) (i : PdIndex) (t new : F) :
    St A F × Ret :=
  let table := s.tables t
  let s := s.setPde a i (some ⟨new, true⟩)
  match shareEntries mem table (List.finRange 1024) s.cow with
  | (cow, false) => ({ s with cow }, .enomem)
  | (cow, true) => ({ s with cow }.setTable new (readOnly table), .ok)

/-- A page is unset as shared and, when it was not, its frame freed. A frame outside the
managed memory is not put on the stack. -/
def releasePage (s : St A F) (managed : F → Bool) (f : F) : St A F :=
  match s.cow.unsetSharedPage f with
  | (cow, 0) => if managed f then { s with cow }.pushFrame f else { s with cow }
  | (cow, _ + 1) => { s with cow }

/-- The part of `delete_page` behind the check of the page table `t`. -/
def deletePte (s : St A F) (managed : F → Bool) (a : A) (i : PdIndex) (j : PtIndex) (t : F) :
    St A F :=
  match s.tables t j with
  | none => s
  | some pte =>
    let s := (s.releasePage managed pte.frame).setPte t j none
    if (List.finRange 1024).all fun k => (s.tables t k).isNone then
      (s.pushFrame t).setPde a i none
    else s

/-- `delete_page`. -/
def deletePage (s : St A F) (managed : F → Bool) (mem : PtIndex → Bool) (a : A) (i : PdIndex)
    (j : PtIndex) : St A F :=
  match s.dirs (a, i) with
  | none => s
  | some pde =>
    match s.cow.unsetSharedPage pde.frame with
    | (cow, 0) =>
      let s := { s with cow }.setPde a i (some { pde with write := true })
      s.deletePte managed a i j pde.frame
    | (cow, _ + 1) =>
      -- The page table is shared.
      match { s with cow }.popFrame with
      | none => { s with cow }
      | some (new, s) =>
        match s.copyTable mem a i pde.frame new with
        | (s, .ok) => s.deletePte managed a i j new
        | (s, _) => s

/-! ### Page faults -/

/-- `page_fault_handler` for a user address; `null` tells whether it is the `NULL` pointer. -/
def pageFaultHandler (s : St A F) (a : A) (i : PdIndex) (j : PtIndex) (null : Bool) :
    St A F × Ret :=
  if null then (s, .efault)
  else
    match s.popFrame with
    | none => (s, .enomem)
    | some (f, s) => s.mapPage a i j f true

/-- The first half of `page_fault_cow_handler`: the page table is made writable for this
address space. -/
def cowTable (s : St A F) (mem : PtIndex → Bool) (a : A) (i : PdIndex) (pde : Entry F) :
    St A F × Ret :=
  if pde.write then (s, .ok)
  else
    match s.popFrame with
    | none => (s, .enomem)
    | some (new, s) =>
      match s.cow.unsetSharedPage pde.frame with
      | (cow, 0) =>
        (({ s with cow }.setPde a i (some { pde with write := true })).pushFrame new, .ok)
      | (cow, _ + 1) => { s with cow }.copyTable mem a i pde.frame new

/-- The second half, for the entry `pte` of the page table `t`. -/
def cowPage (s : St A F) (a : A) (i : PdIndex) (j : PtIndex) (t : F) (pte : Entry F) :
    St A F × Ret :=
  match s.popFrame with
  | none => (s, .enomem)
  | some (new, s) =>
    match s.cow.unsetSharedPage pte.frame with
    | (cow, 0) =>
      (({ s with cow }.setPte t j (some { pte with write := true })).pushFrame new, .ok)
    | (cow, _ + 1) => { s with cow }.mapPage a i j new true

/-- The entries that map a page. -/
def entries (s : St A F) (a : A) (i : PdIndex) (j : PtIndex) : Option (Entry F × Entry F) :=
  (s.dirs (a, i)).bind fun pde => (s.tables pde.frame j).map fun pte => (pde, pte)

/-- `page_fault_cow_handler` for a user address that is mapped. -/
def pageFaultCowHandler (s : St A F) (mem : PtIndex → Bool) (a : A) (i : PdIndex) (j : PtIndex)
    (null : Bool) (pde : Entry F) : St A F × Ret :=
  if null then (s, .efault)
  else
    match s.cowTable mem a i pde with
    | (s, .ok) =>
      match s.entries a i j with
      | none => (s, .panic)
      | some (pde, pte) => s.cowPage a i j pde.frame pte
    | (s, ret) => (s, ret)

/-! ### Address spaces -/

/-- No entry of the user half. -/
def clearDir (s : St A F) (a : A) : St A F :=
  { s with dirs := fun x => if x.1 = a then none else s.dirs x }

/-- `new_vspace`: a temporary page for the page directory. Where the page table of the
temporary pages is missing, `map_page` takes another frame for it, and without one the first
frame is lost. -/
def newVspace (s : St A F) (a : A) (table : Bool) : St A F × Ret :=
  match s.popFrame with
  | none => (s, .enomem)
  | some (f, s) =>
    let made := { s.clearDir a with pdbr := Function.update s.pdbr a (some f) }
    if table then (made, .ok)
    else
      match made.popFrame with
      | none => (s, .enomem)
      | some (t, made) => ({ made with kernel := t :: made.kernel }, .ok)

/-- The loop of `do_fork` over the page directory of the father. -/
def forkLoop (mem : PdIndex → Bool) (father child : A) : List PdIndex → St A F → St A F × Ret
  | [], s => (s, .ok)
  | i :: rest, s =>
    let pde := (s.dirs (father, i)).map fun pde => { pde with write := false }
    let s := (s.setPde father i pde).setPde child i pde
    match pde with
    | none => forkLoop mem father child rest s
    | some pde =>
      match s.cow.setSharedPage pde.frame (mem i) with
      | none => (s, .enomem)
      | some cow => forkLoop mem father child rest { s with cow }

/-- `do_fork`. -/
def doFork (s : St A F) (mem : PdIndex → Bool) (father child : A) (table : Bool) :
    St A F × Ret :=
  match s.newVspace child table with
  | (s, .ok) => forkLoop mem father child (List.finRange 768) s
  | (s, ret) => (s, ret)

/-- The loop of `kpagerd` over the pages of one page table. It goes on to the next one when
the directory entry is gone. -/
def sweepTable (managed : F → Bool) (mem : PtIndex → PtIndex → Bool) (a : A) (i : PdIndex) :
    List PtIndex → St A F → St A F
  | [], s => s
  | j :: rest, s =>
    if (s.dirs (a, i)).isNone then s
    else sweepTable managed mem a i rest (s.deletePage managed (mem j) a i j)

/-- The loop of `kpagerd` over the user half. -/
def sweep (managed : F → Bool) (mem : PdIndex → PtIndex → PtIndex → Bool) (a : A) :
    List PdIndex → St A F → St A F
  | [], s => s
  | i :: rest, s =>
    sweep managed mem a rest (sweepTable managed (mem i) a i (List.finRange 1024) s)

/-- The end of a process: `kpagerd` frees its pages and its page directory. -/
def deletePageDir (s : St A F) (managed : F → Bool)
    (mem : PdIndex → PtIndex → PtIndex → Bool) (a : A) : St A F :=
  let s := sweep managed mem a (List.finRange 768) s
  match s.pdbr a with
  | none => s
  | some f =>
    let s := { s.clearDir a with pdbr := Function.update s.pdbr a none }
    if managed f then s.pushFrame f else s

end St

/-! ### Steps -/

/-- What happens to the address spaces. -/
inductive Op (A F : Type*) where
  | create (a : A) (table : Bool)
  | fork (father child : A) (mem : PdIndex → Bool) (table : Bool)
  | fault (a : A) (i : PdIndex) (j : PtIndex) (null : Bool)
  | cowFault (a : A) (i : PdIndex) (j : PtIndex) (null : Bool) (mem : PtIndex → Bool)
  | mapPage (a : A) (i : PdIndex) (j : PtIndex) (f : F) (write : Bool)
  | deletePage (a : A) (i : PdIndex) (j : PtIndex) (mem : PtIndex → Bool)
  | deletePageDir (a : A) (mem : PdIndex → PtIndex → PtIndex → Bool)
  /-- The kernel half gets a frame, or gives one back that was a page or a page table. -/
  | takeFrame
  | giveFrame (f : F) (table : Bool)

variable [DecidableEq A] [DecidableEq F]

/-- One step. A task whose page fault fails is killed, and its address space stays as it is
until `kpagerd` frees it. The frames that `map_page` maps for a user by themselves are those of
the BIOS, below the managed memory. -/
def St.exec (managed : F → Bool) (s : St A F) : Op A F → Option (St A F)
  | .create a table => if (s.pdbr a).isNone then some (s.newVspace a table).1 else none
  | .fork father child mem table =>
    if (s.pdbr father).isSome && (s.pdbr child).isNone then
      some (s.doFork mem father child table).1
    else none
  | .fault a i j null =>
    if (s.pdbr a).isSome && (s.entries a i j).isNone then
      some (s.pageFaultHandler a i j null).1
    else none
  | .cowFault a i j null mem =>
    match s.entries a i j with
    | none => none
    | some (pde, pte) =>
      if pde.write && pte.write then none
      else some (s.pageFaultCowHandler mem a i j null pde).1
  | .mapPage a i j f write =>
    if (s.pdbr a).isSome && !managed f then some (s.mapPage a i j f write).1 else none
  | .deletePage a i j mem =>
    if (s.pdbr a).isSome then some (s.deletePage managed mem a i j) else none
  | .deletePageDir a mem =>
    if (s.pdbr a).isSome then some (s.deletePageDir managed mem a) else none
  | .takeFrame =>
    match s.popFrame with
    | none => some s
    | some (f, s) => some { s with kernel := f :: s.kernel }
  | .giveFrame f table =>
    if f ∈ s.kernel then
      let s := { s with kernel := s.kernel.erase f }
      some (if table || managed f then s.pushFrame f else s)
    else none

/-- Before the first address space, with whatever the frames hold. -/
def St.boot (freeFrames : List F) (tables : F → PtIndex → Option (Entry F)) : St A F where
  dirs := fun _ => none
  tables := tables
  cow := fun _ => none
  freeFrames := freeFrames
  popped := 0
  kernel := []
  pdbr := fun _ => none

/-- A present entry refers to the frame: one of a page directory or of a page table in use,
or one of the kernel half, which maps the page directories and what the kernel took. -/
def St.Referenced (s : St A F) (f : F) : Prop :=
  (∃ x pde, s.dirs x = some pde ∧
    (pde.frame = f ∨ ∃ j pte, s.tables pde.frame j = some pte ∧ pte.frame = f)) ∨
  (∃ a, s.pdbr a = some f) ∨ f ∈ s.kernel

end OsdevArchive.Minirighi.Paging
