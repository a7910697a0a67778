import OsdevArchive.Cheapos.Exec

/-!
The current task of cheapos: `task_setcorrente` and `task_getcorrente` (`task.c`) and the segment
descriptors (`descrittori.c`) from which the layout of its memory is read back.
-/

namespace OsdevArchive.Cheapos.TaskCorrente

open OsdevArchive.Cheapos.Mem (MemT)

/-! ### The descriptors -/

/-- `x86_desc`. The high part of the limit and the granularity are bit fields of one byte. -/
structure X86Desc where
  limitLow : BitVec 16
  baseLow : BitVec 16
  baseMed : BitVec 8
  access : BitVec 8
  limitHigh : BitVec 4
  granularity : BitVec 4
  baseHigh : BitVec 8

/-- `D_PRESENT`. -/
def dPresent : BitVec 32 := 0x8000

/-- `D_CODE + D_READ + D_32BIT`. -/
def controlCode : BitVec 16 := 0x1800 + 0x200 + 0x40

/-- `D_DATA + D_WRITE + D_32BIT`. -/
def controlData : BitVec 16 := 0x1000 + 0x200 + 0x40

/-- `desc_setstnd`. -/
def descSetstnd (base limit : BitVec 32) (control : BitVec 16) : X86Desc where
  limitLow := (limit &&& 0xffff).setWidth 16
  baseLow := (base &&& 0xffff).setWidth 16
  baseMed := ((base >>> 16) &&& 0xff).setWidth 8
  access := ((control.setWidth 32 + dPresent) >>> 8).setWidth 8
  limitHigh := (limit >>> 16).setWidth 4
  granularity := ((control &&& 0xff) >>> 4).setWidth 4
  baseHigh := (base >>> 24).setWidth 8

/-- `desc_getstnd_base`. -/
def X86Desc.getstndBase (d : X86Desc) : BitVec 32 :=
  let low := d.baseLow.setWidth 32 &&& 0xffff
  let med := d.baseMed.setWidth 32 &&& 0xff
  let high := d.baseHigh.setWidth 32
  low + (med <<< 16) + (high <<< 24)

/-- `desc_getstnd_limit`. -/
def X86Desc.getstndLimit (d : X86Desc) : BitVec 32 :=
  let low := d.limitLow.setWidth 32 &&& 0xffff
  let high := d.limitHigh.setWidth 32
  low + (high <<< 16)

/-! ### Tasks -/

/-- `task_regs_t`. -/
structure TaskRegs where
  eip : BitVec 32
  cs : BitVec 32
  eflags : BitVec 32
  eax : BitVec 32
  ebx : BitVec 32
  ecx : BitVec 32
  edx : BitVec 32
  esp : BitVec 32
  ebp : BitVec 32
  esi : BitVec 32
  edi : BitVec 32
  ds : BitVec 32
  ss : BitVec 32
  es : BitVec 32
  fs : BitVec 32
  gs : BitVec 32

/-- `task_mem_t`. -/
structure TaskMem where
  base : MemT
  codesize : MemT
  ustacksize : MemT
  kstacksize : MemT

/-- `task_t`. -/
structure Task where
  pid : BitVec 32
  mem : TaskMem
  modo : BitVec 32
  userRegs : TaskRegs
  kernelRegs : TaskRegs

def kmode : BitVec 32 := 0

def umode : BitVec 32 := 1

/-- The variables `task_corrente_*`, with those of the registers under the names of
`task_regs_t`, and the `GDT`. -/
structure Corrente where
  pid : BitVec 32
  modo : BitVec 32
  user : TaskRegs
  kernel : TaskRegs
  kstacksize : BitVec 32
  kstacktop : BitVec 32
  gdt : Fin 9 → X86Desc

/-- Each register goes to the place of its name. -/
def TaskRegs.copia (r : TaskRegs) : TaskRegs where
  eip := r.eip
  eflags := r.eflags
  cs := r.cs
  eax := r.eax
  ebx := r.ebx
  ecx := r.ecx
  edx := r.edx
  ebp := r.ebp
  esp := r.esp
  edi := r.edi
  esi := r.esi
  ds := r.ds
  gs := r.gs
  es := r.es
  fs := r.fs
  ss := r.ss

/-- `desc_setstnd` on the entry `i`. -/
def Corrente.setstnd (c : Corrente) (i : Fin 9) (base limit : BitVec 32)
    (control : BitVec 16) : Corrente :=
  { c with gdt := Function.update c.gdt i (descSetstnd base limit control) }

/-- `task_setcorrente`. -/
def taskSetcorrente (c : Corrente) (task : Task) : Corrente :=
  let c :=
    { c with
      pid := task.pid
      modo := task.modo
      user := task.userRegs.copia
      kernel := task.kernelRegs.copia }
  let m := task.mem
  let c := c.setstnd 4 m.base m.codesize controlCode
  let c := c.setstnd 5 m.base (m.codesize + m.ustacksize) controlData
  let c := c.setstnd 6 m.base (m.codesize + m.ustacksize) controlData
  { c with
    kstacksize := m.kstacksize
    kstacktop := m.base + m.codesize + m.ustacksize + m.kstacksize }

/-- `task_getcorrente`. No field of the task that was there stays. -/
def taskGetcorrente (c : Corrente) : Task :=
  let codesize := (c.gdt 4).getstndLimit
  { pid := c.pid
    modo := c.modo
    userRegs := c.user.copia
    kernelRegs := c.kernel.copia
    mem :=
      { base := (c.gdt 4).getstndBase
        codesize := codesize
        ustacksize := (c.gdt 6).getstndLimit - codesize
        kstacksize := c.kstacksize } }

/-! ### How tasks are made -/

/-- The segments that `task_init` loads. -/
def kernelCode : BitVec 32 := 0x08

def kernelData : BitVec 32 := 0x10

def userCode : BitVec 32 := 0x20

def userData : BitVec 32 := 0x28

def userStack : BitVec 32 := 0x30

def kernelTaskstack : BitVec 32 := 0x38

/-- `task_init`. -/
def taskInit (mem : TaskMem) (pid eip modo eflags : BitVec 32) : Task :=
  let utop := mem.codesize + mem.ustacksize
  let ktop := mem.codesize + mem.ustacksize + mem.kstacksize + mem.base
  { pid := pid
    modo := modo
    mem := mem
    userRegs :=
      { eip := if modo = kmode then 0 else eip
        cs := userCode
        eflags := if modo = kmode then 0x202 else eflags
        eax := 0, ebx := 0, ecx := 0, edx := 0
        esp := utop, ebp := utop, esi := 0, edi := 0
        gs := userData, ds := userData, es := userData, fs := userData, ss := userStack }
    kernelRegs :=
      { eip := if modo = kmode then eip else 0
        cs := kernelCode
        eflags := if modo = kmode then eflags else 0x002
        eax := 0, ebx := 0, ecx := 0, edx := 0
        esp := ktop, ebp := ktop, esi := 0, edi := 0
        gs := kernelData, ds := kernelData, es := kernelData, fs := kernelData
        ss := kernelTaskstack } }

/-- `task_pusharg`, on the registers of the task. -/
def taskPusharg (task : Task) (arg : List (BitVec 8)) : Task :=
  if task.modo ≠ umode then task
  else
    let r := task.userRegs
    let esp := r.esp - BitVec.ofNat 32 (arg.length + 1)
    { task with userRegs := { r with esp := esp, eax := r.eax + 1, ebx := esp } }

/-- `task_mem` in `syscall_exec`, for a file of this size and the block that it got. -/
def execMem (size : Int) (base : MemT) : TaskMem where
  base := base
  codesize := .ofInt 32 (Exec.codesize size)
  ustacksize := .ofInt 32 Exec.ustackSize
  kstacksize := .ofInt 32 Exec.kstackSize

/-- The task that `syscall_exec` makes, with the arguments in the order in which they are
pushed. -/
def execTask (size : Int) (base : MemT) (pid : BitVec 32) (args : List (List (BitVec 8))) : Task :=
  args.foldl taskPusharg (taskInit (execMem size base) pid 0 umode 0x202)

/-- The task that `syscall_fork` makes of `taskpadre`. -/
def forkTask (padre : Task) (pid : BitVec 32) (base : MemT) : Task :=
  let r := padre.userRegs
  { padre with
    pid := pid
    userRegs := { r with ebx := 0, eflags := r.eflags ||| 0x202 }
    mem := { padre.mem with base := base }
    modo := umode }

/-- The tasks that `exec` makes of a file that `fat12_open` accepts, and those that `fork` makes of
a current task which is one of them: its descriptors are those that `task_setcorrente` left, and
everything else may have changed while it ran. -/
inductive Creato : Task → Prop where
  | exec (size : Nat) (base : MemT) (pid : BitVec 32) (args : List (List (BitVec 8)))
      (hsize : size ≤ Exec.fat12ImgSize.toNat) : Creato (execTask size base pid args)
  | fork (padre : Task) (c c' : Corrente) (pid : BitVec 32) (base : MemT) (hpadre : Creato padre)
      (hgdt : c'.gdt = (taskSetcorrente c padre).gdt) :
      Creato (forkTask (taskGetcorrente c') pid base)

/-- Code and user stack together are within the 20 bits of a limit. -/
def Rappresentabile (m : TaskMem) : Prop := m.codesize.toNat + m.ustacksize.toNat < 2 ^ 20

/-! ### Encoding and decoding -/

theorem toNat_and_ffff (x : BitVec 32) : (x &&& 0xffff).toNat = x.toNat % 2 ^ 16 := by
  rw [BitVec.toNat_and]
  exact Nat.and_two_pow_sub_one_eq_mod x.toNat 16

theorem toNat_and_ff (x : BitVec 32) : (x &&& 0xff).toNat = x.toNat % 2 ^ 8 := by
  rw [BitVec.toNat_and]
  exact Nat.and_two_pow_sub_one_eq_mod x.toNat 8

/-- A base is recovered from its three fields. -/
theorem getstndBase_setstnd (base limit : BitVec 32) (control : BitVec 16) :
    (descSetstnd base limit control).getstndBase = base := by
  apply BitVec.eq_of_toNat_eq
  have hlt := base.isLt
  simp only [descSetstnd, X86Desc.getstndBase, BitVec.toNat_add, toNat_and_ffff, toNat_and_ff,
    BitVec.toNat_setWidth, BitVec.toNat_shiftLeft, BitVec.toNat_ushiftRight,
    Nat.shiftRight_eq_div_pow, Nat.shiftLeft_eq]
  omega

/-- A limit is recovered from its two fields if it has 20 bits. -/
theorem getstndLimit_setstnd (base : BitVec 32) {limit : BitVec 32} (control : BitVec 16)
    (hlimit : limit.toNat < 2 ^ 20) : (descSetstnd base limit control).getstndLimit = limit := by
  apply BitVec.eq_of_toNat_eq
  simp only [descSetstnd, X86Desc.getstndLimit, BitVec.toNat_add, toNat_and_ffff,
    BitVec.toNat_setWidth, BitVec.toNat_shiftLeft, BitVec.toNat_ushiftRight,
    Nat.shiftRight_eq_div_pow, Nat.shiftLeft_eq]
  omega

variable (c : Corrente) {t : Task}

theorem gdt_four (t : Task) :
    (taskSetcorrente c t).gdt 4 = descSetstnd t.mem.base t.mem.codesize controlCode := rfl

theorem gdt_six (t : Task) : (taskSetcorrente c t).gdt 6 =
    descSetstnd t.mem.base (t.mem.codesize + t.mem.ustacksize) controlData := rfl

/-- The layout is read back from the descriptors. -/
theorem mem_getcorrente {c' : Corrente} (h : Rappresentabile t.mem)
    (hgdt : c'.gdt = (taskSetcorrente c t).gdt) :
    (taskGetcorrente c').mem = { t.mem with kstacksize := c'.kstacksize } := by
  unfold Rappresentabile at h
  have hcode : t.mem.codesize.toNat < 2 ^ 20 := by omega
  have htotal : (t.mem.codesize + t.mem.ustacksize).toNat < 2 ^ 20 := by
    rw [BitVec.toNat_add]
    omega
  unfold taskGetcorrente
  dsimp only
  rw [hgdt, gdt_four, gdt_six, getstndBase_setstnd, getstndLimit_setstnd _ _ hcode,
    getstndLimit_setstnd _ _ htotal, BitVec.add_comm, BitVec.add_sub_cancel]

/-! ### Which tasks have such a layout -/

theorem mem_taskPusharg (t : Task) (arg : List (BitVec 8)) : (taskPusharg t arg).mem = t.mem := by
  unfold taskPusharg
  split <;> rfl

theorem mem_execTask (size : Int) (base : MemT) (pid : BitVec 32)
    (args : List (List (BitVec 8))) : (execTask size base pid args).mem = execMem size base := by
  unfold execTask
  generalize hfirst : taskInit (execMem size base) pid 0 umode 0x202 = first
  have hmem : first.mem = execMem size base := by rw [← hfirst]; rfl
  clear hfirst
  induction args generalizing first with
  | nil => exact hmem
  | cons arg args ih => exact ih _ ((mem_taskPusharg first arg).trans hmem)

/-- A file that `fat12_open` accepts leaves room in the 20 bits. -/
theorem rappresentabile_execMem {size : Nat} (hsize : size ≤ Exec.fat12ImgSize.toNat)
    (base : MemT) : Rappresentabile (execMem size base) := by
  have hshort : size ≤ 131072 := hsize.trans (by decide)
  unfold Rappresentabile execMem Exec.codesize Exec.ustackSize Exec.codepiuSize
  dsimp only
  rw [BitVec.toNat_ofInt, BitVec.toNat_ofInt]
  omega

theorem Creato.rappresentabile (h : Creato t) : Rappresentabile t.mem := by
  induction h with
  | exec size base pid args hsize =>
    rw [mem_execTask]
    exact rappresentabile_execMem hsize base
  | fork padre c c' pid base hpadre hgdt ih =>
    show Rappresentabile { (taskGetcorrente c').mem with base := base }
    rw [mem_getcorrente c ih hgdt]
    exact ih

/-! ### The round trip -/

/-- A task whose layout fits is read back as it was saved, and every task that is made by `exec`
and `fork` has such a layout. -/
theorem getcorrente_setcorrente (c : Corrente) (t : Task) :
    (t.mem.codesize.toNat + t.mem.ustacksize.toNat < 2 ^ 20 →
      taskGetcorrente (taskSetcorrente c t) = t) ∧
    (Creato t → t.mem.codesize.toNat + t.mem.ustacksize.toNat < 2 ^ 20) := by
  refine ⟨?_, fun h => h.rappresentabile⟩
  intro h
  have hmem : (taskGetcorrente (taskSetcorrente c t)).mem = t.mem := mem_getcorrente c h rfl
  calc
    taskGetcorrente (taskSetcorrente c t)
        = { t with mem := (taskGetcorrente (taskSetcorrente c t)).mem } := rfl
    _ = t := by rw [hmem]

/-- Registers and variables at start. -/
def zeroRegs : TaskRegs := ⟨0, 0, 0, 0, 0, 0, 0, 0, 0, 0, 0, 0, 0, 0, 0, 0⟩

def primaCorrente : Corrente := ⟨0, umode, zeroRegs, zeroRegs, 0, 0, fun _ => descSetstnd 0 0 0⟩

/-- A program of 3000 bytes, started with one argument. -/
def programma : Task := execTask (3000 : Nat) 0x123456 7 [[0x41, 0x42]]

theorem programma_getcorrente :
    Creato programma ∧ taskGetcorrente (taskSetcorrente primaCorrente programma) = programma := by
  have hcreato : Creato programma := .exec 3000 0x123456 7 [[0x41, 0x42]] (by decide)
  obtain ⟨hread, hfits⟩ := getcorrente_setcorrente primaCorrente programma
  exact ⟨hcreato, hread (hfits hcreato)⟩

end OsdevArchive.Cheapos.TaskCorrente
