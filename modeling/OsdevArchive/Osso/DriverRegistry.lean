import Mathlib.Data.BitVec
import Mathlib.Data.List.Sort

/-!
The driver registry of the Modules Pid Server of OSSO (`drivers/mps_struct.c`). The boot queues
are empty, so that `Boot_RegisterDriver` does nothing. Drivers and instances are records of a
heap that holds anything before it is written; allocations succeed, and memory is not used
again. `none` is a walk that does not end or an access through a null pointer.
-/

namespace OsdevArchive.Osso.DriverRegistry

abbrev Pid := BitVec 32

/-- A C string: the characters before the terminating zero. -/
structure CString where
  chars : List (BitVec 8)
  noZero : 0 ∉ chars
deriving DecidableEq

/-- The loop of `strcmp`, on characters that are signed. -/
def compareChars : List (BitVec 8) → List (BitVec 8) → Int
  | [], [] => 0
  | [], b :: _ => 0 - b.toInt
  | a :: _, [] => a.toInt - 0
  | a :: as, b :: bs => if a.toInt - b.toInt = 0 then compareChars as bs else a.toInt - b.toInt

def strcmp (s1 s2 : CString) : Int := compareChars s1.chars s2.chars

/-- `MAX_DRIVER_CATEGORY_LEN`. -/
def maxDriverCategoryLen : Nat := 32

/-- `MAX_DRIVER_NAME_LEN`. -/
def maxDriverNameLen : Nat := 32

/-- `CATEG_BLOCK_NUM`. -/
def categBlockNum : Nat := 8

/-- `DRIVER_BLOCK_NUM`. -/
def driverBlockNum : Nat := 16

/-- `PID_BLOCK_NUM`. -/
def pidBlockNum : Nat := 32

/-- `MAX_WAITQUEUE`. -/
def maxWaitqueue : Nat := 32

/-- `sizeof(driver_pid_t)`: a pid and a pointer. -/
def sizeofDriverPid : Nat := 8

/-- `sizeof(driver_pid_t *)`. -/
def sizeofDriverPidPointer : Nat := 4

/-- `drv_instance_t`. -/
structure Instance where
  pid : Pid
  inUse : Bool
  driverVersion : BitVec 32
  driverRelease : BitVec 32
  description : Option CString
  waiting : Pid
  next : Option Nat
  prev : Option Nat
  driver : Option Nat

/-- `driver_t`. -/
structure Driver where
  name : CString
  isMulti : Bool
  isPool : Bool
  numWaiting : Nat
  waiting : Nat → Pid
  numinstances : BitVec 32
  instances : Option Nat

/-- `category_t`; `used` is the length of the list. -/
structure Category where
  name : CString
  total : Nat
  drivers : List Nat

/-- `driver_pid_t`. -/
structure DriverPid where
  pid : Pid
  inst : Option Nat

/-- The registry. `pidBytes` is what was allocated for `PidList`; a cell of it outside of that
is a place of some other memory. -/
structure State where
  total : Nat
  categories : List Category
  drivers : Nat → Driver
  freshDriver : Nat
  instances : Nat → Instance
  freshInstance : Nat
  pidList : Nat
  pidBytes : Nat
  pids : Nat → DriverPid
  totPid : Nat
  usedPid : Nat

/-- What `InitStruct` leaves, on any heap. -/
structure Empty (s : State) : Prop where
  categories : s.categories = []
  total : s.total = 0
  pidList : s.pidList = 0
  totPid : s.totPid = 0
  usedPid : s.usedPid = 0

/-- What a call finds in its local variables and in memory that nothing has set. -/
structure Unset where
  area : Nat
  cells : Nat → DriverPid
  fresh : Nat
  fresh_pos : 0 < fresh
  newinst : Bool
  /-- The instance of `PidList[-1]`. -/
  before : Option Nat

inductive Reply where
  /-- `Driver_Init_Reply()`. -/
  | driverInit
  /-- `Send_AskPid_Reply(program_pid, driver_pid)`. -/
  | askPid (program driver : Pid)
deriving DecidableEq

inductive MpsRetVal where
  | noerr
  | drvTooLong
  | catTooLong
  | drvPresent
  | drvNotPresent
deriving DecidableEq

variable (s : State)

/-! ### Searching -/

def findCategory (category : CString) : Option Category :=
  s.categories.find? fun c => strcmp category c.name = 0

def findDriverInCat (cat : Category) (driver : CString) : Option Nat :=
  cat.drivers.find? fun d => strcmp driver (s.drivers d).name = 0

def findDriver (category driver : CString) : Option Nat :=
  (findCategory s category).bind fun cat => findDriverInCat s cat driver

/-- As many steps as there are addresses; a longer walk does not end. -/
def walkBound : Nat := 2 ^ 32

/-- `for (i=driver->instances; i->next; i=i->next)`. -/
def lastInstance (instances : Nat → Instance) : Nat → Nat → Option Nat
  | 0, _ => none
  | steps + 1, i =>
    match (instances i).next with
    | none => some i
    | some n => lastInstance instances steps n

/-- `for (in=GetFirstInstance(dr); in && in->pid; in=GetNextInstance(in))`. -/
def loadingInstance (instances : Nat → Instance) : Nat → Option Nat → Option (Option Nat)
  | _, none => some none
  | 0, some _ => none
  | steps + 1, some i =>
    if (instances i).pid = 0 then some (some i)
    else loadingInstance instances steps (instances i).next

/-! ### Adding -/

/-- The room of a growing array with `used` of `total` places taken. -/
def grown (total used block : Nat) : Nat := if total ≤ used then total + block else total

def createCategory (category : CString) : State :=
  { s with
    total := grown s.total s.categories.length categBlockNum
    categories := s.categories.orderedInsert (fun c c' => strcmp c.name c'.name < 0)
      ⟨category, 0, []⟩ }

/-- The driver of the second half of `AddDriver` is put into its category before the first
one with a greater name. -/
def insertDriver (cat : CString) (d : Nat) (driver : CString) (isMulti isPool : BitVec 8) :
    State :=
  let s' := { s with
    drivers := Function.update s.drivers d { s.drivers d with
      name := driver, isMulti := isMulti.getLsbD 0, isPool := isPool.getLsbD 0 }
    freshDriver := s.freshDriver + 1 }
  { s' with
    categories := s.categories.map fun c =>
      if c.name = cat then
        { c with
          total := grown c.total c.drivers.length driverBlockNum
          drivers := c.drivers.orderedInsert
            (fun d d' => strcmp (s'.drivers d).name (s'.drivers d').name < 0) d }
      else c }

def addDriver (category driver : CString) (isMulti isPool : BitVec 8) : Nat × State :=
  let s := if (findCategory s category).isSome then s else createCategory s category
  (s.freshDriver, insertDriver s category s.freshDriver driver isMulti isPool)

def setInstance (i : Nat) (inst : Instance) : State :=
  { s with instances := Function.update s.instances i inst }

def setDriver (d : Nat) (drv : Driver) : State :=
  { s with drivers := Function.update s.drivers d drv }

def addInstance (driver : Nat) : Option (Nat × State) :=
  let inst := s.freshInstance
  let s := setInstance { s with freshInstance := s.freshInstance + 1 } inst
    { s.instances inst with next := none }
  let s := setDriver s driver { s.drivers driver with
    numinstances := (s.drivers driver).numinstances + 1 }
  match (s.drivers driver).instances with
  | some i => do
    let last ← lastInstance s.instances walkBound i
    let s := setInstance s last { s.instances last with next := some inst }
    some (inst, setInstance s inst
      { s.instances inst with prev := some last, driver := some driver })
  | none =>
    let s := setDriver s driver { s.drivers driver with instances := some inst }
    some (inst, setInstance s inst { s.instances inst with prev := none, driver := some driver })

/-- `MyRealloc(PidList, oldsize, newsize)`, with its result as the new `PidList`. -/
def myReallocPids (j : Unset) (oldsize newsize : Nat) : State :=
  { s with
    pidList := if newsize = 0 then j.area else j.fresh
    pidBytes := newsize
    pids := fun k =>
      if s.pidList ≠ 0 ∧ sizeofDriverPid * (k + 1) ≤ min oldsize newsize then s.pids k
      else j.cells k }

/-- `for (num=0; num<UsedPid && p->pid<pid; num++, p++)`, with the number of cells left. -/
def pidPlace (pids : Nat → DriverPid) (pid : Pid) : Nat → Nat → Nat
  | 0, num => num
  | left + 1, num =>
    if (pids num).pid < pid then pidPlace pids pid left (num + 1) else num

/-- The cells from `num` on move up by one. -/
def insertPid (pid : Pid) (i : Nat) : State :=
  let num := pidPlace s.pids pid s.usedPid 0
  { s with
    usedPid := s.usedPid + 1
    pids := fun k =>
      if k = num then ⟨pid, some i⟩
      else if num < k ∧ k ≤ s.usedPid then s.pids (k - 1)
      else s.pids k }

def addPid (j : Unset) (pid : Pid) (i : Nat) : State :=
  if s.totPid ≤ s.usedPid then
    let s' := myReallocPids s j (sizeofDriverPidPointer * s.totPid)
      (sizeofDriverPidPointer * s.usedPid)
    if s'.pidList = 0 then s
    else insertPid { s' with totPid := s.totPid + pidBlockNum } pid i
  else insertPid s pid i

/-! ### Registering -/

/-- The end of `AddNewDriver`, for a driver with several instances: one of the waiting programs
gets the new instance. -/
def replyMulti (d i : Nat) (pid : Pid) : List Reply × State :=
  let drv := s.drivers d
  let inst := s.instances i
  if inst.waiting ≠ 0 then
    ([.askPid inst.waiting pid], setInstance s i { inst with inUse := true })
  else if drv.numWaiting ≠ 0 then
    ([.askPid (drv.waiting 0) pid],
      setInstance (setDriver s d { drv with
        numWaiting := drv.numWaiting - 1
        waiting := fun k => if k < drv.numWaiting - 1 then drv.waiting (k + 1) else drv.waiting k })
        i { inst with inUse := true })
  else ([], s)

/-- The end of `AddNewDriver`, for a driver with one instance. -/
def replyMono (d i : Nat) (pid : Pid) : List Reply × State :=
  let drv := s.drivers d
  let inst := s.instances i
  let own := if inst.waiting ≠ 0 then [Reply.askPid inst.waiting pid] else []
  let queued := (List.range drv.numWaiting).map fun c => Reply.askPid (drv.waiting c) pid
  (own ++ queued,
    setDriver (setInstance s i
      { inst with inUse := inst.inUse || inst.waiting ≠ 0 || drv.numWaiting ≠ 0 })
      d { drv with numWaiting := 0 })

/-- `AddNewDriver` from `AddPid` on. -/
def registerInstance (j : Unset) (d i : Nat) (newdrv newinst : Bool) (pid : Pid)
    (version release : BitVec 32) (description : Option CString) : List Reply × State :=
  let s := addPid s j pid i
  let s := setInstance s i { s.instances i with
    pid := pid, inUse := false, driverVersion := version, driverRelease := release }
  let s := if newdrv then setDriver s d { s.drivers d with numWaiting := 0 } else s
  let s := if newinst then setInstance s i { s.instances i with waiting := 0 } else s
  let s :=
    match description with
    | some text =>
      if text.chars ≠ [] then setInstance s i { s.instances i with description := some text } else s
    | none => s
  let r := if (s.drivers d).isMulti then replyMulti s d i pid else replyMono s d i pid
  (.driverInit :: r.1, r.2)

/-- What `AddNewDriver` looks for in a driver that is in the list: an instance that is loading,
if there is one. The driver with one instance may be `present`. -/
def reusedInstance (d : Nat) : Option (Option Nat × Bool) :=
  let drv := s.drivers d
  if drv.isMulti then (loadingInstance s.instances walkBound drv.instances).map fun i => (i, false)
  else some (drv.instances, drv.instances.any fun i => (s.instances i).pid ≠ 0)

def addNewDriver (j : Unset) (category name : CString) (pid : Pid) (multiInstances : BitVec 8)
    (version release : BitVec 32) (description : Option CString) :
    Option (MpsRetVal × List Reply × State) :=
  if maxDriverCategoryLen < category.chars.length then some (.catTooLong, [], s)
  else if maxDriverNameLen < name.chars.length then some (.drvTooLong, [], s)
  else
    match findDriver s category name with
    | none => do
      let (d, s) := addDriver s category name multiInstances 0
      let (i, s) ← addInstance s d
      some (.noerr, registerInstance s j d i true j.newinst pid version release description)
    | some d =>
      -- the two definitions of the driver are incompatible
      if pid ≠ 0 ∧ (s.drivers d).isMulti ≠ decide (multiInstances ≠ 0) then some (.noerr, [], s)
      else do
        let (found, present) ← reusedInstance s d
        if present then some (.drvPresent, [], s)
        else
          match found with
          | some i =>
            some (.noerr, registerInstance s j d i false ((s.instances i).pid = 0) pid version
              release description)
          | none => do
            let (i, s) ← addInstance s d
            some (.noerr, registerInstance s j d i false false pid version release description)

/-! ### Asking -/

/-- The loop of `FindDriverPid`: the instance that runs and is free, or else the one that is
loading. -/
def availableInstance (instances : Nat → Instance) (isMulti : Bool) :
    Nat → Option Nat → Option Nat → Option (Option Nat × Option Nat)
  | _, none, inLoad => some (none, inLoad)
  | 0, some _, _ => none
  | steps + 1, some i, inLoad =>
    let inst := instances i
    let inLoad :=
      if inLoad = none ∧ inst.pid = 0 ∧ ¬ (isMulti ∧ inst.waiting ≠ 0) then some i else inLoad
    if inst.pid ≠ 0 ∧ ¬ (isMulti ∧ inst.inUse) then some (some i, inLoad)
    else availableInstance instances isMulti steps inst.next inLoad

def findDriverPid (category name : CString) (pidForWait : Pid) : Option (Pid × State) :=
  match findDriver s category name with
  | none => some (0, s)
  | some d => do
    let drv := s.drivers d
    let (running, inLoad) ← availableInstance s.instances drv.isMulti walkBound drv.instances none
    match running with
    | some i =>
      some ((s.instances i).pid, setInstance s i { s.instances i with inUse := true })
    | none =>
      if inLoad.isSome ∧ pidForWait ≠ 0 then
        -- in->waiting is written with in at the end of the list, which is null
        if drv.isMulti then none
        else if drv.numWaiting < maxWaitqueue then
          some (-1, setDriver s d { drv with
            waiting := Function.update drv.waiting drv.numWaiting pidForWait
            numWaiting := drv.numWaiting + 1 })
        else some (0, s)
      else some (0, s)

/-! ### Deleting -/

/-- The index of a pid in the list. -/
def findDriverByPid (pids : Nat → DriverPid) (pid : Pid) : Nat → Nat → Option Nat
  | 0, _ => none
  | left + 1, num =>
    if (pids num).pid = pid then some num else findDriverByPid pids pid left (num + 1)

/-- `PidList[idx].pid=PidList[idx+1].pid; PidList[idx].instance=PidList[idx-1].instance`, for as
many cells as are left. -/
def closeGap (before : Option Nat) : Nat → Nat → (Nat → DriverPid) → Nat → DriverPid
  | 0, _, pids => pids
  | left + 1, idx, pids =>
    closeGap before left (idx + 1) (Function.update pids idx
      ⟨(pids (idx + 1)).pid, if idx = 0 then before else (pids (idx - 1)).inst⟩)

def deleteInstance (j : Unset) (pid : Pid) : Option (MpsRetVal × State) :=
  match findDriverByPid s.pids pid s.usedPid 0 with
  | none => some (.drvNotPresent, s)
  | some idx =>
    match (s.pids idx).inst with
    | none => some (.drvNotPresent, s)
    | some i => do
      let usedPid := s.usedPid - 1
      let s := { s with
        usedPid := usedPid
        pids := closeGap j.before (usedPid - idx) idx s.pids }
      let d ← (s.instances i).driver
      let n ← (s.instances i).next
      let s :=
        match (s.instances i).prev with
        | some p =>
          let s := setInstance s p { s.instances p with next := some n }
          setInstance s n { s.instances n with prev := some p }
        | none =>
          let s := setDriver s d { s.drivers d with instances := some n }
          setInstance s n { s.instances n with prev := none }
      some (.noerr, setDriver s d { s.drivers d with
        numinstances := (s.drivers d).numinstances - 1 })

end OsdevArchive.Osso.DriverRegistry
