import OsdevArchive.Lib.Runs
import OsdevArchive.Osso.DriverRegistry
import Mathlib.Data.List.Lex
import Mathlib.Order.Lattice
import Mathlib.Tactic.Basic

/-!
Registrations in the driver registry. The pid list does not stay inside its memory: the first
registration that gets through asks `MyRealloc` for no room at all.
-/

namespace OsdevArchive.Osso.DriverRegistry

open OsdevArchive.Lib.Runs

/-- A list of things with names, sorted and without two of one name. -/
def Sorted {α : Type} (name : α → CString) (as : List α) : Prop :=
  as.Pairwise fun a b => strcmp (name a) (name b) < 0

/-! ### What the operations leave alone -/

/-- A pid list of the same size in the same room. -/
structure Same (s t : State) : Prop where
  pidBytes : t.pidBytes = s.pidBytes
  totPid : t.totPid = s.totPid
  usedPid : t.usedPid = s.usedPid

variable {s t u : State} {j : Unset} {d i : Nat} {pid : Pid}

theorem Same.refl (s : State) : Same s s := ⟨rfl, rfl, rfl⟩

theorem Same.trans (h : Same s t) (k : Same t u) : Same s u :=
  ⟨k.pidBytes.trans h.pidBytes, k.totPid.trans h.totPid, k.usedPid.trans h.usedPid⟩

theorem Same.setInstance (h : Same s t) (i : Nat) (inst : Instance) :
    Same s (setInstance t i inst) := h.trans ⟨rfl, rfl, rfl⟩

theorem Same.setDriver (h : Same s t) (d : Nat) (drv : Driver) : Same s (setDriver t d drv) :=
  h.trans ⟨rfl, rfl, rfl⟩

theorem addInstance_same (h : addInstance s d = some (i, t)) : Same s t := by
  unfold addInstance at h
  dsimp only at h
  split at h
  · obtain ⟨last, -, hlast⟩ := Option.bind_eq_some_iff.mp h
    obtain ⟨rfl, rfl⟩ := Prod.mk.inj (Option.some.inj hlast)
    exact ⟨rfl, rfl, rfl⟩
  · obtain ⟨rfl, rfl⟩ := Prod.mk.inj (Option.some.inj h)
    exact ⟨rfl, rfl, rfl⟩

theorem replyMulti_same (s : State) (d i : Nat) (pid : Pid) : Same s (replyMulti s d i pid).2 := by
  unfold replyMulti
  dsimp only
  split
  · exact (Same.refl s).setInstance _ _
  · split
    · exact ((Same.refl s).setDriver _ _).setInstance _ _
    · exact Same.refl s

theorem replyMono_same (s : State) (d i : Nat) (pid : Pid) : Same s (replyMono s d i pid).2 :=
  ((Same.refl s).setInstance _ _).setDriver _ _

/-- But for `AddPid`, a registration writes to the instance and to the driver only. -/
theorem registerInstance_same (s : State) (j : Unset) (d i : Nat) (newdrv newinst : Bool)
    (pid : Pid) (version release : BitVec 32) (description : Option CString) :
    Same (addPid s j pid i)
      (registerInstance s j d i newdrv newinst pid version release description).2 := by
  unfold registerInstance
  dsimp only
  have hset := (Same.refl (addPid s j pid i)).setInstance i { (addPid s j pid i).instances i with
    pid := pid, inUse := false, driverVersion := version, driverRelease := release }
  generalize setInstance (addPid s j pid i) i _ = a at hset ⊢
  have hdrv : Same (addPid s j pid i)
      (if newdrv then setDriver a d { a.drivers d with numWaiting := 0 } else a) := by
    split
    · exact hset.setDriver _ _
    · exact hset
  generalize (if newdrv then _ else a) = b at hdrv ⊢
  have hinst : Same (addPid s j pid i)
      (if newinst then setInstance b i { b.instances i with waiting := 0 } else b) := by
    split
    · exact hdrv.setInstance _ _
    · exact hdrv
  generalize (if newinst then _ else b) = c at hinst ⊢
  have hreply (e : State) (he : Same (addPid s j pid i) e) : Same (addPid s j pid i)
      (if (e.drivers d).isMulti then replyMulti e d i pid else replyMono e d i pid).2 := by
    split
    · exact he.trans (replyMulti_same e d i pid)
    · exact he.trans (replyMono_same e d i pid)
  apply hreply
  split
  · split
    · exact hinst.setInstance _ _
    · exact hinst
  · exact hinst

/-! ### Sorted names -/

/-- Categories and drivers are sorted, without duplicates, and fit into their arrays. -/
structure Ordered (s : State) : Prop where
  categories : Sorted Category.name s.categories
  drivers : ∀ c ∈ s.categories, Sorted (fun d => (s.drivers d).name) c.drivers
  fresh : ∀ c ∈ s.categories, ∀ d ∈ c.drivers, d < s.freshDriver
  room : s.categories.length ≤ s.total ∧ ∀ c ∈ s.categories, c.drivers.length ≤ c.total

theorem Empty.ordered (h : Empty s) : Ordered s := by
  constructor
  all_goals simp [h.categories, Sorted]

variable {category driver : CString}

/-! ### Calls -/

/-- A pid of a process. -/
def ProcessPid : Type := {pid : Pid // pid ≠ 0}

inductive Call where
  | addNewDriver (category name : CString) (pid : ProcessPid) (multiInstances : BitVec 8)
      (version release : BitVec 32) (description : Option CString)
  | findDriverPid (category name : CString) (pidForWait : ProcessPid)
  | deleteInstance (pid : ProcessPid)

inductive Result where
  | status (r : MpsRetVal)
  | found (pid : Pid)
deriving DecidableEq

/-- A call with what it finds unset, its result and the replies that it sends. -/
structure Event where
  call : Call
  unset : Unset
  result : Result
  replies : List Reply

def perform (s : State) (j : Unset) : Call → Option (Result × List Reply × State)
  | .addNewDriver category name pid multiInstances version release description =>
    (addNewDriver s j category name pid.val multiInstances version release description).map
      fun r => (.status r.1, r.2.1, r.2.2)
  | .findDriverPid category name pidForWait =>
    (findDriverPid s category name pidForWait.val).map fun r => (.found r.1, [], r.2)
  | .deleteInstance pid => (deleteInstance s j pid.val).map fun r => (.status r.1, [], r.2)

def Step (s : State) (e : Event) (t : State) : Prop :=
  perform s e.unset e.call = some (e.result, e.replies, t)

variable {name : CString} {multiInstances : BitVec 8} {version release : BitVec 32}
  {description : Option CString} {r : MpsRetVal} {replies : List Reply}

/-! ### The contract of the registry -/

/-- From the pointer `p` on the instances `is` are linked in both directions. -/
def DoublyLinked (instances : Nat → Instance) : Option Nat → Option Nat → List Nat → Prop
  | _, p, [] => p = none
  | prev, p, i :: is =>
    p = some i ∧ (instances i).prev = prev ∧
      DoublyLinked instances (some i) (instances i).next is

/-- The drivers of all categories. -/
def State.allDrivers (s : State) : List Nat := s.categories.flatMap Category.drivers

/-- A registry in order, where `lists` are the instances of the drivers. -/
structure Consistent (s : State) (lists : Nat → List Nat) : Prop where
  ordered : Ordered s
  linked : ∀ d ∈ s.allDrivers, DoublyLinked s.instances none (s.drivers d).instances (lists d)
  numinstances : ∀ d ∈ s.allDrivers, (s.drivers d).numinstances.toNat = (lists d).length
  pidSorted : ∀ k l, k < l → l < s.usedPid → (s.pids k).pid ≤ (s.pids l).pid
  /-- The pid list holds the running instances, each under its pid. -/
  pidExact : ∀ pid i, (∃ k < s.usedPid, s.pids k = ⟨pid, some i⟩) ↔
    ∃ d ∈ s.allDrivers, i ∈ lists d ∧ (s.instances i).pid = pid ∧ pid ≠ 0
  pidRoom : sizeofDriverPid * s.usedPid ≤ s.pidBytes
  /-- For a driver with one instance that runs no program waits. -/
  served : ∀ d ∈ s.allDrivers, (s.drivers d).isMulti = false →
    (∃ i ∈ lists d, (s.instances i).pid ≠ 0) → (s.drivers d).numWaiting = 0

/-- The programs in waiting slots: in the queues of the drivers, and at instances that are
loading. -/
def waitingPrograms (s : State) (lists : Nat → List Nat) : List Pid :=
  s.allDrivers.flatMap fun d =>
    (List.range (s.drivers d).numWaiting).map (s.drivers d).waiting ++
      (((lists d).filter fun i => (s.instances i).pid = 0).map
        fun i => (s.instances i).waiting).filter fun pid => pid ≠ 0

/-- The program that a call puts into a waiting slot. -/
def Event.putToWait (e : Event) : List Pid :=
  match e.call with
  | .findDriverPid _ _ pidForWait => if e.result = .found (-1) then [pidForWait.val] else []
  | _ => []

/-- The programs that a call replies to. -/
def Event.answered (e : Event) : List Pid :=
  e.replies.filterMap fun
    | .askPid program _ => some program
    | .driverInit => none

/-- A call that ends with `Driver_Init_Reply` has registered its pid. -/
def Registers (e : Event) (t : State) : Prop :=
  match e.call with
  | .addNewDriver _ _ pid _ _ _ _ =>
    .driverInit ∈ e.replies → ∃ k < t.usedPid, (t.pids k).pid = pid.val
  | _ => True

/-- What a call promises: a registry in order, the pid of a registration in the list, and
every program that waited before waits on or gets one reply. -/
def Meets (s : State) (e : Event) (t : State) : Prop :=
  Registers e t ∧ ∃ lists lists', Consistent s lists ∧ Consistent t lists' ∧
    (waitingPrograms s lists ++ e.putToWait).Perm (e.answered ++ waitingPrograms t lists')

/-- The calls that keep their promise: of those of `AddNewDriver`, the ones that it refuses for
the length of a name. -/
def Allowed (_ : State) (e : Event) : Prop :=
  match e.call with
  | .addNewDriver category name _ _ _ _ _ =>
    maxDriverCategoryLen < category.chars.length ∨ maxDriverNameLen < name.chars.length
  | _ => True

theorem Empty.findDriver_eq (h : Empty s) (category name : CString) :
    findDriver s category name = none := by
  unfold findDriver findCategory
  rw [h.categories]
  rfl

theorem Empty.consistent (h : Empty s) (lists : Nat → List Nat) : Consistent s lists := by
  have hnone (d : Nat) : d ∉ s.allDrivers := by
    unfold State.allDrivers
    rw [h.categories]
    exact List.not_mem_nil
  refine ⟨h.ordered, fun d hd => absurd hd (hnone d), fun d hd => absurd hd (hnone d), ?_, ?_, ?_,
    fun d hd => absurd hd (hnone d)⟩
  · intro k l _ hl
    exact absurd (h.usedPid ▸ hl) (Nat.not_lt_zero l)
  · intro pid i
    apply iff_of_false
    · rintro ⟨k, hk, -⟩
      exact absurd (h.usedPid ▸ hk) (Nat.not_lt_zero k)
    · rintro ⟨d, hd, -⟩
      exact hnone d hd
  · rw [h.usedPid]
    exact Nat.zero_le _

/-- In the empty registry an allowed call changes nothing. -/
theorem Empty.step_allowed {e : Event} (h : Empty s) (hstep : Step s e t) (hok : Allowed s e) :
    t = s ∧ e.replies = [] ∧ e.putToWait = [] := by
  obtain ⟨call, j, result, replies⟩ := e
  cases call with
  | addNewDriver category name pid multiInstances version release description =>
    obtain ⟨⟨r, replies', t'⟩, hadd, heq⟩ := Option.map_eq_some_iff.mp hstep
    obtain ⟨-, hrest⟩ := Prod.mk.inj heq
    obtain ⟨rfl, rfl⟩ := Prod.mk.inj hrest
    unfold addNewDriver at hadd
    split at hadd
    · obtain ⟨-, hsame⟩ := Prod.mk.inj (Option.some.inj hadd)
      exact ⟨(Prod.mk.inj hsame).2.symm, (Prod.mk.inj hsame).1.symm, rfl⟩
    · rename_i hcategory
      rw [if_pos (hok.resolve_left hcategory)] at hadd
      obtain ⟨-, hsame⟩ := Prod.mk.inj (Option.some.inj hadd)
      exact ⟨(Prod.mk.inj hsame).2.symm, (Prod.mk.inj hsame).1.symm, rfl⟩
  | findDriverPid category name pidForWait =>
    obtain ⟨⟨found, t'⟩, hfind, heq⟩ := Option.map_eq_some_iff.mp hstep
    obtain ⟨rfl, hrest⟩ := Prod.mk.inj heq
    obtain ⟨rfl, rfl⟩ := Prod.mk.inj hrest
    unfold findDriverPid at hfind
    rw [h.findDriver_eq] at hfind
    obtain ⟨rfl, rfl⟩ := Prod.mk.inj (Option.some.inj hfind)
    exact ⟨rfl, rfl, rfl⟩
  | deleteInstance pid =>
    obtain ⟨⟨r, t'⟩, hdelete, heq⟩ := Option.map_eq_some_iff.mp hstep
    obtain ⟨-, hrest⟩ := Prod.mk.inj heq
    obtain ⟨rfl, rfl⟩ := Prod.mk.inj hrest
    unfold deleteInstance at hdelete
    rw [h.usedPid] at hdelete
    obtain ⟨-, rfl⟩ := Prod.mk.inj (Option.some.inj hdelete)
    exact ⟨rfl, rfl, rfl⟩

theorem addDriver_pids (s : State) (category driver : CString) (isMulti isPool : BitVec 8) :
    (addDriver s category driver isMulti isPool).2.usedPid = s.usedPid ∧
      (addDriver s category driver isMulti isPool).2.totPid = s.totPid := by
  unfold addDriver
  dsimp only
  split <;> exact ⟨rfl, rfl⟩

/-- The first pid is not put into the list, or outside of its memory. -/
theorem addPid_first (hused : s.usedPid = 0) (htot : s.totPid = 0) (j : Unset) (pid : Pid)
    (i : Nat) : (addPid s j pid i).usedPid = 0 ∨
      (addPid s j pid i).usedPid = 1 ∧ (addPid s j pid i).pidBytes = 0 := by
  unfold addPid
  rw [if_pos (by omega)]
  dsimp only
  split
  · exact .inl hused
  · refine .inr ⟨congrArg (· + 1) hused, ?_⟩
    exact congrArg (sizeofDriverPidPointer * ·) hused

/-- The first registration that is not refused leaves a pid list that is not in order. -/
theorem Empty.registration (h : Empty s) (hcategory : category.chars.length ≤ maxDriverCategoryLen)
    (hname : name.chars.length ≤ maxDriverNameLen)
    (hadd : addNewDriver s j category name pid multiInstances version release description =
      some (r, replies, t)) :
    Reply.driverInit ∈ replies ∧ (t.usedPid = 0 ∨ t.usedPid = 1 ∧ t.pidBytes = 0) := by
  unfold addNewDriver at hadd
  rw [if_neg (Nat.not_lt.mpr hcategory), if_neg (Nat.not_lt.mpr hname), h.findDriver_eq] at hadd
  obtain ⟨⟨i, u⟩, hinst, hreg⟩ := Option.bind_eq_some_iff.mp hadd
  obtain ⟨-, hreg⟩ := Prod.mk.inj (Option.some.inj hreg)
  have hreplies : _ = replies := congrArg Prod.fst hreg
  have ht : _ = t := congrArg Prod.snd hreg
  have hrest : Same (addPid u j pid i) t := ht ▸ registerInstance_same u j _ i true j.newinst pid
    version release description
  refine ⟨hreplies ▸ List.mem_cons_self, ?_⟩
  obtain ⟨hused, htot⟩ := addDriver_pids s category name multiInstances 0
  have hsame : Same (addDriver s category name multiInstances 0).2 u := addInstance_same hinst
  rw [h.usedPid, ← hsame.usedPid] at hused
  rw [h.totPid, ← hsame.totPid] at htot
  rw [hrest.usedPid, hrest.pidBytes]
  exact addPid_first hused htot j pid i

theorem Empty.meets_iff_allowed {e : Event} (h : Empty s) (hstep : Step s e t) :
    Meets s e t ↔ Allowed s e := by
  constructor
  · intro hmeets
    obtain ⟨call, j, result, replies⟩ := e
    cases call with
    | addNewDriver category name pid multiInstances version release description =>
      by_contra hnot
      obtain ⟨hcategory, hname⟩ := not_or.mp hnot
      obtain ⟨⟨r, replies', t'⟩, hadd, heq⟩ := Option.map_eq_some_iff.mp hstep
      obtain ⟨-, hrest⟩ := Prod.mk.inj heq
      obtain ⟨rfl, rfl⟩ := Prod.mk.inj hrest
      obtain ⟨hinit, hpids⟩ := h.registration (Nat.not_lt.mp hcategory) (Nat.not_lt.mp hname) hadd
      obtain ⟨hregisters, -, lists, -, hconsistent, -⟩ := hmeets
      obtain hnone | ⟨hone, hroom⟩ := hpids
      · obtain ⟨k, hk, -⟩ := hregisters hinit
        exact absurd (hnone ▸ hk) (Nat.not_lt_zero k)
      · have hsize := hconsistent.pidRoom
        rw [hone, hroom] at hsize
        exact absurd hsize (by decide)
    | findDriverPid category name pidForWait => trivial
    | deleteInstance pid => trivial
  · intro hok
    obtain ⟨rfl, hreplies, hput⟩ := h.step_allowed hstep hok
    have hlists := h.consistent fun _ => []
    refine ⟨?_, fun _ => [], fun _ => [], hlists, hlists, ?_⟩
    · unfold Registers
      split
      · rw [hreplies]
        exact fun hmem => absurd hmem List.not_mem_nil
      · trivial
    · unfold Event.answered
      rw [hput, hreplies, List.append_nil]
      exact List.Perm.refl _

/-- From the empty registry a run keeps what it promises exactly as long as every registration
in it is refused. -/
theorem registrations_meet_iff_allowed {es : List Event} (h : Empty s) :
    Run (fun s e t => Step s e t ∧ Meets s e t) s es t ↔ Run (Guarded Allowed Step) s es t := by
  refine Run.meets_iff_guarded (I := Empty) ?_ ?_ h
  · intro s e t hs hstep
    exact hs.meets_iff_allowed hstep
  · intro s e t hs hstep hmeets
    obtain ⟨rfl, -⟩ := hs.step_allowed hstep ((hs.meets_iff_allowed hstep).mp hmeets)
    exact hs

/-- The empty registry, on memory that holds zeros. -/
def blankRegistry : State where
  total := 0
  categories := []
  drivers := fun _ => ⟨⟨[], List.not_mem_nil⟩, false, false, 0, fun _ => 0, 0, none⟩
  freshDriver := 0
  instances := fun _ => ⟨0, false, 0, 0, none, 0, none, none, none⟩
  freshInstance := 0
  pidList := 0
  pidBytes := 0
  pids := fun _ => ⟨0, none⟩
  totPid := 0
  usedPid := 0

/-- A registration that is refused, for a category of 33 characters. -/
def longRegistration : Event where
  call := .addNewDriver ⟨List.replicate 33 0x61, by decide⟩ ⟨[0x62], by decide⟩ ⟨5, by decide⟩ 0 1 0
    none
  unset := ⟨1, fun _ => ⟨0, none⟩, 2, Nat.two_pos, false, none⟩
  result := .status .catTooLong
  replies := []

theorem refused_registration_meets :
    Run (fun s e t => Step s e t ∧ Meets s e t) blankRegistry [longRegistration] blankRegistry :=
  (registrations_meet_iff_allowed ⟨rfl, rfl, rfl, rfl, rfl⟩).mpr (.single ⟨.inl (by decide), rfl⟩)

/-- The driver `a/b` registers with the pid 5, and the variable `area` holds 1. -/
def firstRegistration : Event where
  call := .addNewDriver ⟨[0x61], by decide⟩ ⟨[0x62], by decide⟩ ⟨5, by decide⟩ 0 1 0 none
  unset := ⟨1, fun _ => ⟨0, none⟩, 2, Nat.two_pos, false, none⟩
  result := .status .noerr
  replies := [.driverInit]

/-- The pid goes into a list without memory. -/
theorem first_pid_outside : Empty blankRegistry ∧
    ∃ t, Run Step blankRegistry [firstRegistration] t ∧ ∀ lists, ¬ Consistent t lists := by
  have hrun : (perform blankRegistry firstRegistration.unset firstRegistration.call).map
      (fun r => (r.1, r.2.1, r.2.2.usedPid, r.2.2.pidBytes)) =
        some (firstRegistration.result, firstRegistration.replies, 1, 0) := by
    decide +kernel
  obtain ⟨⟨result, replies, t⟩, hperform, heq⟩ := Option.map_eq_some_iff.mp hrun
  simp only [Prod.mk.injEq] at heq
  obtain ⟨rfl, rfl, hused, hbytes⟩ := heq
  refine ⟨⟨rfl, rfl, rfl, rfl, rfl⟩, t, .single hperform, fun lists h => ?_⟩
  have hsize := h.pidRoom
  rw [hused, hbytes] at hsize
  exact absurd hsize (by decide)

end OsdevArchive.Osso.DriverRegistry
