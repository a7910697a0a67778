import Mathlib.Data.BitVec
import Mathlib.Data.List.Basic
import Mathlib.Data.List.Nodup
import Mathlib.Data.List.Perm.Basic
import OsdevArchive.Lib.Prefixes

/-!
The mount points of the virtual file system of OSSO (`drivers/vfs.c`): they are published by file
systems, and the one for a path is asked for with `VFS_GET_FS_PID`. A string is a list of the
characters before the terminating zero. What is found is the first one in the table that the path
goes on behind. It is the right one if it is the longest of those, and no mount point is the path
itself.
-/

namespace OsdevArchive.Osso.Vfs

open OsdevArchive.Lib.Prefixes

abbrev Name := List (BitVec 8)

abbrev Pid := BitVec 32

def slash : BitVec 8 := 0x2f

/-- `"/"`. -/
def rootPath : Name := [slash]

/-- `MAX_MOUNT_POINTS`. -/
def maxMountPoints : Nat := 20

/-- `VFS_SUCCESS`. -/
def vfsSuccess : Int := 0

/-- `VFS_ERROR`. -/
def vfsError : Int := -1

/-- `Mount_Point`. -/
structure MountPoint where
  active : Bool
  pid : Pid
  mountPath : Name
deriving DecidableEq

/-- `vfs_message`; the class of a request is that of its case. -/
structure Message where
  msgClass : Int
  tag : BitVec 32
  pid : Pid
  idx : BitVec 32
  name : Name
deriving DecidableEq

/-- `Mount_Points` and `Root_Index`; `none` is -1. -/
structure Table where
  mountPoints : List MountPoint
  rootIndex : Option Nat
  rootMount : ∀ r, rootIndex = some r →
    ∃ m, mountPoints[r]? = some m ∧ m.active = true ∧ m.mountPath = rootPath

/-- `Mount_Points[Root_Index]`. -/
def Table.root (v : Table) : Option MountPoint := v.rootIndex.bind (v.mountPoints[·]?)

/-- The start of `main`. -/
def Table.init : Table where
  mountPoints := List.replicate maxMountPoints { active := false, pid := 0, mountPath := [] }
  rootIndex := none
  rootMount := by
    intro r hr
    cases hr

/-! ### `VFS_GET_FS_PID` -/

/-- What is left of the name behind a mount path, if a slash comes next. -/
def rest (name : Name) (m : MountPoint) : Option Name :=
  let (p, s) := strip name m.mountPath
  if s = [] then
    if p.head? = some slash then some p else none
  else none

/-- The loop over the mount points, from the index `i` on. -/
def search (rootIndex : Option Nat) (name : Name) : Nat → List MountPoint →
    Option (MountPoint × Name)
  | _, [] => none
  | i, m :: ms =>
    if some i ≠ rootIndex ∧ m.active = true then
      match rest name m with
      | some p => some (m, p)
      | none => search rootIndex name (i + 1) ms
    else search rootIndex name (i + 1) ms

/-- `VFS_GET_FS_PID`. -/
def Table.getFsPid (v : Table) (msg : Message) : Message :=
  match search v.rootIndex msg.name 0 v.mountPoints with
  | some (m, p) => { msg with name := p, pid := m.pid, msgClass := vfsSuccess }
  | none =>
    match v.root with
    | some m => { msg with pid := m.pid, msgClass := vfsSuccess }
    | none => { msg with msgClass := vfsError }

/-! ### `VFS_PUBLISH_MOUNT_POINT` -/

/-- The first mount point that is not active. -/
def Table.free (v : Table) : Option Nat :=
  v.mountPoints.findIdx? fun m => !m.active

theorem Table.free_spec {v : Table} {i : Nat} (h : v.free = some i) :
    ∃ m, v.mountPoints[i]? = some m ∧ m.active = false := by
  obtain ⟨hlt, hm, -⟩ := List.findIdx?_eq_some_iff_getElem.mp h
  exact ⟨_, List.getElem?_eq_getElem hlt, by simpa using hm⟩

/-- The mount point is written, and is the root if it is the first one with the path `"/"`. -/
def Table.register (v : Table) (i : Nat) (h : v.free = some i) (mittente : Pid) (name : Name) :
    Table where
  mountPoints := v.mountPoints.set i { active := true, pid := mittente, mountPath := name }
  rootIndex := if name = rootPath ∧ v.rootIndex = none then some i else v.rootIndex
  rootMount := by
    obtain ⟨old, hold, hfree⟩ := v.free_spec h
    have hlt := (List.getElem?_eq_some_iff.mp hold).1
    intro r hr
    split at hr
    · rename_i hname
      obtain rfl := Option.some.inj hr
      exact ⟨_, List.getElem?_set_self hlt, rfl, hname.1⟩
    · obtain ⟨m, hm, hactive, hpath⟩ := v.rootMount r hr
      have hne : i ≠ r := by
        rintro rfl
        rw [hold] at hm
        rw [← Option.some.inj hm, hfree] at hactive
        cases hactive
      exact ⟨m, by rw [List.getElem?_set_ne hne, hm], hactive, hpath⟩

/-- `VFS_PUBLISH_MOUNT_POINT`: the answer, and the table behind it. -/
def Table.publish (v : Table) (mittente : Pid) (msg : Message) : Message × Table :=
  match h : v.free with
  | some i => ({ msg with msgClass := vfsSuccess }, v.register i h mittente msg.name)
  | none => ({ msg with msgClass := vfsError }, v)

variable {v v' : Table} {msg : Message} {name p : Name} {m c : MountPoint}
variable {ms : List MountPoint} {r : Option Nat} {i : Nat}

/-! ### The search -/

/-- The active mount points that are not at the index of the root, from the index `i` on. -/
def others (rootIndex : Option Nat) : Nat → List MountPoint → List MountPoint
  | _, [] => []
  | i, m :: ms =>
    if some i ≠ rootIndex ∧ m.active = true then m :: others rootIndex (i + 1) ms
    else others rootIndex (i + 1) ms

def Table.others (v : Table) : List MountPoint := Vfs.others v.rootIndex 0 v.mountPoints

theorem rest_eq_some_iff :
    rest name m = some p ↔ name = m.mountPath ++ p ∧ p.head? = some slash := by
  unfold rest
  rw [← strip_eq_iff]
  obtain ⟨p', s⟩ := strip name m.mountPath
  dsimp only
  by_cases hs : s = []
  · rw [if_pos hs, hs]
    by_cases hp : p'.head? = some slash
    · rw [if_pos hp]
      constructor
      · intro heq
        obtain rfl := Option.some.inj heq
        exact ⟨rfl, hp⟩
      · rintro ⟨heq, -⟩
        rw [(Prod.mk.inj heq).1]
    · rw [if_neg hp]
      refine iff_of_false (fun heq => by cases heq) ?_
      rintro ⟨heq, hhead⟩
      rw [(Prod.mk.inj heq).1] at hp
      exact hp hhead
  · rw [if_neg hs]
    refine iff_of_false (fun heq => by cases heq) ?_
    rintro ⟨heq, -⟩
    exact hs (Prod.mk.inj heq).2

theorem rest_eq_none_iff : rest name m = none ↔ ¬ Under slash m.mountPath name := by
  rw [Option.eq_none_iff_forall_ne_some]
  constructor
  · rintro hnone ⟨q, hq⟩
    exact hnone (slash :: q) (rest_eq_some_iff.mpr ⟨hq, rfl⟩)
  · intro hunder p hp
    obtain ⟨hname, hhead⟩ := rest_eq_some_iff.mp hp
    obtain ⟨q, rfl⟩ := List.head?_eq_some_iff.mp hhead
    exact hunder ⟨q, hname⟩

/-- The search finds the first mount point that the name goes on behind. -/
theorem search_eq_some_iff : search r name i ms = some (m, p) ↔
    ∃ before behind, others r i ms = before ++ m :: behind ∧ rest name m = some p ∧
      ∀ c ∈ before, ¬ Under slash c.mountPath name := by
  induction ms generalizing i with
  | nil =>
    refine iff_of_false (fun h => by cases h) ?_
    rintro ⟨before, behind, h, -⟩
    exact List.append_ne_nil_of_right_ne_nil before (List.cons_ne_nil m behind) h.symm
  | cons d ms ih =>
    rw [search, others]
    by_cases hother : some i ≠ r ∧ d.active = true
    · rw [if_pos hother, if_pos hother]
      cases hrest : rest name d with
      | some q =>
        dsimp only
        constructor
        · intro heq
          obtain ⟨rfl, rfl⟩ := Prod.mk.inj (Option.some.inj heq)
          exact ⟨[], _, rfl, hrest, by simp⟩
        · rintro ⟨before, behind, hsplit, hm, hbefore⟩
          cases before with
          | nil =>
            obtain ⟨rfl, -⟩ := List.cons.inj hsplit
            rw [hrest] at hm
            rw [Option.some.inj hm]
          | cons b before =>
            obtain ⟨rfl, -⟩ := List.cons.inj hsplit
            have hnone := rest_eq_none_iff.mpr (hbefore _ List.mem_cons_self)
            rw [hrest] at hnone
            cases hnone
      | none =>
        dsimp only
        rw [ih]
        constructor
        · rintro ⟨before, behind, hsplit, hm, hbefore⟩
          refine ⟨d :: before, behind, by rw [hsplit]; rfl, hm, ?_⟩
          exact List.forall_mem_cons.mpr ⟨rest_eq_none_iff.mp hrest, hbefore⟩
        · rintro ⟨before, behind, hsplit, hm, hbefore⟩
          cases before with
          | nil =>
            obtain ⟨rfl, -⟩ := List.cons.inj hsplit
            rw [hrest] at hm
            cases hm
          | cons b before =>
            obtain ⟨rfl, htail⟩ := List.cons.inj hsplit
            exact ⟨before, behind, htail, hm, (List.forall_mem_cons.mp hbefore).2⟩
    · rw [if_neg hother, if_neg hother, ih]

theorem search_eq_none_iff : search r name i ms = none ↔
    ∀ c ∈ others r i ms, ¬ Under slash c.mountPath name := by
  induction ms generalizing i with
  | nil => simp [search, others]
  | cons d ms ih =>
    rw [search, others]
    by_cases hother : some i ≠ r ∧ d.active = true
    · rw [if_pos hother, if_pos hother, List.forall_mem_cons, ← rest_eq_none_iff, ← ih]
      cases rest name d with
      | some q => exact iff_of_false (fun h => by cases h) fun h => by cases h.1
      | none => exact (and_iff_right rfl).symm
    · rw [if_neg hother, if_neg hother, ih]

/-! ### The answer -/

/-- The mount point is one of the longest that are the path, or that the path goes on behind. -/
def Longest (v : Table) (name : Name) (m : MountPoint) : Prop :=
  IsLongest (fun m => Covers slash m.mountPath name) (fun m => m.mountPath.length) v.others m

/-- The answer has the pid of the longest mount point and the remainder of the path, and the pid of
the root if there is no other mount point for the path. -/
def Answers (v : Table) (msg ans : Message) : Prop :=
  (∃ m p, Longest v msg.name m ∧ msg.name = m.mountPath ++ p ∧
    ans = { msg with name := p, pid := m.pid, msgClass := vfsSuccess }) ∨
  (∀ m ∈ v.others, ¬ Covers slash m.mountPath msg.name) ∧
    ans = match v.root with
      | some m => { msg with pid := m.pid, msgClass := vfsSuccess }
      | none => { msg with msgClass := vfsError }

/-- No mount point is the path, and the first one that it goes on behind is the longest of these. -/
def Resolvable (v : Table) (name : Name) : Prop :=
  (∀ m ∈ v.others, m.mountPath ≠ name) ∧
  ∀ before m behind, v.others = before ++ m :: behind → Under slash m.mountPath name →
    (∀ c ∈ before, ¬ Under slash c.mountPath name) →
    ∀ c ∈ behind, Under slash c.mountPath name → c.mountPath.length ≤ m.mountPath.length

theorem answers_none (hsearch : search v.rootIndex msg.name 0 v.mountPoints = none)
    (habsolute : msg.name.head? = some slash) :
    Answers v msg (v.getFsPid msg) ↔ Resolvable v msg.name := by
  have hnone : ∀ c ∈ v.others, ¬ Under slash c.mountPath msg.name := search_eq_none_iff.mp hsearch
  unfold Answers Table.getFsPid
  rw [hsearch]
  dsimp only
  constructor
  · rintro (⟨m, p, hlongest, hname, hans⟩ | ⟨hcovers, -⟩)
    · exfalso
      cases hroot : v.root with
      | none =>
        rw [hroot] at hans
        have hclass : vfsError = vfsSuccess := congrArg Message.msgClass hans
        exact absurd hclass (by decide)
      | some d =>
        rw [hroot] at hans
        have hp : msg.name = p := congrArg Message.name hans
        rcases hlongest.admissible with heq | hunder
        · rw [heq, ← hp] at hname
          rw [List.self_eq_append_left.mp hname] at habsolute
          cases habsolute
        · exact hnone m hlongest.mem hunder
    · refine ⟨fun m hm heq => hcovers m hm (Or.inl heq), ?_⟩
      intro before m behind hsplit hunder
      have hm : m ∈ v.others := by
        rw [hsplit]
        exact List.mem_append_right before List.mem_cons_self
      exact absurd hunder (hnone m hm)
  · rintro ⟨hne, -⟩
    refine Or.inr ⟨?_, rfl⟩
    rintro m hm (heq | hunder)
    · exact hne m hm heq
    · exact hnone m hm hunder

theorem answers_some (hsearch : search v.rootIndex msg.name 0 v.mountPoints = some (m, p)) :
    Answers v msg (v.getFsPid msg) ↔ Resolvable v msg.name := by
  obtain ⟨before, behind, hsplit, hrest, hbefore⟩ := search_eq_some_iff.mp hsearch
  change v.others = before ++ m :: behind at hsplit
  obtain ⟨hname, hhead⟩ := rest_eq_some_iff.mp hrest
  have hunder : Under slash m.mountPath msg.name := by
    by_contra hnot
    rw [rest_eq_none_iff.mpr hnot] at hrest
    cases hrest
  have hmem : m ∈ v.others := by
    rw [hsplit]
    exact List.mem_append_right before List.mem_cons_self
  unfold Answers Table.getFsPid
  rw [hsearch]
  dsimp only
  constructor
  · rintro (⟨d, q, hlongest, hname', hans⟩ | ⟨hcovers, -⟩)
    · have hq : p = q := congrArg Message.name hans
      have hpath : m.mountPath = d.mountPath := by
        rw [← hq, hname] at hname'
        exact List.append_cancel_right hname'
      have hle : ∀ c ∈ v.others, Covers slash c.mountPath msg.name →
          c.mountPath.length ≤ m.mountPath.length := by
        rw [hpath]
        exact hlongest.le
      refine ⟨fun c hc heq => ?_, ?_⟩
      · have hshort := hle c hc (Or.inl heq)
        have hlong := hunder.length_lt
        rw [heq] at hshort
        omega
      · intro before' d' behind' hsplit' hunder' hbefore' c hc hcunder
        obtain ⟨q', hq'⟩ := Option.ne_none_iff_exists'.mp
          (fun hnone => rest_eq_none_iff.mp hnone hunder' : rest msg.name d' ≠ none)
        have hsame := search_eq_some_iff.mpr ⟨before', behind', hsplit', hq', hbefore'⟩
        rw [hsearch] at hsame
        rw [← (Prod.mk.inj (Option.some.inj hsame)).1]
        apply hle c _ (Or.inr hcunder)
        rw [hsplit']
        exact List.mem_append_right before' (List.mem_cons_of_mem d' hc)
    · exact absurd (Or.inr hunder) (hcovers m hmem)
  · rintro ⟨hne, hfirst⟩
    refine Or.inl ⟨m, p, ⟨hmem, Or.inr hunder, ?_⟩, hname, rfl⟩
    rintro c hc (heq | hcunder)
    · exact absurd heq (hne c hc)
    · rw [hsplit] at hc
      rcases List.mem_append.mp hc with hcbefore | hc
      · exact absurd hcunder (hbefore c hcbefore)
      · rcases List.mem_cons.mp hc with rfl | hcbehind
        · exact Nat.le_refl _
        · exact hfirst before m behind hsplit hunder hbefore c hcbehind hcunder

/-- For a path from the root, the answer is right exactly if the path is resolvable. -/
theorem answers_iff (habsolute : msg.name.head? = some slash) :
    Answers v msg (v.getFsPid msg) ↔ Resolvable v msg.name := by
  cases hsearch : search v.rootIndex msg.name 0 v.mountPoints with
  | none => exact answers_none hsearch habsolute
  | some found => exact answers_some hsearch

/-- The right answers of two tables with the same mount points are the same. -/
theorem Answers.unique {ans ans' : Message} (h : Answers v msg ans) (h' : Answers v' msg ans')
    (hperm : v.others.Perm v'.others) (hnodup : (v.others.map MountPoint.mountPath).Nodup)
    (hroot : v.root.map MountPoint.pid = v'.root.map MountPoint.pid) : ans = ans' := by
  rcases h with ⟨m, p, hlongest, hname, rfl⟩ | ⟨hcovers, rfl⟩
  · rcases h' with ⟨m', p', hlongest', hname', rfl⟩ | ⟨hcovers', -⟩
    · have hlongest'' := hlongest'.perm hperm.symm
      have hlen := hlongest.key_eq hlongest''
      obtain ⟨hpath, rfl⟩ := List.append_inj (hname.symm.trans hname') hlen
      rw [List.inj_on_of_nodup_map hnodup hlongest.mem hlongest''.mem hpath]
    · exact absurd hlongest.admissible (hcovers' m (hperm.mem_iff.mp hlongest.mem))
  · rcases h' with ⟨m', p', hlongest', -, -⟩ | ⟨-, rfl⟩
    · exact absurd hlongest'.admissible (hcovers m' (hperm.mem_iff.mpr hlongest'.mem))
    · cases hv : v.root with
      | none =>
        rw [hv, Option.map_none, eq_comm, Option.map_eq_none_iff] at hroot
        rw [hroot]
      | some d =>
        rw [hv, Option.map_some, eq_comm, Option.map_eq_some_iff] at hroot
        obtain ⟨d', hd', hpid⟩ := hroot
        rw [hd']
        dsimp only
        rw [hpid]

end OsdevArchive.Osso.Vfs
