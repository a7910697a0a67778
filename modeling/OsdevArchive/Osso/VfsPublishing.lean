import OsdevArchive.Osso.Vfs

/-!
Tables of mount points that OSSO file systems have published, and what the order in which they did
so means for the paths.
-/

namespace OsdevArchive.Osso.Vfs

open OsdevArchive.Lib.Prefixes

/-- The mount point that a message asks for. -/
def mountPoint (q : Pid × Message) : MountPoint :=
  { active := true, pid := q.1, mountPath := q.2.name }

/-- The table behind messages of `VFS_PUBLISH_MOUNT_POINT`, each with its sender. -/
def published (qs : List (Pid × Message)) : Table :=
  qs.foldl (fun v q => (v.publish q.1 q.2).2) Table.init

def isRoot (m : MountPoint) : Bool := m.mountPath = rootPath

variable {qs qs' : List (Pid × Message)} {q : Pid × Message} {v : Table} {i n : Nat}
variable {r : Option Nat} {ms ms' : List MountPoint} {m : MountPoint}

/-! ### The table -/

theorem publish_free (h : v.free = some i) (q : Pid × Message) :
    (v.publish q.1 q.2).2.mountPoints = v.mountPoints.set i (mountPoint q) ∧
      (v.publish q.1 q.2).2.rootIndex =
        if q.2.name = rootPath ∧ v.rootIndex = none then some i else v.rootIndex := by
  unfold Table.publish
  split
  · rename_i j hj
    obtain rfl : i = j := Option.some.inj (h.symm.trans hj)
    exact ⟨rfl, rfl⟩
  · rename_i hnone
    rw [h] at hnone
    cases hnone

/-- The table has the mount points in the order of the messages. -/
theorem published_eq (hlen : qs.length ≤ maxMountPoints) :
    (published qs).mountPoints = qs.map mountPoint ++
        List.replicate (maxMountPoints - qs.length) { active := false, pid := 0, mountPath := [] } ∧
      (published qs).rootIndex = (qs.map mountPoint).findIdx? isRoot := by
  induction qs using List.reverseRecOn with
  | nil => exact ⟨rfl, rfl⟩
  | append_singleton qs q ih =>
    rw [List.length_append, List.length_singleton] at hlen
    obtain ⟨hmounts, hroot⟩ := ih (by omega)
    have hfree : (published qs).free = some qs.length := by
      obtain ⟨k, hk⟩ := Nat.exists_eq_add_of_le hlen
      have hactive : (qs.map mountPoint).findIdx? (fun m => !m.active) = none := by
        rw [List.findIdx?_eq_none_iff, List.forall_mem_map]
        exact fun _ _ => rfl
      unfold Table.free
      rw [hmounts, List.findIdx?_append, hactive, show maxMountPoints - qs.length = k + 1 by omega]
      simp [List.replicate_succ, List.findIdx?_cons]
    obtain ⟨hset, hindex⟩ := publish_free hfree q
    have hlast : published (qs ++ [q]) = ((published qs).publish q.1 q.2).2 :=
      List.foldl_concat ..
    rw [hlast]
    constructor
    · obtain ⟨k, hk⟩ := Nat.exists_eq_add_of_le hlen
      rw [hset, hmounts, List.set_append_right _ _ (by simp), List.length_map, Nat.sub_self,
        show maxMountPoints - qs.length = k + 1 by omega,
        show maxMountPoints - (qs ++ [q]).length = k by simp; omega, List.map_append,
        List.append_assoc]
      rfl
    · rw [hindex, hroot, List.map_append, List.findIdx?_append]
      cases hfound : (qs.map mountPoint).findIdx? isRoot with
      | some k => simp
      | none =>
        by_cases hname : q.2.name = rootPath
        · simp [hname, isRoot, mountPoint]
        · simp [hname, isRoot, mountPoint]

/-! ### The other mount points -/

theorem others_eq_self (hactive : ∀ m ∈ ms, m.active = true) (hr : ∀ k, r = some k → k < i) :
    others r i ms = ms := by
  induction ms generalizing i with
  | nil => rfl
  | cons m ms ih =>
    obtain ⟨hm, hrest⟩ := List.forall_mem_cons.mp hactive
    have hi : some i ≠ r := fun heq => Nat.lt_irrefl i (hr i heq.symm)
    rw [others, if_pos ⟨hi, hm⟩, ih hrest fun k hk => (hr k hk).trans (Nat.lt_succ_self i)]

/-- Only the first one with the path of the root is left out. -/
theorem others_eq_eraseP (hactive : ∀ m ∈ ms, m.active = true) :
    others ((ms.findIdx? isRoot).map (· + i)) i ms = ms.eraseP isRoot := by
  induction ms generalizing i with
  | nil => rfl
  | cons m ms ih =>
    obtain ⟨hm, hrest⟩ := List.forall_mem_cons.mp hactive
    rw [List.findIdx?_cons, others]
    by_cases hroot : isRoot m = true
    · rw [List.eraseP_cons_of_pos hroot, if_pos hroot, Option.map_some, Nat.zero_add,
        if_neg fun hand => hand.1 rfl]
      exact others_eq_self hrest fun k hk => by rw [← Option.some.inj hk]; exact Nat.lt_succ_self i
    · have hshift : (Option.map (· + 1) (ms.findIdx? isRoot)).map (· + i) =
          (ms.findIdx? isRoot).map (· + (i + 1)) := by
        rw [Option.map_map]
        congr 1
        funext k
        exact Nat.add_right_comm k 1 i
      have hi : some i ≠ (ms.findIdx? isRoot).map (· + (i + 1)) := by
        intro heq
        obtain ⟨k, -, hk⟩ := Option.map_eq_some_iff.mp heq.symm
        omega
      rw [List.eraseP_cons_of_neg hroot, if_neg hroot, hshift, if_pos ⟨hi, hm⟩, ih hrest]

theorem others_inactive (hfree : ∀ m ∈ ms, m.active = false) : others r i ms = [] := by
  induction ms generalizing i with
  | nil => rfl
  | cons m ms ih =>
    obtain ⟨hm, hrest⟩ := List.forall_mem_cons.mp hfree
    rw [others, if_neg (by rw [hm]; exact fun hand => Bool.false_ne_true hand.2), ih hrest]

theorem others_append (hfree : ∀ m ∈ ms', m.active = false) :
    others r i (ms ++ ms') = others r i ms := by
  induction ms generalizing i with
  | nil => exact others_inactive hfree
  | cons m ms ih => rw [List.cons_append, others, others, ih]

theorem published_others (hlen : qs.length ≤ maxMountPoints) :
    (published qs).others = (qs.map mountPoint).eraseP isRoot := by
  obtain ⟨hmounts, hroot⟩ := published_eq hlen
  have hactive : ∀ m ∈ qs.map mountPoint, m.active = true := by
    rw [List.forall_mem_map]
    exact fun _ _ => rfl
  have heq := others_eq_eraseP (i := 0) hactive
  simp only [Nat.add_zero, Option.map_id'] at heq
  unfold Table.others
  rw [hmounts, hroot, others_append, heq]
  intro m hm
  rw [List.eq_of_mem_replicate hm]

theorem published_root (hlen : qs.length ≤ maxMountPoints) :
    (published qs).root = (qs.map mountPoint).find? isRoot := by
  obtain ⟨hmounts, hroot⟩ := published_eq hlen
  unfold Table.root
  rw [hmounts, hroot, List.find?_eq_bind_findIdx?_getElem?]
  cases hfound : (qs.map mountPoint).findIdx? isRoot with
  | none => rfl
  | some k =>
    obtain ⟨hlt, -⟩ := List.findIdx?_eq_some_iff_getElem.mp hfound
    exact List.getElem?_append_left hlt

/-! ### The order of the messages -/

theorem mountPaths_nodup (hnodup : (qs.map fun q => q.2.name).Nodup) :
    ((qs.map mountPoint).map MountPoint.mountPath).Nodup := by
  rw [List.map_map]
  exact hnodup

/-- With different paths, there is one mount point for the root at most. -/
theorem find?_isRoot_iff (hnodup : (ms.map MountPoint.mountPath).Nodup) :
    ms.find? isRoot = some m ↔ m ∈ ms ∧ isRoot m = true := by
  constructor
  · intro hfound
    exact ⟨List.mem_of_find?_eq_some hfound, List.find?_some hfound⟩
  · rintro ⟨hm, hroot⟩
    cases hfound : ms.find? isRoot with
    | none => exact absurd hroot (List.find?_eq_none.mp hfound m hm)
    | some d =>
      have hd := List.find?_some hfound
      have hpath : d.mountPath = m.mountPath :=
        (of_decide_eq_true hd).trans (of_decide_eq_true hroot).symm
      rw [List.inj_on_of_nodup_map hnodup (List.mem_of_find?_eq_some hfound) hm hpath]

theorem find?_isRoot_perm (hnodup : (ms.map MountPoint.mountPath).Nodup) (hperm : ms.Perm ms') :
    ms.find? isRoot = ms'.find? isRoot := by
  have hnodup' : (ms'.map MountPoint.mountPath).Nodup :=
    (hperm.map MountPoint.mountPath).nodup_iff.mp hnodup
  apply Option.ext
  intro m
  rw [find?_isRoot_iff hnodup, find?_isRoot_iff hnodup', hperm.mem_iff]

theorem eraseP_isRoot_perm (hnodup : (ms.map MountPoint.mountPath).Nodup)
    (hperm : ms.Perm ms') : (ms.eraseP isRoot).Perm (ms'.eraseP isRoot) := by
  apply hperm.eraseP
  refine (List.pairwise_map.mp hnodup).imp fun hne ha hb => hne ?_
  exact (of_decide_eq_true ha).trans (of_decide_eq_true hb).symm

/-- Where the paths are resolvable, the order of the messages does not matter. -/
theorem published_perm {msg : Message} (hlen : qs.length ≤ maxMountPoints)
    (hperm : qs.Perm qs') (hnodup : (qs.map fun q => q.2.name).Nodup)
    (habsolute : msg.name.head? = some slash) (h : Resolvable (published qs) msg.name)
    (h' : Resolvable (published qs') msg.name) :
    (published qs).getFsPid msg = (published qs').getFsPid msg := by
  have hlen' : qs'.length ≤ maxMountPoints := by rwa [← hperm.length_eq]
  have hpaths := mountPaths_nodup hnodup
  have hmounts := hperm.map mountPoint
  refine ((answers_iff habsolute).mpr h).unique ((answers_iff habsolute).mpr h') ?_ ?_ ?_
  · rw [published_others hlen, published_others hlen']
    exact eraseP_isRoot_perm hpaths hmounts
  · rw [published_others hlen]
    exact hpaths.sublist ((List.eraseP_sublist).map MountPoint.mountPath)
  · rw [published_root hlen, published_root hlen', find?_isRoot_perm hpaths hmounts]

/-- For a path from the root, the answer is that of the longest mount point exactly if no mount
point is the path itself and the first one that it goes on behind is the longest of these. Where
that is so, the order of the messages that published the mount points does not matter. -/
theorem getFsPid_iff {msg : Message} (v : Table) (habsolute : msg.name.head? = some slash) :
    (Answers v msg (v.getFsPid msg) ↔ Resolvable v msg.name) ∧
      ∀ qs qs' : List (Pid × Message), qs.length ≤ maxMountPoints → qs.Perm qs' →
        (qs.map fun q => q.2.name).Nodup → Resolvable (published qs) msg.name →
        Resolvable (published qs') msg.name →
        (published qs).getFsPid msg = (published qs').getFsPid msg :=
  ⟨answers_iff habsolute, fun _ _ hlen hperm hnodup h h' =>
    published_perm hlen hperm hnodup habsolute h h'⟩

/-- A message with a name. -/
def message (name : Name) : Message := { msgClass := 0, tag := 0, pid := 0, idx := 0, name := name }

/-- `"/a"` is published in front of `"/a/b"`. -/
def nested : Table :=
  published [(2, message [slash, 0x61]), (3, message [slash, 0x61, slash, 0x62])]

/-- `"/a/b/c"` -/
def inner : Message := message [slash, 0x61, slash, 0x62, slash, 0x63]

theorem getFsPid_nested : Answers nested inner (nested.getFsPid inner) ↔
    Resolvable nested inner.name :=
  (getFsPid_iff nested (by decide)).1

/-- The answer is the outer mount point. -/
theorem nested_outer :
    nested.getFsPid inner = { inner with name := [slash, 0x62, slash, 0x63], pid := 2 } ∧
      ¬ Answers nested inner (nested.getFsPid inner) := by
  have hothers : nested.others = [{ active := true, pid := 2, mountPath := [slash, 0x61] },
      { active := true, pid := 3, mountPath := [slash, 0x61, slash, 0x62] }] := by
    decide
  refine ⟨by decide, fun h => ?_⟩
  have hfirst := ((answers_iff (by decide)).mp h).2 [] _ _ hothers ⟨_, rfl⟩ (by simp) _
    (List.mem_singleton_self _) ⟨_, rfl⟩
  exact absurd hfirst (by decide)

end OsdevArchive.Osso.Vfs
