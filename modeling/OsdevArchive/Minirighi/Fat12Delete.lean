import OsdevArchive.Minirighi.Fat12Names
import OsdevArchive.Minirighi.Fat12Sectors

/-!
Deleting a file (`fs/fat/fat12.c`). `fat12_local_rm` marks the entry of the file in its directory
and writes the directory back, and `fat12_do_delete_file` clears the chain of the file in the table.
-/

namespace OsdevArchive.Minirighi.Fat12

open OsdevArchive.Lib.Chained OsdevArchive.Minirighi.Inet

/-- How `fat12_local_rm` ends. -/
inductive RmResult where
  | removed
  /-- `-EPERM`. -/
  | forbidden
  /-- `-EINVAL`. -/
  | unmounted
  /-- `-ENOMEM`. -/
  | noMemory
  /-- The error of `fat12_read_clusters`. -/
  | unreadable
  /-- `-ENOENT`. -/
  | noEntry
  deriving DecidableEq

/-- What `fat12_local_rm` meets: whether there is memory for its buffer, and what the two calls
meet that read and write the directory. -/
structure RmEnv where
  memory : Bool
  reading : Env
  writing : Env

/-- The names "/", ".." and ".". -/
def Special (filename : Nat → Byte) : Prop :=
  strcmp filename [0x2F] 0 = true ∨ strcmp filename [0x2E, 0x2E] 0 = true ∨
    strcmp filename [0x2E] 0 = true

instance decidableSpecial : DecidablePred Special := fun _ => inferInstanceAs (Decidable (_ ∨ _))

/-- `fat12_local_rm`. It tests for deleted entries before the end of the directory; no entry is
both. -/
def localRm (p : Places) (env : RmEnv) (fuel : Nat) (s : St) (dir : Word) (filename : Nat → Byte) :
    Except Fault (RmResult × St) :=
  if Special filename then pure (.forbidden, s)
  else if s.super.check = false then pure (.unmounted, s)
  else do
    let n ← howManyCluster fuel s dir
    if env.memory = false then pure (.noMemory, s)
    else
      let size := n * s.super.bytesPerSector
      let cnum := BitVec.ofNat 16 n
      let (ret, buf, s) ← readClusters p env.reading fuel s (fun _ => 0) size dir cnum
      match ret with
      | none => pure (.unreadable, s)
      | some _ =>
          match search filename buf (n * s.super.bytesPerSector / fileEntrySize) 0 with
          | .entry i => do
              let buf := Function.update buf (fileEntrySize * i) 0xE5
              let (_, s) ← writeClusters p env.writing fuel s buf size dir cnum
              let s ← doDeleteFile fuel s (entryAt buf i).startCluster
              pure (.removed, s)
          | _ => pure (.noEntry, s)

/-! ## The files -/

/-- A file in a directory of a mounted volume: `index` is the first entry of the directory that
has the name, and `clusters` is the chain of the file, which is empty for an empty file. -/
structure Filed extends Ready where
  places : Places
  dir : Word
  dirClusters : List Word
  filename : Nat → Byte
  index : Nat
  clusters : List Word
  directory : IsDirectory lfat dir dirClusters
  plain : ¬Special filename
  named : FirstNamed filename (contents disk (sectorsOf places super dir dirClusters))
    ((sectorsOf places super dir dirClusters).length * fatSectorSize / fileEntrySize) index
  start : Word
  starts : start =
    (entryAt (contents disk (sectorsOf places super dir dirClusters)) index).startCluster
  chain : start ≠ 0 → WellFormed lfat start clusters
  empty : start = 0 → clusters = []

variable (x : Filed)

def Filed.sectors : List Nat := sectorsOf x.places x.super x.dir x.dirClusters

/-- The contents of the directory. -/
def Filed.entries : Nat → Byte := contents x.disk x.sectors

/-- The sector of the entry. -/
def Filed.sector : Nat := x.sectors.getD (fileEntrySize * x.index / fatSectorSize) 0

/-- Where the entry is on the disk. -/
def Filed.place : Nat := x.sector * fatSectorSize + fileEntrySize * x.index % fatSectorSize

/-- The entries of the chain of the file are cleared, and nothing else is changed in the table; and
the entry of the file is marked as deleted, and nothing else is changed on the disk. -/
structure DeletesExactly (t : St) : Prop where
  table : ∀ c, linkOf t.lfat c = if c ∈ x.clusters then 0 else linkOf x.lfat c
  disk : t.disk = Function.update x.disk x.place 0xE5

/-- The file is deleted, with rounds enough for the loops. -/
def Deleted (env : RmEnv) : Prop :=
  ∃ enough, ∀ fuel ≥ enough, ∃ t,
    localRm x.places env fuel x.toSt x.dir x.filename = .ok (.removed, t) ∧ DeletesExactly x t

/-- There is memory, the directory can be read, and the transfers that write it back get as far as
the sector of the entry; and the file has a chain, or the entry 0 of the table is 0 already. -/
structure DeleteCondition (env : RmEnv) : Prop where
  memory : env.memory = true
  readable : Readable env.reading x.dir x.sectors.length
  reaches : fileEntrySize * x.index / fatSectorSize <
    env.writing.writtenBack x.dir x.sectors.length
  start : x.start ≠ 0 ∨ linkOf x.lfat 0 = 0

/-! ## The entry -/

/-- The mark does not change the start cluster. -/
theorem startCluster_marked (buf : Nat → Byte) (i : Nat) (value : Byte) :
    (entryAt (Function.update buf (fileEntrySize * i) value) i).startCluster =
      (entryAt buf i).startCluster := by
  unfold entryAt wordAt
  dsimp only
  rw [Function.update_of_ne (by omega), Function.update_of_ne (by omega)]

theorem mem_take_iff {l : List Nat} (hnodup : l.Nodup) {q b w : Nat} (hq : l[q]? = some b) :
    b ∈ l.take w ↔ q < w := by
  obtain ⟨hlt, rfl⟩ := List.getElem?_eq_some_iff.mp hq
  constructor
  · intro hmem
    obtain ⟨k, hk, heq⟩ := List.getElem_of_mem hmem
    rw [List.getElem_take] at heq
    rw [List.length_take] at hk
    have := hnodup.getElem_inj_iff.mp heq
    omega
  · exact fun hqw => List.mem_take_iff_getElem.mpr ⟨q, by omega, rfl⟩

variable {x}

theorem sectors_nodup : x.sectors.Nodup := sectorsOf_nodup x.checked x.directory

/-- The sector of the entry is one of the directory. -/
theorem sector_at : x.sectors[fileEntrySize * x.index / fatSectorSize]? = some x.sector := by
  have hlt := x.named.lt
  have hin : fileEntrySize * x.index / fatSectorSize < x.sectors.length := by
    change x.index < x.sectors.length * fatSectorSize / fileEntrySize at hlt
    unfold fileEntrySize fatSectorSize at hlt ⊢
    omega
  unfold Filed.sector
  rw [List.getD_eq_getElem?_getD, List.getElem?_eq_getElem hin]
  rfl

theorem mod_lt_sector (a : Nat) : a % fatSectorSize < fatSectorSize := Nat.mod_lt a (by decide)

/-- The first byte of the entry. -/
theorem entries_index : x.entries (fileEntrySize * x.index) = x.disk x.place := by
  have hcontents : contents x.disk x.sectors
      (fileEntrySize * x.index / fatSectorSize * fatSectorSize +
        fileEntrySize * x.index % fatSectorSize) = x.disk x.place :=
    contents_apply sector_at (mod_lt_sector _)
  rwa [Nat.div_add_mod'] at hcontents

/-- The directory with the entry marked is the one on the disk with one byte changed. -/
theorem entries_marked {k block a : Nat} (hk : x.sectors[k]? = some block)
    (ha : a < fatSectorSize) :
    Function.update x.entries (fileEntrySize * x.index) 0xE5 (k * fatSectorSize + a) =
      Function.update x.disk x.place 0xE5 (block * fatSectorSize + a) := by
  have hsame : k * fatSectorSize + a = fileEntrySize * x.index ↔
      block * fatSectorSize + a = x.place := by
    obtain ⟨hdiv, hmod⟩ := place_split k ha
    obtain ⟨hdiv', hmod'⟩ := place_split block ha
    obtain ⟨hdiv'', hmod''⟩ := place_split x.sector (mod_lt_sector (fileEntrySize * x.index))
    constructor
    · intro h
      have hsector := sector_at (x := x)
      rw [← h, hdiv, hk] at hsector
      unfold Filed.place
      rw [← h, hmod, Option.some.inj hsector]
    · intro h
      unfold Filed.place at h
      have hblock : block = x.sector := by rw [← hdiv', h, hdiv'']
      have hoffset : a = fileEntrySize * x.index % fatSectorSize := by rw [← hmod', h, hmod'']
      obtain ⟨hlt, hget⟩ := List.getElem?_eq_some_iff.mp hk
      obtain ⟨hlt', hget'⟩ := List.getElem?_eq_some_iff.mp (sector_at (x := x))
      have hindex := sectors_nodup.getElem_inj_iff.mp (hget.trans (hblock.trans hget'.symm))
      rw [hindex, hoffset, Nat.div_add_mod']
  rw [Function.update_apply, Function.update_apply]
  simp only [hsame]
  split
  · rfl
  · exact contents_apply hk ha

/-! ## Deleting -/

variable {env : RmEnv} {fuel : Nat} {s t : St}

variable (x env) in
/-- The directory is read as it is on the disk, or `fat12_local_rm` does not remove the file. -/
theorem localRm_cases (hfuel : lfatLength ≤ fuel) :
    (env.memory = true ∧ Readable env.reading x.dir x.sectors.length →
      ∃ s, s.lfat = x.lfat ∧
        s.disk = (if fileEntrySize * x.index / fatSectorSize <
            env.writing.writtenBack x.dir x.sectors.length then
          Function.update x.disk x.place 0xE5 else x.disk) ∧
        localRm x.places env fuel x.toSt x.dir x.filename =
          (do
            let s ← doDeleteFile fuel s x.start
            pure (.removed, s))) ∧
    (¬(env.memory = true ∧ Readable env.reading x.dir x.sectors.length) →
      ∃ r s, localRm x.places env fuel x.toSt x.dir x.filename = .ok (r, s) ∧ r ≠ .removed) := by
  have hcheck : ¬x.super.check = false := by
    rw [x.checked]
    decide
  have hbps := (check_geometry x.checked).1
  have hlength : x.sectors.length ≤ lfatLength := sectorsOf_length_le x.checked x.directory
  have hpos : 0 < x.sectors.length := sectorsOf_pos x.checked x.directory
  have hcnum : (BitVec.ofNat 16 x.sectors.length).toNat = x.sectors.length := by
    rw [BitVec.toNat_ofNat]
    unfold lfatLength at hlength
    omega
  have hmany : howManyCluster fuel x.toSt x.dir = .ok x.sectors.length :=
    howManyCluster_dir x.places x.checked x.directory hfuel
  have hall : x.sectors = (sectorsOf x.places x.super x.dir x.dirClusters).take
      (BitVec.ofNat 16 x.sectors.length).toNat := by
    rw [hcnum]
    exact List.take_length.symm
  obtain ⟨⟨ret, buf, s⟩, hread, hserved, hfailed⟩ := readClusters_dir x.places (fun _ => 0)
    env.reading x.checked x.directory hfuel (by rw [hcnum]; exact hpos) hall
  unfold localRm
  rw [if_neg x.plain, if_neg hcheck, hmany, ok_bind, hbps]
  by_cases hmemory : env.memory = false
  · rw [if_pos hmemory]
    exact ⟨fun h => absurd h.1 (by rw [hmemory]; decide), fun _ => ⟨_, _, rfl, by decide⟩⟩
  rw [if_neg hmemory]
  dsimp only
  rw [hread, ok_bind]
  dsimp only
  constructor
  · rintro ⟨-, hreadable⟩
    obtain ⟨rfl, rfl, rfl⟩ : ret = some (x.sectors.length * fatSectorSize) ∧
        buf = x.entries ∧ s = x.toSt := by
      have heq := hserved hreadable
      rw [copied_contents _ rfl, Prod.mk.injEq, Prod.mk.injEq] at heq
      exact heq
    obtain ⟨r, t, hwrite, htlfat, htdisk⟩ := writeClusters_dir env.writing x.checked x.directory
      hfuel (show x.sectors = _ from rfl) hcnum fun k block hk a ha => entries_marked hk ha
    have hfound : search x.filename x.entries
        (x.sectors.length * fatSectorSize / fileEntrySize) 0 = .entry x.index :=
      search_eq_of_firstNamed x.named
    refine ⟨t, htlfat, ?_, ?_⟩
    · rw [htdisk]
      refine if_congr ?_ rfl rfl
      rw [← mem_take_iff sectors_nodup sector_at]
      unfold Filed.place
      rw [(place_split x.sector (mod_lt_sector _)).1]
    · dsimp only
      rw [hbps, hfound]
      dsimp only
      rw [hwrite, ok_bind, startCluster_marked, x.starts]
      rfl
  · intro hnot
    obtain rfl : ret = none := hfailed fun h =>
      hnot ⟨Bool.eq_true_of_not_eq_false hmemory, h⟩
    exact ⟨_, _, rfl, by decide⟩

/-- Clearing the chain of the file clears exactly its clusters, if the file has a chain; and else it
clears the entry 0. -/
theorem doDeleteFile_exact (hs : s.lfat = x.lfat) (h : doDeleteFile fuel s x.start = .ok t) :
    (∀ c, linkOf t.lfat c = if c ∈ x.clusters then 0 else linkOf x.lfat c) ↔
      x.start ≠ 0 ∨ linkOf x.lfat 0 = 0 := by
  obtain ⟨⟨hkept, hgone⟩, -, -⟩ := doDeleteFile_spec h
  rw [hs] at hkept hgone
  by_cases hstart : x.start = 0
  · have hclusters : x.clusters = [] := x.empty hstart
    rw [hclusters]
    rw [hstart] at hkept hgone
    simp only [List.not_mem_nil, if_false, hstart, ne_eq, not_true, false_or]
    constructor
    · exact fun htable => (htable 0).symm.trans (hgone 0 .here)
    · intro hzero c
      by_cases hc : Leads x.lfat 0 c
      · have honly : c = 0 := by
          cases hc with
          | here => rfl
          | link hgo _ => exact absurd (Or.inl hzero) hgo
        rw [hgone c hc, honly, hzero]
      · exact hkept c hc
  · refine ⟨fun _ => Or.inl hstart, fun _ c => ?_⟩
    have hleads : Leads x.lfat x.start c ↔ c ∈ x.clusters := (x.chain hstart).leads_iff
    split
    · next hc => exact hgone c (hleads.mpr hc)
    · next hc => exact hkept c fun h => hc (hleads.mp h)

/-- Clearing the chain ends, within the table, if the file has a chain or the entry 0 is 0. -/
theorem leads_inside (h : x.start ≠ 0 ∨ linkOf x.lfat 0 = 0) (d : Word)
    (hd : Leads x.lfat x.start d) : d.toNat < lfatLength := by
  by_cases hstart : x.start = 0
  · rw [hstart] at hd
    cases hd with
    | here => decide
    | link hgo _ => exact absurd (Or.inl (h.resolve_left fun hne => hne hstart)) hgo
  · have hchain : WellFormed x.lfat x.start x.clusters := x.chain hstart
    exact (hchain.inside d (hchain.leads_iff.mp hd)).2

/-- The entry is not marked before. -/
theorem not_marked : Function.update x.disk x.place 0xE5 ≠ x.disk := by
  intro h
  apply x.named.here.2.1
  have hplace := congrFun h x.place
  rw [Function.update_self] at hplace
  exact entries_index.trans hplace.symm

theorem condition_of_deleted (h : Deleted x env) : DeleteCondition x env := by
  obtain ⟨enough, h⟩ := h
  obtain ⟨t, hrun, htable, hdisk⟩ := h (max enough lfatLength) (Nat.le_max_left _ _)
  obtain ⟨hgood, hbad⟩ := localRm_cases x env (Nat.le_max_right enough lfatLength)
  have hread : env.memory = true ∧ Readable env.reading x.dir x.sectors.length := by
    by_contra hnot
    obtain ⟨r, s, hrun', hr⟩ := hbad hnot
    rw [hrun'] at hrun
    exact hr (Prod.mk.inj (Except.ok.inj hrun)).1
  obtain ⟨s, hslfat, hsdisk, heq⟩ := hgood hread
  rw [heq] at hrun
  obtain ⟨u, hdelete, hrun⟩ := bind_ok hrun
  obtain rfl : u = t := (Prod.mk.inj (Except.ok.inj hrun)).2
  refine ⟨hread.1, hread.2, ?_, (doDeleteFile_exact hslfat hdelete).mp htable⟩
  by_contra hshort
  have hsame : u.disk = s.disk := by rw [(doDeleteFile_spec hdelete).2.2]
  rw [if_neg hshort] at hsdisk
  exact not_marked (hdisk.symm.trans (hsame.trans hsdisk))

theorem deleted_of_condition (h : DeleteCondition x env) : Deleted x env := by
  obtain ⟨hmemory, hreadable, hreaches, hstart⟩ := h
  refine ⟨lfatLength + 1, fun fuel hfuel => ?_⟩
  obtain ⟨s, hslfat, hsdisk, heq⟩ :=
    (localRm_cases x env (Nat.le_of_succ_le hfuel)).1 ⟨hmemory, hreadable⟩
  obtain ⟨t, hdelete⟩ : ∃ t, doDeleteFile fuel s x.start = .ok t := by
    apply doDeleteFile_ends _ hfuel
    rw [hslfat]
    exact leads_inside hstart
  refine ⟨t, ?_, (doDeleteFile_exact hslfat hdelete).mpr hstart, ?_⟩
  · rw [heq, hdelete]
    rfl
  · have hsame : t.disk = s.disk := by rw [(doDeleteFile_spec hdelete).2.2]
    rw [hsame, hsdisk, if_pos hreaches]

/-- A file is deleted, exactly, if and only if the driver gets its memory and its transfers get far
enough and the file is not empty, or the entry 0 of the table is 0. -/
theorem deleted_iff (x : Filed) (env : RmEnv) : Deleted x env ↔ DeleteCondition x env :=
  ⟨condition_of_deleted, deleted_of_condition⟩

/-- A volume with one file in the root directory, "A", which is empty. -/
def emptyVolume : Ready where
  super := ⟨512, 1, 1, 2, 224, 2880, 0xF0, 9⟩
  fat _ := 0
  lfat j := if j = 0 then 0xFF0 else if j = 1 then 0xFFF else 0
  dirty := false
  disk a := if a = 9728 then 0x41 else if 9728 < a ∧ a < 9739 then 0x20 else 0
  writes := []
  checked := check_floppy

/-- The name "a". -/
def nameOfOne (i : Nat) : Byte := if i = 0 then 0x61 else 0

theorem emptyFile_named : FirstNamed nameOfOne
    (contents emptyVolume.disk (sectorsOf ⟨19, 31⟩ emptyVolume.super 0 []))
    ((sectorsOf ⟨19, 31⟩ emptyVolume.super 0 []).length * fatSectorSize / fileEntrySize) 0 where
  lt := by decide +kernel
  here := by decide +kernel
  before j hj := absurd hj (Nat.not_lt_zero j)

theorem emptyFile_start : (entryAt (contents emptyVolume.disk
    (sectorsOf ⟨19, 31⟩ emptyVolume.super 0 [])) 0).startCluster = 0 := by
  decide +kernel

def emptyFile : Filed where
  toReady := emptyVolume
  places := ⟨19, 31⟩
  dir := 0
  dirClusters := []
  filename := nameOfOne
  index := 0
  clusters := []
  directory := fun h => absurd rfl h
  plain := by decide
  named := emptyFile_named
  start := 0
  starts := emptyFile_start.symm
  chain := fun h => absurd rfl h
  empty _ := rfl

/-- With its transfers served: the entry 0 of the table is cleared. -/
theorem emptyFile_misdeleted :
    ¬Deleted emptyFile ⟨true, ⟨true, fun _ => none⟩, ⟨true, fun _ => none⟩⟩ := by
  intro h
  rcases (condition_of_deleted h).start with hstart | hzero
  · exact hstart rfl
  · exact absurd hzero (by decide)

end OsdevArchive.Minirighi.Fat12
