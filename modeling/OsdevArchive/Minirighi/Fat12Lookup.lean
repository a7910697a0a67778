import OsdevArchive.Minirighi.Fat12Names
import OsdevArchive.Minirighi.Fat12Sectors

/-!
Finding an entry by its path (`fs/fat/fat12.c`): the search in the root directory, the search in a
chained directory, cluster by cluster, and the loop of `__fat12_locate_file` over the components.
-/

namespace OsdevArchive.Minirighi.Fat12

open OsdevArchive.Minirighi.Inet

/-- What the functions meet: for each call of `fat12_read_clusters`, counted over the whole run,
what that call meets, and whether there was memory for the buffer before it. -/
structure LookupEnv where
  memory : Nat → Bool
  reading : Nat → Env

/-- The state, and the calls of `fat12_read_clusters` so far. -/
structure Walk where
  s : St
  calls : Nat

/-- A result, where `none` is an error, with the entry in `*f`. -/
abbrev Located := Option Nat × FileEntry × Walk

/-- The names "." and "..". -/
def Dots (filename : Nat → Byte) : Prop :=
  strcmp filename [0x2E] 0 = true ∨ strcmp filename [0x2E, 0x2E] 0 = true

instance decidableDots : DecidablePred Dots := fun _ => inferInstanceAs (Decidable (_ ∨ _))

/-- The entry for the names "." and ".." in the root directory. -/
def rootEntry : FileEntry where
  name := 0x2F :: List.replicate 7 0x20
  extension := List.replicate 3 0x20
  attr := ⟨false, false, true, false, true, false⟩
  reserved := List.replicate 10 0
  time := 0
  date := 0
  startCluster := 0
  fileLength := 0

section Lookup

variable (p : Places) (env : LookupEnv) (fuel : Nat)

/-- `fat12_get_root_dir_entry`. Behind the last entry `ret` is still the result of
`fat12_read_clusters`. -/
def getRootDirEntry (w : Walk) (f : FileEntry) (filename : Nat → Byte) : Except Fault Located := do
  let n ← howManyCluster fuel w.s 0
  if filename 0 = 0 then pure (none, f, w)
  else if Dots filename then pure (some 0, rootEntry, w)
  else if env.memory w.calls = false then pure (none, f, w)
  else
    let size := n * w.s.super.bytesPerSector
    let (ret, buf, s) ← readClusters p (env.reading w.calls) fuel w.s (fun _ => 0) size 0
      (BitVec.ofNat 16 n)
    let w : Walk := ⟨s, w.calls + 1⟩
    match ret with
    | none => pure (none, f, w)
    | some ret =>
        match search filename buf (n * w.s.super.bytesPerSector / fileEntrySize) 0 with
        | .ended => pure (none, f, w)
        | .entry i => pure (some (entryAt buf i).startCluster.toNat, entryAt buf i, w)
        | .nothing => pure (some ret, f, w)

/-- The loop of `fat12_get_dir_entry`. -/
def getDirLoop (f : FileEntry) (filename : Nat → Byte) :
    (rounds : Nat) → (clust : Word) → Walk → Except Fault Located
  | 0, _, _ => .error .unending
  | rounds + 1, clust, w => do
      let (ret, buf, s) ← readClusters p (env.reading w.calls) fuel w.s (fun _ => 0)
        fatSectorSize clust 1
      let w : Walk := ⟨s, w.calls + 1⟩
      match ret with
      | none => pure (none, f, w)
      | some ret =>
          match search filename buf (1 * w.s.super.bytesPerSector / fileEntrySize) 0 with
          | .ended => pure (none, f, w)
          | .entry i => pure (some (entryAt buf i).startCluster.toNat, entryAt buf i, w)
          | .nothing => do
              let (clust, more) ← nextSector w.s.lfat clust
              if more then getDirLoop f filename rounds clust w else pure (some ret, f, w)

/-- `fat12_get_dir_entry`. -/
def getDirEntry (w : Walk) (f : FileEntry) (dir : Word) (filename : Nat → Byte) :
    Except Fault Located :=
  if filename 0 = 0 then pure (none, f, w) else getDirLoop p env fuel f filename fuel dir w

/-- `fat12_get_file_entry`. -/
def getFileEntry (w : Walk) (f : FileEntry) (dir : Word) (filename : Nat → Byte) :
    Except Fault Located :=
  if dir = 0 then getRootDirEntry p env fuel w f filename
  else getDirEntry p env fuel w f dir filename

/-- A result as a number of a cluster. The errors are small negative numbers, such as `-ENOENT`,
and thus numbers at the end of the range. -/
def clusterOf : Option Nat → Word
  | none => 0xFFFE
  | some n => BitVec.ofNat 16 n

/-- `fat12_set_relative_path`; `f` is what is on the stack. -/
def setRelativePath (w : Walk) (f : FileEntry) (dir : Word) (newPath : Nat → Byte) :
    Except Fault (Word × Walk) :=
  if newPath 0 = 0 then pure (dir, w)
  else do
    let (clust, f, w) ← getFileEntry p env fuel w f dir newPath
    pure (if f.attr.directory then clusterOf clust else clusterOf none, w)

/-- `PATH_LEN`, also `sizeof(str_path)`. -/
def pathLen : Nat := 1024

/-- From the label `explore` on, with the components that `strsep` cuts off. The last component of
a path that fills `str_path` has no end there. `stack` is what `fat12_set_relative_path` finds on
the stack. -/
def explore (stack : Nat → FileEntry) (whole : Bool) :
    (components : List (List Byte)) → (dir : Word) → Located → Except Fault Located
  | [], _, r => pure r
  | filename :: rest, dir, (ret, fe, w) =>
      if rest = [] ∧ whole = false then .error .outside
      else if filename = [] then explore stack whole rest dir (ret, fe, w)
      else do
        let (ret, fe, w) ← getFileEntry p env fuel w fe dir (asString filename)
        match ret with
        | none => pure (none, fe, w)
        | some ret =>
            if fe.attr.directory then do
              let (dir, w) ← setRelativePath p env fuel w (stack w.calls) dir (asString filename)
              explore stack whole rest dir (some ret, fe, w)
            else pure (some ret, fe, w)

/-- From the label `out` on. -/
def fixLength (r : Located) : Except Fault Located :=
  let (ret, fe, w) := r
  if fe.attr.directory then do
    let n ← howManyCluster fuel w.s (clusterOf ret)
    pure (ret, { fe with fileLength := BitVec.ofNat 32 (n * w.s.super.bytesPerSector) }, w)
  else pure r

/-- The character "/". -/
def slash : Byte := 0x2F

/-- `__fat12_locate_file`. -/
def locateFile (stack : Nat → FileEntry) (s : St) (fe : FileEntry) (dir : Word)
    (path : List Byte) : Except Fault Located :=
  if s.super.check = false then pure (none, fe, ⟨s, 0⟩)
  else do
    let strPath := path.take pathLen
    let absolute := strPath.head? = some slash
    let r ← explore p env fuel stack (path.length < pathLen) (strPath.splitOn slash)
      (if absolute then 0 else dir) (if absolute then some 0 else none, fe, ⟨s, 0⟩)
    fixLength fuel r

end Lookup

/-! ## One directory -/

/-- There is always memory, and no transfer fails. -/
structure LookupEnv.Serves (env : LookupEnv) : Prop where
  memory : ∀ k, env.memory k = true
  buffers : ∀ k, (env.reading k).memory = true
  transfers : ∀ k i, (env.reading k).io i = none

variable {p : Places} {env : LookupEnv} {fuel : Nat} {s : St} {fe : FileEntry}
  {filename buf : Nat → Byte} {dir c : Word} {cs : List Word} {ret : Option Nat}
  {found : Found}

theorem LookupEnv.Serves.readable (h : env.Serves) (k : Nat) (dir : Word) (n : Nat) :
    Readable (env.reading k) dir n := ⟨h.buffers k, fun _ _ => h.transfers k _⟩

/-- What a lookup gives, after the search of the whole directory `buf`. Without an entry `*f` is
left; and without an end of the directory the result is no error. -/
def Gives (fe : FileEntry) (buf : Nat → Byte) : Found → Option Nat → FileEntry → Prop
  | .entry i, ret, fe' => ret = some (entryAt buf i).startCluster.toNat ∧ fe' = entryAt buf i
  | .ended, ret, fe' => ret = none ∧ fe' = fe
  | .nothing, ret, fe' => (∃ r, ret = some r) ∧ fe' = fe

theorem Gives.shift {buf' : Nat → Byte} {m : Nat} {fe' : FileEntry}
    (h : Gives fe buf' found ret fe') (hentry : ∀ i, entryAt buf (i + m) = entryAt buf' i) :
    Gives fe buf (found.shift m) ret fe' := by
  cases found with
  | entry i =>
    change ret = some (entryAt buf (i + m)).startCluster.toNat ∧ fe' = entryAt buf (i + m)
    rw [hentry]
    exact h
  | ended => exact h
  | nothing => exact h

theorem contents_cons (disk : Nat → Byte) (block : Nat) (sectors : List Nat) (a : Nat) :
    contents disk (block :: sectors) (fatSectorSize + a) = contents disk sectors a := by
  have hdiv : (fatSectorSize + a) / fatSectorSize = a / fatSectorSize + 1 := by
    unfold fatSectorSize
    omega
  have hmod : (fatSectorSize + a) % fatSectorSize = a % fatSectorSize := Nat.add_mod_left ..
  unfold contents loaded
  rw [if_pos (Nat.zero_le _), if_pos (Nat.zero_le _), hdiv, hmod, Nat.sub_zero, Nat.sub_zero,
    List.getElem?_cons_succ]

theorem contents_first (disk : Nat → Byte) (block : Nat) (sectors : List Nat) {a : Nat}
    (ha : a < fatSectorSize) :
    contents disk (block :: sectors) a = contents disk [block] a := by
  have hdiv : a / fatSectorSize = 0 := Nat.div_eq_of_lt ha
  unfold contents loaded
  rw [hdiv]
  rfl

/-- The entries of a sector. -/
def perSector : Nat := 16

theorem rounds_eq (n : Nat) : n * fatSectorSize / fileEntrySize = n * perSector := by
  unfold fatSectorSize fileEntrySize perSector
  omega

theorem WellFormed.tail (h : WellFormed s.lfat c (c :: cs)) :
    EndMark (linkOf s.lfat c) ∧ cs = [] ∨
      ¬EndMark (linkOf s.lfat c) ∧ WellFormed s.lfat (linkOf s.lfat c) cs := by
  have hlink := h.chain
  cases hlink with
  | cons _ htail =>
    by_cases hcs : cs = []
    · refine Or.inl ⟨?_, hcs⟩
      have hend := htail.stop_iff.mpr hcs
      exact Or.inr (Nat.le_trans (by decide) hend)
    · have hbehind : WellFormed s.lfat (linkOf s.lfat c) cs :=
        ⟨htail, hcs, fun d hd => h.inside d (List.mem_cons_of_mem c hd)⟩
      exact Or.inr ⟨hbehind.go, hbehind⟩

theorem WellFormed.head_eq {d : Word} (h : WellFormed s.lfat d (c :: cs)) : d = c := by
  cases h.chain with
  | cons _ _ => rfl

/-- A chained directory is searched as a whole. -/
theorem getDirLoop_spec (hcheck : s.super.check = true) (henv : env.Serves)
    (hfuel : lfatLength ≤ fuel) (fe : FileEntry) (filename : Nat → Byte) {rounds : Nat}
    (calls : Nat) (h : WellFormed s.lfat dir cs) (hrounds : cs.length ≤ rounds) :
    ∃ ret fe' calls',
      getDirLoop p env fuel fe filename rounds dir ⟨s, calls⟩ = .ok (ret, fe', ⟨s, calls'⟩) ∧
      Gives fe (contents s.disk (cs.map fun c => p.dataStart + c.toNat))
        (search filename (contents s.disk (cs.map fun c => p.dataStart + c.toNat))
          (cs.length * perSector) 0) ret fe' := by
  induction cs generalizing dir rounds calls with
  | nil => exact absurd rfl h.nonempty
  | cons c cs ih =>
    obtain rfl := h.head_eq
    rw [List.length_cons] at hrounds
    obtain ⟨rounds, rfl⟩ : ∃ k, rounds = k + 1 := ⟨rounds - 1, by omega⟩
    have hsector : [p.dataStart + dir.toNat] =
        (sectorsOf p s.super dir (dir :: cs)).take (1 : Word).toNat := by
      rw [sectorsOf_chain h.ne_zero]
      rfl
    obtain ⟨r, hread, hserved, -⟩ := readClusters_dir p (fun _ => 0) (env.reading calls) hcheck
      (fun _ => h) hfuel (by decide) hsector
    rw [hserved (henv.readable _ _ _), List.length_singleton, Nat.one_mul,
      copied_contents _ (by rw [List.length_singleton, Nat.one_mul])] at hread
    rw [getDirLoop, hread, ok_bind]
    dsimp only
    rw [(check_geometry hcheck).1, rounds_eq, Nat.one_mul, List.map_cons, List.length_cons,
      Nat.add_mul, Nat.one_mul, Nat.add_comm _ perSector, search_append]
    have hfirst : search filename (contents s.disk
        ((p.dataStart + dir.toNat) :: cs.map fun c => p.dataStart + c.toNat)) perSector 0 =
          search filename (contents s.disk [p.dataStart + dir.toNat]) perSector 0 := by
      apply search_congr
      intro j hj k hk
      apply contents_first
      unfold perSector fileEntrySize at *
      unfold fatSectorSize
      omega
    have htells := search_tells filename (contents s.disk [p.dataStart + dir.toNat]) perSector 0
    rw [hfirst]
    cases hfound : search filename (contents s.disk [p.dataStart + dir.toNat]) perSector 0 with
    | entry i =>
      rw [hfound] at htells
      have hentry : entryAt (contents s.disk
          ((p.dataStart + dir.toNat) :: cs.map fun c => p.dataStart + c.toNat)) i =
            entryAt (contents s.disk [p.dataStart + dir.toNat]) i := by
        apply entryAt_congr
        intro k hk
        apply contents_first
        have hi := htells.1
        unfold perSector at hi
        unfold fileEntrySize at *
        unfold fatSectorSize
        omega
      exact ⟨_, _, _, rfl, by rw [hentry], hentry.symm⟩
    | ended => exact ⟨_, _, _, rfl, rfl, rfl⟩
    | nothing =>
      dsimp only
      rw [nextSector_ok (h.inside dir List.mem_cons_self).2, ok_bind]
      rcases h.tail with ⟨hend, rfl⟩ | ⟨hgo, htail⟩
      · rw [decide_eq_true hend]
        exact ⟨_, _, _, rfl, ⟨_, rfl⟩, rfl⟩
      · rw [decide_eq_false hgo]
        obtain ⟨ret, fe', calls', hloop, hgives⟩ := ih (calls + 1) htail
          (show cs.length ≤ rounds by omega)
        refine ⟨ret, fe', calls', hloop, ?_⟩
        have hbehind : ∀ i k, contents s.disk
            ((p.dataStart + dir.toNat) :: cs.map fun c => p.dataStart + c.toNat)
              (fileEntrySize * (i + perSector) + k) =
            contents s.disk (cs.map fun c => p.dataStart + c.toNat) (fileEntrySize * i + k) := by
          intro i k
          refine Eq.trans (congrArg _ ?_) (contents_cons s.disk (p.dataStart + dir.toNat) _ _)
          unfold fileEntrySize perSector fatSectorSize
          omega
        rw [search_shift fun j _ k _ => by rw [Nat.zero_add, Nat.zero_add, Nat.add_comm perSector,
          hbehind]]
        exact hgives.shift fun i => entryAt_congr fun k _ => hbehind i k

/-- A directory is searched as a whole, except for the two names that the driver itself gives the
root directory. -/
theorem getFileEntry_spec (hcheck : s.super.check = true) (henv : env.Serves)
    (hfuel : lfatLength ≤ fuel) (hdir : IsDirectory s.lfat dir cs) (fe : FileEntry)
    (hname : filename 0 ≠ 0) (calls : Nat) {sectors : List Nat}
    (hsectors : sectors = sectorsOf p s.super dir cs) :
    ∃ ret fe' calls', getFileEntry p env fuel ⟨s, calls⟩ fe dir filename =
        .ok (ret, fe', ⟨s, calls'⟩) ∧
      (dir = 0 ∧ Dots filename → ret = some 0 ∧ fe' = rootEntry) ∧
      (¬(dir = 0 ∧ Dots filename) → Gives fe (contents s.disk sectors)
        (search filename (contents s.disk sectors) (sectors.length * perSector) 0) ret fe') := by
  unfold getFileEntry
  by_cases hroot : dir = 0
  · subst hroot
    have hlength : sectors.length = rootLength := by
      rw [hsectors, sectorsOf_root hcheck, List.length_map, List.length_range]
    have hall : sectors =
        (sectorsOf p s.super 0 cs).take (BitVec.ofNat 16 sectors.length).toNat := by
      have hcnum : (BitVec.ofNat 16 sectors.length).toNat = sectors.length := by
        rw [hlength]
        decide
      rw [hcnum, hsectors, List.take_length]
    obtain ⟨r, hread, hserved, -⟩ := readClusters_dir p (fun _ => 0) (env.reading calls) hcheck
      hdir hfuel (by rw [hlength]; decide) hall
    rw [hserved (henv.readable _ _ _), copied_contents _ rfl] at hread
    unfold getRootDirEntry
    have hmemory : ¬env.memory calls = false := by
      rw [henv.memory]
      decide
    rw [if_pos rfl, howManyCluster_dir p hcheck hdir hfuel, ok_bind, if_neg hname, ← hsectors,
      (check_geometry hcheck).1]
    dsimp only
    by_cases hdots : Dots filename
    · rw [if_pos hdots]
      exact ⟨_, _, _, rfl, fun _ => ⟨rfl, rfl⟩, fun h => absurd ⟨rfl, hdots⟩ h⟩
    · rw [if_neg hdots, if_neg hmemory, hread, ok_bind, (check_geometry hcheck).1, rounds_eq]
      dsimp only
      cases search filename (contents s.disk sectors) (sectors.length * perSector) 0 with
      | entry i => exact ⟨_, _, _, rfl, fun h => absurd h.2 hdots, fun _ => ⟨rfl, rfl⟩⟩
      | ended => exact ⟨_, _, _, rfl, fun h => absurd h.2 hdots, fun _ => ⟨rfl, rfl⟩⟩
      | nothing => exact ⟨_, _, _, rfl, fun h => absurd h.2 hdots, fun _ => ⟨⟨_, rfl⟩, rfl⟩⟩
  · have hchain := hdir hroot
    rw [sectorsOf_chain hroot] at hsectors
    obtain ⟨ret, fe', calls', hloop, hgives⟩ := getDirLoop_spec (p := p) hcheck henv hfuel fe
      filename calls hchain (Nat.le_trans hchain.length_le hfuel)
    unfold getDirEntry
    rw [if_neg hroot, if_neg hname]
    refine ⟨ret, fe', calls', hloop, fun h => absurd h.1 hroot, fun _ => ?_⟩
    rw [hsectors, List.length_map]
    exact hgives

end OsdevArchive.Minirighi.Fat12
