import OsdevArchive.Minirighi.Fat12Chains

/-!
Reading and writing a directory of the FAT12 driver: the root directory, which lies in one piece,
and the directories in the data area, whose clusters are chained. To the callers both are a list of
sectors, one behind the other.
-/

namespace OsdevArchive.Minirighi.Fat12

open OsdevArchive.Lib.Chained OsdevArchive.Minirighi.Inet

/-! ## Chains -/

/-- A chain of clusters of the data area, up to an end of file. -/
structure WellFormed (lfat : Nat → Word) (start : Word) (cs : List Word) : Prop where
  chain : Chain (linkOf lfat) (fun value => 0x0FF8 ≤ value.toNat) start cs
  nonempty : cs ≠ []
  inside : ∀ c ∈ cs, 2 ≤ c.toNat ∧ c.toNat < lfatLength

variable {lfat : Nat → Word} {start dir cl : Word} {cs : List Word} {fuel : Nat} {s : St}
  {p : Places}

theorem go_of_inside {c : Word} (h : 2 ≤ c.toNat ∧ c.toNat < lfatLength) : ¬EndMark c := by
  rintro (rfl | hmark)
  · exact absurd h.1 (by decide)
  · exact absurd (Nat.lt_of_lt_of_le h.2 (by decide)) (Nat.not_lt.mpr hmark)

theorem WellFormed.toChain (h : WellFormed lfat start cs) :
    Chain (linkOf lfat) EndMark start cs :=
  h.chain.imp_stop (fun c hc => go_of_inside (h.inside c hc))
    fun _ hmark => Or.inr (Nat.le_trans (by decide) hmark)

theorem WellFormed.go (h : WellFormed lfat start cs) : ¬EndMark start :=
  fun hstop => h.nonempty (h.toChain.eq_nil hstop)

theorem WellFormed.ne_zero (h : WellFormed lfat start cs) : start ≠ 0 :=
  fun hzero => h.go (Or.inl hzero)

theorem WellFormed.leads_iff (h : WellFormed lfat start cs) {d : Word} :
    Leads lfat start d ↔ d ∈ cs := h.toChain.reached_iff h.go

theorem WellFormed.length_le (h : WellFormed lfat start cs) : cs.length ≤ lfatLength :=
  length_le_of_inside h.chain.nodup fun c hc => (h.inside c hc).2

/-- Counting along a chain. -/
theorem countLoop_chain (h : Chain (linkOf lfat) EndMark cl cs) (hgo : ¬EndMark cl)
    (hinside : ∀ c ∈ cs, c.toNat < lfatLength) (hfuel : cs.length ≤ fuel) (k : Word) :
    countLoop lfat fuel cl k = .ok (k + BitVec.ofNat 16 (cs.length - 1)) := by
  induction h generalizing fuel k with
  | nil hstop => exact absurd hstop hgo
  | @cons c cs _ htail ih =>
    rw [List.length_cons] at hfuel
    obtain ⟨fuel, rfl⟩ : ∃ j, fuel = j + 1 := ⟨fuel - 1, by omega⟩
    rw [countLoop_succ (hinside c List.mem_cons_self)]
    split
    · next hend =>
      rw [htail.eq_nil hend]
      exact congrArg Except.ok (BitVec.add_zero k).symm
    · next hnext =>
      obtain ⟨tail, rfl, -⟩ := htail.eq_cons hnext
      rw [ih hnext (fun d hd => hinside d (List.mem_cons_of_mem c hd)) (by omega)]
      simp only [List.length_cons, Nat.add_sub_cancel]
      rw [BitVec.add_assoc, BitVec.ofNat_add]
      exact congrArg (fun n => Except.ok (k + n)) (BitVec.add_comm 1 _)

/-- The clusters of a well formed chain are counted. -/
theorem WellFormed.howManyCluster (h : WellFormed s.lfat start cs) (hfuel : cs.length ≤ fuel) :
    howManyCluster fuel s start = .ok cs.length := by
  have hpos := List.length_pos_of_ne_nil h.nonempty
  have hle := h.length_le
  unfold lfatLength at hle
  unfold Fat12.howManyCluster
  rw [if_neg h.ne_zero, countLoop_chain h.toChain h.go (fun c hc => (h.inside c hc).2) hfuel,
    ok_bind]
  change Except.ok _ = _
  rw [BitVec.toNat_add, BitVec.toNat_ofNat]
  congr 1
  change (1 + (cs.length - 1) % 2 ^ 16) % 2 ^ 16 = _
  omega

/-! ## Sectors -/

/-- The sectors of a directory whose clusters are `cs`. -/
def sectorsOf (p : Places) (sb : SuperBlock) (dir : Word) (cs : List Word) : List Nat :=
  if dir = 0 then
    (List.range (sb.rootDirectoryEntries * fileEntrySize / sb.bytesPerSector)).map (p.dirStart + ·)
  else cs.map fun c => p.dataStart + c.toNat

/-- The contents of sectors, from the sector `i` of the memory `tmp` on. -/
def loaded (disk : Nat → Byte) (sectors : List Nat) (i : Nat) (tmp : Nat → Byte) (a : Nat) : Byte :=
  if i ≤ a / fatSectorSize then
    match sectors[a / fatSectorSize - i]? with
    | some block => disk (block * fatSectorSize + a % fatSectorSize)
    | none => tmp a
  else tmp a

/-- The contents of sectors, one behind the other. -/
def contents (disk : Nat → Byte) (sectors : List Nat) : Nat → Byte :=
  loaded disk sectors 0 fun _ => 0

variable {disk tmp buf : Nat → Byte} {sectors : List Nat} {io : Nat → Option Nat}
  {i a block count place : Nat} {value : Byte}

theorem place_split (i : Nat) {o : Nat} (ho : o < fatSectorSize) :
    (i * fatSectorSize + o) / fatSectorSize = i ∧ (i * fatSectorSize + o) % fatSectorSize = o := by
  unfold fatSectorSize at ho ⊢
  omega

theorem loaded_nil : loaded disk [] i tmp = tmp := by
  funext a
  unfold loaded
  split <;> rfl

/-- Reading the first sector, and then the others behind it. -/
theorem loaded_cons : loaded disk (block :: sectors) i tmp =
    loaded disk sectors (i + 1) (readSectors disk block 1 tmp (i * fatSectorSize)) := by
  funext a
  unfold loaded readSectors fatSectorSize
  rcases Nat.lt_trichotomy i (a / 512) with hlt | rfl | hlt
  · obtain ⟨k, hk⟩ : ∃ k, a / 512 = i + (k + 1) := ⟨a / 512 - i - 1, by omega⟩
    rw [if_pos (by omega), if_pos (by omega), hk, Nat.add_sub_cancel_left,
      show i + (k + 1) - (i + 1) = k by omega, List.getElem?_cons_succ]
    split
    · rfl
    · rw [if_neg (by omega)]
  · rw [if_pos (Nat.le_refl _), if_neg (by omega), Nat.sub_self, List.getElem?_cons_zero,
      if_pos (by omega)]
    refine congrArg (fun o => disk (block * 512 + o)) ?_
    omega
  · rw [if_neg (by omega), if_neg (by omega), if_neg (by omega)]

/-- Sectors that lie in one piece are read at once. -/
theorem readSectors_eq_contents (disk : Nat → Byte) (block n : Nat) :
    readSectors disk block n (fun _ => 0) 0 =
      contents disk ((List.range n).map (block + ·)) := by
  funext a
  unfold contents loaded readSectors fatSectorSize
  rw [if_pos (Nat.zero_le _), List.getElem?_map]
  by_cases ha : a / 512 < n
  · rw [Nat.sub_zero (a / 512), List.getElem?_range ha, if_pos (by omega)]
    refine congrArg disk ?_
    change block * 512 + a = (block + a / 512) * 512 + a % 512
    omega
  · rw [Nat.sub_zero (a / 512), List.getElem?_eq_none (by rw [List.length_range]; omega),
      if_neg (by omega)]
    rfl

theorem contents_apply (hblock : sectors[i]? = some block) {o : Nat} (ho : o < fatSectorSize) :
    contents disk sectors (i * fatSectorSize + o) = disk (block * fatSectorSize + o) := by
  obtain ⟨hdiv, hmod⟩ := place_split i ho
  unfold contents loaded
  rw [if_pos (Nat.zero_le _), hdiv, hmod, Nat.sub_zero, hblock]

/-- Behind the sectors there is nothing. -/
theorem contents_behind (ha : sectors.length * fatSectorSize ≤ a) :
    contents disk sectors a = 0 := by
  have hnone : sectors[a / fatSectorSize]? = none := by
    apply List.getElem?_eq_none
    unfold fatSectorSize at ha ⊢
    omega
  unfold contents loaded
  rw [if_pos (Nat.zero_le _), Nat.sub_zero, hnone]

theorem copied_contents (n : Nat) (hn : n = sectors.length * fatSectorSize) :
    copied (fun _ => 0) (contents disk sectors) n = contents disk sectors := by
  funext a
  unfold copied
  split
  · rfl
  · next ha => exact (contents_behind (by omega)).symm

/-! ## Reading -/

/-- The first `n` transfers succeed, counted from the transfer `i` on. -/
def Served (io : Nat → Option Nat) (i n : Nat) : Prop := ∀ k < n, io (i + k) = none

theorem served_succ {n : Nat} : Served io i (n + 1) ↔ io i = none ∧ Served io (i + 1) n := by
  unfold Served
  rw [Nat.forall_lt_succ_left, Nat.add_zero]
  simp only [Nat.add_right_comm i _ 1, ← Nat.add_assoc]

variable (p io) in
/-- Reading the first `rounds` clusters of a chain. -/
theorem readLoop_spec (hbps : s.super.bytesPerSector = fatSectorSize)
    (h : Chain (linkOf s.lfat) EndMark cl cs) (hgo : ¬EndMark cl)
    (hinside : ∀ c ∈ cs, c.toNat < lfatLength) (rounds i : Nat) (tmp : Nat → Byte) :
    ∃ r, readLoop p io s rounds i cl tmp = .ok r ∧
      (Served io i (min rounds cs.length) → r = some (loaded s.disk
        ((cs.take rounds).map fun c => p.dataStart + c.toNat) i tmp)) ∧
      (¬Served io i (min rounds cs.length) → r = none) := by
  induction h generalizing rounds i tmp with
  | nil hstop => exact absurd hstop hgo
  | @cons c cs _ htail ih =>
    cases rounds with
    | zero =>
      refine ⟨_, rfl, fun _ => ?_, fun hfail => absurd (fun k hk => ?_) hfail⟩
      · rw [List.take_zero, List.map_nil, loaded_nil]
      · rw [Nat.zero_min] at hk
        cases hk
    | succ rounds =>
      have hmin : min (rounds + 1) (c :: cs).length = min rounds cs.length + 1 :=
        Nat.add_min_add_right rounds cs.length 1
      rw [hmin, served_succ]
      cases hio : io i with
      | some done =>
        exact ⟨none, readLoop_fails hio, fun h => absurd h.1 (Option.some_ne_none _), fun _ => rfl⟩
      | none =>
        rw [readLoop_succ hio (hinside c List.mem_cons_self), hbps, List.take_succ_cons,
          List.map_cons, loaded_cons]
        dsimp only
        split
        · next hend =>
          rw [htail.eq_nil hend]
          refine ⟨_, rfl, fun _ => ?_, fun hfail => absurd ⟨rfl, fun k hk => ?_⟩ hfail⟩
          · rw [List.take_nil, List.map_nil, loaded_nil]
          · rw [List.length_nil, Nat.min_zero] at hk
            cases hk
        · next hnext =>
          obtain ⟨r, hr, hserved, hfailed⟩ := ih hnext
            (fun d hd => hinside d (List.mem_cons_of_mem c hd)) rounds (i + 1)
            (readSectors s.disk (p.dataStart + c.toNat) 1 tmp (i * fatSectorSize))
          exact ⟨r, hr, fun h => hserved h.2, fun h => hfailed fun k => h ⟨rfl, k⟩⟩

/-! ## Writing -/

/-- How many sectors are written one by one, at most `rounds` from the transfer `i` on. -/
def sectorsWritten (io : Nat → Option Nat) : (rounds i : Nat) → Nat
  | 0, _ => 0
  | rounds + 1, i =>
      match io i with
      | some done => min done 1
      | none => sectorsWritten io rounds (i + 1) + 1

variable (place value) in
/-- Writing sectors whose contents are those of the disk except for one byte: the byte changes if
its sector is among them. -/
theorem writeSectors_mark (hbuf : ∀ a < count * fatSectorSize, buf a =
      Function.update disk place value (block * fatSectorSize + a)) :
    writeSectors disk block count buf =
      if block ≤ place / fatSectorSize ∧ place / fatSectorSize < block + count then
        Function.update disk place value
      else disk := by
  funext a
  unfold fatSectorSize at hbuf
  unfold writeSectors fatSectorSize
  by_cases ha : block * 512 ≤ a ∧ a < (block + count) * 512
  · rw [if_pos ha, hbuf _ (by omega), Nat.add_sub_cancel' ha.1]
    split
    · rfl
    · apply Function.update_of_ne
      rintro rfl
      omega
  · rw [if_neg ha]
    split
    · refine (Function.update_of_ne ?_ ..).symm
      rintro rfl
      omega
    · rfl

theorem fdcWrite_disk (s : St) (block count : Nat) (buf : Nat → Byte) :
    (s.fdcWrite block count buf).disk = writeSectors s.disk block count buf := rfl

theorem invalidate_disk (s : St) : s.invalidate.disk = s.disk := rfl

theorem updated_twice (P : Prop) [Decidable P] :
    Function.update (if P then Function.update disk place value else disk) place value =
      Function.update disk place value := by
  split
  · exact Function.update_idem ..
  · rfl

variable (p tmp io place value) in
/-- Writing the clusters of a chain back, with one byte changed. -/
theorem writeLoop_spec (hbps : s.super.bytesPerSector = fatSectorSize)
    (hlfat : s.lfat = lfat) (h : Chain (linkOf lfat) EndMark cl cs) (hgo : ¬EndMark cl)
    (hinside : ∀ c ∈ cs, c.toNat < lfatLength) (i : Nat)
    (htmp : ∀ k c, cs[k]? = some c → ∀ a < fatSectorSize, tmp ((i + k) * fatSectorSize + a) =
      Function.update s.disk place value ((p.dataStart + c.toNat) * fatSectorSize + a)) :
    ∃ ok t, writeLoop p io tmp cs.length i cl s = .ok (ok, t) ∧ t.lfat = lfat ∧
      t.disk = if ∃ c ∈ cs.take (sectorsWritten io cs.length i),
          place / fatSectorSize = p.dataStart + c.toNat then
        Function.update s.disk place value
      else s.disk := by
  induction h generalizing i s with
  | nil hstop => exact absurd hstop hgo
  | @cons c cs _ htail ih =>
    have hfirst : ∀ a < fatSectorSize, tmp (i * fatSectorSize + a) =
        Function.update s.disk place value ((p.dataStart + c.toNat) * fatSectorSize + a) :=
      htmp 0 c rfl
    rw [List.length_cons]
    cases hio : io i with
    | some done =>
      refine ⟨false, _, writeLoop_fails hio, hlfat, ?_⟩
      rw [sectorsWritten, hio, invalidate_disk, fdcWrite_disk, hbps,
        writeSectors_mark place value fun a ha => hfirst a ?_]
      · refine if_congr ?_ rfl rfl
        cases done with
        | zero => simp
        | succ done =>
          simp only [Nat.le_add_left, Nat.min_eq_right, List.take_succ_cons, List.take_zero,
            List.mem_singleton, exists_eq_left]
          omega
      · have hone : min done 1 * fatSectorSize ≤ 1 * fatSectorSize :=
          Nat.mul_le_mul_right _ (Nat.min_le_right _ _)
        rw [Nat.one_mul] at hone
        exact Nat.lt_of_lt_of_le ha hone
    | none =>
      rw [writeLoop_succ hio (hinside c List.mem_cons_self), sectorsWritten, hio,
        List.take_succ_cons]
      dsimp only
      generalize hs : s.fdcWrite (p.dataStart + c.toNat) 1
        (fun a => tmp (i * s.super.bytesPerSector + a)) = s₁
      have hdisk : s₁.disk = if place / fatSectorSize = p.dataStart + c.toNat then
          Function.update s.disk place value else s.disk := by
        rw [← hs, fdcWrite_disk, hbps,
          writeSectors_mark place value fun a ha => hfirst a (by rwa [Nat.one_mul] at ha)]
        refine if_congr ?_ rfl rfl
        omega
      have hlfat₁ : s₁.lfat = lfat := by
        rw [← hs]
        exact hlfat
      have hbps₁ : s₁.super.bytesPerSector = fatSectorSize := by
        rw [← hs]
        exact hbps
      rw [hlfat]
      split
      · next hend =>
        refine ⟨true, s₁, rfl, hlfat₁, ?_⟩
        rw [htail.eq_nil hend, hdisk]
        simp only [List.take_nil, List.mem_singleton, exists_eq_left]
      · next hnext =>
        obtain ⟨ok, t, ht, htlfat, htdisk⟩ := ih hbps₁ hlfat₁ hnext
          (fun d hd => hinside d (List.mem_cons_of_mem c hd)) (i + 1) fun k d hd a ha => by
            rw [hdisk, updated_twice, Nat.add_assoc, Nat.add_comm 1]
            exact htmp (k + 1) d hd a ha
        refine ⟨ok, t, ht, htlfat, ?_⟩
        rw [htdisk, hdisk, updated_twice]
        by_cases hhere : place / fatSectorSize = p.dataStart + c.toNat
        · rw [if_pos hhere, ite_self, if_pos ⟨c, List.mem_cons_self, hhere⟩]
        · rw [if_neg hhere]
          refine if_congr ?_ rfl rfl
          simp only [List.mem_cons, exists_eq_or_imp, hhere, false_or]

/-! ## Directories -/

/-- The clusters of a directory: of the root directory, or a chain. -/
def IsDirectory (lfat : Nat → Word) (dir : Word) (cs : List Word) : Prop :=
  dir ≠ 0 → WellFormed lfat dir cs

/-- The sectors of the root directory. -/
def rootLength : Nat := 14

theorem sectorsOf_root (hcheck : s.super.check = true) :
    sectorsOf p s.super 0 cs = (List.range rootLength).map (p.dirStart + ·) := by
  obtain ⟨hbps, hentries⟩ := check_geometry hcheck
  unfold sectorsOf
  rw [if_pos rfl, hbps, hentries]
  rfl

theorem sectorsOf_chain (hdir : dir ≠ 0) :
    sectorsOf p s.super dir cs = cs.map fun c => p.dataStart + c.toNat := if_neg hdir

variable (p) in
theorem howManyCluster_dir (hcheck : s.super.check = true) (hdir : IsDirectory s.lfat dir cs)
    (hfuel : lfatLength ≤ fuel) :
    howManyCluster fuel s dir = .ok (sectorsOf p s.super dir cs).length := by
  by_cases hroot : dir = 0
  · obtain ⟨hbps, hentries⟩ := check_geometry hcheck
    rw [hroot, sectorsOf_root hcheck, List.length_map, List.length_range]
    unfold howManyCluster
    rw [if_pos rfl, hbps, hentries, if_neg (by decide)]
    rfl
  · have hchain := hdir hroot
    rw [sectorsOf_chain hroot, List.length_map]
    exact hchain.howManyCluster (Nat.le_trans hchain.length_le hfuel)

theorem sectorsOf_pos (hcheck : s.super.check = true) (hdir : IsDirectory s.lfat dir cs) :
    0 < (sectorsOf p s.super dir cs).length := by
  by_cases hroot : dir = 0
  · rw [hroot, sectorsOf_root hcheck, List.length_map, List.length_range]
    decide
  · rw [sectorsOf_chain hroot, List.length_map]
    exact List.length_pos_of_ne_nil (hdir hroot).nonempty

theorem sectorsOf_length_le (hcheck : s.super.check = true) (hdir : IsDirectory s.lfat dir cs) :
    (sectorsOf p s.super dir cs).length ≤ lfatLength := by
  by_cases hroot : dir = 0
  · rw [hroot, sectorsOf_root hcheck, List.length_map, List.length_range]
    decide
  · rw [sectorsOf_chain hroot, List.length_map]
    exact (hdir hroot).length_le

variable {env : Env} {n : Nat}

/-- There is memory, and the transfers that read `n` sectors succeed. -/
def Readable (env : Env) (dir : Word) (n : Nat) : Prop :=
  env.memory = true ∧ Served env.io 0 (if dir = 0 then 1 else n)

theorem served_one : Served io 0 1 ↔ io 0 = none := by
  unfold Served
  simp

variable (env) in
/-- The transfers that read the first `n` sectors of a directory. -/
theorem transfers_read (hcheck : s.super.check = true) (hdir : IsDirectory s.lfat dir cs)
    {cnum : Nat} {sectors : List Nat}
    (hsectors : sectors = (sectorsOf p s.super dir cs).take cnum) :
    ∃ read, readTransfers p env s sectors.length dir = .ok read ∧
      (Served env.io 0 (if dir = 0 then 1 else sectors.length) →
        read = some (contents s.disk sectors)) ∧
      (¬Served env.io 0 (if dir = 0 then 1 else sectors.length) → read = none) := by
  unfold readTransfers
  by_cases hroot : dir = 0
  · subst hroot
    rw [if_pos rfl, if_pos rfl, served_one]
    rw [sectorsOf_root hcheck, ← List.map_take, List.take_range] at hsectors
    cases hio : env.io 0 with
    | some done => exact ⟨none, rfl, fun h => absurd h (Option.some_ne_none _), fun _ => rfl⟩
    | none =>
      refine ⟨_, rfl, fun _ => ?_, fun h => absurd rfl h⟩
      rw [readSectors_eq_contents, hsectors, List.length_map, List.length_range]
  · have hchain := hdir hroot
    rw [if_neg hroot, if_neg hroot]
    rw [sectorsOf_chain hroot, ← List.map_take] at hsectors
    have hlength : min sectors.length cs.length = sectors.length := by
      rw [hsectors, List.length_map, List.length_take]
      omega
    have htake : cs.take sectors.length = cs.take cnum := by
      rw [hsectors, List.length_map, List.length_take]
      exact List.take_eq_take_min.symm
    obtain ⟨read, hread, hserved, hfailed⟩ := readLoop_spec p env.io
      (check_geometry hcheck).1 hchain.toChain hchain.go (fun c hc => (hchain.inside c hc).2)
      sectors.length 0 fun _ => 0
    rw [hlength, htake, ← hsectors] at hserved
    rw [hlength] at hfailed
    exact ⟨read, hread, hserved, hfailed⟩

variable (p env buf) in
/-- Reading the first `cnum` clusters of a directory. -/
theorem readClusters_dir (hcheck : s.super.check = true) (hdir : IsDirectory s.lfat dir cs)
    (hfuel : lfatLength ≤ fuel) {cnum : Word} (hcnum : 0 < cnum.toNat) {sectors : List Nat}
    (hsectors : sectors = (sectorsOf p s.super dir cs).take cnum.toNat) :
    ∃ r, readClusters p env fuel s buf (sectors.length * fatSectorSize) dir cnum = .ok r ∧
      (Readable env dir sectors.length → r = (some (sectors.length * fatSectorSize),
        copied buf (contents s.disk sectors) (sectors.length * fatSectorSize), s)) ∧
      (¬Readable env dir sectors.length → r.1 = none) := by
  obtain ⟨hbps, -⟩ := check_geometry hcheck
  have hlength : min (sectorsOf p s.super dir cs).length cnum.toNat = sectors.length := by
    rw [hsectors, List.length_take, Nat.min_comm]
  have hpos : 0 < sectors.length := by
    rw [← hlength]
    exact Nat.lt_min.mpr ⟨sectorsOf_pos hcheck hdir, hcnum⟩
  have hsize : ¬(sectors.length = 0 ∨ sectors.length * fatSectorSize = 0) := by
    unfold fatSectorSize
    omega
  unfold readClusters Readable
  rw [howManyCluster_dir p hcheck hdir hfuel, ok_bind]
  dsimp only
  rw [hlength, if_neg hsize, hbps, Nat.min_self]
  by_cases hmemory : env.memory = false
  · rw [if_pos hmemory]
    exact ⟨_, rfl, fun h => absurd h.1 (by rw [hmemory]; decide), fun _ => rfl⟩
  obtain ⟨read, hread, hserved, hfailed⟩ := transfers_read env hcheck hdir hsectors
  rw [if_neg hmemory, hread, ok_bind]
  by_cases hs : Served env.io 0 (if dir = 0 then 1 else sectors.length)
  · obtain rfl := hserved hs
    exact ⟨_, rfl, fun _ => rfl, fun h => absurd ⟨Bool.eq_true_of_not_eq_false hmemory, hs⟩ h⟩
  · obtain rfl := hfailed hs
    exact ⟨_, rfl, fun h => absurd h.2 hs, fun _ => rfl⟩

/-- How many sectors of a directory of `n` sectors are written back. -/
def Env.writtenBack (env : Env) (dir : Word) (n : Nat) : Nat :=
  if env.memory = false then 0
  else if dir = 0 then
    match env.io 0 with
    | some done => min done n
    | none => n
  else sectorsWritten env.io n 0

/-- The sectors of a directory are different. -/
theorem sectorsOf_nodup (hcheck : s.super.check = true) (hdir : IsDirectory s.lfat dir cs) :
    (sectorsOf p s.super dir cs).Nodup := by
  by_cases hroot : dir = 0
  · rw [hroot, sectorsOf_root hcheck]
    exact List.Nodup.map (fun _ _ => Nat.add_left_cancel) List.nodup_range
  · rw [sectorsOf_chain hroot]
    exact List.Nodup.map (fun _ _ h => BitVec.eq_of_toNat_eq (Nat.add_left_cancel h))
      (hdir hroot).chain.nodup

/-- Writing the first `w` sectors of a piece of `n` back, with one byte changed. -/
theorem writeSectors_piece {start w n : Nat} (hw : w ≤ n)
    (hbuf : ∀ k block, ((List.range n).map (start + ·))[k]? = some block → ∀ a < fatSectorSize,
      tmp (k * fatSectorSize + a) =
        Function.update disk place value (block * fatSectorSize + a)) :
    writeSectors disk start w tmp =
      if place / fatSectorSize ∈ ((List.range n).map (start + ·)).take w then
        Function.update disk place value else disk := by
  rw [writeSectors_mark place value]
  · refine if_congr ?_ rfl rfl
    rw [← List.map_take, List.take_range, Nat.min_eq_left hw]
    simp only [List.mem_map, List.mem_range]
    constructor
    · exact fun h => ⟨place / fatSectorSize - start, by omega, by omega⟩
    · rintro ⟨k, hk, heq⟩
      omega
  · intro a ha
    have hlt : a / fatSectorSize < n := by
      unfold fatSectorSize at ha ⊢
      omega
    have hsector := hbuf (a / fatSectorSize) (start + a / fatSectorSize)
      (by rw [List.getElem?_map, List.getElem?_range hlt]; rfl) (a % fatSectorSize)
      (Nat.mod_lt a (by decide))
    rw [Nat.div_add_mod'] at hsector
    rw [hsector, Nat.add_mul, Nat.add_assoc, Nat.div_add_mod']

variable (tmp env) in
/-- The transfers that write a directory back, with one byte changed. -/
theorem transfers_write (hcheck : s.super.check = true) (hdir : IsDirectory s.lfat dir cs)
    {sectors : List Nat} (hsectors : sectors = sectorsOf p s.super dir cs)
    (hmemory : env.memory = true)
    (hbuf : ∀ k block, sectors[k]? = some block → ∀ a < fatSectorSize,
      tmp (k * fatSectorSize + a) =
        Function.update s.disk place value (block * fatSectorSize + a)) :
    ∃ ok t, writeTransfers p env s tmp sectors.length dir = .ok (ok, t) ∧ t.lfat = s.lfat ∧
      t.disk = if place / fatSectorSize ∈ sectors.take (env.writtenBack dir sectors.length) then
        Function.update s.disk place value else s.disk := by
  unfold writeTransfers Env.writtenBack
  have hthere : ¬env.memory = false := by
    rw [hmemory]
    decide
  rw [if_neg hthere]
  by_cases hroot : dir = 0
  · subst hroot
    rw [if_pos rfl, if_pos rfl]
    rw [sectorsOf_root hcheck] at hsectors
    have hlength : sectors.length = rootLength := by
      rw [hsectors, List.length_map, List.length_range]
    rw [hlength]
    rw [hsectors] at hbuf ⊢
    cases env.io 0 with
    | some done =>
      exact ⟨false, _, rfl, rfl, writeSectors_piece (Nat.min_le_right done rootLength) hbuf⟩
    | none => exact ⟨true, _, rfl, rfl, writeSectors_piece (Nat.le_refl rootLength) hbuf⟩
  · have hchain := hdir hroot
    rw [if_neg hroot, if_neg hroot]
    rw [sectorsOf_chain hroot] at hsectors
    have hlength : sectors.length = cs.length := by rw [hsectors, List.length_map]
    obtain ⟨ok, t, ht, htlfat, htdisk⟩ := writeLoop_spec p tmp env.io place value
      (check_geometry hcheck).1 rfl hchain.toChain hchain.go
      (fun c hc => (hchain.inside c hc).2) 0 fun k c hc a ha => by
        rw [Nat.zero_add]
        exact hbuf k _ (by rw [hsectors, List.getElem?_map, hc]; rfl) a ha
    rw [hlength]
    refine ⟨ok, t, ht, htlfat, ?_⟩
    rw [htdisk, hsectors, ← List.map_take]
    refine if_congr ?_ rfl rfl
    simp only [List.mem_map, eq_comm]

variable (env) in
/-- Writing a directory back, with one byte changed: the byte changes if the transfers get as far
as its sector. -/
theorem writeClusters_dir (hcheck : s.super.check = true) (hdir : IsDirectory s.lfat dir cs)
    (hfuel : lfatLength ≤ fuel) {cnum : Word} {sectors : List Nat}
    (hsectors : sectors = sectorsOf p s.super dir cs) (hcnum : cnum.toNat = sectors.length)
    (hbuf : ∀ k block, sectors[k]? = some block → ∀ a < fatSectorSize,
      buf (k * fatSectorSize + a) =
        Function.update s.disk place value (block * fatSectorSize + a)) :
    ∃ r t, writeClusters p env fuel s buf (sectors.length * fatSectorSize) dir cnum = .ok (r, t) ∧
      t.lfat = s.lfat ∧
      t.disk = if place / fatSectorSize ∈ sectors.take (env.writtenBack dir sectors.length) then
        Function.update s.disk place value else s.disk := by
  have hpos : 0 < sectors.length := hsectors ▸ sectorsOf_pos hcheck hdir
  have hsize : ¬(sectors.length = 0 ∨ sectors.length * fatSectorSize = 0) := by
    unfold fatSectorSize
    omega
  unfold writeClusters
  rw [howManyCluster_dir p hcheck hdir hfuel, ok_bind, ← hsectors]
  dsimp only
  rw [hcnum, Nat.min_self, if_neg hsize, (check_geometry hcheck).1, Nat.min_self]
  by_cases hmemory : env.memory = false
  · rw [if_pos hmemory]
    refine ⟨none, s, rfl, rfl, ?_⟩
    unfold Env.writtenBack
    rw [if_pos hmemory, if_neg (by simp)]
  · obtain ⟨ok, t, ht, htlfat, htdisk⟩ := transfers_write
      (copied (fun _ => 0) buf (sectors.length * fatSectorSize)) env hcheck hdir hsectors
      (Bool.eq_true_of_not_eq_false hmemory) fun k block hk a ha => by
        have hk' := (List.getElem?_eq_some_iff.mp hk).1
        rw [← hbuf k block hk a ha]
        apply if_pos
        unfold fatSectorSize at ha ⊢
        omega
    rw [if_neg hmemory, ht, ok_bind]
    exact ⟨_, t, rfl, htlfat, htdisk⟩

end OsdevArchive.Minirighi.Fat12
