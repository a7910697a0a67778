import OsdevArchive.Lib.PackedBits
import OsdevArchive.Osso.FatScan

/-!
The table of clusters in the FAT driver of OSSO: what `GetNextCluster` returns for the entries of a
table in each of the three formats, and where the walks along the chains of the table lead
(`get_file_size`, `GetDirEntry`). For FAT12 the offset of an entry in bytes is used as an index of
words.
-/

namespace OsdevArchive.Osso.Fat

open OsdevArchive.Lib.Chained OsdevArchive.Lib.PackedBits

/-! ### The walks -/

variable {σ : Type} (v : Volume)

/-- `FAT_ATTR_DIRECTORY`. -/
def attrDirectory : Byte := 0x10

/-- `get_file_size`, where `LocateEntry` has found `de`. -/
def getFileSize (fuel : Nat) (de : Option DirEntry) : Option Dword :=
  match de with
  | none => some 0
  | some de =>
    if DirEntry.attributes de &&& attrDirectory ≠ 0 then
      if DirEntry.startingCluster de = 0 then some 0
      else
        pursue v.getNextCluster v.FatEof (fun res _ => res + v.bytesPerCluster) fuel
          (DirEntry.startingCluster de) v.bytesPerCluster
    else some (DirEntry.fileSize de)

/-- The loop over the entries of a cluster; `process` is `ProcessEntry` with the name that is looked
for, and what it keeps of long names. -/
def findEntry (process : σ → DirEntry → Bool × σ) : List DirEntry → σ → Option DirEntry × σ
  | [], s => (none, s)
  | p :: entries, s =>
    if (process s p).1 then (some p, (process s p).2) else findEntry process entries (process s p).2

/-- The loop of `GetDirEntry` from the cluster `c` on. The global buffer has the cluster whose
number is kept with it. -/
def getDirEntry (process : σ → DirEntry → Bool × σ) : Nat → Dword → σ → Option (Option DirEntry)
  | 0, _, _ => none
  | fuel + 1, c, s =>
    if v.FatEof c then some none
    else
      match findEntry process (entriesOf (v.readCluster c)) s with
      | (some de, _) => some (some de)
      | (none, s) => getDirEntry process fuel (v.getNextCluster c) s

variable {v} {process : σ → DirEntry → Bool × σ} {c : Dword} {cs : List Dword} {s : σ}
variable {fuel : Nat}

theorem findEntry_append (entries more : List DirEntry) (s : σ) :
    findEntry process (entries ++ more) s =
      match findEntry process entries s with
      | (some de, s) => (some de, s)
      | (none, s) => findEntry process more s := by
  induction entries generalizing s with
  | nil => rfl
  | cons p entries ih =>
    rw [List.cons_append, findEntry, findEntry]
    split
    · rfl
    · exact ih (process s p).2

/-- Along a chain the entries of all its clusters are looked through. -/
theorem getDirEntry_chain (h : v.Chain c cs) (hfuel : cs.length < fuel) (s : σ) :
    getDirEntry v process fuel c s =
      some (findEntry process (cs.flatMap fun d => entriesOf (v.readCluster d)) s).1 := by
  induction h generalizing fuel s with
  | nil hstop =>
    obtain ⟨fuel, rfl⟩ := Nat.exists_eq_succ_of_ne_zero (Nat.ne_of_gt hfuel)
    rw [getDirEntry, if_pos hstop]
    rfl
  | @cons c cs hgo _ ih =>
    rw [List.length_cons] at hfuel
    obtain ⟨fuel, rfl⟩ := Nat.exists_eq_succ_of_ne_zero (Nat.ne_of_gt (Nat.zero_lt_of_lt hfuel))
    rw [getDirEntry, if_neg hgo, List.flatMap_cons, findEntry_append]
    rcases findEntry process (entriesOf (v.readCluster c)) s with ⟨found, s'⟩
    cases found with
    | some de => rfl
    | none => exact ih (by omega) s'

/-! ### The formats -/

/-- How many bits of the table an entry takes. -/
def FatType.stride : FatType → Nat
  | .fat12 => 12
  | .fat16 => 16
  | .fat32 => 32

/-- How many of them are its value. -/
def FatType.width : FatType → Nat
  | .fat12 => 12
  | .fat16 => 16
  | .fat32 => 28

/-- The entries of a table, for clusters of 32 bits. -/
structure ClusterTable (t : FatType) where
  entries : List Dword
  fits : ∀ e ∈ entries, e.toNat < 2 ^ t.width
  addressable : entries.length ≤ 2 ^ 32

/-- `First_FAT` holds the table. -/
def Holds (v : Volume) (table : ClusterTable v.fatType) : Prop :=
  Packed v.fatType.stride v.fatType.width v.firstFat table.entries

instance instDecidableHolds (v : Volume) (table : ClusterTable v.fatType) :
    Decidable (Holds v table) :=
  inferInstanceAs (Decidable (Packed _ _ _ _))

/-- The bytes of `First_FAT` that `GetNextCluster` reads. -/
def readBytes (v : Volume) (cluster : Dword) : List Nat :=
  match v.fatType with
  | .fat12 => List.range' (2 * (cluster + cluster >>> 1).toNat) 2
  | .fat16 => List.range' (2 * cluster.toNat) 2
  | .fat32 => List.range' (4 * cluster.toNat) 4

/-- The link of a cluster in the table. -/
def ClusterTable.next {t : FatType} (table : ClusterTable t) (cluster : Dword) : Dword :=
  table.entries.getD cluster.toNat 0

/-- The entry of a cluster is returned, and bytes of the table are read. -/
def EntryRight (v : Volume) (table : ClusterTable v.fatType) (cluster : Dword) : Prop :=
  v.getNextCluster cluster = table.next cluster ∧
    ∀ i ∈ readBytes v cluster, i < byteCount v.fatType.stride table.entries.length

/-- The walks visit the clusters of a chain. -/
structure WalksRight (v : Volume) (c : Dword) (cs : List Dword) : Prop where
  chain : v.Chain c cs
  fileSize : ∀ (fuel : Nat) (de : DirEntry), cs.length < fuel → DirEntry.startingCluster de = c →
    DirEntry.attributes de &&& attrDirectory ≠ 0 → c ≠ 0 →
    getFileSize v fuel (some de) = some (BitVec.ofNat 32 (cs.length + 1) * v.bytesPerCluster)
  dirEntry : ∀ (σ : Type) (process : σ → DirEntry → Bool × σ) (fuel : Nat) (s : σ),
    cs.length < fuel → getDirEntry v process fuel c s =
      some (findEntry process (cs.flatMap fun d => entriesOf (v.readCluster d)) s).1

/-- All entries are decoded, and the walks follow the chains in the table. -/
structure Decoded (v : Volume) (table : ClusterTable v.fatType) : Prop where
  entry : ∀ cluster : Dword, cluster.toNat < table.entries.length → EntryRight v table cluster
  walks : ∀ c cs, Chain table.next v.FatEof c cs →
    (∀ d ∈ cs, d.toNat < table.entries.length) → WalksRight v c cs

variable {table : ClusterTable v.fatType}

theorem foldl_bytes (b : Dword) (cs : List Dword) (r : Dword) :
    cs.foldl (fun res _ => res + b) r = r + BitVec.ofNat 32 cs.length * b := by
  induction cs generalizing r with
  | nil => simp
  | cons c cs ih =>
    rw [List.foldl_cons, ih, List.length_cons, BitVec.ofNat_add, BitVec.add_mul, BitVec.one_mul,
      BitVec.add_assoc, BitVec.add_comm b]

theorem walksRight_of_chain (h : v.Chain c cs) : WalksRight v c cs := by
  refine ⟨h, fun fuel de hfuel hstart hdir hzero => ?_, fun _ _ _ s hfuel =>
    getDirEntry_chain h hfuel s⟩
  unfold getFileSize
  dsimp only
  rw [if_pos hdir, hstart, if_neg hzero, h.pursue hfuel, foldl_bytes, BitVec.ofNat_add,
    BitVec.add_mul, BitVec.one_mul, BitVec.add_comm]

/-- Where every entry is decoded, the walks follow the chains. -/
theorem decoded_of_entries (h : ∀ cluster : Dword, cluster.toNat < table.entries.length →
    EntryRight v table cluster) : Decoded v table := by
  refine ⟨h, fun c cs hchain hlt => walksRight_of_chain ?_⟩
  exact hchain.congr fun d hd => (h d (hlt d hd)).1

/-! ### The entries -/

theorem next_eq (hcluster : c.toNat < table.entries.length) :
    table.next c = table.entries[c.toNat] := by
  unfold ClusterTable.next
  rw [List.getD_eq_getElem?_getD, List.getElem?_eq_getElem hcluster, Option.getD_some]

/-- What the bits of a result say about the entry. -/
theorem next_of_bits (hholds : Holds v table) (hcluster : c.toNat < table.entries.length)
    {x : Dword} (hfit : x.toNat < 2 ^ v.fatType.width)
    (hx : ∀ b < v.fatType.width, x.getLsbD b = bitAt v.firstFat (v.fatType.stride * c.toNat + b)) :
    x = table.next c := by
  rw [next_eq hcluster]
  exact Packed.eq_entry hholds hcluster hx hfit (table.fits _ (List.getElem_mem hcluster))

theorem and_mask_lt (x : Dword) {m : Dword} {n : Nat} (hm : m.toNat = 2 ^ n - 1) :
    (x &&& m).toNat < 2 ^ n := by
  rw [BitVec.toNat_and, hm]
  exact (Nat.and_le_right).trans_lt (Nat.sub_lt (Nat.two_pow_pos n) Nat.one_pos)

theorem getLsbD_mask {m : Dword} {n b : Nat} (hm : m.toNat = 2 ^ n - 1) (hb : b < n) :
    m.getLsbD b = true := by
  rw [← BitVec.testBit_toNat, hm, Nat.testBit_two_pow_sub_one]
  exact decide_eq_true hb

theorem readBytes_inside {a n : Nat} (hread : readBytes v c = List.range' a n)
    (hend : a + n ≤ byteCount v.fatType.stride table.entries.length) :
    ∀ i ∈ readBytes v c, i < byteCount v.fatType.stride table.entries.length := by
  intro i hi
  rw [hread] at hi
  exact (List.mem_range'_1.mp hi).2.trans_le hend

theorem entryRight_fat16 (htype : v.fatType = .fat16) (hholds : Holds v table)
    (hcluster : c.toNat < table.entries.length) : EntryRight v table c := by
  have hstride : v.fatType.stride = 16 := by rw [htype]; rfl
  have hwidth : v.fatType.width = 16 := by rw [htype]; rfl
  have hnext : v.getNextCluster c = (wordAt v.firstFat (2 * c.toNat)).setWidth 32 := by
    unfold Volume.getNextCluster
    rw [htype]
  have hread : readBytes v c = List.range' (2 * c.toNat) 2 := by
    unfold readBytes
    rw [htype]
  refine ⟨?_, ?_⟩
  · rw [hnext]
    apply next_of_bits hholds hcluster
    · rw [hwidth, BitVec.toNat_setWidth]
      have hlt := (wordAt v.firstFat (2 * c.toNat)).isLt
      omega
    · intro b hb
      rw [hwidth] at hb
      rw [hstride, BitVec.getLsbD_setWidth, decide_eq_true (by omega), Bool.true_and]
      refine (getLsbD_word v.firstFat (2 * c.toNat) hb).trans ?_
      congr 1
      omega
  · apply readBytes_inside hread
    rw [hstride]
    unfold byteCount
    omega

theorem entryRight_fat32 (htype : v.fatType = .fat32) (hholds : Holds v table)
    (hcluster : c.toNat < table.entries.length) : EntryRight v table c := by
  have hstride : v.fatType.stride = 32 := by rw [htype]; rfl
  have hwidth : v.fatType.width = 28 := by rw [htype]; rfl
  have hnext : v.getNextCluster c = dwordAt v.firstFat (4 * c.toNat) &&& 0x0FFFFFFF := by
    unfold Volume.getNextCluster
    rw [htype]
  have hread : readBytes v c = List.range' (4 * c.toNat) 4 := by
    unfold readBytes
    rw [htype]
  refine ⟨?_, ?_⟩
  · rw [hnext]
    apply next_of_bits hholds hcluster
    · rw [hwidth]
      exact and_mask_lt _ rfl
    · intro b hb
      rw [hwidth] at hb
      rw [hstride, BitVec.getLsbD_and, getLsbD_mask (m := 0x0FFFFFFF) rfl hb, Bool.and_true]
      unfold dwordAt
      rw [BitVec.getLsbD_append]
      split
      · rename_i hlow
        refine (getLsbD_word v.firstFat (4 * c.toNat) hlow).trans ?_
        congr 1
        omega
      · refine (getLsbD_word v.firstFat (4 * c.toNat + 2) (by omega)).trans ?_
        congr 1
        omega
  · apply readBytes_inside hread
    rw [hstride]
    unfold byteCount
    omega

/-- For FAT12 an even cluster gets the entry of twice its number. -/
theorem getNextCluster_even_fat12 (htype : v.fatType = .fat12) (hholds : Holds v table)
    (heven : c.toNat % 2 = 0) (hcluster : 2 * c.toNat < table.entries.length) :
    v.getNextCluster c = table.next (2 * c) := by
  have haddressable := table.addressable
  have htwice : (2 * c).toNat = 2 * c.toNat := by
    rw [BitVec.toNat_mul]
    exact Nat.mod_eq_of_lt (by simpa using hcluster.trans_le haddressable)
  have hplace : (c + c >>> 1).toNat = c.toNat + c.toNat / 2 := by
    rw [BitVec.toNat_add, BitVec.toNat_ushiftRight, Nat.shiftRight_eq_div_pow, pow_one]
    exact Nat.mod_eq_of_lt (by omega)
  have hlow : c.getLsbD 0 = false := by
    rw [← BitVec.testBit_toNat, Nat.testBit_zero, heven]
    rfl
  have hstride : v.fatType.stride = 12 := by rw [htype]; rfl
  have hwidth : v.fatType.width = 12 := by rw [htype]; rfl
  have hnext : v.getNextCluster c =
      (wordAt v.firstFat (2 * (c.toNat + c.toNat / 2))).setWidth 32 &&& 0x0FFF := by
    unfold Volume.getNextCluster
    rw [htype]
    dsimp only
    rw [hplace, hlow]
    rfl
  rw [hnext]
  apply next_of_bits hholds (by rw [htwice]; exact hcluster)
  · rw [hwidth]
    exact and_mask_lt _ rfl
  · intro b hb
    rw [hwidth] at hb
    rw [htwice, hstride, BitVec.getLsbD_and, getLsbD_mask (m := 0x0FFF) rfl hb, Bool.and_true,
      BitVec.getLsbD_setWidth, decide_eq_true (by omega), Bool.true_and]
    refine (getLsbD_word v.firstFat _ (by omega)).trans ?_
    congr 1
    omega

/-- The first entry is its own double. -/
theorem entryRight_first (htype : v.fatType = .fat12) (hholds : Holds v table)
    (hzero : c.toNat = 0) (hcluster : c.toNat < table.entries.length) : EntryRight v table c := by
  obtain rfl : c = 0 := BitVec.eq_of_toNat_eq hzero
  have hentry : v.getNextCluster 0 = table.next (2 * 0) :=
    getNextCluster_even_fat12 htype hholds rfl hcluster
  have hstride : v.fatType.stride = 12 := by rw [htype]; rfl
  have hlength : 0 < table.entries.length := hcluster
  have hread : readBytes v 0 = List.range' 0 2 := by
    unfold readBytes
    rw [htype]
    rfl
  refine ⟨hentry, readBytes_inside hread ?_⟩
  rw [hstride]
  unfold byteCount
  omega

/-- With a second entry FAT12 reads behind the table: for the last entry, or where the offset of an
entry is the highest of 32 bits. -/
theorem exists_outside_fat12 (htype : v.fatType = .fat12) (hlength : 1 < table.entries.length) :
    ∃ cluster : Dword, cluster.toNat < table.entries.length ∧ ∃ i ∈ readBytes v cluster,
      byteCount v.fatType.stride table.entries.length ≤ i := by
  have haddressable := table.addressable
  have hstride : v.fatType.stride = 12 := by rw [htype]; rfl
  obtain ⟨k, hk⟩ : ∃ k, k = min (table.entries.length - 1) 2863311530 := ⟨_, rfl⟩
  have hcluster : (BitVec.ofNat 32 k).toNat = k := by
    rw [BitVec.toNat_ofNat]
    exact Nat.mod_eq_of_lt (by omega)
  have hplace : (BitVec.ofNat 32 k + BitVec.ofNat 32 k >>> 1).toNat = k + k / 2 := by
    rw [BitVec.toNat_add, BitVec.toNat_ushiftRight, hcluster, Nat.shiftRight_eq_div_pow, pow_one]
    exact Nat.mod_eq_of_lt (by omega)
  refine ⟨BitVec.ofNat 32 k, by omega, 2 * (k + k / 2) + 1, ?_, ?_⟩
  · unfold readBytes
    rw [htype]
    dsimp only
    rw [hplace]
    exact List.mem_range'_1.mpr (by omega)
  · rw [hstride]
    unfold byteCount
    omega

/-- The table is decoded for FAT16 and FAT32, and for FAT12 where it has no second entry. -/
theorem decoded_iff (v : Volume) (table : ClusterTable v.fatType) (hholds : Holds v table) :
    Decoded v table ↔ (v.fatType = .fat12 → table.entries.length ≤ 1) := by
  constructor
  · intro h htype
    by_contra hlength
    obtain ⟨cluster, hcluster, i, hread, houtside⟩ :=
      exists_outside_fat12 htype (Nat.lt_of_not_le hlength)
    exact Nat.not_lt.mpr houtside ((h.entry cluster hcluster).2 i hread)
  · intro h
    apply decoded_of_entries
    intro cluster hcluster
    cases htype : v.fatType with
    | fat12 =>
      have hfirst := h htype
      exact entryRight_first htype hholds (by omega) hcluster
    | fat16 => exact entryRight_fat16 htype hholds hcluster
    | fat32 => exact entryRight_fat32 htype hholds hcluster

def twoClustersTable : ClusterTable twoClusters.fatType where
  entries := [0, 0, 3, 0xFFFF]
  fits := by
    have hwidth : twoClusters.fatType.width = 16 := rfl
    simp [hwidth]
  addressable := by simp

theorem decoded_twoClusters :
    Decoded twoClusters twoClustersTable ↔
      (twoClusters.fatType = .fat12 → twoClustersTable.entries.length ≤ 1) :=
  decoded_iff twoClusters twoClustersTable (by decide +kernel)

/-- A floppy disk with a file in the clusters 2, 3 and 4. -/
def floppy : Volume where
  __ := twoClusters
  fatType := .fat12
  firstFat := fun address => [0xF8, 0xFF, 0xFF, 0x03, 0x40, 0x00, 0xFF, 0x0F].getD address 0
  rootDir_fat32 := fun h => by cases h

def floppyTable : ClusterTable floppy.fatType where
  entries := [0xFF8, 0xFFF, 3, 4, 0xFFF]
  fits := by
    have hwidth : floppy.fatType.width = 12 := rfl
    simp [hwidth]
  addressable := by simp

/-- The walks end behind the first cluster of the file. -/
theorem floppy_chain_cut :
    Holds floppy floppyTable ∧ Chain floppyTable.next floppy.FatEof 2 [2, 3, 4] ∧
      floppy.Chain 2 [2] ∧ ¬ Decoded floppy floppyTable := by
  refine ⟨by decide +kernel, ?_, ?_, fun h => ?_⟩
  · exact .cons (by decide) (.cons (by decide) (.cons (by decide) (.nil (by decide))))
  · exact .cons (by decide) (.nil (by decide))
  · have hentry := (h.entry 2 (by decide)).1
    revert hentry
    decide

end OsdevArchive.Osso.Fat
