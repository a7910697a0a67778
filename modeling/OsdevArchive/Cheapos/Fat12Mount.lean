import Mathlib.Data.Nat.Bitwise
import Mathlib.Logic.Function.Basic
import Mathlib.Tactic.Common

/-!
Mounting a FAT12 volume in cheapos (`fs_fat12.c`). The table is read as it is packed on
the disk, two entries in three bytes, and is then expanded to two entries in four bytes,
in the same buffer and from its end.
-/

namespace OsdevArchive.Cheapos

abbrev Byte := BitVec 8

/-- The `unsigned short` in two bytes. -/
def word (low high : Byte) : Nat := low.toNat + 256 * high.toNat

namespace Fat12Mount

/-- What the driver reads of the boot sector. -/
structure BootSector where
  bytsPerSec : BitVec 16
  secPerClus : Byte
  rsvdSecCnt : BitVec 16
  numFATs : Byte
  rootEntCnt : BitVec 16
  totsec16 : BitVec 16
  media : Byte
  fatSz16 : BitVec 16

/-- A mounted volume: the table with its length in entries, and where the root directory
and the data start. -/
structure Volume where
  fatImg : Nat → Byte
  fatSize : Nat
  rootdirStartcluster : BitVec 16
  datiStartcluster : BitVec 16

def fat12Nextcluster (v : Volume) (cluster : Nat) : Nat :=
  word (v.fatImg (2 * cluster)) (v.fatImg (2 * cluster + 1))

/-- A store of an `unsigned short`. -/
def store (img : Nat → Byte) (i value : Nat) : Nat → Byte :=
  Function.update (Function.update img i (.ofNat 8 value)) (i + 1) (.ofNat 8 (value / 256))

/-- One turn of the loop of `fat12_mount`, where `i` is `4 * n` and `j` is `3 * n`. The
second statement reads the buffer after the store of the first. -/
def expandGroup (img : Nat → Byte) (n : Nat) : Nat → Byte :=
  let i := 4 * n
  let j := 3 * n
  let img := store img i (word (img j) (img (j + 1)) &&& 0xFFF)
  store img (i + 2) (word (img (j + 1)) (img (j + 2)) >>> 4)

/-- The loop; it ends with the group at the start of the buffer. -/
def expand (img : Nat → Byte) : Nat → Nat → Byte
  | 0 => img
  | n + 1 => expand (expandGroup img n) n

/-- The bytes of the packed table. -/
def fatBytes (b : BootSector) : Nat := b.fatSz16.toNat * 512

/-- Whether `fat12_mount` takes the boot sector for one of FAT12. -/
def BootSector.Accepted (b : BootSector) : Prop :=
  (b.secPerClus = 1 ∧ b.bytsPerSec = 512 ∧ b.media = 0xF0 ∧ b.numFATs = 2 ∧ b.totsec16 = 2880) ∧
    b.fatSz16 ≠ 0 ∧
    let rootDirSectors := (b.rootEntCnt.toNat * 32 + (b.bytsPerSec.toNat - 1)) / b.bytsPerSec.toNat
    let dataSec : Int := b.totsec16.toNat -
      (b.rsvdSecCnt.toNat + b.fatSz16.toNat * b.numFATs.toNat + rootDirSectors)
    dataSec.tdiv b.secPerClus.toNat < 4085

instance (b : BootSector) : Decidable b.Accepted := inferInstanceAs (Decidable (_ ∧ _ ∧ _))

/-- `fat12_mount` of a volume that is not mounted yet. `disk` is the disk that
`floppy_read` delivers in the end, `space` says which of the two allocations succeed, and
`old` is what was in the memory of the table. `none` stands for `return FALSE`. -/
def fat12Mount (b : BootSector) (disk old : Nat → Byte) (space : Bool × Bool) : Option Volume :=
  if space.1 = false then none
  else if ¬ b.Accepted then none
  else if space.2 = false then none
  else
    let lungPhysical := fatBytes b + (3 - fatBytes b % 3)
    let lungLogical := lungPhysical / 3 * 4
    let start := b.rsvdSecCnt.toNat * 512
    let loaded := fun a => if a < fatBytes b then disk (start + a) else old a
    let rootdir := b.rsvdSecCnt + b.numFATs.setWidth 16 * b.fatSz16
    some {
      fatImg := expand loaded (lungPhysical / 3)
      fatSize := lungLogical / 2
      rootdirStartcluster := rootdir
      datiStartcluster := rootdir + .ofNat 16 (b.rootEntCnt.toNat * 32 / 512) - 2 }

/-! ### The format -/

/-- The half byte at position `n`; the low one of a byte comes first. -/
def nibble (bytes : Nat → Byte) (n : Nat) : Nat := (bytes (n / 2)).toNat / 16 ^ (n % 2) % 16

/-- The `k`-th entry of a packed table. -/
def entry (bytes : Nat → Byte) (k : Nat) : Nat :=
  nibble bytes (3 * k) + 16 * nibble bytes (3 * k + 1) + 256 * nibble bytes (3 * k + 2)

theorem entry_even (bytes : Nat → Byte) (n : Nat) :
    entry bytes (2 * n) = word (bytes (3 * n)) (bytes (3 * n + 1)) % 4096 := by
  have h₀ : 3 * (2 * n) / 2 = 3 * n ∧ 3 * (2 * n) % 2 = 0 := by omega
  have h₁ : (3 * (2 * n) + 1) / 2 = 3 * n ∧ (3 * (2 * n) + 1) % 2 = 1 := by omega
  have h₂ : (3 * (2 * n) + 2) / 2 = 3 * n + 1 ∧ (3 * (2 * n) + 2) % 2 = 0 := by omega
  have hlow := (bytes (3 * n)).isLt
  rw [entry, nibble, nibble, nibble, h₀.1, h₀.2, h₁.1, h₁.2, h₂.1, h₂.2, word]
  omega

theorem entry_odd (bytes : Nat → Byte) (n : Nat) :
    entry bytes (2 * n + 1) = word (bytes (3 * n + 1)) (bytes (3 * n + 2)) / 16 := by
  have h₀ : 3 * (2 * n + 1) / 2 = 3 * n + 1 ∧ 3 * (2 * n + 1) % 2 = 1 := by omega
  have h₁ : (3 * (2 * n + 1) + 1) / 2 = 3 * n + 2 ∧ (3 * (2 * n + 1) + 1) % 2 = 0 := by omega
  have h₂ : (3 * (2 * n + 1) + 2) / 2 = 3 * n + 2 ∧ (3 * (2 * n + 1) + 2) % 2 = 1 := by omega
  have hlow := (bytes (3 * n + 1)).isLt
  have hhigh := (bytes (3 * n + 2)).isLt
  rw [entry, nibble, nibble, nibble, h₀.1, h₀.2, h₁.1, h₁.2, h₂.1, h₂.2, word]
  omega

/-! ### The expansion in place -/

variable {img img' : Nat → Byte} {a i k n N value : Nat}

theorem store_of_ne (h : a ≠ i) (h' : a ≠ i + 1) : store img i value a = img a := by
  rw [store, Function.update_of_ne h', Function.update_of_ne h]

theorem store_congr (h : img a = img' a) : store img i value a = store img' i value a := by
  unfold store
  by_cases hhigh : a = i + 1
  · subst hhigh
    rw [Function.update_self, Function.update_self]
  · rw [Function.update_of_ne hhigh, Function.update_of_ne hhigh]
    by_cases hlow : a = i
    · subst hlow
      rw [Function.update_self, Function.update_self]
    · rw [Function.update_of_ne hlow, Function.update_of_ne hlow, h]

/-- The word that was stored is read back. -/
theorem word_store (hvalue : value < 65536) :
    word (store img i value i) (store img i value (i + 1)) = value := by
  have hne : i ≠ i + 1 := Nat.ne_of_lt (Nat.lt_succ_self i)
  rw [store, Function.update_of_ne hne, Function.update_self, Function.update_self, word,
    BitVec.toNat_ofNat, BitVec.toNat_ofNat]
  omega

theorem word_lt (low high : Byte) : word low high < 65536 := by
  have hlow := low.isLt
  have hhigh := high.isLt
  unfold word
  omega

theorem expandGroup_of_lt (h : a < 4 * n) : expandGroup img n a = img a := by
  unfold expandGroup
  rw [store_of_ne (by omega) (by omega), store_of_ne (by omega) (by omega)]

theorem expandGroup_of_ge (h : 4 * n + 4 ≤ a) : expandGroup img n a = img a := by
  unfold expandGroup
  rw [store_of_ne (by omega) (by omega), store_of_ne (by omega) (by omega)]

/-- A group is expanded from bytes that lie before its end. -/
theorem expandGroup_congr (h : ∀ a < 4 * n + 4, img a = img' a) (ha : a < 4 * n + 4) :
    expandGroup img n a = expandGroup img' n a := by
  have hfirst : ∀ b < 4 * n + 4, ∀ value,
      store img (4 * n) value b = store img' (4 * n) value b :=
    fun b hb value => store_congr (h b hb)
  unfold expandGroup
  simp only [h (3 * n) (by omega), h (3 * n + 1) (by omega),
    hfirst (3 * n + 1) (by omega), hfirst (3 * n + 2) (by omega)]
  exact store_congr (hfirst a ha _)

theorem expand_of_ge (h : 4 * N ≤ a) : expand img N a = img a := by
  induction N generalizing img with
  | zero => rfl
  | succ N ih =>
    rw [expand, ih (by omega), expandGroup_of_ge (by omega)]

/-- The groups behind one leave the bytes alone that it is expanded from, and those in
front of it leave its own bytes alone. -/
theorem expand_apply (h : a < 4 * N) : expand img N a = expandGroup img (a / 4) a := by
  induction N generalizing img with
  | zero => exact absurd h (Nat.not_lt_zero a)
  | succ N ih =>
    rw [expand]
    rcases Nat.lt_or_ge a (4 * N) with hlt | hge
    · rw [ih hlt]
      apply expandGroup_congr (fun b hb => expandGroup_of_lt (by omega)) (by omega)
    · obtain rfl : a / 4 = N := by omega
      exact expand_of_ge hge

theorem masked_pair (img : Nat → Byte) (n : Nat) :
    word (img (3 * n)) (img (3 * n + 1)) &&& 0xFFF = entry img (2 * n) := by
  rw [entry_even]
  exact Nat.and_two_pow_sub_one_eq_mod _ 12

theorem entry_even_lt (img : Nat → Byte) (n : Nat) : entry img (2 * n) < 4096 := by
  rw [entry_even]
  exact Nat.mod_lt _ (by decide)

/-- The even entries are right. -/
theorem expandGroup_even (img : Nat → Byte) (n : Nat) :
    word (expandGroup img n (4 * n)) (expandGroup img n (4 * n + 1)) = entry img (2 * n) := by
  have hlt := entry_even_lt img n
  have hlow : expandGroup img n (4 * n) = store img (4 * n) (entry img (2 * n)) (4 * n) := by
    unfold expandGroup
    rw [store_of_ne (by omega) (by omega), masked_pair]
  have hhigh : expandGroup img n (4 * n + 1) =
      store img (4 * n) (entry img (2 * n)) (4 * n + 1) := by
    unfold expandGroup
    rw [store_of_ne (by omega) (by omega), masked_pair]
  rw [hlow, hhigh, word_store (by omega)]

/-- An odd entry is made of two bytes as the store of the even one left them. -/
theorem expandGroup_odd (img : Nat → Byte) (n : Nat) :
    word (expandGroup img n (4 * n + 2)) (expandGroup img n (4 * n + 3)) =
      word (store img (4 * n) (entry img (2 * n)) (3 * n + 1))
        (store img (4 * n) (entry img (2 * n)) (3 * n + 2)) / 16 := by
  have hlt := word_lt (store img (4 * n) (entry img (2 * n)) (3 * n + 1))
    (store img (4 * n) (entry img (2 * n)) (3 * n + 2))
  unfold expandGroup
  simp only [masked_pair, Nat.shiftRight_eq_div_pow]
  exact word_store (by omega)

/-- From the fourth group on the store lies behind the bytes that are still read. -/
theorem expandGroup_odd_of_ge (hn : 3 ≤ n) :
    word (expandGroup img n (4 * n + 2)) (expandGroup img n (4 * n + 3)) =
      entry img (2 * n + 1) := by
  rw [expandGroup_odd, store_of_ne (by omega) (by omega), store_of_ne (by omega) (by omega),
    entry_odd]

theorem expandGroup_odd_zero :
    word (expandGroup img 0 2) (expandGroup img 0 3) = entry img 1 ↔ (img 1).toNat < 16 := by
  have hgroup := expandGroup_odd img 0
  have heven := entry_even img 0
  have hodd := entry_odd img 0
  have h₀ := (img 0).isLt
  have h₁ := (img 1).isLt
  have hhigh : store img 0 (entry img 0) 1 = .ofNat 8 (entry img 0 / 256) :=
    Function.update_self ..
  have hkept : store img 0 (entry img 0) 2 = img 2 := store_of_ne (by decide) (by decide)
  simp only [Nat.mul_zero, Nat.zero_add] at hgroup heven hodd
  rw [hgroup, hhigh, hkept, hodd, heven]
  simp only [word, BitVec.toNat_ofNat]
  omega

theorem expandGroup_odd_one :
    word (expandGroup img 1 6) (expandGroup img 1 7) = entry img 3 ↔
      entry img 3 = entry img 2 / 16 := by
  have hgroup := expandGroup_odd img 1
  have hword : word (store img 4 (entry img 2) 4) (store img 4 (entry img 2) 5) = entry img 2 :=
    word_store (Nat.lt_trans (entry_even_lt img 1) (by decide))
  simp only [Nat.mul_one, Nat.reduceAdd] at hgroup
  rw [hgroup, hword, eq_comm]

theorem expandGroup_odd_two :
    word (expandGroup img 2 10) (expandGroup img 2 11) = entry img 5 ↔ img 8 = img 6 := by
  have hgroup := expandGroup_odd img 2
  have heven := entry_even img 2
  have hodd := entry_odd img 2
  have h₆ := (img 6).isLt
  have h₇ := (img 7).isLt
  have h₈ := (img 8).isLt
  have hkept : store img 8 (entry img 4) 7 = img 7 := store_of_ne (by decide) (by decide)
  have hlow : store img 8 (entry img 4) 8 = .ofNat 8 (entry img 4) := by
    rw [store, Function.update_of_ne (by decide), Function.update_self]
  simp only [Nat.reduceMul, Nat.reduceAdd] at hgroup heven hodd
  rw [hgroup, hkept, hlow, hodd, heven, ← BitVec.toNat_inj]
  simp only [word, BitVec.toNat_ofNat]
  omega

/-! ### The mounted table -/

/-- The table that `fat12_mount` reads. -/
def packed (b : BootSector) (disk : Nat → Byte) (a : Nat) : Byte :=
  disk (b.rsvdSecCnt.toNat * 512 + a)

/-- The odd entries 1, 3 and 5 are built from bytes that the entries in front of them have
overwritten; these bytes do no harm when they are as the entries need them. -/
def Harmless (fat : Nat → Byte) : Prop :=
  (fat 1).toNat < 16 ∧ entry fat 3 = entry fat 2 / 16 ∧ fat 8 = fat 6

variable {b : BootSector} {disk old : Nat → Byte} {space : Bool × Bool} {v : Volume}

/-- An entry is read from the bytes in front of its end. -/
theorem entry_congr (h : ∀ a < n, img a = img' a) (hk : 3 * k + 3 ≤ 2 * n) :
    entry img k = entry img' k := by
  have hnibble : ∀ i, i ≤ 3 * k + 2 → nibble img i = nibble img' i := by
    intro i hi
    unfold nibble
    rw [h (i / 2) (by omega)]
  rw [entry, hnibble _ (by omega), hnibble _ (by omega), hnibble _ (by omega), entry]

theorem harmless_congr (h : ∀ a < n, img a = img' a) (hn : 9 ≤ n) :
    Harmless img ↔ Harmless img' := by
  unfold Harmless
  rw [h 1 (by omega), h 6 (by omega), h 8 (by omega), entry_congr h (by omega),
    entry_congr h (by omega)]

/-- The entries of an expanded table, by the group that they lie in. -/
theorem expanded_entry (hk : k < 2 * N) :
    word (expand img N (2 * k)) (expand img N (2 * k + 1)) =
      word (expandGroup img (k / 2) (2 * k)) (expandGroup img (k / 2) (2 * k + 1)) := by
  have hgroup : 2 * k / 4 = k / 2 ∧ (2 * k + 1) / 4 = k / 2 := by omega
  rw [expand_apply (by omega), expand_apply (by omega), hgroup.1, hgroup.2]

theorem expanded_even (hn : n < N) :
    word (expand img N (2 * (2 * n))) (expand img N (2 * (2 * n) + 1)) = entry img (2 * n) := by
  have hgroup : 2 * n / 2 = n := by omega
  have hpos : 2 * (2 * n) = 4 * n := by omega
  rw [expanded_entry (by omega), hgroup, hpos, expandGroup_even]

theorem expanded_odd (hn : n < N) :
    word (expand img N (2 * (2 * n + 1))) (expand img N (2 * (2 * n + 1) + 1)) =
      word (expandGroup img n (4 * n + 2)) (expandGroup img n (4 * n + 3)) := by
  have hgroup : (2 * n + 1) / 2 = n := by omega
  have hpos : 2 * (2 * n + 1) = 4 * n + 2 := by omega
  rw [expanded_entry (by omega), hgroup, hpos]

/-- The first entries come out right, at least six, when the first three groups do. -/
theorem expand_iff (entries : Nat) (hsix : 6 ≤ entries) (hN : entries ≤ 2 * N) :
    (∀ k < entries, word (expand img N (2 * k)) (expand img N (2 * k + 1)) = entry img k) ↔
      Harmless img := by
  constructor
  · intro hall
    have hodd : ∀ n, 2 * n + 1 < entries →
        word (expandGroup img n (4 * n + 2)) (expandGroup img n (4 * n + 3)) =
          entry img (2 * n + 1) :=
      fun n hn => (expanded_odd (by omega)).symm.trans (hall (2 * n + 1) hn)
    exact ⟨expandGroup_odd_zero.mp (hodd 0 (by omega)),
      expandGroup_odd_one.mp (hodd 1 (by omega)), expandGroup_odd_two.mp (hodd 2 (by omega))⟩
  · rintro ⟨hzero, hone, htwo⟩ k hk
    obtain ⟨n, rfl | rfl⟩ : ∃ n, k = 2 * n ∨ k = 2 * n + 1 := ⟨k / 2, by omega⟩
    · exact expanded_even (by omega)
    · rw [expanded_odd (by omega)]
      rcases Nat.lt_or_ge n 3 with hlt | hge
      · obtain rfl | rfl | rfl : n = 0 ∨ n = 1 ∨ n = 2 := by omega
        · exact expandGroup_odd_zero.mpr hzero
        · exact expandGroup_odd_one.mpr hone
        · exact expandGroup_odd_two.mpr htwo
      · exact expandGroup_odd_of_ge hge

theorem fat12Mount_fatImg (h : fat12Mount b disk old space = some v) :
    b.Accepted ∧ v.fatImg =
      expand (fun a => if a < fatBytes b then packed b disk a else old a) (fatBytes b / 3 + 1) := by
  unfold fat12Mount at h
  split at h
  · cases h
  · split at h
    · cases h
    · rename_i haccepted
      split at h
      · cases h
      · obtain rfl := Option.some.inj h
        refine ⟨not_not.mp haccepted, ?_⟩
        have hgroups : (fatBytes b + (3 - fatBytes b % 3)) / 3 = fatBytes b / 3 + 1 := by omega
        simp only [hgroups, packed]

theorem fatBytes_ge (h : b.Accepted) : 512 ≤ fatBytes b := by
  have hpos : 0 < b.fatSz16.toNat :=
    Nat.pos_of_ne_zero fun hzero => h.2.1 (BitVec.eq_of_toNat_eq hzero)
  unfold fatBytes
  omega

/-- The entries of a mounted table are those on the disk exactly when what was overwritten
does no harm. -/
theorem fat12Mount_decodes_iff (h : fat12Mount b disk old space = some v) :
    (∀ k < 2 * fatBytes b / 3, fat12Nextcluster v k = entry (packed b disk) k) ↔
      Harmless (packed b disk) := by
  obtain ⟨haccepted, himg⟩ := fat12Mount_fatImg h
  have hlong := fatBytes_ge haccepted
  have hread : ∀ a < fatBytes b,
      (if a < fatBytes b then packed b disk a else old a) = packed b disk a :=
    fun a ha => if_pos ha
  rw [← harmless_congr hread (by omega), ← expand_iff (N := fatBytes b / 3 + 1)
    (2 * fatBytes b / 3) (by omega) (by omega)]
  unfold fat12Nextcluster
  rw [himg]
  apply forall₂_congr
  intro k hk
  rw [entry_congr hread (by omega)]

/-- A boot sector of a 1.44 MB disk. -/
def floppyBoot : BootSector where
  bytsPerSec := 512
  secPerClus := 1
  rsvdSecCnt := 1
  numFATs := 2
  rootEntCnt := 224
  totsec16 := 2880
  media := 0xF0
  fatSz16 := 9

/-- A disk whose table has a byte for the media and an end mark in front, as every table
has, and is empty otherwise. -/
def emptyDisk (a : Nat) : Byte :=
  if a = 512 then 0xF0 else if a = 513 ∨ a = 514 then 0xFF else 0

/-- The second entry of such a disk is lost. -/
theorem emptyDisk_not_decoded :
    ∃ v, fat12Mount floppyBoot emptyDisk (fun _ => 0) (true, true) = some v ∧
      ¬ ∀ k < 2 * fatBytes floppyBoot / 3,
        fat12Nextcluster v k = entry (packed floppyBoot emptyDisk) k := by
  refine ⟨_, rfl, fun hall => ?_⟩
  have hsecond := hall 1 (by decide)
  revert hsecond
  decide +kernel

/-- A disk with the chain 2, 6, 7 of clusters in its table. -/
def chainDisk (a : Nat) : Byte :=
  if a = 512 then 0xF0 else if a = 513 then 0x0F else if a = 515 then 0x06
  else if a = 521 then 0x07 else if a = 522 then 0xF0 else if a = 523 then 0xFF else 0

/-- Its table is read as it is on the disk. -/
theorem chainDisk_decoded :
    ∃ v, fat12Mount floppyBoot chainDisk (fun _ => 0) (true, true) = some v ∧
      (∀ k < 2 * fatBytes floppyBoot / 3,
        fat12Nextcluster v k = entry (packed floppyBoot chainDisk) k) ∧
      fat12Nextcluster v 2 = 6 ∧ fat12Nextcluster v 6 = 7 ∧ fat12Nextcluster v 7 = 0xFFF := by
  have hmount : fat12Mount floppyBoot chainDisk (fun _ => 0) (true, true) = some _ := rfl
  have hharmless : Harmless (packed floppyBoot chainDisk) := by
    unfold Harmless
    decide
  have hall := (fat12Mount_decodes_iff hmount).mpr hharmless
  refine ⟨_, hmount, hall, ?_, ?_, ?_⟩
  · rw [hall 2 (by decide)]
    decide
  · rw [hall 6 (by decide)]
    decide
  · rw [hall 7 (by decide)]
    decide

end Fat12Mount

end OsdevArchive.Cheapos
