import Mathlib.Logic.Function.Basic
import OsdevArchive.Lib.Chained
import OsdevArchive.Lib.PackedBits
import OsdevArchive.Minirighi.Inet

/-!
The FAT of the FAT12 driver (`fs/fat/fat12.c`): the boot sector, the table on the disk and in
memory (`fat` and `lfat`), how `fat12_mount` decodes it and how `fat12_write` writes it back. The
sectors are those that `fdc_read` and `fdc_write` know. Two entries share three bytes: both sides
are the digits of one number, to the base 4096 and to the base 256.
-/

namespace OsdevArchive.Minirighi.Fat12

open OsdevArchive.Lib.Groups OsdevArchive.Minirighi.Inet

/-- `word`. -/
abbrev Word := BitVec 16

/-- `fat12_super_block_t`. The driver does not read `ReservedSectors`. -/
structure SuperBlock where
  bytesPerSector : Nat
  sectorsPerCluster : Nat
  reservedSectors : Nat
  fats : Nat
  rootDirectoryEntries : Nat
  logicalSectors : Nat
  mediumDescriptorByte : Nat
  sectorsPerFat : Nat
  deriving DecidableEq

/-- `FAT_SECTOR_SIZE`. -/
def fatSectorSize : Nat := 512

/-- `fat12_check`. -/
def SuperBlock.check (sb : SuperBlock) : Bool :=
  !(sb.bytesPerSector ≠ fatSectorSize || sb.sectorsPerCluster ≠ 1 || sb.fats ≠ 2 ||
    sb.rootDirectoryEntries ≠ 224 || sb.logicalSectors ≠ 2880 || sb.mediumDescriptorByte ≠ 0xF0)

/-- The boot sector of a floppy of 1.44 MB passes. -/
theorem check_floppy : SuperBlock.check ⟨512, 1, 1, 2, 224, 2880, 0xF0, 9⟩ = true := by decide

/-- The elements of `fat.data`. -/
def fatLength : Nat := 4608

/-- The elements of `lfat.data`. -/
def lfatLength : Nat := 3072

/-! ## The table on the disk and in memory -/

/-- `(fat.data[i] + (fat.data[i+1] << 8)) & 0x0FFF`. -/
def lowEntry (b₀ b₁ : Byte) : Word := BitVec.ofNat 16 ((b₀.toNat + b₁.toNat <<< 8) &&& 0x0FFF)

/-- `(fat.data[i+1] + (fat.data[i+2] << 8)) >> 4`. -/
def highEntry (b₁ b₂ : Byte) : Word := BitVec.ofNat 16 ((b₁.toNat + b₂.toNat <<< 8) >>> 4)

/-- A round of the loop of `fat12_mount`, in which `i` is `3 * r` and `j` is `2 * r`. -/
def decodeRound (fat : Nat → Byte) (lfat : Nat → Word) (r : Nat) : Nat → Word :=
  let i := 3 * r
  let j := 2 * r
  let lfat := Function.update lfat j (lowEntry (fat i) (fat (i + 1)))
  Function.update lfat (j + 1) (highEntry (fat (i + 1)) (fat (i + 2)))

/-- The loop `for( i = 0, j = 0; i < n; i += 3 )` of `fat12_mount`. -/
def decode (n : Nat) (fat : Nat → Byte) (lfat : Nat → Word) : Nat → Word :=
  (List.range ((n + 2) / 3)).foldl (decodeRound fat) lfat

/-- A round of the loop of `fat12_write`, in which `i` is `3 * r` and `j` is `2 * r`. -/
def encodeRound (lfat : Nat → Word) (fat : Nat → Byte) (r : Nat) : Nat → Byte :=
  let i := 3 * r
  let j := 2 * r
  let l₀ := (lfat j).toNat
  let l₁ := (lfat (j + 1)).toNat
  let fat := Function.update fat i (BitVec.ofNat 8 l₀)
  let fat := Function.update fat (i + 1)
    (BitVec.ofNat 8 ((l₀ >>> 8) &&& 0x0F) ||| BitVec.ofNat 8 ((l₁ <<< 4) &&& 0xF0))
  Function.update fat (i + 2) (BitVec.ofNat 8 (l₁ >>> 4))

/-- The loop `for( i = 0, j = 0; j < n; j += 2 )` of `fat12_write`. -/
def encode (n : Nat) (lfat : Nat → Word) (fat : Nat → Byte) : Nat → Byte :=
  (List.range ((n + 1) / 2)).foldl (encodeRound lfat) fat

/-! ## Writing the table -/

/-- The variables of the driver, and the disk byte by byte. Behind the elements of `fat.data` and
of `lfat.data` is whatever follows in memory. -/
structure St where
  super : SuperBlock
  fat : Nat → Byte
  lfat : Nat → Word
  dirty : Bool
  disk : Nat → Byte
  /-- The first sector and the number of sectors of every `fdc_write`. -/
  writes : List (Nat × Nat)

/-- `fat12_invalidate_mount`. -/
def St.invalidate (s : St) : St := { s with super := ⟨0, 0, 0, 0, 0, 0, 0, 0⟩, dirty := false }

/-- The disk after `fdc_write` of `count` sectors. -/
def writeSectors (disk : Nat → Byte) (block count : Nat) (buf : Nat → Byte) (a : Nat) : Byte :=
  if block * fatSectorSize ≤ a ∧ a < (block + count) * fatSectorSize then
    buf (a - block * fatSectorSize)
  else disk a

def St.fdcWrite (s : St) (block count : Nat) (buf : Nat → Byte) : St :=
  { s with
    disk := writeSectors s.disk block count buf
    writes := s.writes ++ [(block, count)] }

variable {l₀ l₁ : Word} {b₀ b₁ b₂ : Byte} {fat fat' : Nat → Byte} {lfat lfat' : Nat → Word}
  {n r i j : Nat}

/-! ## Three bytes -/

/-- The middle byte of two entries. -/
def midByte (l₀ l₁ : Word) : Byte :=
  BitVec.ofNat 8 ((l₀.toNat >>> 8) &&& 0x0F) ||| BitVec.ofNat 8 ((l₁.toNat <<< 4) &&& 0xF0)

theorem lowEntry_toNat : (lowEntry b₀ b₁).toNat = (b₀.toNat + 256 * b₁.toNat) % 4096 := by
  unfold lowEntry
  rw [Nat.and_two_pow_sub_one_eq_mod _ 12, Nat.shiftLeft_eq, BitVec.toNat_ofNat]
  omega

theorem highEntry_toNat : (highEntry b₁ b₂).toNat = (b₁.toNat + 256 * b₂.toNat) / 16 := by
  have h₁ := b₁.isLt
  have h₂ := b₂.isLt
  unfold highEntry
  rw [Nat.shiftRight_eq_div_pow, Nat.shiftLeft_eq, BitVec.toNat_ofNat]
  omega

theorem midByte_toNat :
    (midByte l₀ l₁).toNat = l₀.toNat / 256 % 16 + l₁.toNat % 16 * 16 := by
  have hmask : (0xF0 : Nat) = 0xF <<< 4 := by decide
  have hlow : l₀.toNat / 256 % 16 < 2 ^ 4 := Nat.mod_lt _ (by decide)
  have hlow' : l₀.toNat / 256 % 16 % 2 ^ 8 = l₀.toNat / 256 % 16 := by omega
  have hhigh : l₁.toNat % 16 * 2 ^ 4 % 2 ^ 8 = l₁.toNat % 16 * 2 ^ 4 := by omega
  unfold midByte
  rw [hmask, ← Nat.shiftLeft_and_distrib, Nat.and_two_pow_sub_one_eq_mod _ 4,
    Nat.and_two_pow_sub_one_eq_mod _ 4, Nat.shiftRight_eq_div_pow, BitVec.toNat_or,
    BitVec.toNat_ofNat, BitVec.toNat_ofNat, Nat.shiftLeft_eq, hlow', hhigh, Nat.or_comm,
    ← Nat.shiftLeft_eq, ← Nat.shiftLeft_add_eq_or_of_lt hlow, Nat.shiftLeft_eq]
  omega

/-- Two entries of twelve bits come back from their bytes. -/
theorem entries_of_bytes (h₀ : l₀.toNat < 4096) (h₁ : l₁.toNat < 4096) :
    lowEntry (BitVec.ofNat 8 l₀.toNat) (midByte l₀ l₁) = l₀ ∧
      highEntry (midByte l₀ l₁) (BitVec.ofNat 8 (l₁.toNat >>> 4)) = l₁ := by
  constructor <;> apply BitVec.eq_of_toNat_eq
  · rw [lowEntry_toNat, midByte_toNat, BitVec.toNat_ofNat]
    omega
  · rw [highEntry_toNat, midByte_toNat, BitVec.toNat_ofNat, Nat.shiftRight_eq_div_pow]
    omega

/-- Three bytes come back from their entries. -/
theorem bytes_of_entries (b₀ b₁ b₂ : Byte) :
    BitVec.ofNat 8 (lowEntry b₀ b₁).toNat = b₀ ∧
      midByte (lowEntry b₀ b₁) (highEntry b₁ b₂) = b₁ ∧
      BitVec.ofNat 8 ((highEntry b₁ b₂).toNat >>> 4) = b₂ := by
  have h₀ := b₀.isLt
  have h₁ := b₁.isLt
  have h₂ := b₂.isLt
  refine ⟨?_, ?_, ?_⟩ <;> apply BitVec.eq_of_toNat_eq
  · rw [BitVec.toNat_ofNat, lowEntry_toNat]
    omega
  · rw [midByte_toNat, lowEntry_toNat, highEntry_toNat]
    omega
  · rw [BitVec.toNat_ofNat, highEntry_toNat, Nat.shiftRight_eq_div_pow]
    omega

/-! ## The loops -/

/-- The entry `c` of the group `r`. -/
def entryOf (fat : Nat → Byte) (r c : Nat) : Word :=
  if c = 0 then lowEntry (fat (3 * r)) (fat (3 * r + 1))
  else highEntry (fat (3 * r + 1)) (fat (3 * r + 2))

/-- The byte `c` of the group `r`. -/
def byteOf (lfat : Nat → Word) (r c : Nat) : Byte :=
  if c = 0 then BitVec.ofNat 8 (lfat (2 * r)).toNat
  else if c = 1 then midByte (lfat (2 * r)) (lfat (2 * r + 1))
  else BitVec.ofNat 8 ((lfat (2 * r + 1)).toNat >>> 4)

theorem decodeRound_apply (fat : Nat → Byte) (lfat : Nat → Word) (r j : Nat) :
    decodeRound fat lfat r j = if j / 2 = r then entryOf fat r (j % 2) else lfat j := by
  unfold decodeRound entryOf
  rw [Function.update_apply, Function.update_apply]
  by_cases hodd : j = 2 * r + 1
  · rw [if_pos hodd, if_pos (by omega), if_neg (by omega)]
  · by_cases heven : j = 2 * r
    · rw [if_neg hodd, if_pos heven, if_pos (by omega), if_pos (by omega)]
    · rw [if_neg hodd, if_neg heven, if_neg (by omega)]

theorem encodeRound_apply (lfat : Nat → Word) (fat : Nat → Byte) (r i : Nat) :
    encodeRound lfat fat r i = if i / 3 = r then byteOf lfat r (i % 3) else fat i := by
  unfold encodeRound byteOf midByte
  rw [Function.update_apply, Function.update_apply, Function.update_apply]
  by_cases hlast : i = 3 * r + 2
  · rw [if_pos hlast, if_pos (by omega), if_neg (by omega), if_neg (by omega)]
  · by_cases hmid : i = 3 * r + 1
    · rw [if_neg hlast, if_pos hmid, if_pos (by omega), if_neg (by omega), if_pos (by omega)]
    · by_cases hfirst : i = 3 * r
      · rw [if_neg hlast, if_neg hmid, if_pos hfirst, if_pos (by omega), if_pos (by omega)]
      · rw [if_neg hlast, if_neg hmid, if_neg hfirst, if_neg (by omega)]

theorem decode_apply (hj : j < 2 * n) :
    decode (3 * n) fat lfat j = entryOf fat (j / 2) (j % 2) := by
  unfold decode
  rw [foldl_rounds (decodeRound_apply fat), if_pos (by omega)]

theorem encode_apply (hi : i < 3 * n) :
    encode (2 * n) lfat fat i = byteOf lfat (i / 3) (i % 3) := by
  unfold encode
  rw [foldl_rounds (encodeRound_apply lfat), if_pos (by omega)]

/-- For every number of groups: a table of values of twelve bits comes back from the bytes that it
is encoded in, and an image of the FAT comes back from the table that it is decoded to. -/
theorem codec_inverse (n : Nat) :
    (∀ (lfat lfat' : Nat → Word) (fat : Nat → Byte), (∀ j < 2 * n, (lfat j).toNat < 2 ^ 12) →
      ∀ j < 2 * n, decode (3 * n) (encode (2 * n) lfat fat) lfat' j = lfat j) ∧
    ∀ (fat fat' : Nat → Byte) (lfat : Nat → Word), ∀ i < 3 * n,
      encode (2 * n) (decode (3 * n) fat lfat) fat' i = fat i := by
  constructor
  · intro lfat lfat' fat htwelve j hj
    obtain ⟨hlow, hhigh⟩ := entries_of_bytes (htwelve (2 * (j / 2)) (by omega))
      (htwelve (2 * (j / 2) + 1) (by omega))
    have hbyte : ∀ c < 3, encode (2 * n) lfat fat (3 * (j / 2) + c) = byteOf lfat (j / 2) c := by
      intro c hc
      obtain ⟨hdiv, hmod⟩ := div_mod_of_lt (r := j / 2) hc
      rw [encode_apply (by omega), hdiv, hmod]
    rw [decode_apply hj]
    unfold entryOf
    rw [← Nat.add_zero (3 * (j / 2)), Nat.add_assoc, Nat.add_assoc, hbyte 0 (by decide),
      hbyte (0 + 1) (by decide), hbyte (0 + 2) (by decide)]
    by_cases heven : j % 2 = 0
    · rw [if_pos heven]
      refine hlow.trans (congrArg lfat ?_)
      omega
    · rw [if_neg heven]
      refine hhigh.trans (congrArg lfat ?_)
      omega
  · intro fat fat' lfat i hi
    obtain ⟨hfirst, hmid, hlast⟩ := bytes_of_entries (fat (3 * (i / 3))) (fat (3 * (i / 3) + 1))
      (fat (3 * (i / 3) + 2))
    have hentry : ∀ c < 2, decode (3 * n) fat lfat (2 * (i / 3) + c) = entryOf fat (i / 3) c := by
      intro c hc
      obtain ⟨hdiv, hmod⟩ := div_mod_of_lt (r := i / 3) hc
      rw [decode_apply (by omega), hdiv, hmod]
    rw [encode_apply hi]
    unfold byteOf
    rw [← Nat.add_zero (2 * (i / 3)), Nat.add_assoc, hentry 0 (by decide),
      hentry (0 + 1) (by decide)]
    have hplace : i = 3 * (i / 3) + i % 3 := (Nat.div_add_mod i 3).symm
    have hmod := Nat.mod_lt i (by decide : 0 < 3)
    by_cases h0 : i % 3 = 0
    · rw [if_pos h0]
      refine hfirst.trans (congrArg fat ?_)
      omega
    · by_cases h1 : i % 3 = 1
      · rw [if_neg h0, if_pos h1]
        refine hmid.trans (congrArg fat ?_)
        omega
      · rw [if_neg h0, if_neg h1]
        refine hlast.trans (congrArg fat ?_)
        omega

/-- The last entry of the table of the driver. -/
theorem codec_inverse_last :
    decode (3 * 1536) (encode (2 * 1536) (fun _ => 0xABC) fun _ => 0) (fun _ => 0) 3071 = 0xABC :=
  (codec_inverse 1536).1 (fun _ => 0xABC) (fun _ => 0) (fun _ => 0) (fun _ _ => by decide) 3071
    (by decide)

end OsdevArchive.Minirighi.Fat12
