import OsdevArchive.Minirighi.Machine

/-!
What `init_ext2` computes from the superblock (`fs/ext2/ext2.c`), and where `ReadInode` looks for
an inode on the disk, for any geometry: the division by the inodes of a group, the block in the
inode table, the sectors of the block and the offset in it. The block comes from the number of the
inode within its group, the offset from its number on the volume.
-/

namespace OsdevArchive.Minirighi.Ext2

/-- The fields of the superblock that are read here. -/
structure SuperBlock where
  sInodesCount : Nat
  sFirstDataBlock : Nat
  sLogBlockSize : Nat
  sInodesPerGroup : Nat
  sMagic : Nat
  sInodeSize : Nat

/-- `dim_block`. The processor shifts by the low five bits of the count. -/
def SuperBlock.dimBlock (sb : SuperBlock) : Nat := wrap (1024 * 2 ^ (sb.sLogBlockSize % 32))

/-- `sbpos`, 16 bits wide: the block of the group descriptors. -/
def SuperBlock.sbpos (sb : SuperBlock) : Nat := (sb.sFirstDataBlock + 1) % 2 ^ 16

/-- `ipb`, 16 bits wide. -/
def SuperBlock.ipb (sb : SuperBlock) : Nat := sb.dimBlock / sb.sInodeSize % 2 ^ 16

def SuperBlock.numberOfGroups (sb : SuperBlock) : Nat := sb.sInodesCount / sb.sInodesPerGroup

/-- The group of an inode, and its number within the group. -/
def SuperBlock.groupOf (sb : SuperBlock) (ino : Nat) : Nat := (ino - 1) / sb.sInodesPerGroup

def SuperBlock.indexOf (sb : SuperBlock) (ino : Nat) : Nat := (ino - 1) % sb.sInodesPerGroup

/-- The size of `struct group_descriptor`. -/
def groupDescSize : Nat := 32

/-- The size of `struct i_node`. -/
def iNodeSize : Nat := 128

/-- `spb`, 16 bits wide. -/
def SuperBlock.spb (sb : SuperBlock) : Nat := sb.dimBlock / 512 % 2 ^ 16

/-- `blocco_to_LBA`. The partition begins in sector 63. -/
def SuperBlock.bloccoToLBA (sb : SuperBlock) (numBlock : Nat) : Nat := wrap (63 + numBlock * sb.spb)

/-- The superblock passes `check_ext2`, and `init_ext2` comes to the root directory: it has divided
by `s_inode_size` and `s_inodes_per_group`, and `get_inode` knows the inode 2. -/
structure SuperBlock.Checked (sb : SuperBlock) : Prop where
  magic : sb.sMagic = 0xEF53 ∨ sb.sMagic = 0xEF51
  inodeSize : sb.sInodeSize ≠ 0
  inodesPerGroup : sb.sInodesPerGroup ≠ 0
  root : 2 ≤ sb.sInodesCount

/-- A volume: its superblock, the field `bg_inode_table` of its group descriptors, and what the
driver finds in place of a descriptor that it has not loaded. -/
structure Disk where
  sb : SuperBlock
  checked : sb.Checked
  bgInodeTable : Nat → Nat
  beyond : Nat → Nat

/-- The descriptors that `init_group_desc_table` loads. -/
def Disk.Loaded (d : Disk) (grp : Nat) : Prop :=
  d.sb.dimBlock / 512 < 2 ^ 16 ∧ d.sb.sbpos = d.sb.sFirstDataBlock + 1 ∧
    grp < d.sb.numberOfGroups ∧ groupDescSize * (grp + 1) ≤ d.sb.dimBlock

instance Disk.decidableLoaded (d : Disk) (grp : Nat) : Decidable (d.Loaded grp) :=
  inferInstanceAs (Decidable (_ ∧ _ ∧ _ ∧ _))

/-- `group_desc_table[grp].bg_inode_table`. -/
def Disk.groupDesc (d : Disk) (grp : Nat) : Nat :=
  if d.Loaded grp then d.bgInodeTable grp else d.beyond grp

/-- `Inode2Block`; zero is the error, and `none` a division by zero. -/
def Disk.inode2Block (d : Disk) (ino : Nat) : Option Nat :=
  if ino = 0 ∨ d.sb.sInodesCount < ino then some 0
  else if d.sb.sInodesPerGroup = 0 then none
  else if d.sb.numberOfGroups < d.sb.groupOf ino then some 0
  else if d.sb.ipb = 0 then none
  else some (wrap (d.groupDesc (d.sb.groupOf ino) + d.sb.indexOf ino / d.sb.ipb))

/-- What `ReadInode` reads: `nsec` sectors, and in them the record at `off`. -/
structure InodeRead where
  lba : Nat
  nsec : Nat
  off : Nat
  deriving DecidableEq

/-- `ReadInode`: `none` is a division by zero, and `some none` that there is no block to read. -/
def Disk.readInode (d : Disk) (ino : Nat) : Option (Option InodeRead) :=
  (d.inode2Block ino).bind fun inoBlock =>
    if inoBlock = 0 then some none
    else if d.sb.ipb = 0 then none
    else some (some ⟨d.sb.bloccoToLBA inoBlock, d.sb.spb, (ino - 1) % d.sb.ipb * iNodeSize⟩)

/-- The record lies in the sectors that are read, and at this byte of the disk. -/
def InodeRead.At (r : InodeRead) (pos : Nat) : Prop :=
  r.off + iNodeSize ≤ r.nsec * 512 ∧ r.lba * 512 + r.off = pos

/-- Where the inode is: in the inode table of its group, which holds records of `s_inode_size`
bytes. -/
def Disk.inodePos (d : Disk) (ino : Nat) : Nat :=
  63 * 512 + d.bgInodeTable (d.sb.groupOf ino) * d.sb.dimBlock +
    d.sb.indexOf ino * d.sb.sInodeSize

/-- The `k`-th block behind the place that the descriptor in memory gives for the inode table is
that block of the table on the disk. -/
def Disk.Located (d : Disk) (grp k : Nat) : Prop :=
  wrap (d.groupDesc grp + k) ≠ 0 ∧
    d.sb.bloccoToLBA (d.groupDesc grp + k) = 63 + (d.bgInodeTable grp + k) * (d.sb.dimBlock / 512)

variable {sb : SuperBlock} {d : Disk} {ino : Nat}

theorem bloccoToLBA_wrap (n : Nat) : sb.bloccoToLBA (wrap n) = sb.bloccoToLBA n := by
  unfold SuperBlock.bloccoToLBA wrap
  rw [Nat.add_mod, Nat.mod_mul_mod, ← Nat.add_mod]

/-! ## `ReadInode` -/

theorem groupOf_le (hino : ino ≤ sb.sInodesCount) : sb.groupOf ino ≤ sb.numberOfGroups :=
  Nat.div_le_div_right (by omega)

/-- What is read for an inode of the volume. -/
theorem readInode_eq (hipb : d.sb.ipb ≠ 0) (hpos : 1 ≤ ino) (hino : ino ≤ d.sb.sInodesCount)
    (hblock : wrap (d.groupDesc (d.sb.groupOf ino) + d.sb.indexOf ino / d.sb.ipb) ≠ 0) :
    d.readInode ino = some (some
      ⟨d.sb.bloccoToLBA (d.groupDesc (d.sb.groupOf ino) + d.sb.indexOf ino / d.sb.ipb), d.sb.spb,
        (ino - 1) % d.sb.ipb * iNodeSize⟩) := by
  have hgroup := groupOf_le hino
  unfold Disk.readInode Disk.inode2Block
  rw [if_neg (by omega), if_neg d.checked.inodesPerGroup, if_neg (by omega), if_neg hipb,
    Option.bind_some, if_neg hblock, if_neg hipb, bloccoToLBA_wrap]

/-- An inode that is read has a block. -/
theorem block_of_readInode {r : InodeRead} (hpos : 1 ≤ ino) (hino : ino ≤ d.sb.sInodesCount)
    (h : d.readInode ino = some (some r)) : d.sb.ipb ≠ 0 ∧
      wrap (d.groupDesc (d.sb.groupOf ino) + d.sb.indexOf ino / d.sb.ipb) ≠ 0 := by
  have hgroup := groupOf_le hino
  unfold Disk.readInode Disk.inode2Block at h
  rw [if_neg (by omega), if_neg d.checked.inodesPerGroup, if_neg (by omega)] at h
  by_cases hipb : d.sb.ipb = 0
  · rw [if_pos hipb] at h
    cases h
  · rw [if_neg hipb, Option.bind_some] at h
    refine ⟨hipb, fun hblock => ?_⟩
    rw [if_pos hblock] at h
    cases h

/-- The equation that the place of an inode has to satisfy. -/
theorem readsInode_iff (hpos : 1 ≤ ino) (hino : ino ≤ d.sb.sInodesCount) :
    (∃ r, d.readInode ino = some (some r) ∧ r.At (d.inodePos ino)) ↔
      d.sb.ipb ≠ 0 ∧
      wrap (d.groupDesc (d.sb.groupOf ino) + d.sb.indexOf ino / d.sb.ipb) ≠ 0 ∧
      (ino - 1) % d.sb.ipb * 128 + 128 ≤ d.sb.spb * 512 ∧
      d.sb.bloccoToLBA (d.groupDesc (d.sb.groupOf ino) + d.sb.indexOf ino / d.sb.ipb) * 512 +
        (ino - 1) % d.sb.ipb * 128 = d.inodePos ino := by
  constructor
  · rintro ⟨r, hread, hinside, hpos'⟩
    obtain ⟨hipb, hblock⟩ := block_of_readInode hpos hino hread
    rw [readInode_eq hipb hpos hino hblock] at hread
    obtain rfl := Option.some.inj (Option.some.inj hread)
    exact ⟨hipb, hblock, hinside, hpos'⟩
  · rintro ⟨hipb, hblock, hinside, hpos'⟩
    exact ⟨_, readInode_eq hipb hpos hino hblock, hinside, hpos'⟩

/-! ## The first inodes of the groups -/

end OsdevArchive.Minirighi.Ext2
