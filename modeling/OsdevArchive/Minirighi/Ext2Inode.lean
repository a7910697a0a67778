import Mathlib.Logic.Function.Basic
import OsdevArchive.Lib.Runs
import OsdevArchive.Minirighi.Ext2Geometry

/-!
The inode cache of the ext2 driver (`fs/ext2/ext2.c`): `get_inode` with its table
and its replacement, over the disk reads of `ReadInode`. The contents of an inode
are opaque; `I` is the type of the 128-byte records.
-/

namespace OsdevArchive.Minirighi.Ext2

open OsdevArchive.Lib.Runs

/-- `dim_inode_table`, 16 bits wide. -/
def SuperBlock.dimInodeTable (sb : SuperBlock) : Nat := sb.sInodesCount / 100 % 2 ^ 16

/-- A mounted volume, with the record at every byte of the disk. `kmalloc(0)` gives no memory, so
that the two tables have entries, and the read of the root directory has divided by `ipb`. `beside`
is what `ReadInode` copies where the record does not lie in the sectors that it has read. -/
structure Mounted (I : Type*) where
  disk : Disk
  numberOfGroups : disk.sb.numberOfGroups ≠ 0
  dimInodeTable : disk.sb.dimInodeTable ≠ 0
  ipb : disk.sb.ipb ≠ 0
  record : Nat → I
  beside : InodeRead → I

variable {I : Type*} {m : Mounted I} {ino : Nat}

/-- The superblock in memory. -/
abbrev Mounted.sb (m : Mounted I) : SuperBlock := m.disk.sb

/-- The record that is copied out of the sectors that were read. -/
def Mounted.copied (m : Mounted I) (r : InodeRead) : I :=
  if r.off + iNodeSize ≤ r.nsec * 512 then m.record (r.lba * 512 + r.off) else m.beside r

/-- `ReadInode`, which divides by no zero here. `io` tells whether the disk read succeeds. -/
def Mounted.readInode (m : Mounted I) (ino : Nat) (io : Bool) : Option I :=
  (m.disk.readInode ino).join.bind fun r => if io then some (m.copied r) else none

/-- The inode of this number on the disk, as the ext2 format places it. -/
def Mounted.onDisk (m : Mounted I) (ino : Nat) : I := m.record (m.disk.inodePos ino)

/-- `struct i_node_tab`. -/
structure Slot (I : Type*) where
  iNodeN : Nat
  inode : I
  ref : BitVec 16

/-- `inode_table` and `free_inode`. An index from `dim_inode_table` on is outside
the allocated table. -/
structure Cache (I : Type*) where
  table : Nat → Slot I
  freeInode : Nat

/-- The number of slots in use: `dim_inode_table - free_inode`. -/
def Mounted.used (m : Mounted I) (c : Cache I) : Nat := m.sb.dimInodeTable - c.freeInode

/-- `inode_LRU`: the first slot of smallest `ref`. -/
def Mounted.inodeLRU (m : Mounted I) (c : Cache I) : Nat :=
  (List.range' 1 (m.sb.dimInodeTable - 1)).foldl
    (fun lru i => if (c.table i).ref < (c.table lru).ref then i else lru) 0

/-- A call of `get_inode`: the number, whether a disk read would succeed now, and
what the uninitialised variable `new_inode` holds. -/
structure Request (I : Type*) where
  ino : Nat
  io : Bool
  newInode : I

/-- The search of `get_inode`. -/
def Mounted.find (m : Mounted I) (c : Cache I) (ino : Nat) : Option Nat :=
  (List.range (m.used c)).find? fun i => (c.table i).iNodeN = ino

/-- The slot that `get_inode` gives to an inode that is not in the table. -/
def Mounted.victim (m : Mounted I) (c : Cache I) : Nat :=
  if 0 < c.freeInode then m.used c else m.inodeLRU c

/-- `get_inode` on a miss: the slot is filled with whatever `new_inode` holds after
`ReadInode`, whose result is not looked at. -/
def Mounted.fill (m : Mounted I) (c : Cache I) (req : Request I) : Cache I where
  table := Function.update c.table (m.victim c)
    ⟨req.ino, (m.readInode req.ino req.io).getD req.newInode, 0⟩
  freeInode := c.freeInode - 1

/-- The last loop of `get_inode`: the references age, and that of `pos` is marked. -/
def Mounted.touch (m : Mounted I) (c : Cache I) (pos : Nat) : Cache I :=
  { c with
    table := fun i =>
      if i < m.used c then
        { c.table i with
          ref := if i = pos then (c.table i).ref >>> 1 ||| 0x8000 else (c.table i).ref >>> 1 }
      else c.table i }

/-- `get_inode`: the table after it, and the index of the slot that it returns. -/
def Mounted.getInode (m : Mounted I) (c : Cache I) (req : Request I) : Cache I × Option Nat :=
  if req.ino = 0 ∨ m.sb.sInodesCount < req.ino then (c, none)
  else match m.find c req.ino with
    | some pos => (m.touch c pos, some pos)
    | none => (m.touch (m.fill c req) (m.victim c), some (m.victim c))

/-- The table indices that a call of `get_inode` uses: its two loops and the slot. -/
def Mounted.indices (m : Mounted I) (c : Cache I) (req : Request I) : List Nat :=
  match (m.getInode c req).2 with
  | none => []
  | some pos => List.range (m.used c) ++ [pos] ++ List.range (m.used (m.getInode c req).1)

/-- The cache is right: the numbers in use are distinct, and each slot in use holds
the inode of its number. -/
structure Coherent (m : Mounted I) (c : Cache I) : Prop where
  freeLe : c.freeInode ≤ m.sb.dimInodeTable
  distinct : ∀ i j, i < m.used c → j < m.used c → (c.table i).iNodeN = (c.table j).iNodeN → i = j
  onDisk : ∀ i, i < m.used c → (c.table i).inode = m.onDisk (c.table i).iNodeN

/-- A call is served well: it stays inside the table, what it returns is the inode
that was asked for, and an inode that cannot be read is neither returned nor kept. -/
structure Serves (m : Mounted I) (c : Cache I) (req : Request I) : Prop where
  inside : ∀ i ∈ m.indices c req, i < m.sb.dimInodeTable
  valid : ∀ pos, (m.getInode c req).2 = some pos →
    ((m.getInode c req).1.table pos).inode = m.onDisk req.ino
  failed : m.find c req.ino = none → m.readInode req.ino req.io = none →
    (m.getInode c req).2 = none ∧ m.find (m.getInode c req).1 req.ino = none

/-- The driver looks for an inode where the format has it: `Inode2Block` finds a block, and the
record lies in the sectors of the block and at the place of the inode on the disk. -/
structure Located (d : Disk) (ino : Nat) : Prop where
  block : wrap (d.groupDesc (d.sb.groupOf ino) + d.sb.indexOf ino / d.sb.ipb) ≠ 0
  inside : (ino - 1) % d.sb.ipb * 128 + 128 ≤ d.sb.spb * 512
  place : d.sb.bloccoToLBA (d.groupDesc (d.sb.groupOf ino) + d.sb.indexOf ino / d.sb.ipb) * 512 +
    (ino - 1) % d.sb.ipb * 128 = d.inodePos ino

/-- The condition on a call: when it misses, the disk can be read, and the inode is where the
driver looks for it. -/
def Readable (m : Mounted I) (c : Cache I) (req : Request I) : Prop :=
  req.ino ≠ 0 → req.ino ≤ m.sb.sInodesCount → m.find c req.ino = none →
    req.io = true ∧ Located m.disk req.ino

variable {c : Cache I} {req : Request I} {zero : I} {pos : Nat}

theorem readInode_located (hloc : Located m.disk ino) (hne : ino ≠ 0)
    (hle : ino ≤ m.sb.sInodesCount) : m.readInode ino true = some (m.onDisk ino) := by
  obtain ⟨r, hread, hinside, hplace⟩ := (readsInode_iff (Nat.pos_of_ne_zero hne) hle).mpr
    ⟨m.ipb, hloc.block, hloc.inside, hloc.place⟩
  unfold Mounted.readInode Mounted.copied Mounted.onDisk
  rw [hread, Option.join_some, Option.bind_some, if_pos rfl, if_pos hinside, hplace]

theorem touch_iNodeN (i : Nat) : ((m.touch c pos).table i).iNodeN = (c.table i).iNodeN := by
  simp only [Mounted.touch]
  split <;> rfl

theorem touch_inode (i : Nat) : ((m.touch c pos).table i).inode = (c.table i).inode := by
  simp only [Mounted.touch]
  split <;> rfl

theorem Coherent.touch (h : Coherent m c) (pos : Nat) : Coherent m (m.touch c pos) where
  freeLe := h.freeLe
  distinct i j hi hj hij := by
    rw [touch_iNodeN, touch_iNodeN] at hij
    exact h.distinct i j hi hj hij
  onDisk i hi := by
    rw [touch_inode, touch_iNodeN]
    exact h.onDisk i hi

theorem inodeLRU_lt : m.inodeLRU c < m.sb.dimInodeTable := by
  have hfold : ∀ (list : List Nat) (lru : Nat), lru < m.sb.dimInodeTable →
      (∀ i ∈ list, i < m.sb.dimInodeTable) →
      list.foldl (fun lru i => if (c.table i).ref < (c.table lru).ref then i else lru) lru <
        m.sb.dimInodeTable := by
    intro list
    induction list with
    | nil => exact fun _ h _ => h
    | cons i rest ih =>
        intro lru hlru hall
        obtain ⟨hi, hrest⟩ := List.forall_mem_cons.mp hall
        refine ih _ ?_ hrest
        dsimp only
        split
        · exact hi
        · exact hlru
  refine hfold _ 0 (Nat.pos_of_ne_zero m.dimInodeTable) fun i hi => ?_
  have hrange := List.mem_range'_1.mp hi
  omega

/-- The slot for a new inode is in the table, and with it the slots in use are those
that were and this one. -/
theorem victim_spec (req : Request I) (h : c.freeInode ≤ m.sb.dimInodeTable) :
    m.victim c < m.sb.dimInodeTable ∧ m.victim c < m.used (m.fill c req) ∧
      ∀ i, i < m.used (m.fill c req) → i < m.used c ∨ i = m.victim c := by
  have hlru := inodeLRU_lt (m := m) (c := c)
  have hdim := Nat.pos_of_ne_zero m.dimInodeTable
  unfold Mounted.victim Mounted.used Mounted.fill
  split
  · refine ⟨by omega, by simp only; omega, fun i hi => ?_⟩
    simp only at hi
    omega
  · refine ⟨hlru, by simp only; omega, fun i hi => .inl ?_⟩
    simp only at hi
    omega

theorem fill_victim : (m.fill c req).table (m.victim c) =
    ⟨req.ino, (m.readInode req.ino req.io).getD req.newInode, 0⟩ :=
  Function.update_self ..

theorem find_none (h : m.find c ino = none) {i : Nat} (hi : i < m.used c) :
    (c.table i).iNodeN ≠ ino := by
  have hmiss := List.find?_eq_none.mp h i (List.mem_range.mpr hi)
  simpa using hmiss

/-- Filling a slot with the inode that was missed keeps the cache right. -/
theorem Coherent.fill (h : Coherent m c)
    (hmiss : m.find c req.ino = none)
    (hread : m.readInode req.ino req.io = some (m.onDisk req.ino)) :
    Coherent m (m.fill c req) := by
  obtain ⟨-, -, hused⟩ := victim_spec req h.freeLe
  have hself : (m.fill c req).table (m.victim c) = ⟨req.ino, m.onDisk req.ino, 0⟩ := by
    rw [fill_victim, hread, Option.getD_some]
  have hother : ∀ i, i ≠ m.victim c → (m.fill c req).table i = c.table i :=
    fun i hi => Function.update_of_ne hi _ _
  have hold : ∀ i, i < m.used (m.fill c req) → i ≠ m.victim c → i < m.used c :=
    fun i hi hne => (hused i hi).resolve_right hne
  constructor
  · exact (Nat.sub_le _ _).trans h.freeLe
  · intro i j hi hj hij
    rcases eq_or_ne i (m.victim c) with rfl | hni <;> rcases eq_or_ne j (m.victim c) with rfl | hnj
    · rfl
    · rw [hself, hother j hnj] at hij
      exact absurd hij.symm (find_none hmiss (hold j hj hnj))
    · rw [hself, hother i hni] at hij
      exact absurd hij (find_none hmiss (hold i hi hni))
    · rw [hother i hni, hother j hnj] at hij
      exact h.distinct i j (hold i hi hni) (hold j hj hnj) hij
  · intro i hi
    rcases eq_or_ne i (m.victim c) with rfl | hni
    · rw [hself]
    · rw [hother i hni]
      exact h.onDisk i (hold i hi hni)

theorem getInode_cases (hok : Readable m c req) :
    m.getInode c req = (c, none) ∨
      (∃ pos, m.find c req.ino = some pos ∧ m.getInode c req = (m.touch c pos, some pos)) ∨
      m.find c req.ino = none ∧
        m.readInode req.ino req.io = some (m.onDisk req.ino) ∧
        m.getInode c req = (m.touch (m.fill c req) (m.victim c), some (m.victim c)) := by
  unfold Mounted.getInode
  split
  · exact .inl rfl
  · rename_i hnumber
    have hne : req.ino ≠ 0 := fun hzero => hnumber (.inl hzero)
    have hle : req.ino ≤ m.sb.sInodesCount := Nat.le_of_not_lt fun hlt => hnumber (.inr hlt)
    split
    · rename_i pos hhit
      exact .inr (.inl ⟨pos, hhit, rfl⟩)
    · rename_i hmiss
      obtain ⟨hio, hloc⟩ := hok hne hle hmiss
      rw [hio]
      exact .inr (.inr ⟨hmiss, readInode_located hloc hne hle, rfl⟩)

theorem Coherent.getInode (h : Coherent m c) (hok : Readable m c req) :
    Coherent m (m.getInode c req).1 := by
  rcases getInode_cases hok with heq | ⟨pos, -, heq⟩ | ⟨hmiss, hread, heq⟩
  · rwa [heq]
  · rw [heq]
    exact h.touch pos
  · rw [heq]
    exact (h.fill hmiss hread).touch _

end OsdevArchive.Minirighi.Ext2
