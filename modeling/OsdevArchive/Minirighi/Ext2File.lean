import Mathlib.Tactic.Common
import OsdevArchive.Minirighi.Inet

/-!
The pointer table of an open ext2 file (`fs/ext2/ext2.c`): `Open_File` and the two
functions that expand indirect blocks. The table `ptr_dir` is the result of a
sequence of stores, so that one can tell not only what an entry holds but also how
often it was written. A block is read as a whole or not at all.
-/

namespace OsdevArchive.Minirighi.Ext2

open OsdevArchive.Minirighi.Inet

/-- The bytes of a disk block. -/
abbrev Block := Nat → Byte

/-- The `i`-th 32-bit word of a block. -/
def dword (block : Block) (i : Nat) : Nat :=
  (block (4 * i)).toNat + 2 ^ 8 * (block (4 * i + 1)).toNat + 2 ^ 16 * (block (4 * i + 2)).toNat +
    2 ^ 24 * (block (4 * i + 3)).toNat

/-- A mounted volume: `s_log_block_size`, small enough for the sectors of a block
to be counted in the 16 bits of `spb`, and what reading a block returns. -/
structure Volume where
  sLogBlockSize : Nat
  spbFits : sLogBlockSize ≤ 14
  readBlock : Nat → Option Block

variable {v : Volume} {content : Nat → Block}

/-- `dim_block`. -/
def Volume.dimBlock (v : Volume) : Nat := 1024 * 2 ^ v.sLogBlockSize

/-- `dim_ptr`: how many block numbers fit a block. -/
def Volume.dimPtr (v : Volume) : Nat := v.dimBlock / 4

/-- The fields of `struct i_node` that are read. -/
structure Inode where
  iMode : Nat
  iSize : Nat
  iBlock : Nat → Nat
  sizeFits : iSize < 2 ^ 32

def modeMask : Nat := 0xF000

def modeLink : Nat := 0xA000

def modeFile : Nat := 0x8000

def modeDir : Nat := 0x4000

def isFile (ino : Inode) : Bool := ino.iMode &&& modeMask = modeFile

def isFastSymbolicLink (ino : Inode) : Bool := ino.iMode &&& modeMask = modeLink

def isDir (ino : Inode) : Bool := ino.iMode &&& modeMask = modeDir

/-- A store into an entry of `ptr_dir`. -/
structure Store where
  index : Nat
  value : Nat
  deriving DecidableEq

/-- `memcpy` of `m` words to the entries from `dst` on. -/
def copyWords (dst m : Nat) (src : Nat → Nat) : List Store :=
  (List.range m).map fun i => ⟨dst + i, src i⟩

/-- `ReadIndirect1`: the stores and the new `*cnt`. `dst` is passed by value. -/
def readIndirect1 (v : Volume) (dst cnt blk : Nat) : Option (List Store × Nat) :=
  if cnt = 0 then some ([], cnt)
  else do
    let r1 ← v.readBlock blk
    let m := min cnt v.dimPtr
    some (copyWords dst m (dword r1), cnt - m)

/-- The loop over the words of an indirect block, with the function that expands
one of them. It ends early once `*cnt` is zero. -/
def expand (readNext : Nat → Nat → Option (List Store × Nat)) :
    List Nat → Nat → Option (List Store × Nat)
  | [], cnt => some ([], cnt)
  | blk :: rest, cnt =>
      if cnt = 0 then some ([], cnt)
      else do
        let (stores, cnt) ← readNext cnt blk
        let (more, cnt) ← expand readNext rest cnt
        some (stores ++ more, cnt)

/-- The words of a block, from the first to the last. -/
def Volume.words (v : Volume) (block : Block) : List Nat := (List.range v.dimPtr).map (dword block)

/-- `ReadIndirect2`. Each call of `ReadIndirect1` gets the same `dst`. -/
def readIndirect2 (v : Volume) (dst cnt blk : Nat) : Option (List Store × Nat) :=
  if cnt = 0 then some ([], cnt)
  else do
    let r2 ← v.readBlock blk
    expand (readIndirect1 v dst) (v.words r2) cnt

/-- The last part of `Open_File`: triple indirection, expanded only when blocks are
left. -/
def readTriple (v : Volume) (dst cnt blk : Nat) : Option (List Store × Nat) :=
  if cnt = 0 then some ([], cnt)
  else do
    let r3 ← v.readBlock blk
    expand (readIndirect2 v dst) (v.words r3) cnt

/-- `n` of `Open_File`, in 32-bit arithmetic. -/
def fileBlocks (v : Volume) (ino : Inode) : Nat :=
  wrap (ino.iSize + v.dimBlock - 1) / v.dimBlock

/-- `Open_File`: the stores that fill `ptr_dir`, or `FALSE`. Expanding an indirect
block does not move `ptr`. -/
def openFile (v : Volume) (ino : Inode) (tipoFile : Nat) : Option (List Store) :=
  if ¬(tipoFile = modeDir ∨ tipoFile = modeFile ∨ tipoFile = modeLink) then none
  else if tipoFile = modeLink ∧ ino.iSize < 64 then none
  else do
    let n := fileBlocks v ino
    let m := if n < 12 then n else 12
    let (one, cnt) ← readIndirect1 v m (n - m) (ino.iBlock 12)
    let (two, cnt) ← readIndirect2 v m cnt (ino.iBlock 13)
    let (three, _) ← readTriple v m cnt (ino.iBlock 14)
    some (copyWords 0 m ino.iBlock ++ one ++ two ++ three)

/-- `ptr_dir[k]`: the last store into the entry, or the zero of `memset`. -/
def ptrDir (stores : List Store) (k : Nat) : Nat :=
  ((stores.filter fun store => store.index = k).getLast?.map Store.value).getD 0

/-- The number of blocks of a file of this size. -/
def Inode.blocks (ino : Inode) (v : Volume) : Nat := (ino.iSize + v.dimBlock - 1) / v.dimBlock

/-- The files that `Open_File` does not turn away at once. -/
def Accepts (ino : Inode) (tipoFile : Nat) : Prop :=
  (tipoFile = modeDir ∨ tipoFile = modeFile ∨ tipoFile = modeLink) ∧
    ¬(tipoFile = modeLink ∧ ino.iSize < 64)

variable {ino : Inode} {tipoFile dst cnt blk m k : Nat} {src : Nat → Nat}

/-- Blocks whose words are their own number, on a volume with blocks of 1024 bytes. -/
def plainContent (blk : Nat) : Block := fun i => BitVec.ofNat 8 (blk / 256 ^ (i % 4))

def plainVolume : Volume := ⟨0, by decide, fun blk => some (plainContent blk)⟩

end OsdevArchive.Minirighi.Ext2
