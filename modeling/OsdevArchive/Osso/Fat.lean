import OsdevArchive.Lib.Chained
import Mathlib.Data.BitVec

/-!
The FAT driver of OSSO (`drivers/fat.c`) from its descriptors down: the cluster chains of the
volume and one entry of the file table with its cluster buffer. The volume is what `FS_init`
leaves in the globals, and `read_cluster` succeeds.
-/

namespace OsdevArchive.Osso.Fat

open OsdevArchive.Lib.Chained

abbrev Byte := BitVec 8

abbrev Dword := BitVec 32

/-- The word of a table of bytes at `address`. -/
def wordAt (bytes : Nat → Byte) (address : Nat) : BitVec 16 :=
  bytes (address + 1) ++ bytes address

def dwordAt (bytes : Nat → Byte) (address : Nat) : Dword :=
  wordAt bytes (address + 2) ++ wordAt bytes address

/-! ### Directory entries -/

/-- A `Dir_Entry`: 32 bytes, read by their offsets. -/
abbrev DirEntry := List Byte

namespace DirEntry

variable (de : DirEntry)

/-- The name and the extension, which lie one behind the other. -/
def filename : List Byte := de.take 11

def byteAt (offset : Nat) : Byte := de.getD offset 0

def attributes : Byte := byteAt de 11

/-- `DE_STARTING_CLUSTER`. -/
def startingCluster : Dword := wordAt (byteAt de) 20 ++ wordAt (byteAt de) 26

def fileSize : Dword := dwordAt (byteAt de) 28

end DirEntry

/-! ### Volumes -/

inductive FatType where
  | fat12
  | fat16
  | fat32
deriving DecidableEq

/-- The globals of a mounted volume. The root directory is as long as `BPB_RootEntCnt`, which
`FS_init` wants to be zero for FAT32. -/
structure Volume where
  fatType : FatType
  firstFat : Nat → Byte
  bytesPerCluster : Dword
  readCluster : Dword → List Byte
  rootDir : List DirEntry
  rootClus : Dword
  bytesPerCluster_pos : 0 < bytesPerCluster.toNat
  readCluster_length : ∀ cluster, (readCluster cluster).length = bytesPerCluster.toNat
  rootDir_length : rootDir.length < 2 ^ 16
  rootDir_fat32 : fatType = .fat32 → rootDir = []

namespace Volume

variable (v : Volume)

def eofMark : Dword :=
  match v.fatType with
  | .fat12 => 0x0FF8
  | .fat16 => 0xFFF8
  | .fat32 => 0x0FFFFFF8

/-- `FAT_EOF`. -/
def FatEof (cluster : Dword) : Prop :=
  v.eofMark ≤ cluster ∨ cluster = 0

instance instDecidableFatEof : DecidablePred v.FatEof := fun _ =>
  inferInstanceAs (Decidable (_ ∨ _))

def getNextCluster (cluster : Dword) : Dword :=
  match v.fatType with
  | .fat12 =>
    let c := (wordAt v.firstFat (2 * (cluster + cluster >>> 1).toNat)).setWidth 32
    (if cluster.getLsbD 0 then c >>> 4 else c) &&& 0x0FFF
  | .fat16 => (wordAt v.firstFat (2 * cluster.toNat)).setWidth 32
  | .fat32 => dwordAt v.firstFat (4 * cluster.toNat) &&& 0x0FFFFFFF

/-- The cluster chains of the volume. -/
abbrev Chain : Dword → List Dword → Prop :=
  Lib.Chained.Chain v.getNextCluster v.FatEof

end Volume

/-! ### Descriptors -/

/-- An entry of `FileData`. -/
structure FileData where
  currentFileName : Option (List Byte)
  dirEntry : DirEntry
  currentCluster : Dword
  cluster : List Byte
  fileOffset : Dword
  inSynch : Bool
  dirMode : Bool
  isRoot : Bool

variable (v : Volume)

/-- `GetCluster` with the index of a descriptor. -/
def getCluster (fd : FileData) (cluster : Dword) : FileData :=
  if cluster = fd.currentCluster ∧ fd.inSynch then fd
  else { fd with cluster := v.readCluster cluster, currentCluster := cluster, inSynch := true }

def structNextCluster (fd : FileData) : FileData :=
  { fd with currentCluster := v.getNextCluster fd.currentCluster, inSynch := false }

/-- `fs_open` in the free descriptor `fd`, for the entry `de` that `LocateEntry` finds. -/
def fsOpen (fd : FileData) (filename : List Byte) (de : DirEntry) : FileData :=
  { fd with
    currentFileName := some filename
    dirEntry := de
    currentCluster := DirEntry.startingCluster de
    inSynch := false
    dirMode := false
    isRoot := false
    fileOffset := 0 }

def seekSet : Dword := 0

def seekCur : Dword := 1

def seekEnd : Dword := 2

/-- The `switch` of `fs_lseek`; `none` where it returns. -/
def absoluteOffset (fd : FileData) (offset whence : Dword) : Option Dword :=
  if whence = seekCur then some (offset + fd.fileOffset)
  else if whence = seekEnd then
    if 0 ≤ offset.toInt then none else some (offset + DirEntry.fileSize fd.dirEntry)
  else some offset

/-- `fs_lseek` from the point where the offset is absolute. -/
def seekTo (fd : FileData) (offset : Dword) : Dword × FileData :=
  if DirEntry.fileSize fd.dirEntry ≤ offset then (-1, fd)
  else
    let clusterIdx := offset / v.bytesPerCluster
    if fd.fileOffset / v.bytesPerCluster ≠ clusterIdx then
      let cluster := walk v.getNextCluster v.FatEof clusterIdx.toNat
        (DirEntry.startingCluster fd.dirEntry)
      (offset, { fd with currentCluster := cluster, inSynch := false, fileOffset := offset })
    else (offset, { fd with fileOffset := offset })

def fsLseek (fd : FileData) (offset whence : Dword) : Dword × FileData :=
  match absoluteOffset fd offset whence with
  | none => (-1, fd)
  | some offset => seekTo v fd offset

/-! ### Reading -/

/-- The variables of `fs_read`, with the bytes that are in `memory` so far. -/
structure Transfer where
  fd : FileData
  count : Dword
  numbytes : Dword
  memory : List Byte

/-- `if (!fd->bits.in_synch) GetCluster(fd->CurrentCluster,descr-1)`. -/
def synchronize (fd : FileData) : FileData :=
  if fd.inSynch then fd else getCluster v fd fd.currentCluster

/-- The first cluster, where it is not whole. -/
def readFirst (start : Dword) (r : Transfer) : Transfer :=
  if start ≠ 0 ∧ r.count ≠ 0 ∧ ¬ v.FatEof r.fd.currentCluster then
    let num := if r.count < v.bytesPerCluster - start then r.count
      else v.bytesPerCluster - start
    let fd := synchronize v r.fd
    { fd := structNextCluster v fd
      count := r.count - num
      numbytes := r.numbytes + num
      memory := r.memory ++ (fd.cluster.drop start.toNat).take num.toNat }
  else r

/-- The loop for the whole clusters. Every round takes at least a byte off `count`, so that
`count` rounds are enough. -/
def readWhole : Nat → Transfer → Transfer
  | 0, r => r
  | rounds + 1, r =>
    if ¬ v.FatEof r.fd.currentCluster ∧ v.bytesPerCluster ≤ r.count then
      readWhole rounds
        { fd := structNextCluster v r.fd
          count := r.count - v.bytesPerCluster
          numbytes := r.numbytes + v.bytesPerCluster
          memory := r.memory ++ v.readCluster r.fd.currentCluster }
    else r

/-- The last cluster, where it is not whole. -/
def readLast (r : Transfer) : Transfer :=
  if r.count ≠ 0 ∧ ¬ v.FatEof r.fd.currentCluster then
    let fd := synchronize v r.fd
    { fd := fd
      count := r.count
      numbytes := r.numbytes + r.count
      memory := r.memory ++ fd.cluster.take r.count.toNat }
  else r

/-- `If request is out of boundary, resize count value`. -/
def resizeCount (fd : FileData) (offset count : Dword) : Dword :=
  if DirEntry.fileSize fd.dirEntry < offset + count then
    DirEntry.fileSize fd.dirEntry - offset
  else count

/-- The three stages, on a read that starts `start` bytes inside of its first cluster. -/
def readStages (start : Dword) (r : Transfer) : Transfer :=
  let first := readFirst v start r
  readLast v (readWhole v first.count.toNat first)

/-- `fs_read` from the point where `offset` is the position of the descriptor: the number that
is returned, the bytes in `memory`, and the descriptor. -/
def readFrom (fd : FileData) (offset count : Dword) : Dword × List Byte × FileData :=
  let count := resizeCount fd offset count
  let r := readStages v (offset % v.bytesPerCluster) ⟨fd, count, 0, []⟩
  (r.numbytes, r.memory, { r.fd with fileOffset := r.fd.fileOffset + r.numbytes })

def fsRead (fd : FileData) (offset count : Dword) : Dword × List Byte × FileData :=
  if fd.currentFileName.isNone ∨ fd.dirMode then (0, [], fd)
  else if 0 ≤ offset.toInt then
    let (position, fd) := fsLseek v fd offset seekSet
    if position.toInt < 0 then (0, [], fd) else readFrom v fd offset count
  else readFrom v fd fd.fileOffset count

end OsdevArchive.Osso.Fat
