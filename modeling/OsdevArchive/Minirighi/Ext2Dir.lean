import OsdevArchive.Minirighi.Ext2File

/-!
The current directory of the ext2 driver (`fs/ext2/ext2.c`): `Open_Dir`, `FindFile`
and `cd_ext2`. The current directory is kept four times, as a path, as a depth, as an
inode number and as the listing that `FindFile` searches, and `cd_ext2` updates them
one by one. `get_inode` is a function here; its cache is in `Ext2Inode`.
-/

namespace OsdevArchive.Minirighi.Ext2

open OsdevArchive.Minirighi.Inet

/-- The characters of a C string, without the final zero. -/
abbrev Text := List Byte

def slash : Byte := 0x2F

def dot : Text := [0x2E]

def dotdot : Text := [0x2E, 0x2E]

/-- What ends the execution of the driver: a loop without end, or an access outside
of its data. -/
inductive Fault where
  | hang
  | outOfBounds
  deriving DecidableEq

/-- An element of `inode_dir` and `ext2_file_name`. -/
structure DirEntry where
  inode : Nat
  name : Text
  deriving DecidableEq

/-- The bytes that precede the name in `struct dir_ff`. -/
def dirHead : Nat := 8

/-- The first pass over a directory: where the entries in use begin. An entry whose
`rec_len` is zero is its own successor. -/
def usedEntries (tmp : Mem) (iSize : Nat) : (fuel i : Nat) → Except Fault (List Nat)
  | 0, _ => .error .hang
  | fuel + 1, i =>
      if iSize ≤ i then .ok []
      else if iSize < i + dirHead then .error .outOfBounds
      else do
        let rest ← usedEntries tmp iSize fuel (wrap (i + loadWord tmp (i + 4)))
        .ok (if loadLong tmp i = 0 then rest else i :: rest)

/-- The second pass, for one entry. The name ends at its first zero byte. -/
def readEntry (tmp : Mem) (iSize i : Nat) : Except Fault DirEntry :=
  let nameLen := (tmp (i + 6)).toNat
  if iSize < i + dirHead + nameLen then .error .outOfBounds
  else .ok ⟨(loadLong tmp i).toNat, (bytesAt tmp (i + dirHead) nameLen).takeWhile (· ≠ 0)⟩

/-- Both passes. The first one ends after at most `i_size` entries or never; `count_dir`
has 16 bits. -/
def readEntries (tmp : Mem) (iSize : Nat) : Except Fault (List DirEntry) := do
  let used ← usedEntries tmp iSize (iSize + 1) 0
  if 2 ^ 16 ≤ used.length then .error .outOfBounds
  else used.mapM (readEntry tmp iSize)

/-- The blocks of a directory, in `tmp`. `io` tells whether the disk serves the reads. -/
def readDir (v : Volume) (ino : Inode) (io : Bool) : Option Mem :=
  if !io then none
  else do
    let stores ← openFile v ino (ino.iMode &&& modeMask)
    let blocks ← (List.range (fileBlocks v ino)).mapM fun k => v.readBlock (ptrDir stores k)
    some fun j => blocks.getD (j / v.dimBlock) (fun _ => 0) (j % v.dimBlock)

/-- The arrays that `Open_Dir` fills, unless they have been freed. -/
abbrev Listing := Option (List DirEntry)

/-- `Open_Dir`: the listing that it leaves, and its result. `tmp` has `i_size` bytes,
and is filled block by block. -/
def openDir (v : Volume) (ino : Inode) (io : Bool) (listing : Listing) :
    Except Fault (Listing × Bool) :=
  if !(isDir ino || isFastSymbolicLink ino) then .ok (listing, false)
  else
    match readDir v ino io with
    | none => .ok (none, false)
    | some tmp =>
        if ino.iSize % v.dimBlock ≠ 0 then .error .outOfBounds
        else do
          let entries ← readEntries tmp ino.iSize
          .ok (some entries, true)

/-- `FindFile`: the inode number of the first entry of this name, or zero. -/
def findFile (listing : List DirEntry) (cmp : Text) : Nat :=
  ((listing.find? fun entry => entry.name = cmp).map DirEntry.inode).getD 0

/-- `EXT2_ROOT_INO`. -/
def rootIno : Nat := 2

/-- A volume, and the inode that `get_inode` returns for a number. -/
structure Fs where
  volume : Volume
  getInode : Nat → Option Inode

/-- `path_ext2`, `level`, `ino_current_dir`, the listing and `mount_ext2`. -/
structure Cwd where
  pathExt2 : Text
  level : Nat
  inoCurrentDir : Nat
  listing : Listing
  mountExt2 : Bool
  deriving DecidableEq

/-- A call of `cd_ext2`: its argument, whether the disk serves the reads of the call
of `Open_Dir` for each component, and whether it serves those of the last one, which
reopens the old directory. -/
structure Cd where
  param : Text
  io : Nat → Bool
  again : Bool

/-- The last part of `init_ext2`. -/
def initExt2 (fs : Fs) (io : Bool) : Except Fault (Option Cwd) :=
  match fs.getInode rootIno with
  | none => .error .outOfBounds
  | some ino => do
      let (listing, ok) ← openDir fs.volume ino io none
      .ok (if ok then some ⟨[], 0, rootIno, listing, true⟩ else none)

/-- Back to the root, for `/` and for `..` at level 1: `ino_current_dir` is left to
the caller. -/
def openRoot (fs : Fs) (io : Bool) (s : Cwd) : Except Fault (Cwd × Bool) :=
  match fs.getInode rootIno with
  | none => .error .outOfBounds
  | some ino => do
      let (listing, ok) ← openDir fs.volume ino io s.listing
      .ok (if ok then ({ s with listing, level := 0, pathExt2 := [] }, true)
        else ({ s with listing, mountExt2 := false }, false))

/-- The path up to its last `/` but one, which the loop looks for from the end of
the path, and not only within it. -/
def cutPath (path : Text) : Except Fault Text :=
  match path.dropLast.reverse.dropWhile (· ≠ slash) with
  | [] => .error .outOfBounds
  | kept => .ok kept.reverse

/-- The update of `path_ext2` and `level` after a component has been opened. -/
def updatePath (elem path : Text) (level : Nat) : Except Fault (Text × Nat) :=
  if elem = dotdot then
    if level = 0 then .ok ([], 0)
    else do
      let path ← cutPath path
      .ok (if level - 1 = 0 then [] else path, level - 1)
  else if 1024 ≤ (path ++ elem ++ [slash]).length then .error .outOfBounds
  else .ok (path ++ elem ++ [slash], level + 1)

/-- One component of the argument. `elem_path` has 256 bytes. -/
def openElem (fs : Fs) (io : Bool) (elem : Text) (s : Cwd) : Except Fault (Cwd × Bool) :=
  if 256 ≤ elem.length then .error .outOfBounds
  else
    match s.listing with
    | none => .error .outOfBounds
    | some listing =>
        let inoDir := findFile listing elem
        if inoDir = 0 then .ok (s, false)
        else
          match fs.getInode inoDir with
          | none => .ok (s, false)
          | some ino =>
              if !(isDir ino || isFastSymbolicLink ino) then .ok (s, false)
              else do
                let (listing, ok) ← openDir fs.volume ino io s.listing
                if ok then
                  let (pathExt2, level) ← updatePath elem s.pathExt2 s.level
                  .ok ({ s with pathExt2, level, listing, inoCurrentDir := inoDir }, true)
                else .ok ({ s with listing }, false)

/-- The loop over the components, up to the first error. -/
def walk (fs : Fs) (io : Nat → Bool) : (k : Nat) → List Text → Cwd → Except Fault (Cwd × Bool)
  | _, [], s => .ok (s, true)
  | k, elem :: rest, s => do
      let (s, ok) ← openElem fs (io k) elem s
      if ok then walk fs io (k + 1) rest s else .ok (s, false)

/-- The values of `elem_path`: a leading `./` and one trailing `/` are left out. -/
def elemPaths (param : Text) : List Text :=
  let iParam := if param.take 2 = dot ++ [slash] then 2 else 0
  let lenParam := if param.getLast? = some slash then param.length - 1 else param.length
  if lenParam < iParam then [] else ((param.take lenParam).drop iParam).splitOn slash

/-- After an error the path, the level and the inode number come from the backup, and
the old directory is opened again. Nothing looks at the result. -/
def restore (fs : Fs) (io : Bool) (backup s : Cwd) : Except Fault Cwd :=
  match fs.getInode backup.inoCurrentDir with
  | none => .error .outOfBounds
  | some ino => do
      let (listing, _) ← openDir fs.volume ino io s.listing
      .ok { backup with listing }

/-- `cd_ext2`: the state after it, and whether it succeeded. With an empty argument it
looks at the byte before it. -/
def cdExt2 (fs : Fs) (cd : Cd) (s : Cwd) : Except Fault (Cwd × Bool) :=
  if !s.mountExt2 then .ok (s, false)
  else if cd.param = dot then .ok (s, true)
  else if cd.param = [slash] then openRoot fs (cd.io 0) s
  else if s.level = 0 ∧ cd.param = dotdot then .ok (s, false)
  else if s.level = 1 ∧ cd.param = dotdot then do
    let (t, ok) ← openRoot fs (cd.io 0) s
    .ok (if ok then { t with inoCurrentDir := rootIno } else t, ok)
  else if cd.param = [] then .error .outOfBounds
  else do
    let (t, ok) ← walk fs cd.io 0 (elemPaths cd.param) s
    if ok then .ok (t, true)
    else do
      let t ← restore fs cd.again s t
      .ok (t, false)

/-- A call of `cd_ext2` that returns. -/
def Changes (fs : Fs) (s : Cwd) (cd : Cd) (t : Cwd) : Prop := ∃ ok, cdExt2 fs cd s = .ok (t, ok)

end OsdevArchive.Minirighi.Ext2
