import OsdevArchive.Lib.ByteBuffer
import OsdevArchive.Silvios.Blocks
import OsdevArchive.Silvios.Mem

/-!
The files and directories of SilviOS (`fs/file.c`, `fs/fopen.c`, `fs/fio.c`, `fs/dir.c` and
`fs/entry.c`). Operations on the memory and on the disk succeed. A variable that nothing has set
holds what its argument says; the cells of a buffer from 512 on are the bytes behind it on
the stack, which nothing else uses. `none` is a walk along a chain that does not end.
-/

namespace OsdevArchive.Silvios

open OsdevArchive.Lib.ByteBuffer

/-- `BYTE_PER_SECTOR`. -/
def bytePerSector : Nat := 512

/-- `sizeof(unsigned int)`. -/
def sizeofUnsignedInt : Nat := 4

/-- `sizeof(struct file_header)`. -/
def sizeofFileHeader : Nat := 56

/-- `struct file_header`. The bytes that no function looks at are `other`. -/
structure FileHeader where
  magicCode : BitVec 16
  other : Buffer
  nextBlock : Block
  size : BitVec 32

/-- The header in memory: `next_block` is at the offset 48, and `size` behind it. -/
def FileHeader.bytes (h : FileHeader) : Buffer :=
  putWord (putWord (fun i => if i < 2 then h.magicCode.extractLsb' (8 * i) 8 else h.other i)
    48 h.nextBlock) 52 h.size

def FileHeader.ofBytes (b : Buffer) : FileHeader where
  magicCode := b 1 ++ b 0
  other := b
  nextBlock := word b 48
  size := word b 52

/-- `DIRECTORY`. -/
def directory : BitVec 32 := 0

/-- `SCONOSCIUTO`. -/
def sconosciuto : BitVec 32 := 3

/-- A name, which fits into `unsigned char name[30]` with its terminating zero. -/
structure Name where
  chars : List Byte
  noZero : 0 ∉ chars
  short : chars.length < 30
deriving DecidableEq

/-- The name `Radice`. -/
def rootName : Name := ⟨[0x52, 0x61, 0x64, 0x69, 0x63, 0x65], by decide, by decide⟩

/-- The name `..`. -/
def parentName : Name := ⟨[0x2E, 0x2E], by decide, by decide⟩

/-- `struct entry`. -/
structure Entry where
  magicCode : BitVec 32
  firstBlock : Block
  name : Name

/-- `struct directory`. The list `elem` starts with the entry of the directory itself. -/
structure Directory where
  header : FileHeader
  self : Entry
  entries : List Entry

def Directory.elem (dir : Directory) : List Entry := dir.self :: dir.entries

/-- The floppy, and the part of `my_disk` that changes. -/
structure Disk where
  vetCluster : VetCluster
  blocks : Block → Buffer

def writeBlock (disk : Disk) (block : Block) (buffer : Buffer) : Disk :=
  { disk with
    blocks := Function.update disk.blocks block
      (copy (disk.blocks block) 0 buffer 0 bytePerSector) }

/-- `read_block(block, &buffer[o], 1)`. -/
def readBlock (disk : Disk) (block : Block) (buffer : Buffer) (o : Nat) : Buffer :=
  copy buffer o (disk.blocks block) 0 bytePerSector

/-! ### Entries -/

/-- `INESISTENTE`. -/
def inesistente : Block := 0

def searchFilename (filename : Name) (elem : List Entry) : Block :=
  match elem.find? fun e => e.name = filename with
  | some e => e.firstBlock
  | none => inesistente

def addEntryToTree (filename : Name) (dir : Directory) (magicCode : BitVec 32) (block : Block) :
    Directory :=
  { dir with entries := dir.entries ++ [⟨magicCode, block, filename⟩] }

/-- The entry of the directory itself is never removed, since `rm_file` does not ask for it. -/
def delEntryToTree (name : Name) (dir : Directory) : Directory :=
  { dir with entries := dir.entries.eraseP fun e => e.name = name }

/-- As many steps as there are block numbers; a longer walk does not end. -/
def walkBound : Nat := 2 ^ 32

/-- The loop of `free_entry_block`. -/
def freeChain (blocks : Block → Buffer) : Nat → VetCluster → Block → Option VetCluster
  | 0, _, _ => none
  | steps + 1, vetCluster, block =>
    if block = 0 then some vetCluster
    else freeChain blocks steps (freeBlock vetCluster block) (word (blocks block) 0)

def freeEntryBlock (disk : Disk) (en : Entry) : Option Disk := do
  let header := FileHeader.ofBytes (disk.blocks en.firstBlock)
  let vetCluster ← freeChain disk.blocks walkBound (freeBlock disk.vetCluster en.firstBlock)
    header.nextBlock
  some { disk with vetCluster := vetCluster }

def rmFile (disk : Disk) (dir : Directory) (filename : Name) : Option (Directory × Disk) :=
  if searchFilename filename dir.elem = inesistente then some (dir, disk)
  else
    match dir.elem.find? fun e => e.name = filename with
    | none => some (dir, disk)
    | some car =>
      if car.name = dir.self.name then some (dir, disk)
      else do
        let disk ← freeEntryBlock disk car
        some (delEntryToTree filename dir, disk)

/-! ### Creating -/

def fillHeader (magicCode : BitVec 32) (other : Buffer) : FileHeader :=
  ⟨magicCode.setWidth 16, other, 0, 0⟩

/-- What a call finds in its variables and in the memory that it gets. -/
structure Unset where
  /-- The fields of a new header that no function looks at. -/
  other : Buffer
  created : Buffer
  buffer : Buffer
  bufferd : Buffer
  dati : Buffer

def create (j : Unset) (disk : Disk) (dir : Directory) (filename : Name) (magicCode : BitVec 32) :
    Directory × Disk :=
  let (block, vetCluster) := getFirstFreeBlock disk.vetCluster
  let disk := { disk with vetCluster := vetCluster }
  let dir := addEntryToTree filename dir magicCode block
  if dir.header.size.toNat ≤ 512 then
    let buffer := copy j.created 0 (fillHeader magicCode j.other).bytes 0 sizeofFileHeader
    (dir, writeBlock disk block buffer)
  else (dir, disk)

/-- `sizeof(struct dir_temp)`. -/
def sizeofDirTemp : Nat := 40

/-- The length of the table of `struct dir_temp` that a block has room for. -/
def dirTempNumber : Nat := (512 - sizeofFileHeader) / sizeofDirTemp

def strcpy (b : Buffer) (o : Nat) (chars : List Byte) : Buffer :=
  copy b o (fun k => chars.getD k 0) 0 (chars.length + 1)

/-- `bufferd[i]` gets the data of an entry. -/
def putDirTemp (bufferd : Buffer) (i : Nat) (e : Entry) : Buffer :=
  strcpy (putWord (putWord bufferd (sizeofDirTemp * i) e.magicCode)
    (sizeofDirTemp * i + 4) e.firstBlock) (sizeofDirTemp * i + 8) e.name.chars

/-- The entries from the `i`-th one on, with a last element whose first block is zero. -/
def putDirTemps (bufferd : Buffer) (i : Nat) : List Entry → Buffer
  | [] => putWord bufferd (sizeofDirTemp * i + 4) 0
  | e :: es => putDirTemps (putDirTemp bufferd i e) (i + 1) es

def writeDir (j : Unset) (disk : Disk) (mydir : Directory) : Disk :=
  if mydir.header.size.toNat ≤ 512 then
    let bufferd := putDirTemps j.bufferd 0 mydir.elem
    let buffer := copy (copy j.buffer 0 mydir.header.bytes 0 sizeofFileHeader)
      (sizeofFileHeader + 1) bufferd 0 (sizeofDirTemp * dirTempNumber)
    writeBlock disk (word bufferd 4) buffer
  else disk

def internalMkDir (j : Unset) (dirname : Name) (block : Block) : Directory :=
  ⟨fillHeader directory j.other, ⟨directory, block, dirname⟩, []⟩

/-- `mk_dir`, with the new directory if there is one, the old one and the disk. -/
def mkDir (j j' : Unset) (disk : Disk) (dirname : Name) (dir : Directory) :
    Option Directory × Directory × Disk :=
  if searchFilename dirname dir.elem ≠ 0 then (none, dir, disk)
  else
    let (block, vetCluster) := getFirstFreeBlock disk.vetCluster
    let disk := { disk with vetCluster := vetCluster }
    let mydir := internalMkDir j dirname block
    let dir := addEntryToTree dirname dir directory block
    let mydir := addEntryToTree parentName mydir directory dir.self.firstBlock
    (some mydir, dir, writeDir j' (writeDir j disk mydir) dir)

/-! ### Open files -/

inductive Mode where
  | readOnly
  | writeOnly
  | append
deriving DecidableEq

/-- `struct file`. -/
structure File where
  header : FileHeader
  dati : Buffer
  firstBlock : Block
  mode : Mode
  pos : Nat
  szBuf : Nat

/-- `while (block != 0)` in `read_only_open`, with the buffer that is at the offset 2 of that of
`fopen`. -/
def readChain (blocks : Block → Buffer) (size : BitVec 32) :
    Nat → VetCluster → Buffer → Buffer → Nat → Block → Option (Buffer × VetCluster)
  | 0, _, _, _, _, _ => none
  | steps + 1, vetCluster, buffer, dati, curSz, block =>
    if block = 0 then some (dati, vetCluster)
    else
      let buffer := copy buffer 2 (blocks block) 0 bytePerSector
      let vetCluster := freeBlock vetCluster block
      let block := word buffer 2
      if block ≠ 0 then
        -- 509 bytes are copied, and 508 of them are counted
        readChain blocks size steps vetCluster buffer
          (copy dati curSz buffer 6 (bytePerSector - sizeofUnsignedInt + 1))
          (curSz + (bytePerSector - sizeofUnsignedInt)) block
      else
        readChain blocks size steps vetCluster buffer
          (copy dati curSz buffer 6 (size - BitVec.ofNat 32 curSz).toNat) curSz block

/-- `read_only_open(myfile, &buffer[57])`, where `dati` is the memory for the data. -/
def readOnlyOpen (disk : Disk) (myfile : File) (buffer dati : Buffer) : Option (File × Disk) :=
  let size := myfile.header.size
  if size.toNat < 512 then
    let dati :=
      if size ≠ 0 then copy dati 0 buffer (sizeofFileHeader + 1) (size.toNat + 1) else dati
    some ({ myfile with dati := dati, pos := 0 }, disk)
  else do
    let first := 512 - sizeofFileHeader - 1
    let dati := copy dati 0 buffer (sizeofFileHeader + 1) first
    let (dati, vetCluster) ← readChain disk.blocks size walkBound disk.vetCluster buffer dati first
      myfile.header.nextBlock
    some ({ myfile with dati := dati, pos := 0 }, { disk with vetCluster := vetCluster })

def appendOpen (disk : Disk) (myfile : File) (buffer dati : Buffer) : Option (File × Disk) := do
  let (myfile, disk) ← readOnlyOpen disk myfile buffer dati
  some ({ myfile with pos := myfile.header.size.toNat, szBuf := 0 }, disk)

/-- `fopen`, with the file if it is not `NULL`, the directory and the disk. -/
def fopen (j : Unset) (disk : Disk) (filename : Name) (mydir : Directory) (mode : Mode) :
    Option (Option File × Directory × Disk) := do
  let (mydir, disk) ←
    if mode = .writeOnly then do
      let (mydir, disk) ← rmFile disk mydir filename
      some (create j disk mydir filename sconosciuto)
    else some (mydir, disk)
  let block := searchFilename filename mydir.elem
  if block = inesistente then some (none, mydir, disk)
  else
    let buffer := readBlock disk block j.buffer 0
    let myfile : File := ⟨FileHeader.ofBytes buffer, j.dati, block, mode, 0, 1000⟩
    match mode with
    | .readOnly => do
      let (myfile, disk) ← readOnlyOpen disk myfile buffer j.dati
      some (some myfile, mydir, disk)
    | .writeOnly => some (some myfile, mydir, disk)
    | .append => do
      let (myfile, disk) ← appendOpen disk myfile buffer j.dati
      some (some myfile, mydir, disk)

/-- `fgetc`; the character is absent where it returns `EOF`. -/
def fgetc (file : File) : Option Byte × File :=
  if file.header.magicCode = 0 then (none, file)
  else if file.mode = .readOnly then
    if file.pos < file.header.size.toNat then
      (some (file.dati file.pos), { file with pos := file.pos + 1 })
    else (none, file)
  else (none, file)

/-- The contents of a block of memory after `realloc`, which keeps it where it is if it fits into
a page. -/
def reallocated (fresh old : Buffer) (size : Nat) : Buffer :=
  if size < dimPage then old else copy fresh 0 old 0 size

def fputc (fresh : Buffer) (c : Byte) (file : File) : Int × File :=
  if file.header.magicCode = 0 then (0, file)
  else if file.mode = .writeOnly ∨ file.mode = .append then
    let file :=
      if file.szBuf = 0 then
        { file with
          szBuf := 1000
          dati := reallocated fresh file.dati (file.header.size.toNat + 1000) }
      else file
    (0, { file with
      dati := Function.update file.dati file.pos c
      pos := file.pos + 1
      szBuf := file.szBuf - 1
      header := { file.header with size := file.header.size + 1 } })
  else (-1, file)

/-! ### Flushing -/

/-- The last block of a file: no block follows it. -/
def flushLast (dati : Buffer) (size : Nat) (disk : Disk) (buffer : Buffer) (block : Block)
    (pdata wrSize : Nat) : Disk :=
  writeBlock disk block
    (copy (putWord buffer 0 0) sizeofUnsignedInt dati pdata (size - wrSize + 1))

/-- `while (wr_size + (512 - sizeof(unsigned int)) < myfile->header.size)` in `fflush`, and what
comes behind it. A round writes a block, so that as many as there are bytes are enough. -/
def flushBlocks (dati : Buffer) (size : Nat) :
    Nat → Disk → Buffer → Block → Nat → Nat → Disk
  | 0, disk, buffer, block, pdata, wrSize => flushLast dati size disk buffer block pdata wrSize
  | rounds + 1, disk, buffer, block, pdata, wrSize =>
    if wrSize + (512 - sizeofUnsignedInt) < size then
      let (succBlock, vetCluster) := getFirstFreeBlock disk.vetCluster
      let buffer := copy (putWord buffer 0 succBlock) sizeofUnsignedInt dati pdata
        (512 - sizeofUnsignedInt)
      flushBlocks dati size rounds
        (writeBlock { disk with vetCluster := vetCluster } block buffer) buffer succBlock
        (pdata + (512 - sizeofUnsignedInt)) (wrSize + (512 - sizeofUnsignedInt))
    else flushLast dati size disk buffer block pdata wrSize

def fflush (disk : Disk) (myfile : File) (buffer : Buffer) : File × Disk :=
  let size := myfile.header.size.toNat
  if size ≤ 512 - sizeofFileHeader then
    let header := { myfile.header with nextBlock := 0 }
    let buffer := copy (copy buffer 0 header.bytes 0 sizeofFileHeader) (sizeofFileHeader + 1)
      myfile.dati 0 (size + 1)
    ({ myfile with header := header }, writeBlock disk myfile.firstBlock buffer)
  else
    let (block, vetCluster) := getFirstFreeBlock disk.vetCluster
    let header := { myfile.header with nextBlock := block }
    let first := 512 - sizeofFileHeader - 1
    let buffer := copy (copy buffer 0 header.bytes 0 sizeofFileHeader) (sizeofFileHeader + 1)
      myfile.dati 0 first
    ({ myfile with header := header },
      flushBlocks myfile.dati size size
        (writeBlock { disk with vetCluster := vetCluster } myfile.firstBlock buffer) buffer block
        first (512 - sizeofFileHeader))

end OsdevArchive.Silvios
