import OsdevArchive.Lib.ByteBuffer

/-!
The loading of files in ItaliOs3 (`fs/fat.cc`), from a floppy with a FAT of 12 bits. Ranges of
the disk are read exactly; `none` stands for a range behind the end of the disk, a path that does
not fit in its buffer, and loops that have not ended yet.
-/

namespace OsdevArchive.ItaliOs3.Fat

open OsdevArchive.Lib.ByteBuffer

/-- The fields of `fat_boot_sector` that `init_fat` reads. -/
structure FatBootSector where
  sectorSize : Nat
  clusterSize : Nat
  reserved : Nat
  fats : Nat
  dirEntries : Nat
  fatLength : Nat

structure Disco where
  rootDir : Nat
  rootDirSize : Nat
  clusterBytes : Nat
  firstDataByte : Nat
  fatPos : Nat

/-- `sizeof(struct msdos_dir_entry)`. -/
def dirEntrySize : Nat := 32

def initFat (boot : FatBootSector) : Disco :=
  let rootDir := (boot.reserved + boot.fats * boot.fatLength) * boot.sectorSize
  { rootDir := rootDir
    rootDirSize := boot.dirEntries
    clusterBytes := boot.clusterSize * boot.sectorSize
    firstDataByte := rootDir + boot.dirEntries * dirEntrySize
    fatPos := boot.reserved * boot.sectorSize }

/-- A disk of `size` bytes, with its boot sector. -/
structure Disk where
  bytes : Nat → Byte
  size : Nat
  boot : FatBootSector

namespace Disk

/-- The descriptor that `init_fat` makes. -/
def d (disk : Disk) : Disco := initFat disk.boot

end Disk

def leggiFloppy (disk : Disk) (vpos lung : Nat) : Option (List Byte) :=
  if vpos + lung ≤ disk.size then some ((List.range' vpos lung).map disk.bytes) else none

/-! ### Clusters -/

def nextCluster (disk : Disk) (cluster : Nat) : Option Nat := do
  let dCluster ← leggiFloppy disk (disk.d.fatPos + cluster / 2 * 3) 3
  let byte (i : Nat) : Nat := (dCluster.getD i 0).toNat
  let nuovoCluster :=
    if cluster % 2 ≠ 0 then (byte 1 >>> 4 &&& 0xf) ||| (byte 2 <<< 4 &&& 0xff0)
    else (byte 1 <<< 8 &&& 0xf00) ||| (byte 0 &&& 0xff)
  some (if nuovoCluster = 0xfff then 0 else nuovoCluster)

def clusterByte (disk : Disk) (cluster : Nat) : Nat :=
  if cluster < 2 then 0
  else ((cluster - 2) * disk.d.clusterBytes + disk.d.firstDataByte) % 2 ^ 32

/-! ### Directory entries -/

/-- A `msdos_dir_entry`: 32 bytes, read by their offsets. -/
abbrev DirEntry := List Byte

namespace DirEntry

variable (dir : DirEntry)

def name : List Byte := List.take 8 dir

def ext : List Byte := List.take 3 (List.drop 8 dir)

def attr : Byte := List.getD dir 11 0

def start : Nat := (List.getD dir 26 0).toNat + (List.getD dir 27 0).toNat * 256

/-- `dir.name[0] == 0`. -/
def Last : Prop := List.getD dir 0 0 = 0

instance instDecidableLast : Decidable (Last dir) := inferInstanceAs (Decidable (_ = _))

/-- `ATTR_DIR`. -/
def IsDir : Prop := (attr dir).getLsbD 4 = true

instance instDecidableIsDir : Decidable (IsDir dir) := inferInstanceAs (Decidable (_ = _))

end DirEntry

def slash : Byte := 0x2F

def dot : Byte := 0x2E

def space : Byte := 0x20

def tolower (c : Byte) : Byte := if 0x41 ≤ c ∧ c ≤ 0x5A then c ^^^ 0x20 else c

/-- The characters of an array up to the first zero. -/
def cString (array : List Byte) : List Byte := array.takeWhile fun c => decide (c ≠ 0)

/-- `strcasecmp` gives zero. -/
def strcasecmp : List Byte → List Byte → Bool
  | [], [] => true
  | s :: ss, d :: ds =>
    if s ≠ d then if tolower s ≠ tolower d then false else strcasecmp ss ds
    else strcasecmp ss ds
  | _, _ => false

/-- A name with spaces up to `n` characters. -/
def pad (n : Nat) (nome : List Byte) : List Byte := nome ++ List.replicate (n - nome.length) space

/-- What a file is looked for as: where the first dot is among the first 8 characters, the name
in front of it is padded and three characters behind it are kept. -/
def analizzareFile (nome : List Byte) : List Byte :=
  let i := (nome.takeWhile fun c => decide (c ≠ dot)).length
  if i < 8 ∧ i < nome.length then pad 8 (nome.take i) ++ dot :: (nome.drop (i + 1)).take 3
  else nome

/-- What a directory is looked for as. -/
def analizzareDir (pezzo : List Byte) : List Byte := pad 8 pezzo

def nomeFile (dir : DirEntry) : List Byte :=
  cString (DirEntry.name dir ++ dot :: DirEntry.ext dir)

def nomeDir (dir : DirEntry) : List Byte := cString (DirEntry.name dir)

def leggiDir (disk : Disk) (pos : Nat) : Option DirEntry := leggiFloppy disk pos dirEntrySize

/-- The loops over the entries from `pos` on; the first one that is accepted is found. -/
def cercaEntry (disk : Disk) (accept : DirEntry → Bool) : Nat → Nat → Option (Option DirEntry)
  | 0, _ => none
  | rounds + 1, pos => do
    let dir ← leggiDir disk pos
    let pos := (pos + dirEntrySize) % 2 ^ 32
    if DirEntry.Last dir then some none
    else if accept dir then some (some dir)
    else cercaEntry disk accept rounds pos

/-- The test for a file. -/
def acceptFile (nome : List Byte) (dir : DirEntry) : Bool :=
  strcasecmp (nomeFile dir) (analizzareFile nome)

/-- The test for a directory. -/
def acceptDir (pezzo : List Byte) (dir : DirEntry) : Bool :=
  decide (DirEntry.IsDir dir) && strcasecmp (nomeDir dir) (analizzareDir pezzo)

/-- `trova_file`, which calls itself less often than its path has characters. A search takes
fewer rounds than the disk has bytes. -/
def trovaFile (disk : Disk) : Nat → List Byte → Nat → Option Nat
  | 0, _, _ => none
  | depth + 1, nome, pos =>
    if 100 ≤ nome.length then none
    else
      let pezzo := nome.takeWhile fun c => decide (c ≠ slash)
      if pezzo.length = nome.length then
        (cercaEntry disk (acceptFile nome) disk.size pos).map fun found =>
          (found.map DirEntry.start).getD 0
      else do
        match ← cercaEntry disk (acceptDir pezzo) disk.size pos with
        | none => some 0
        | some dir =>
          trovaFile disk depth (nome.drop (pezzo.length + 1))
            (clusterByte disk (DirEntry.start dir))

/-! ### Files -/

/-- `leggi_file` with the length and the bytes in the buffer so far. -/
def leggiFile (disk : Disk) : Nat → Nat → Nat → List Byte → Option (Nat × List Byte)
  | 0, _, _, _ => none
  | rounds + 1, cluster, lung, buffer => do
    let npos := clusterByte disk cluster
    let data ← leggiFloppy disk npos 512
    let lung := (lung + 512) % 2 ^ 32
    let cluster ← nextCluster disk cluster
    if cluster ≠ 0 then leggiFile disk rounds cluster lung (buffer ++ data)
    else some (lung, buffer ++ data)

/-- The loop of `dim_file`. -/
def dimChain (disk : Disk) : Nat → Nat → Nat → Option Nat
  | 0, _, _ => none
  | rounds + 1, cluster, lung => do
    let lung := (lung + 512) % 2 ^ 32
    let cluster ← nextCluster disk cluster
    if cluster ≠ 0 then dimChain disk rounds cluster lung else some lung

/-- `dim_file`, where `rounds` is for the loop over the clusters. -/
def dimFile (disk : Disk) (rounds : Nat) (nome : List Byte) : Option Nat := do
  let cluster ← trovaFile disk (nome.length + 1) nome disk.d.rootDir
  if cluster ≠ 0 then dimChain disk rounds cluster 0 else some 0

/-- `carica_file`: its result, and the bytes that it has written to the buffer. -/
def caricaFile (disk : Disk) (rounds : Nat) (nome : List Byte) :
    Option (Nat × List Byte) := do
  let inizio ← trovaFile disk (nome.length + 1) nome disk.d.rootDir
  if inizio ≠ 0 then leggiFile disk rounds inizio 0 [] else some (0, [])

end OsdevArchive.ItaliOs3.Fat
