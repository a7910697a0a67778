import Mathlib.Data.Nat.Digits.Lemmas
import OsdevArchive.Cheapos.Fat12Mount
import OsdevArchive.Cheapos.FileTable

/-!
The formatted strings of cheapos (`kstring.c`): what `ksprint` writes in front of the
terminator. The arguments are the bytes of the stack behind the format.
-/

namespace OsdevArchive.Cheapos.Kstring

open FileTable

/-- The code of a character of a string literal. -/
def ascii (c : Char) : Byte := .ofNat 8 c.toNat

/-- The `unsigned int` or `unsigned long` in four bytes. -/
def dword (bytes : Nat → Byte) (i : Nat) : BitVec 32 :=
  bytes (i + 3) ++ bytes (i + 2) ++ bytes (i + 1) ++ bytes i

/-- What is in `tmpstrg`, the last digit first: the loop ends when nothing is left. -/
def cifre (base : Nat) : Nat → Nat → List Nat
  | 0, _ => []
  | k + 1, tmpulong =>
      tmpulong % base :: if 1 ≤ tmpulong / base then cifre base k (tmpulong / base) else []

def cifra (d : Nat) : Byte := if d < 10 then .ofNat 8 (48 + d) else .ofNat 8 (55 + d)

/-- `%d` and `%x` with the width; `tmpstrg` has sixteen cells. -/
def numero (base larghezza tmpulong : Nat) : List Byte :=
  let tmpstrg := (cifre base 16 tmpulong).map cifra
  (tmpstrg ++ List.replicate (larghezza - tmpstrg.length) (ascii '0')).reverse

/-- Where `ksprint` is in the format: in the text, behind a `%`, behind the width. -/
inductive Stato
  | testo
  | percento
  | larghezza (n : Nat)

/-- One conversion: its text, and the arguments behind the one that it took. -/
def converti (stringhe : BitVec 32 → List Byte) (larghezza : Nat) (c : Char)
    (argomenti : Nat → Byte) : List Byte × (Nat → Byte) :=
  if c = 'd' then
    (numero 10 larghezza (dword argomenti 0).toNat, fun k => argomenti (k + 4))
  else if c = 'x' then
    (numero 16 larghezza (dword argomenti 0).toNat, fun k => argomenti (k + 4))
  else if c = 's' then (stringhe (dword argomenti 0), fun k => argomenti (k + 4))
  else if c = 'c' then ([argomenti 0], fun k => argomenti (k + 1))
  else ([ascii '?'], argomenti)

/-- The loop over the format with what it has written; `stringhe` is the string at an
address. A format that ends in a conversion is not followed any further. -/
def ksprintGo (stringhe : BitVec 32 → List Byte) :
    List Char → Stato → (Nat → Byte) → List Byte → List Byte
  | [], .testo, _, buffer => buffer
  | [], _, _, buffer => buffer ++ [ascii '?']
  | c :: stringa, .testo, argomenti, buffer =>
      if kstrngLung ≤ buffer.length then buffer
      else if c = '%' then ksprintGo stringhe stringa .percento argomenti buffer
      else ksprintGo stringhe stringa .testo argomenti (buffer ++ [ascii c])
  | c :: stringa, .percento, argomenti, buffer =>
      if '0' ≤ c ∧ c ≤ '9' then
        ksprintGo stringhe stringa (.larghezza (c.toNat - '0'.toNat)) argomenti buffer
      else
        let (testo, argomenti) := converti stringhe 0 c argomenti
        ksprintGo stringhe stringa .testo argomenti ((buffer ++ testo).take kstrngLung)
  | c :: stringa, .larghezza n, argomenti, buffer =>
      let (testo, argomenti) := converti stringhe n c argomenti
      ksprintGo stringhe stringa .testo argomenti ((buffer ++ testo).take kstrngLung)

/-- `ksprint`; the terminator behind the text is not counted. -/
def ksprint (stringhe : BitVec 32 → List Byte) (stringa : List Char)
    (argomenti : Nat → Byte) : List Byte :=
  ksprintGo stringhe stringa .testo argomenti []

/-- A character that is passed as an `int`. -/
def charArg (c : Byte) (k : Nat) : Byte := if k = 0 then c else 0

/-- A number that is passed as an `unsigned int`. -/
def longArg (n : BitVec 32) (k : Nat) : Byte := n.extractLsb' (8 * k) 8

/-! ### Numbers -/

/-- The decimal form of a number, with zeros in front up to a width. -/
def decimale (larghezza n : Nat) : List Byte :=
  List.replicate (larghezza - (Nat.digits 10 n).length) (ascii '0') ++
    (Nat.digits 10 n).reverse.map cifra

variable {stringhe : BitVec 32 → List Byte} {larghezza n : Nat}

theorem dword_longArg (n : BitVec 32) : dword (longArg n) 0 = n := by
  apply BitVec.eq_of_getLsbD_eq
  intro i hi
  simp only [dword, longArg, BitVec.getLsbD_append, BitVec.getLsbD_extractLsb']
  grind

theorem cifre_eq_digits {k : Nat} (hpos : 0 < n) (hn : n < 10 ^ k) :
    cifre 10 k n = Nat.digits 10 n := by
  induction k generalizing n with
  | zero => omega
  | succ k ih =>
    rw [cifre, Nat.digits_def' (by omega) hpos]
    split
    · rename_i hmore
      rw [ih hmore]
      rw [Nat.pow_succ] at hn
      exact Nat.div_lt_of_lt_mul (by omega)
    · rename_i hlast
      rw [Nat.lt_one_iff.mp (Nat.lt_of_not_le hlast), Nat.digits_zero]

/-- The digits that `ksprint` writes are those of the number. -/
theorem numero_eq_decimale (hlarghezza : 1 ≤ larghezza) (hn : n < 10 ^ 16) :
    numero 10 larghezza n = decimale larghezza n := by
  rcases Nat.eq_zero_or_pos n with rfl | hpos
  · obtain ⟨w, rfl⟩ := Nat.exists_eq_succ_of_ne_zero (Nat.ne_of_gt hlarghezza)
    have hzero : cifre 10 16 0 = [0] := rfl
    simp only [numero, decimale, hzero, Nat.digits_zero, List.map_cons, List.map_nil,
      List.length_cons, List.length_nil, List.reverse_append, List.reverse_replicate,
      List.reverse_nil, List.append_nil, Nat.sub_zero, Nat.zero_add, Nat.succ_sub_one]
    exact List.replicate_succ'.symm
  · rw [numero, cifre_eq_digits hpos hn, decimale]
    simp only [List.length_map, List.reverse_append, List.reverse_replicate, List.map_reverse]

theorem digits_length_le {k : Nat} (hn : n < 10 ^ k) : (Nat.digits 10 n).length ≤ k :=
  (Nat.digits_length_le_iff (by omega) n).mpr hn

theorem decimale_length :
    (decimale larghezza n).length = max larghezza (Nat.digits 10 n).length := by
  simp only [decimale, List.length_append, List.length_replicate, List.length_map,
    List.length_reverse]
  omega

theorem mem_decimale {b : Byte} (h : b ∈ decimale larghezza n) : 48 ≤ b.toNat ∧ b.toNat ≤ 57 := by
  obtain hzero | hdigit := List.mem_append.mp h
  · obtain rfl := List.eq_of_mem_replicate hzero
    decide
  · obtain ⟨d, hd, rfl⟩ := List.mem_map.mp hdigit
    have hlt : d < 10 := Nat.digits_lt_base (by omega) (List.mem_reverse.mp hd)
    rw [cifra, if_pos hlt, BitVec.toNat_ofNat, Nat.mod_eq_of_lt (by omega)]
    omega

/-! ### The formats -/

theorem ksprint_char (c : Byte) : ksprint stringhe ['%', 'c'] (charArg c) = [c] := rfl

theorem ksprint_tab_char (c : Byte) :
    ksprint stringhe ['\t', '%', 'c'] (charArg c) = [ascii '\t', c] := rfl

/-- What is not a conversion is copied. -/
theorem ksprintGo_testo {stringa : List Char} {argomenti : Nat → Byte} {buffer : List Byte}
    (hpercento : '%' ∉ stringa) (hroom : buffer.length + stringa.length ≤ kstrngLung) :
    ksprintGo stringhe stringa .testo argomenti buffer = buffer ++ stringa.map ascii := by
  induction stringa generalizing buffer with
  | nil => rw [ksprintGo, List.map_nil, List.append_nil]
  | cons c stringa ih =>
    rw [List.length_cons] at hroom
    have hc : c ≠ '%' := fun h => hpercento (h ▸ List.mem_cons_self)
    rw [ksprintGo, if_neg (by omega), if_neg hc, ih (mt (List.mem_cons_of_mem c) hpercento),
      List.append_assoc]
    · rfl
    · rw [List.length_append, List.length_singleton]
      omega

theorem ksprint_lit {c : Char} {argomenti : Nat → Byte} (hc : '%' ≠ c) :
    ksprint stringhe [c] argomenti = [ascii c] :=
  ksprintGo_testo (mt List.mem_singleton.mp hc) (show 1 ≤ kstrngLung by decide)

theorem ksprint_bytes (n : BitVec 32) :
    ksprint stringhe ['\t', '%', '6', 'd', ' ', 'b', 'y', 't', 'e', 's'] (longArg n) =
      ascii '\t' :: decimale 6 n.toNat ++ [' ', 'b', 'y', 't', 'e', 's'].map ascii := by
  have hn : n.toNat < 10 ^ 10 := Nat.lt_trans n.isLt (by decide)
  have hlength : (decimale 6 n.toNat).length ≤ 10 := by
    rw [decimale_length]
    exact Nat.max_le.mpr ⟨by decide, digits_length_le hn⟩
  -- the conversion has been made, and the rest is text
  have hstart : ksprint stringhe ['\t', '%', '6', 'd', ' ', 'b', 'y', 't', 'e', 's'] (longArg n) =
      ksprintGo stringhe [' ', 'b', 'y', 't', 'e', 's'] .testo (fun k => longArg n (k + 4))
        ((ascii '\t' :: numero 10 6 (dword (longArg n) 0).toNat).take kstrngLung) := rfl
  have hnumero : numero 10 6 n.toNat = decimale 6 n.toNat := by
    apply numero_eq_decimale (by decide)
    exact Nat.lt_trans hn (by decide)
  have hwhole : (ascii '\t' :: decimale 6 n.toNat).length ≤ 11 := by
    rw [List.length_cons]
    omega
  rw [hstart, dword_longArg, hnumero, List.take_of_length_le (Nat.le_trans hwhole (by decide))]
  apply ksprintGo_testo (by decide)
  exact Nat.le_trans (Nat.add_le_add_right hwhole _) (by decide)

end OsdevArchive.Cheapos.Kstring

/-!
Opening a path of a FAT12 volume in cheapos (`fat12_open` of `fs_fat12.c`). The path is
followed from the root, each directory loaded over the one before it; a path that ends with
a backslash stands for the directory, and its listing is printed into the buffer that holds
the entries.
-/

namespace OsdevArchive.Cheapos.Fat12Open

open Fat12Mount Kstring

/-- `FAT12_IMG_SIZE`. -/
def fat12ImgSize : Nat := 128 * 1024

/-- What the driver reads of a `fat12_FileEntry_t`. -/
structure FileEntry where
  name : Fin 8 → Byte
  extension : Fin 3 → Byte
  attributes : Byte
  startCluster : Nat
  fileLenght : BitVec 32

/-- `Name[0]`, which marks a deleted entry and the end of a directory. -/
def FileEntry.name0 (e : FileEntry) : Byte := e.name 0

/-- A `fat12_session_t`; `image` is the memory from the buffer on, also behind its end. -/
structure Session where
  directory : Bool
  size : Nat
  cursore : Nat
  image : Nat → Byte

/-- A mounted volume with what is on the disk. -/
structure Floppy where
  volume : Volume
  rootEntCnt : Nat
  disk : Nat → Byte

/-- The entry at an address of the buffer. -/
def fileEntry (image : Nat → Byte) (a : Nat) : FileEntry where
  name j := image (a + j)
  extension j := image (a + 8 + j)
  attributes := image (a + 11)
  startCluster := word (image (a + 26)) (image (a + 27))
  fileLenght := dword image (a + 28)

/-- `FATIMGDIR[i]`. -/
def fatImgDir (image : Nat → Byte) (i : Nat) : FileEntry := fileEntry image (32 * i)

/-! ### Directories and files on the disk -/

def fat12IsUserData (cluster : Nat) : Bool := 0x001 < cluster && cluster < 0xFF7

def fat12IsEndMark (cluster : Nat) : Bool := 0xFF7 < cluster && cluster < 0x1000

/-- A character of a path against a byte of an entry; the first is signed, the second is
not. -/
def uguale (c : Byte) (b : Byte) : Bool := c.toNat < 128 && c == b

/-- The comparison of `fat12_findindir` from byte `i` of the entry at `a` on: where in the
entry the name ends, if it is the same. The list is the memory from the name on, with zeros
behind it: at a dot that ends the name, the terminator is compared and the loop goes on
behind it. -/
def confronta (image : Nat → Byte) (a : Nat) : List Byte → Nat → Option Nat
  | [], i => some i
  | c :: nomefile, i =>
      if c = 0 then some i
      else if c = ascii '.' then
        match nomefile with
        | [] => if uguale 0 (image (a + 8)) then some 9 else none
        | d :: nomefile => if uguale d (image (a + 8)) then confronta image a nomefile 9 else none
      else if uguale c (image (a + i)) then confronta image a nomefile (i + 1)
      else none

/-- The loop of `fat12_findindir` over the entries from `entrynum` on. -/
def fat12Findindir (dirImg : Nat → Byte) (nomefile : List Byte) : Nat → Nat → Option Nat
  | 0, _ => none
  | entries + 1, entrynum =>
      let entry := fatImgDir dirImg entrynum
      if entry.name0 = 0 then none
      else if entry.name0 ≠ 0xE5 ∧ entry.attributes ≠ 0x0F ∧
          (confronta dirImg (32 * entrynum) nomefile 0).any fun i =>
            dirImg (32 * entrynum + i) == ascii ' ' || 11 < i then
        some entrynum
      else fat12Findindir dirImg nomefile entries (entrynum + 1)

namespace Floppy

variable (f : Floppy)

/-- `floppy_read` of some sectors, which is tried until it succeeds. -/
def floppyRead (sector sectors buffer : Nat) (image : Nat → Byte) (k : Nat) : Byte :=
  if buffer ≤ k ∧ k < buffer + 512 * sectors then f.disk (512 * sector + (k - buffer)) else image k

/-- The loop of `fat12_loadfiledir`: how many sectors it has loaded when it meets what is no
data cluster. No chain without a cycle is longer than the table. -/
def loadChain : Nat → Nat → Nat → (Nat → Byte) → Option (Nat × Nat × (Nat → Byte))
  | 0, _, _, _ => none
  | fuel + 1, startcluster, i, image =>
      if fat12IsUserData startcluster then
        loadChain fuel (fat12Nextcluster f.volume startcluster) (i + 1)
          (f.floppyRead (f.volume.datiStartcluster.toNat + startcluster) 1 (512 * i) image)
      else some (startcluster, i, image)

/-- `fat12_loadfiledir`: what it returns, and the buffer. For the root it returns a number of
sectors, otherwise one of bytes; `none` is a chain with a cycle. -/
def fat12Loadfiledir (startcluster : Nat) (image : Nat → Byte) : Option (Int × (Nat → Byte)) :=
  if startcluster = 0 then
    let sectors := f.rootEntCnt * 32 / 512
    some (sectors, f.floppyRead f.volume.rootdirStartcluster.toNat sectors 0 image)
  else do
    let (last, i, image) ← f.loadChain 4096 startcluster 0 image
    some (if fat12IsEndMark last then (i * 512 : Nat) else -1, image)

/-- The branch of `fat12_open` for a name with a backslash behind it. The attribute test reads
`!Attributes & 0x10` and lets every entry through. -/
def scendi (s : Session) (buffer : List Byte) : Option Session := do
  let opt ← fat12Findindir s.image buffer (s.size / 32) 0
  if s.size > fat12ImgSize then none
  else
    let (size, image) ← f.fat12Loadfiledir (fatImgDir s.image opt).startCluster s.image
    some { directory := true, cursore := 0, size := (size % 2 ^ 32).toNat, image := image }

/-- The branch for the last name of a path. -/
def mappaFile (s : Session) (buffer : List Byte) : Option Session := do
  let opt ← fat12Findindir s.image buffer (s.size / 32) 0
  let entry := fatImgDir s.image opt
  if entry.attributes &&& 0x10 ≠ 0 then none
  else if entry.fileLenght.toNat > fat12ImgSize then none
  else
    let (size, image) ← f.fat12Loadfiledir entry.startCluster s.image
    if size < 0 then none
    else some { directory := false, cursore := 0, size := entry.fileLenght.toNat, image := image }

/-- The tokens of a path, with the one that is being gathered: the session when the path ends,
and what stands behind its last backslash. -/
def segui : Session → List Byte → List Byte → Option (Session × List Byte)
  | s, buffer, [] => some (s, buffer)
  | s, buffer, c :: nomefile =>
      if c = ascii '\\' then do
        let s ← f.scendi s buffer
        segui s [] nomefile
      else if buffer.length + 1 < 24 then segui s (buffer ++ [c]) nomefile
      else none

/-- The root directory, over what was in the memory of the session. -/
def radice (old : Nat → Byte) : Option Session := do
  let (_, image) ← f.fat12Loadfiledir 0 old
  some { directory := true, cursore := 0, size := f.rootEntCnt * 32, image := image }

/-- Where a path leads, behind its first backslash. -/
def percorso (old : Nat → Byte) (nomefile : List Byte) : Option (Session × List Byte) := do
  let s ← f.radice old
  f.segui s [] nomefile

end Floppy

/-! ### The listing -/

/-- The memory with a text and its terminator. -/
def writeText (image : Nat → Byte) (a : Nat) (text : List Byte) (k : Nat) : Byte :=
  if k < a then image k else (text ++ [0])[k - a]?.getD (image k)

namespace FileEntry

def Flag (e : FileEntry) (bit : Byte) : Prop := e.attributes &&& bit ≠ 0

instance decidableFlag (e : FileEntry) (bit : Byte) : Decidable (e.Flag bit) :=
  inferInstanceAs (Decidable (_ ≠ _))

end FileEntry

namespace Session

/-- `cursore += ksprint(&image[cursore], ..)`; no format of the listing holds a string. -/
def print (s : Session) (stringa : List Char) (argomenti : Nat → Byte) : Session :=
  let text := ksprint (fun _ => []) stringa argomenti
  { s with image := writeText s.image s.cursore text, cursore := s.cursore + text.length }

/-- The eight characters of the name; the first blank in that of a directory becomes a
backslash. -/
def printName (aux : FileEntry) : List (Fin 8) → Bool → Session → Session
  | [], _, s => s
  | j :: js, optbool, s =>
      if aux.Flag 0x10 ∧ aux.name j = ascii ' ' ∧ optbool then
        printName aux js false (s.print ['\\'] (charArg 0))
      else printName aux js optbool (s.print ['%', 'c'] (charArg (aux.name j)))

/-- One letter for an attribute. -/
def printFlag (aux : FileEntry) (stringa : List Char) (bit : Byte) (letter : Char)
    (s : Session) : Session :=
  s.print stringa (charArg (ascii (if aux.Flag bit then letter else '-')))

/-- The line of an entry. -/
def printEntry (aux : FileEntry) (s : Session) : Session :=
  let s := printName aux (List.finRange 8) true s
  let s := if aux.Flag 0x10 then s else s.print ['.'] (charArg 0)
  let s := (List.finRange 3).foldl (fun s j => s.print ['%', 'c'] (charArg (aux.extension j))) s
  let s := if aux.Flag 0x10 then s.print [' '] (charArg 0) else s
  let s := s.printFlag aux ['\t', '%', 'c'] 0x10 'D'
  let s := s.printFlag aux ['%', 'c'] 0x01 'R'
  let s := s.printFlag aux ['%', 'c'] 0x02 'S'
  let s := s.printFlag aux ['%', 'c'] 0x04 'H'
  let s := s.printFlag aux ['%', 'c'] 0x08 'V'
  let s := if aux.Flag 0x10 then s else
    s.print ['\t', '%', '6', 'd', ' ', 'b', 'y', 't', 'e', 's'] (longArg aux.fileLenght)
  s.print ['\n'] (charArg 0)

/-- The loop over the entries from `i` on. Each entry is read out of the buffer that the lines
are printed into. -/
def printEntries : Nat → Nat → Session → Session
  | 0, _, s => s
  | entries + 1, i, s =>
      let aux := fatImgDir s.image i
      let finedir := aux.name0 = 0
      let s := if aux.name0 ≠ 0xE5 ∧ aux.name0 ≠ 0 ∧ aux.name0 ≠ ascii '.' ∧
        aux.attributes ≠ 0x0F then s.printEntry aux else s
      if finedir then s else printEntries entries (i + 1) s

/-- The branch of `fat12_open` for a path that ends with a backslash. The size is unsigned. -/
def mappaDir (s : Session) : Session :=
  let s' := printEntries (s.size / 32) 0 { s with cursore := 0 }
  { s' with size := (s'.cursore + (2 ^ 32 - 1)) % 2 ^ 32, cursore := 0 }

end Session

/-- `fat12_open`, with whether the volume is mounted and there is memory for the session, and
with what that memory holds. `none` stands for `return FALSE` and for a chain with a cycle. -/
def fat12Open (montato : Option Floppy) (space : Bool) (old : Nat → Byte) :
    List Byte → Option Session
  | [] => none
  | c :: nomefile => do
    let f ← montato
    if c ≠ ascii '\\' then none
    else if space = false then none
    else
      let (s, buffer) ← f.percorso old nomefile
      if buffer = [] then some s.mappaDir else f.mappaFile s buffer

end OsdevArchive.Cheapos.Fat12Open
