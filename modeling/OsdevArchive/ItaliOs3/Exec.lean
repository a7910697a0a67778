import OsdevArchive.Lib.ByteBuffer
import Mathlib.Logic.Function.Basic

/-!
The loading of modules in ItaliOs3 (`main/exec.cc`): `parser` moves the `NOBITS` section of an
ELF image and relocates the words that its `REL` sections list. The headers, the symbols and the
entries are read as tables, beside the bytes of the memory that are relocated. `none` stands for
a buffer that overflows, a table that is not there, and the loop that the kernel stops in.
-/

namespace OsdevArchive.ItaliOs3

open OsdevArchive.Lib.ByteBuffer

abbrev Dword := BitVec 32

/-- `elf_sect_t`, with the name that `sect_name` is the place of. -/
structure ElfSect where
  sectName : String
  type : Nat
  offset : Dword
  size : Nat
  info : Nat
  entSize : Nat

/-- `elf_sym_t`, with its name. -/
structure ElfSym where
  name : String
  value : Dword
  inSection : Nat

/-- `elf_reloc_t`. -/
structure ElfReloc where
  addr : Dword
  info : Nat

/-- An image in memory: its address, its header, and its tables. -/
structure Image where
  image : Dword
  magic : List Nat
  bitness : Nat
  fileType : Nat
  numSects : Nat
  sections : Nat → ElfSect
  symtab : Nat → ElfSym
  rel : Nat → Nat → ElfReloc

/-- `symbol`. -/
structure Symbol where
  nome : String
  addr : Dword

structure Oggetto where
  nome : String
  addr : Dword
  type : Nat
  valore : Dword

/-- `strcpy` to a buffer of `dim` bytes. -/
def strcpy (dim : Nat) (str : String) : Option String :=
  if str.length < dim then some str else none

/-! ### Sections -/

def cercaSezione (nome : String) (img : Image) : Option Nat :=
  (List.range img.numSects).find? fun i => (img.sections i).sectName = nome

def indirizzoSezione (img : Image) (i : Nat) : Dword := img.image + (img.sections i).offset

def cambiaIndirizzoSezione (img : Image) (newAddr : Dword) (sezione : Nat) : Image :=
  { img with
    sections := Function.update img.sections sezione
      { img.sections sezione with offset := newAddr - img.image } }

/-- `elenco_rel`. -/
def elencoRel (img : Image) : List Nat :=
  (List.range img.numSects).filter fun i => (img.sections i).type = 9

/-! ### Symbols -/

def indirizzoSimbolo (i : Nat) (img : Image) : Option Dword := do
  let _ ← cercaSezione ".symtab" img
  let simbolo := img.symtab i
  if simbolo.inSection = 0xFFF1 then some 0
  else if simbolo.inSection = 0xFFF2 then some (img.image + simbolo.value)
  else some (indirizzoSezione img simbolo.inSection + simbolo.value)

def valoreSimbolo (i : Nat) (img : Image) : Option Dword := do
  let _ ← cercaSezione ".symtab" img
  some (img.symtab i).value

/-- `nome_simbolo`, where `str` has `dim` bytes. -/
def nomeSimbolo (i : Nat) (img : Image) (dim : Nat) : Option String := do
  let _ ← cercaSezione ".symtab" img
  let _ ← cercaSezione ".strtab" img
  strcpy dim (img.symtab i).name

def indirizzoFunzione (funcTable : List Symbol) (sect : Nat) (img : Image) : Option Dword := do
  let _ ← cercaSezione ".symtab" img
  if (img.symtab sect).inSection = 0 then do
    let nome ← nomeSimbolo sect img 1000
    let f ← funcTable.find? fun f => nome = f.nome
    some f.addr
  else do
    let valore ← valoreSimbolo sect img
    some (indirizzoSezione img 1 + valore)

/-! ### Relocation -/

def cercaSimboloRilocabile (funcTable : List Symbol) (indice sezione : Nat) (img : Image) :
    Option Oggetto := do
  let oggRel := img.rel sezione indice
  let useSec := (img.sections sezione).info
  let symSect := oggRel.info / 2 ^ 8
  let str ← nomeSimbolo symSect img 50
  let nome ← strcpy 15 str
  let addr := indirizzoSezione img useSec + oggRel.addr
  let type := oggRel.info % 2 ^ 8
  let valore ← if type = 1 then indirizzoSimbolo symSect img
    else indirizzoFunzione funcTable symSect img
  some ⟨nome, addr, type, valore⟩

def numeroOggettiRilocabili (sezione : Nat) (img : Image) : Option Nat :=
  if (img.sections sezione).entSize = 0 then none
  else some ((img.sections sezione).size / (img.sections sezione).entSize)

def riloca (myobj : Oggetto) (mem : Buffer) : Buffer :=
  let old := word mem myobj.addr.toNat
  if myobj.type = 1 then putWord mem myobj.addr.toNat (old + myobj.valore)
  else if myobj.type = 2 then putWord mem myobj.addr.toNat (old + (myobj.valore - myobj.addr))
  else mem

/-- The image, the memory, and the blocks that `calloc` has given it, with their lengths. -/
structure Loaded where
  img : Image
  mem : Buffer
  blocks : List (Dword × Nat)

/-- The first loop of `parser`, over the sections that are left; the number of the bytes that
`calloc` is called for decides on their address. -/
def spostaSezioni (calloc : Nat → Dword) : List Nat → Loaded → Loaded
  | [], s => s
  | i :: sects, s =>
    let sect := s.img.sections i
    if sect.type ≠ 8 then spostaSezioni calloc sects s
    else
      let newAddr := calloc sect.size
      ⟨cambiaIndirizzoSezione s.img newAddr i, copy s.mem newAddr.toNat (fun _ => 0) 0 sect.size,
        s.blocks ++ [(newAddr, sect.size)]⟩

/-- The loops over the `REL` sections and over their entries. -/
def rilocaSezioni (funcTable : List Symbol) (s : Loaded) : Option Loaded := do
  let mem ← (elencoRel s.img).foldlM (fun mem k => do
    let num ← numeroOggettiRilocabili k s.img
    (List.range num).foldlM (fun mem i => do
      let myobj ← cercaSimboloRilocabile funcTable i k s.img
      some (riloca myobj mem)) mem) s.mem
  some { s with mem := mem }

/-- `parser`, from the place on where the image is in memory. -/
def parser (calloc : Nat → Dword) (funcTable : List Symbol) (img : Image) (mem : Buffer) :
    Option (Int × Loaded) :=
  let s : Loaded := ⟨img, mem, []⟩
  if img.magic ≠ [0x7F, 0x45, 0x4C, 0x46] then some (-2, s)
  else if img.bitness = 0 then some (-3, s)
  else if img.bitness ≠ 1 ∧ img.bitness ≠ 2 then some (-4, s)
  else if img.fileType = 0 then some (-3, s)
  else if img.fileType ≠ 1 ∧ img.fileType ≠ 2 ∧ img.fileType ≠ 3 then some (-4, s)
  else do
    let s ← rilocaSezioni funcTable (spostaSezioni calloc (List.range img.numSects) s)
    some (0, s)

end OsdevArchive.ItaliOs3
