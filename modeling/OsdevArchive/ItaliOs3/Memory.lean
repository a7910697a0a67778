import Mathlib.Algebra.Group.Nat.Defs
import Mathlib.Logic.Function.Basic
import Mathlib.Data.Nat.Notation

/-!
The memory of the kernel of ItaliOs3 (`mm/fis_mmu.cc`, `mm/pagine_libere.cc`, `cpu/paging.cc`,
`mm/pagine_virtuali.cc`, `mm/desc_mem.cc` and `mm/mmu.cc`). A table of pages is reached where the
paging finds the page of its address; `none` is a page fault, and a search that leaves a bitmap.
-/

namespace OsdevArchive.ItaliOs3

/-- `DIM_PAGE`. -/
def dimPage : Nat := 4096

/-- The bits of `num_elem` double words. -/
def bitmapPages : Nat := 32768 * 32

abbrev Bits := Nat → Bool

/-- `num_desc`. -/
def numDesc : Nat := 510

/-- `vm_mem_desc`. -/
structure VmMemDesc where
  addr : Nat
  size : Nat

/-- `vm_mem_area`, with its address. These are the first `num_desc - desc_liberi` elements of
`mem`. -/
structure VmMemArea where
  addr : Nat
  mem : List VmMemDesc

def VmMemArea.descLiberi (cmem : VmMemArea) : Nat := numDesc - cmem.mem.length

/-- The frames of the memory, and what the kernel knows of them. -/
structure Kernel where
  /-- The double words of each frame. -/
  words : Nat → Nat → Nat
  paging : Bool
  numPages : Nat
  pageBitmap : Bits
  pagineVirtualiLibere : Bits
  pd : Nat
  tmem : List VmMemArea

/-! ### Frames -/

def findFirstZeroBit (addr : Bits) (size : Nat) : Nat :=
  ((List.range size).find? fun nr => !addr nr).getD size

def prendiPaginaFisica (k : Kernel) : Nat × Kernel :=
  let paginaLibera := findFirstZeroBit k.pageBitmap k.numPages
  if paginaLibera > k.numPages then (0, k)
  else (paginaLibera * dimPage % 2 ^ 32,
    { k with pageBitmap := Function.update k.pageBitmap paginaLibera true })

def rilasciaPagina (k : Kernel) (addr : Nat) : Bool × Kernel :=
  if addr % dimPage ≠ 0 then (false, k)
  else (true, { k with pageBitmap := Function.update k.pageBitmap (addr / dimPage) false })

/-! ### Entries of the tables -/

/-- `PRESENTE`. -/
def presente : Nat := 1

/-- `SCRITTURA_LETTURA`. -/
def scritturaLettura : Nat := 2

/-- `crea_page_dir` and `crea_page_table`. -/
def creaPage (addr flag : Nat) : Nat := addr / 2 ^ 12 * 2 ^ 12 + flag % 2 ^ 12

/-- `get_table_addr` and `get_page_addr`. -/
def getAddr (entry : Nat) : Nat := entry / 2 ^ 12 * 2 ^ 12

/-- `table_presente` and `pagina_presente`. -/
def isPresente (entry : Nat) : Prop := entry % 2 = presente

instance instDecidableIsPresente (entry : Nat) : Decidable (isPresente entry) :=
  inferInstanceAs (Decidable (_ = _))

def setAssent (entry : Nat) : Nat := entry - entry % 2

/-- The frame that the processor finds for a page. -/
def frameAt (k : Kernel) (page : Nat) : Option Nat :=
  if k.paging then
    let pde := k.words (k.pd / dimPage) (page / 1024)
    let pte := k.words (getAddr pde / dimPage) (page % 1024)
    if isPresente pde ∧ isPresente pte then some (getAddr pte / dimPage) else none
  else some page

/-- `table[i]`, where the table starts a page. -/
def load (k : Kernel) (table i : Nat) : Option Nat :=
  (frameAt k (table / dimPage)).map fun f => k.words f i

/-- `table[i] = entry`. -/
def store (k : Kernel) (table i entry : Nat) : Option Kernel :=
  (frameAt k (table / dimPage)).map fun f =>
    { k with words := Function.update k.words f (Function.update (k.words f) i entry) }

/-- The loop that clears the entries of a table. -/
def clearTable (k : Kernel) (table : Nat) : Option Kernel :=
  (frameAt k (table / dimPage)).map fun f =>
    { k with words := Function.update k.words f fun _ => 0 }

/-! ### Pages -/

def prendiPaginaVirtuale (k : Kernel) (indice : Nat) : Kernel :=
  { k with pagineVirtualiLibere := Function.update k.pagineVirtualiLibere indice true }

def liberaPaginaVirtualeLibera (k : Kernel) (pagina : Nat) : Kernel :=
  { k with pagineVirtualiLibere := Function.update k.pagineVirtualiLibere pagina false }

/-- The loop over `count` in `prendi_spazio_virtuale`, with the number of bits that are left; it
returns `final_page`. -/
def cercaSpazio (pagineLibere : Bits) (pagine : Nat) : Nat → Nat → Nat → Option Nat
  | 0, _, _ => none
  | left + 1, count, ptrov =>
    let ptrov := if !pagineLibere count then ptrov + 1 else 0
    if ptrov = pagine then some count else cercaSpazio pagineLibere pagine left (count + 1) ptrov

def prendiSpazioVirtuale (k : Kernel) (pagine : Nat) : Option (Nat × Kernel) := do
  let finalPage ← cercaSpazio k.pagineVirtualiLibere pagine bitmapPages 0 0
  let k := (List.range' (finalPage - (pagine - 1)) pagine).foldl prendiPaginaVirtuale k
  if finalPage ≠ 0 then
    if pagine = 1 then some (4096 * finalPage, k)
    else some (4096 * (finalPage - (pagine - 1)), k)
  else some (4096, k)

def settaPaginaVirtuale (k : Kernel) (dir linearAddress fisAddress : Nat) : Option Kernel := do
  let pde := linearAddress / 2 ^ 22
  let pte := linearAddress / 2 ^ 12 % 2 ^ 10
  let k ←
    if ¬ isPresente (← load k dir pde) then do
      let (currentDir, k) := prendiPaginaFisica k
      let k ← store k dir pde (creaPage currentDir (scritturaLettura + presente))
      clearTable k currentDir
    else some k
  let table := getAddr (← load k dir pde)
  store k table pte (creaPage fisAddress (scritturaLettura + presente))

def settaSpazioVirtuale (dir : Nat) : Nat → Kernel → Nat → Option Kernel
  | 0, k, _ => some k
  | pagine + 1, k, addr => do
    let (fisAddress, k) := prendiPaginaFisica k
    let k ← settaPaginaVirtuale k dir addr fisAddress
    settaSpazioVirtuale dir pagine k (addr + 4096)

def liberaPaginaVirtuale (k : Kernel) (linearAddress : Nat) : Option Kernel := do
  let pde := linearAddress / 2 ^ 22
  let pte := linearAddress / 2 ^ 12 % 2 ^ 10
  let table := getAddr (← load k k.pd pde)
  let entry ← load k table pte
  let k ← store k table pte (setAssent entry)
  let k := liberaPaginaVirtualeLibera k (linearAddress / 4096)
  some (rilasciaPagina k (getAddr entry)).2

def liberaSpazioVirtuale : Nat → Kernel → Nat → Option Kernel
  | 0, k, _ => some k
  | pagine + 1, k, addr => do
    let k ← liberaPaginaVirtuale k addr
    liberaSpazioVirtuale pagine k (addr + 4096)

/-! ### Descriptors -/

/-- The first loop of `setta_desc_mem`: the first table that is not full gets a descriptor. -/
def cercaDesc (desc : VmMemDesc) : List VmMemArea → Option (List VmMemArea)
  | [] => none
  | cmem :: next =>
    if cmem.descLiberi ≠ 0 then some ({ cmem with mem := cmem.mem ++ [desc] } :: next)
    else (cercaDesc desc next).map (cmem :: ·)

/-- `setta_desc_mem`, which calls itself no deeper than its first argument says. -/
def settaDescMem : Nat → Kernel → Nat → Nat → Option Kernel
  | 0, _, _, _ => none
  | depth + 1, k, addr, numPage =>
    match cercaDesc ⟨addr, numPage⟩ k.tmem with
    | some tmem => some { k with tmem := tmem }
    | none => do
      let (cmem, k) ← prendiSpazioVirtuale k 1
      let k ← settaSpazioVirtuale k.pd 1 k cmem
      let k := { k with tmem := k.tmem ++ [⟨cmem, []⟩] }
      let k ← settaDescMem depth k cmem 1
      settaDescMem depth k addr numPage

/-- In a new table there is room for two descriptors. -/
def descDepth : Nat := 2

def liberaDescMem (addr : Nat) : List VmMemArea → Nat
  | [] => 0
  | cmem :: next =>
    match cmem.mem.find? fun d => d.addr = addr with
    | some d => d.size
    | none => liberaDescMem addr next

/-! ### Allocating -/

def pagineFor (len : Nat) : Nat := if len % 4096 ≠ 0 then len / 4096 + 1 else len / 4096

def alloca (k : Kernel) (len : Nat) : Option (Nat × Kernel) := do
  let pagine := pagineFor len
  let (addr, k) ← prendiSpazioVirtuale k pagine
  let k ← settaSpazioVirtuale k.pd pagine k addr
  let k ← settaDescMem descDepth k addr pagine
  some (addr, k)

def dealloca (k : Kernel) (addr : Nat) : Option Kernel :=
  liberaSpazioVirtuale (liberaDescMem addr k.tmem) k addr

/-! ### Initialization -/

/-- The tables of the first loop of `init_spazio_virtuale`, with their addresses. -/
def initTables : Nat → Nat → Kernel → Option (List Nat × Kernel)
  | 0, _, k => some ([], k)
  | n + 1, i, k => do
    let (addr, k) := prendiPaginaFisica k
    let k ← store k k.pd i (creaPage addr (scritturaLettura + presente))
    let k ← clearTable k addr
    let (addrs, k) ← initTables n (i + 1) k
    some (addr :: addrs, k)

/-- The second loop of `init_spazio_virtuale`, from the page `i` on. -/
def initPages : List Nat → Nat → Kernel → Option Kernel
  | [], _, k => some k
  | addr :: addrs, i, k => do
    let k ← settaPaginaVirtuale (prendiPaginaVirtuale k i) k.pd addr addr
    initPages addrs (i + 1) k

/-- The last loop of `init_spazio_virtuale`. -/
def clearDir : Nat → Nat → Kernel → Option Kernel
  | 0, _, k => some k
  | n + 1, i, k => do
    let k ← store k k.pd i 0
    clearDir n (i + 1) k

def initSpazioVirtuale (k : Kernel) : Option Kernel := do
  let (addr, k) := prendiPaginaFisica k
  let (addrs, k) ← initTables 10 0 { k with pd := addr }
  let k ← initPages (addr :: addrs) 0 k
  clearDir (1024 - 10) 10 k

def initDescMem (k : Kernel) : Option Kernel := do
  let (tmem, k) ← prendiSpazioVirtuale k 1
  let k ← settaSpazioVirtuale k.pd 1 k tmem
  some { k with tmem := [⟨tmem, []⟩] }

def initKernelMmu (k : Kernel) : Option Kernel := do
  let k ← initSpazioVirtuale { k with paging := false, pagineVirtualiLibere := fun _ => false }
  let k ← initDescMem k
  let k ← settaDescMem descDepth k 0 ((2 ^ 20 + 0x1000) / 4096)
  let (addr, k) ← prendiSpazioVirtuale k (2 ^ 20 / 4096)
  let k ← settaSpazioVirtuale k.pd (2 ^ 20 / 4096) k addr
  some { k with paging := true }

/-- The memory before, with what is in it, after `init_spazio_fisico`. -/
def initSpazioFisico (words : Nat → Nat → Nat) (numPages : Nat) : Kernel :=
  ⟨words, false, numPages, fun _ => false, fun _ => false, 0, []⟩

end OsdevArchive.ItaliOs3
