import Mathlib.Data.List.Basic
import Mathlib.Data.Nat.Bitwise
import Mathlib.Logic.Function.Basic

/-!
The ELF loader of minirighi (`kernel/elf32.c`). An image lies in a buffer of the kernel
heap, and its sections are copied to the addresses that their headers name. Addresses
and sizes are 32-bit words, so their sums wrap. The memory remembers which bytes
were written since the loader was called.
-/

namespace OsdevArchive.Minirighi.Elf32

abbrev Byte := BitVec 8

abbrev Addr := BitVec 32

/-- `K_VIR_START`: user addresses lie below it. -/
def kVirStart : Addr := 0xC0000000

def null : Addr := 0

/-- The current address space, and the addresses written so far. -/
structure Mem where
  byte : Addr → Byte
  written : List Addr

namespace Mem

def half (m : Mem) (a : Addr) : BitVec 16 := m.byte (a + 1) ++ m.byte a

def word (m : Mem) (a : Addr) : BitVec 32 := m.half (a + 2) ++ m.half a

def store (m : Mem) (a : Addr) (b : Byte) : Mem :=
  { byte := Function.update m.byte a b, written := m.written ++ [a] }

def loadBytes (m : Mem) (a : Addr) : Nat → List Byte
  | 0 => []
  | n + 1 => m.byte a :: m.loadBytes (a + 1) n

def storeBytes (m : Mem) (a : Addr) : List Byte → Mem
  | [] => m
  | b :: bytes => (m.store a b).storeBytes (a + 1) bytes

/-- One `movsl`, `movsw` or `movsb`: the unit is loaded as a whole before it is stored. -/
def movs (m : Mem) (dst src : Addr) (unit : Nat) : Mem :=
  m.storeBytes dst (m.loadBytes src unit)

/-- `rep movsl`. -/
def repMovsl (m : Mem) (dst src : Addr) : Nat → Mem
  | 0 => m
  | count + 1 => (m.movs dst src 4).repMovsl (dst + 4) (src + 4) count

/-- `__memcpy_generic`: `rep movsl`, then `movsw` and `movsb` if the size has bit 1 and
bit 0. -/
def memcpy (m : Mem) (dst src : Addr) (n : Nat) : Mem :=
  let whole := n / 4 * 4
  let even := n / 2 * 2
  let words := m.repMovsl dst src (n / 4)
  let halves := words.movs (dst + .ofNat 32 whole) (src + .ofNat 32 whole) (even - whole)
  halves.movs (dst + .ofNat 32 even) (src + .ofNat 32 even) (n - even)

def memset (m : Mem) (s : Addr) (c : Byte) (n : Nat) : Mem :=
  m.storeBytes s (List.replicate n c)

/-- `strcmp(a, s) == 0`, where `s` ends with its NUL. -/
def streq (m : Mem) (a : Addr) : List Byte → Bool
  | [] => true
  | b :: s => m.byte a == b && m.streq (a + 1) s

end Mem

/-! ### The headers -/

/-- What the loader reads of `elf32_shdr_t`. -/
structure Shdr where
  shName : BitVec 32
  shAddr : Addr
  shOffset : BitVec 32
  shSize : BitVec 32
  deriving DecidableEq

/-- `*sec`. -/
def shdr (m : Mem) (sec : Addr) : Shdr :=
  { shName := m.word sec, shAddr := m.word (sec + 12),
    shOffset := m.word (sec + 16), shSize := m.word (sec + 20) }

def eEntry (m : Mem) (f : Addr) : Addr := m.word (f + 24)

def eShoff (m : Mem) (f : Addr) : BitVec 32 := m.word (f + 32)

def eShentsize (m : Mem) (f : Addr) : BitVec 16 := m.half (f + 46)

def eShnum (m : Mem) (f : Addr) : BitVec 16 := m.half (f + 48)

def eShstrndx (m : Mem) (f : Addr) : BitVec 16 := m.half (f + 50)

/-- `sizeof(elf32_shdr_t)`. -/
def shdrSize : BitVec 32 := 40

/-- `elf32_check`: the entry point, or `NULL`. -/
def elf32Check (m : Mem) (f : Addr) : Addr :=
  if m.byte f ≠ 0x7F ∨ m.byte (f + 1) ≠ 0x45 ∨ m.byte (f + 2) ≠ 0x4C ∨
      m.byte (f + 3) ≠ 0x46 then null
  else if m.byte (f + 4) ≠ 1 then null
  else if m.byte (f + 5) ≠ 1 then null
  else eEntry m f

/-- `get_section_name_by_index`. -/
def getSectionNameByIndex (m : Mem) (f : Addr) (index : BitVec 32) : Addr :=
  let strtab := f + eShoff m f + (eShstrndx m f).setWidth 32 * shdrSize
  f + (shdr m strtab).shOffset + index

/-- `".bss"`. -/
def bss : List Byte := [0x2E, 0x62, 0x73, 0x73, 0]

/-- A section that `copy_section` does not skip. -/
def Shdr.Copied (s : Shdr) : Prop := s.shAddr ≠ null ∧ s.shOffset ≠ null

instance (s : Shdr) : Decidable s.Copied := inferInstanceAs (Decidable (_ ∧ _))

/-- `copy_section`. -/
def copySection (m : Mem) (f sec : Addr) : Mem :=
  let s := shdr m sec
  if s.Copied then
    if m.streq (getSectionNameByIndex m f s.shName) bss then
      m.memset s.shAddr 0 s.shSize.toNat
    else m.memcpy s.shAddr (f + s.shOffset) s.shSize.toNat
  else m

/-- The test that makes `elf32_copy_sections` refuse an image. -/
def Shdr.Refused (s : Shdr) : Prop :=
  kVirStart ≤ s.shAddr ∨ kVirStart ≤ s.shAddr + s.shSize

instance (s : Shdr) : Decidable s.Refused := inferInstanceAs (Decidable (_ ∨ _))

/-- The first loop of `elf32_copy_sections`. -/
def checkSections (m : Mem) (sec stride : Addr) : Nat → Bool
  | 0 => true
  | n + 1 => if (shdr m sec).Refused then false else checkSections m (sec + stride) stride n

/-- Its second loop. -/
def copySections (m : Mem) (f sec stride : Addr) : Nat → Mem
  | 0 => m
  | n + 1 => copySections (copySection m f sec) f (sec + stride) stride n

/-- `elf32_copy_sections`. `none` stands for `return( NULL )`. -/
def elf32CopySections (m : Mem) (f : Addr) : Option Addr × Mem :=
  if elf32Check m f = null then (none, m)
  else
    let num := (eShnum m f).toNat
    let stride := (eShentsize m f).setWidth 32
    let sec := eShoff m f + f
    if checkSections m sec stride num then
      let loaded := copySections m f sec stride num
      (some (eEntry loaded f), loaded)
    else (none, m)

/-! ### What is written -/

/-- The addresses of `n` bytes from `a` on. -/
def covered (a : Addr) : Nat → List Addr
  | 0 => []
  | n + 1 => a :: covered (a + 1) n

theorem mem_covered {a b : Addr} {n : Nat} :
    b ∈ covered a n ↔ ∃ k < n, b = a + BitVec.ofNat 32 k := by
  induction n generalizing a with
  | zero => simp [covered]
  | succ n ih =>
    rw [covered, List.mem_cons, ih]
    constructor
    · rintro (rfl | ⟨k, hk, rfl⟩)
      · exact ⟨0, Nat.succ_pos n, (BitVec.add_zero b).symm⟩
      · refine ⟨k + 1, Nat.succ_lt_succ hk, ?_⟩
        rw [BitVec.add_assoc, Nat.add_comm k 1, BitVec.ofNat_add]
        rfl
    · rintro ⟨k, hk, rfl⟩
      cases k with
      | zero => exact .inl (BitVec.add_zero a)
      | succ k =>
        refine .inr ⟨k, Nat.lt_of_succ_lt_succ hk, ?_⟩
        rw [BitVec.add_assoc, Nat.add_comm k 1, BitVec.ofNat_add]
        rfl

theorem covered_add (a : Addr) (n k : Nat) :
    covered a (n + k) = covered a n ++ covered (a + BitVec.ofNat 32 n) k := by
  induction n generalizing a with
  | zero => simp [covered]
  | succ n ih =>
    have hnext : a + 1 + BitVec.ofNat 32 n = a + BitVec.ofNat 32 (n + 1) := by
      rw [BitVec.add_assoc, Nat.add_comm n 1, BitVec.ofNat_add]
      rfl
    rw [Nat.add_right_comm, covered, ih, hnext, covered, List.cons_append]

namespace Mem

variable {m : Mem} {a dst src : Addr} {n : Nat}

@[simp] theorem length_loadBytes : (m.loadBytes a n).length = n := by
  induction n generalizing a with
  | zero => rfl
  | succ n ih => rw [loadBytes, List.length_cons, ih]

theorem storeBytes_written (m : Mem) (a : Addr) (bytes : List Byte) :
    (m.storeBytes a bytes).written = m.written ++ covered a bytes.length := by
  induction bytes generalizing m a with
  | nil => simp [storeBytes, covered]
  | cons b bytes ih => simp [storeBytes, ih, store, covered]

theorem movs_written : (m.movs dst src n).written = m.written ++ covered dst n := by
  rw [movs, storeBytes_written, length_loadBytes]

theorem repMovsl_written :
    (m.repMovsl dst src n).written = m.written ++ covered dst (n * 4) := by
  induction n generalizing m dst src with
  | zero => simp [repMovsl, covered]
  | succ n ih =>
    rw [repMovsl, ih, movs_written, List.append_assoc, Nat.succ_mul, Nat.add_comm (n * 4),
      covered_add]
    rfl

theorem memcpy_written : (m.memcpy dst src n).written = m.written ++ covered dst n := by
  have hwhole : n / 2 * 2 = n / 4 * 4 + (n / 2 * 2 - n / 4 * 4) := by omega
  have heven : n = n / 2 * 2 + (n - n / 2 * 2) := by omega
  calc (m.memcpy dst src n).written
      = m.written ++ covered dst (n / 4 * 4) ++
          covered (dst + .ofNat 32 (n / 4 * 4)) (n / 2 * 2 - n / 4 * 4) ++
          covered (dst + .ofNat 32 (n / 2 * 2)) (n - n / 2 * 2) := by
        rw [memcpy, movs_written, movs_written, repMovsl_written]
    _ = m.written ++ covered dst n := by
        rw [List.append_assoc m.written, ← covered_add, ← hwhole, List.append_assoc,
          ← covered_add, ← heven]

theorem memset_written (c : Byte) :
    (m.memset a c n).written = m.written ++ covered a n := by
  rw [memset, storeBytes_written, List.length_replicate]

/-- Bytes that are not written since `m` are as they were in `m`. -/
def KeptSince (m m' : Mem) : Prop :=
  ∃ areas, m'.written = m.written ++ areas ∧ ∀ a ∉ areas, m'.byte a = m.byte a

theorem KeptSince.refl (m : Mem) : KeptSince m m :=
  ⟨[], (List.append_nil _).symm, fun _ _ => rfl⟩

theorem KeptSince.trans {m₁ m₂ m₃ : Mem} :
    KeptSince m₁ m₂ → KeptSince m₂ m₃ → KeptSince m₁ m₃ := by
  rintro ⟨first, hfirst, hkept₁⟩ ⟨second, hsecond, hkept₂⟩
  refine ⟨first ++ second, ?_, ?_⟩
  · rw [hsecond, hfirst, List.append_assoc]
  · intro a ha
    rw [List.mem_append, not_or] at ha
    exact (hkept₂ a ha.2).trans (hkept₁ a ha.1)

theorem store_kept (m : Mem) (a : Addr) (b : Byte) : KeptSince m (m.store a b) :=
  ⟨[a], rfl, fun _ hother => Function.update_of_ne (List.ne_of_not_mem_cons hother) ..⟩

theorem storeBytes_kept (m : Mem) (a : Addr) (bytes : List Byte) :
    KeptSince m (m.storeBytes a bytes) := by
  induction bytes generalizing m a with
  | nil => exact .refl m
  | cons b bytes ih => exact (store_kept m a b).trans (ih _ _)

theorem repMovsl_kept (m : Mem) (dst src : Addr) (n : Nat) :
    KeptSince m (m.repMovsl dst src n) := by
  induction n generalizing m dst src with
  | zero => exact .refl m
  | succ n ih => exact (storeBytes_kept ..).trans (ih ..)

theorem memcpy_kept (m : Mem) (dst src : Addr) (n : Nat) : KeptSince m (m.memcpy dst src n) :=
  (repMovsl_kept ..).trans ((storeBytes_kept ..).trans (storeBytes_kept ..))

theorem KeptSince.byte_eq {m m' : Mem} {areas : List Addr} (hkept : KeptSince m m')
    (hwritten : m'.written = m.written ++ areas) {a : Addr} (ha : a ∉ areas) :
    m'.byte a = m.byte a := by
  obtain ⟨_, hareas, hbyte⟩ := hkept
  rw [hwritten, List.append_cancel_left_eq] at hareas
  exact hbyte a (hareas ▸ ha)

theorem storeBytes_self (m : Mem) (a : Addr) (n : Nat) :
    (m.storeBytes a (m.loadBytes a n)).byte = m.byte := by
  induction n generalizing m a with
  | zero => rfl
  | succ n ih =>
    have hstore : (m.store a (m.byte a)).byte = m.byte := Function.update_eq_self ..
    have hload : m.loadBytes (a + 1) n = (m.store a (m.byte a)).loadBytes (a + 1) n := by
      generalize a + 1 = b
      clear ih
      induction n generalizing b with
      | zero => rfl
      | succ n ih => rw [loadBytes, loadBytes, hstore, ih]
    rw [loadBytes, storeBytes, hload, ih, hstore]

theorem repMovsl_self (m : Mem) (a : Addr) (n : Nat) : (m.repMovsl a a n).byte = m.byte := by
  induction n generalizing m a with
  | zero => rfl
  | succ n ih => rw [repMovsl, ih, movs, storeBytes_self]

/-- A copy onto itself changes nothing. -/
theorem memcpy_self (m : Mem) (a : Addr) (n : Nat) : (m.memcpy a a n).byte = m.byte := by
  rw [memcpy, movs, storeBytes_self, movs, storeBytes_self, repMovsl_self]

end Mem

/-- What `copy_section` writes. -/
def Shdr.area (s : Shdr) : List Addr := if s.Copied then covered s.shAddr s.shSize.toNat else []

theorem copySection_written (m : Mem) (f sec : Addr) :
    (copySection m f sec).written = m.written ++ (shdr m sec).area := by
  by_cases hcopied : (shdr m sec).Copied
  · simp only [copySection, Shdr.area, hcopied, if_true]
    split
    · exact Mem.memset_written 0
    · exact Mem.memcpy_written
  · simp only [copySection, Shdr.area, hcopied, if_false, List.append_nil]

theorem copySection_kept (m : Mem) (f sec : Addr) : m.KeptSince (copySection m f sec) := by
  by_cases hcopied : (shdr m sec).Copied
  · simp only [copySection, hcopied, if_true]
    split
    · exact Mem.storeBytes_kept ..
    · exact Mem.memcpy_kept ..
  · simp only [copySection, hcopied, if_false]
    exact .refl m

/-- The section, its size added without wrapping, ends at `K_VIR_START` or below. -/
def Shdr.Fits (s : Shdr) : Prop :=
  s.shSize = 0 ∨ s.shAddr.toNat + s.shSize.toNat ≤ kVirStart.toNat

theorem Shdr.area_below_iff {s : Shdr} (hcopied : s.Copied) :
    (∀ a ∈ s.area, a < kVirStart) ↔ s.Fits := by
  have hsize : s.shSize.toNat < 2 ^ 32 := s.shSize.isLt
  have haddr : s.shAddr.toNat < 2 ^ 32 := s.shAddr.isLt
  have hkernel : kVirStart.toNat = 0xC0000000 := rfl
  simp only [Shdr.area, hcopied, if_true, mem_covered, Shdr.Fits]
  constructor
  · intro hbelow
    by_contra hout
    rw [not_or, not_le] at hout
    have hpos : 0 < s.shSize.toNat := by
      rw [Nat.pos_iff_ne_zero]
      intro hzero
      exact hout.1 (BitVec.eq_of_toNat_eq hzero)
    -- the first byte of the section that is not the user's
    have hfirst := hbelow (s.shAddr + BitVec.ofNat 32 (kVirStart.toNat - s.shAddr.toNat))
      ⟨_, by omega, rfl⟩
    rw [BitVec.lt_def, BitVec.toNat_add, BitVec.toNat_ofNat] at hfirst
    omega
  · rintro (hzero | hend) a ⟨k, hk, rfl⟩
    · rw [hzero] at hk
      exact absurd hk (Nat.not_lt_zero k)
    · rw [BitVec.lt_def, BitVec.toNat_add, BitVec.toNat_ofNat]
      omega

/-- What passed the check fits, unless the sum wrapped. -/
theorem Shdr.fits_iff_of_not_refused {s : Shdr} (hpassed : ¬ s.Refused) :
    s.Fits ↔ s.shAddr.toNat + s.shSize.toNat < 2 ^ 32 := by
  have hsize : s.shSize.toNat < 2 ^ 32 := s.shSize.isLt
  have haddr : s.shAddr.toNat < 2 ^ 32 := s.shAddr.isLt
  have hkernel : kVirStart.toNat = 0xC0000000 := rfl
  simp only [Shdr.Refused, not_or, BitVec.not_le, BitVec.lt_def, BitVec.toNat_add] at hpassed
  constructor
  · rintro (hzero | hend)
    · rw [hzero]
      exact haddr
    · omega
  · intro hsum
    exact .inr (by omega)

/-! ### The two passes over the section table -/

section
variable (m : Mem) (f : Addr)

/-- Where the header of section `i` lies. -/
def sectionAt (i : Nat) : Addr :=
  eShoff m f + f + BitVec.ofNat 32 i * (eShentsize m f).setWidth 32

/-- The memory when the second pass comes to section `i`. -/
def memAt (i : Nat) : Mem := copySections m f (eShoff m f + f) ((eShentsize m f).setWidth 32) i

/-- Section `i` as the first pass sees it. -/
def checked (i : Nat) : Shdr := shdr m (sectionAt m f i)

/-- Section `i` as the second pass sees it. -/
def found (i : Nat) : Shdr := shdr (memAt m f i) (sectionAt m f i)

/-- The image passes the checks. -/
def Accepted : Prop :=
  elf32Check m f ≠ null ∧ ∀ i < (eShnum m f).toNat, ¬ (checked m f i).Refused

end

theorem ofNat_succ_mul (sec stride : Addr) (i : Nat) :
    sec + stride + BitVec.ofNat 32 i * stride = sec + BitVec.ofNat 32 (i + 1) * stride := by
  rw [Nat.add_comm i 1, BitVec.ofNat_add, BitVec.add_mul, BitVec.add_assoc]
  congr 2
  exact (BitVec.one_mul stride).symm

theorem checkSections_iff {m : Mem} {sec stride : Addr} {n : Nat} :
    checkSections m sec stride n = true ↔
      ∀ i < n, ¬ (shdr m (sec + BitVec.ofNat 32 i * stride)).Refused := by
  induction n generalizing sec with
  | zero => simp [checkSections]
  | succ n ih =>
    have hfirst : sec + BitVec.ofNat 32 0 * stride = sec := by simp
    rw [checkSections, Nat.forall_lt_succ_left, hfirst]
    by_cases hrefused : (shdr m sec).Refused
    · simp [hrefused]
    · simp only [hrefused, if_false, ih, ofNat_succ_mul, not_false_eq_true, true_and]

theorem copySections_succ (m : Mem) (f sec stride : Addr) (n : Nat) :
    copySections m f sec stride (n + 1) =
      copySection (copySections m f sec stride n) f (sec + BitVec.ofNat 32 n * stride) := by
  induction n generalizing m sec with
  | zero => simp [copySections]
  | succ n ih => rw [copySections, ih, ofNat_succ_mul, copySections]

theorem memAt_succ (m : Mem) (f : Addr) (i : Nat) :
    memAt m f (i + 1) = copySection (memAt m f i) f (sectionAt m f i) :=
  copySections_succ ..

theorem memAt_written (m : Mem) (f : Addr) (n : Nat) :
    (memAt m f n).written =
      m.written ++ (List.range n).flatMap fun i => (found m f i).area := by
  induction n with
  | zero => simp [memAt, copySections]
  | succ n ih =>
    rw [memAt_succ, copySection_written, ih, List.range_succ, List.flatMap_append,
      List.append_assoc, List.flatMap_singleton]
    rfl

theorem elf32CopySections_of_accepted {m : Mem} {f : Addr} (haccepted : Accepted m f) :
    elf32CopySections m f =
      (some (eEntry (memAt m f (eShnum m f).toNat) f), memAt m f (eShnum m f).toNat) := by
  have hcheck := checkSections_iff.mpr haccepted.2
  rw [elf32CopySections, if_neg haccepted.1]
  exact if_pos hcheck

theorem elf32CopySections_of_not_accepted {m : Mem} {f : Addr} (hrefused : ¬ Accepted m f) :
    elf32CopySections m f = (none, m) := by
  by_cases hheader : elf32Check m f = null
  · exact if_pos hheader
  · have hcheck : ¬ checkSections m (eShoff m f + f) ((eShentsize m f).setWidth 32)
        (eShnum m f).toNat = true := fun hpassed =>
      hrefused ⟨hheader, checkSections_iff.mp hpassed⟩
    rw [elf32CopySections, if_neg hheader]
    exact if_neg hcheck

theorem memAt_kept (m : Mem) (f : Addr) (i : Nat) : m.KeptSince (memAt m f i) := by
  induction i with
  | zero => exact .refl m
  | succ i ih =>
    rw [memAt_succ]
    exact ih.trans (copySection_kept ..)

theorem word_congr {m m' : Mem} {a : Addr}
    (hbytes : ∀ k < 4, m'.byte (a + BitVec.ofNat 32 k) = m.byte (a + BitVec.ofNat 32 k)) :
    m'.word a = m.word a := by
  have hfirst : m'.byte a = m.byte a := by simpa using hbytes 0 (by decide)
  have hsecond : m'.byte (a + 1) = m.byte (a + 1) := hbytes 1 (by decide)
  have hthird : m'.byte (a + 2) = m.byte (a + 2) := hbytes 2 (by decide)
  have hfourth : m'.byte (a + 2 + 1) = m.byte (a + 2 + 1) := by
    rw [BitVec.add_assoc]
    exact hbytes 3 (by decide)
  simp only [Mem.word, Mem.half, hfirst, hsecond, hthird, hfourth]

theorem shdr_congr {m m' : Mem} {sec : Addr}
    (hbytes : ∀ k < shdrSize.toNat, m'.byte (sec + BitVec.ofNat 32 k) =
      m.byte (sec + BitVec.ofNat 32 k)) : shdr m' sec = shdr m sec := by
  have hword (off : Nat) (hoff : off + 4 ≤ shdrSize.toNat) :
      m'.word (sec + BitVec.ofNat 32 off) = m.word (sec + BitVec.ofNat 32 off) := by
    apply word_congr
    intro k hk
    rw [BitVec.add_assoc, ← BitVec.ofNat_add]
    exact hbytes (off + k) (by omega)
  have hname : m'.word sec = m.word sec := by simpa using hword 0 (by decide)
  exact (Shdr.mk.injEq ..).mpr
    ⟨hname, hword 12 (by decide), hword 16 (by decide), hword 20 (by decide)⟩

/-- The header lies in kernel memory. -/
def InKernel (sec : Addr) : Prop :=
  ∀ k < shdrSize.toNat, kVirStart ≤ sec + BitVec.ofNat 32 k

/-- A header in kernel memory is not changed by sections that stay below the kernel. -/
theorem found_eq_checked {m : Mem} {f : Addr} {i : Nat} (hkernel : InKernel (sectionAt m f i))
    (hbelow : ∀ j < i, ∀ a ∈ (found m f j).area, a < kVirStart) :
    found m f i = checked m f i := by
  apply shdr_congr
  intro k hk
  apply (memAt_kept m f i).byte_eq (memAt_written m f i)
  rw [List.mem_flatMap]
  rintro ⟨j, hj, hwritten⟩
  have huser := hbelow j (List.mem_range.mp hj) _ hwritten
  exact BitVec.not_lt.mpr (hkernel k hk) huser

/-! ### The kernel is left alone -/

/-- If the loader succeeds, it has written below `K_VIR_START` only. -/
def BelowKernel (m : Mem) (f : Addr) : Prop :=
  (elf32CopySections m f).1.isSome → ∀ a ∈ (elf32CopySections m f).2.written, a < kVirStart

/-- The header of section `i` is still the one that was checked and its sum does not wrap,
or it has been overwritten in between by one that fits. -/
def CopiedSafely (m : Mem) (f : Addr) (i : Nat) : Prop :=
  if found m f i = checked m f i then
    (checked m f i).shAddr.toNat + (checked m f i).shSize.toNat < 2 ^ 32
  else (found m f i).Fits

theorem copiedSafely_iff {m : Mem} {f : Addr} {i : Nat} (haccepted : Accepted m f)
    (hi : i < (eShnum m f).toNat) : CopiedSafely m f i ↔ (found m f i).Fits := by
  unfold CopiedSafely
  split
  · next hsame => rw [hsame, Shdr.fits_iff_of_not_refused (haccepted.2 i hi)]
  · rfl

theorem area_below_of_not_copied {s : Shdr} (hskipped : ¬ s.Copied) :
    ∀ a ∈ s.area, a < kVirStart := by
  rw [Shdr.area, if_neg hskipped]
  exact fun a ha => absurd ha List.not_mem_nil

/-- The sections of an accepted image are all that is written. -/
theorem belowKernel_iff {byte : Addr → Byte} {f : Addr} (haccepted : Accepted ⟨byte, []⟩ f) :
    BelowKernel ⟨byte, []⟩ f ↔ ∀ i < (eShnum ⟨byte, []⟩ f).toNat,
      ∀ a ∈ (found ⟨byte, []⟩ f i).area, a < kVirStart := by
  rw [BelowKernel, elf32CopySections_of_accepted haccepted, memAt_written]
  simp only [Option.isSome_some, forall_const, List.nil_append, List.mem_flatMap,
    List.mem_range, forall_exists_index, and_imp]
  exact ⟨fun h i hi a ha => h a i hi ha, fun h a i hi ha => h i hi a ha⟩

theorem copySections_below_iff (byte : Addr → Byte) (f : Addr) :
    BelowKernel ⟨byte, []⟩ f ↔
      (Accepted ⟨byte, []⟩ f → ∀ i < (eShnum ⟨byte, []⟩ f).toNat,
        (found ⟨byte, []⟩ f i).Copied → CopiedSafely ⟨byte, []⟩ f i) := by
  by_cases haccepted : Accepted ⟨byte, []⟩ f
  · rw [belowKernel_iff haccepted]
    constructor
    · intro hbelow _ i hi hcopied
      rw [copiedSafely_iff haccepted hi, ← Shdr.area_below_iff hcopied]
      exact hbelow i hi
    · intro hsafe i hi
      by_cases hcopied : (found ⟨byte, []⟩ f i).Copied
      · have hfits := (copiedSafely_iff haccepted hi).mp (hsafe haccepted i hi hcopied)
        exact (Shdr.area_below_iff hcopied).mpr hfits
      · exact area_below_of_not_copied hcopied
  · refine iff_of_true ?_ (fun h => absurd h haccepted)
    intro hsuccess
    rw [elf32CopySections_of_not_accepted haccepted] at hsuccess
    exact absurd hsuccess Bool.false_ne_true

/-- An image in the kernel heap whose only section starts one byte below the kernel, and
whose size takes its end around to 0. Its contents are the memory that it overwrites. -/
def wrappingImage : List Byte :=
  [0x7F, 0x45, 0x4C, 0x46, 1, 1, 1, 0, 0, 0, 0, 0, 0, 0, 0, 0,
    2, 0, 3, 0, 1, 0, 0, 0, 0, 0x10, 0, 0, 0, 0, 0, 0,
    52, 0, 0, 0, 0, 0, 0, 0, 52, 0, 0, 0, 0, 0, 40, 0, 1, 0, 0, 0,
    0, 0, 0, 0, 1, 0, 0, 0, 0, 0, 0, 0, 0xFF, 0xFF, 0xFF, 0xBF,
    0xEF, 0xFF, 0xFF, 0xEF, 0x01, 0, 0, 0x40, 0, 0, 0, 0, 0, 0, 0, 0,
    0, 0, 0, 0, 0, 0, 0, 0]

def wrappingBuffer : Addr := 0xD0000010

/-- The image in a memory that is otherwise zero. -/
def wrappingMem : Mem := ⟨fun a => wrappingImage.getD (a - wrappingBuffer).toNat 0, []⟩

theorem wrapping_section :
    shdr wrappingMem (sectionAt wrappingMem wrappingBuffer 0) =
      ⟨0, 0xBFFFFFFF, 0xEFFFFFEF, 0x40000001⟩ := by
  decide +kernel

theorem wrapping_accepted : Accepted wrappingMem wrappingBuffer := by
  refine ⟨by decide +kernel, ?_⟩
  have hnum : (eShnum wrappingMem wrappingBuffer).toNat = 1 := by decide +kernel
  intro i hi
  obtain rfl : i = 0 := by omega
  rw [checked, wrapping_section]
  decide

theorem wrapping_copied :
    copySection wrappingMem wrappingBuffer (sectionAt wrappingMem wrappingBuffer 0) =
      wrappingMem.memcpy 0xBFFFFFFF 0xBFFFFFFF 0x40000001 := by
  have hname : wrappingMem.streq (getSectionNameByIndex wrappingMem wrappingBuffer 0) bss =
      false := by decide +kernel
  rw [copySection, wrapping_section]
  exact (if_pos (by decide)).trans (if_neg (by rw [hname]; exact Bool.false_ne_true))

theorem copySections_writes_kernel :
    (elf32CopySections wrappingMem wrappingBuffer).1 = some 0x1000 ∧
      kVirStart ∈ (elf32CopySections wrappingMem wrappingBuffer).2.written ∧
      ¬ BelowKernel wrappingMem wrappingBuffer := by
  have hnum : (eShnum wrappingMem wrappingBuffer).toNat = 1 := by decide +kernel
  have hresult : elf32CopySections wrappingMem wrappingBuffer =
      (some (eEntry (wrappingMem.memcpy 0xBFFFFFFF 0xBFFFFFFF 0x40000001) wrappingBuffer),
        wrappingMem.memcpy 0xBFFFFFFF 0xBFFFFFFF 0x40000001) := by
    rw [elf32CopySections_of_accepted wrapping_accepted, hnum, memAt_succ]
    exact congrArg (fun m => (some (eEntry m wrappingBuffer), m)) wrapping_copied
  have hentry : eEntry (wrappingMem.memcpy 0xBFFFFFFF 0xBFFFFFFF 0x40000001) wrappingBuffer =
      0x1000 := by
    simp only [eEntry, Mem.word, Mem.half, Mem.memcpy_self]
    decide +kernel
  have hkernel : kVirStart ∈ (elf32CopySections wrappingMem wrappingBuffer).2.written := by
    rw [hresult, Mem.memcpy_written, List.mem_append, mem_covered]
    exact .inr ⟨1, by decide, by decide⟩
  refine ⟨by rw [hresult, hentry], hkernel, fun hbelow => ?_⟩
  have hlt := hbelow (by rw [hresult]; rfl) _ hkernel
  exact absurd hlt (by decide)

/-- For a section table in kernel memory, as when the image brings its own, the sums are
all that matters. -/
theorem kernelTable_below_iff {byte : Addr → Byte} {f : Addr}
    (haccepted : Accepted ⟨byte, []⟩ f)
    (hkernel : ∀ i < (eShnum ⟨byte, []⟩ f).toNat, InKernel (sectionAt ⟨byte, []⟩ f i)) :
    BelowKernel ⟨byte, []⟩ f ↔ ∀ i < (eShnum ⟨byte, []⟩ f).toNat,
      (checked ⟨byte, []⟩ f i).Copied →
        (checked ⟨byte, []⟩ f i).shAddr.toNat + (checked ⟨byte, []⟩ f i).shSize.toNat
          < 2 ^ 32 := by
  have hfits (i : Nat) (hi : i < (eShnum ⟨byte, []⟩ f).toNat) :
      (checked ⟨byte, []⟩ f i).Fits ↔ _ :=
    Shdr.fits_iff_of_not_refused (haccepted.2 i hi)
  rw [belowKernel_iff haccepted]
  constructor
  · intro hbelow i hi hcopied
    have hsame : found ⟨byte, []⟩ f i = checked ⟨byte, []⟩ f i :=
      found_eq_checked (hkernel i hi) fun j hj => hbelow j (hj.trans hi)
    rw [← hfits i hi, ← Shdr.area_below_iff hcopied, ← hsame]
    exact hbelow i hi
  · intro hsums i
    induction i using Nat.strong_induction_on with
    | h i ih =>
      intro hi
      have hsame : found ⟨byte, []⟩ f i = checked ⟨byte, []⟩ f i :=
        found_eq_checked (hkernel i hi) fun j hj => ih j hj (hj.trans hi)
      rw [hsame]
      by_cases hcopied : (checked ⟨byte, []⟩ f i).Copied
      · rw [Shdr.area_below_iff hcopied, hfits i hi]
        exact hsums i hi hcopied
      · exact area_below_of_not_copied hcopied

end OsdevArchive.Minirighi.Elf32
