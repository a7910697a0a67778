import Mathlib.Data.Nat.Bitwise
import Mathlib.Tactic.IntervalCases

/-!
Machine words and the memory map of minirighi. Words are 32-bit naturals;
`wrap` is the reduction that every arithmetic operation of the source performs,
and `not32` is the complement `~`. The constants are those of `const.h`,
`paging.h` and `kernel_map.h`.
-/

namespace OsdevArchive.Minirighi

/-- Reduction modulo the word size. -/
def wrap (n : Nat) : Nat := n % 2 ^ 32

/-- The complement of a word. -/
def not32 (n : Nat) : Nat := 2 ^ 32 - 1 - n

/-- `a - b` on words. -/
def sub32 (a b : Nat) : Nat := wrap (a + (2 ^ 32 - b))

def null : Nat := 0

def pageSize : Nat := 4096

/-- `PAGE_ALIGN`: round an address down to a page boundary. -/
def pageAlign (addr : Nat) : Nat := addr &&& sub32 0 pageSize

/-- `PAGE_ALIGN_UP`: round an address up to a page boundary. -/
def pageAlignUp (addr : Nat) : Nat := wrap (addr + pageSize - 1) &&& sub32 0 pageSize

/-- `ALIGN_UP(addr, align)`. -/
def alignUp (addr align : Nat) : Nat := wrap (addr + align - 1) &&& not32 (sub32 align 1)

/-- `K_VIR_START`: user addresses lie below it. -/
def kVirStart : Nat := 0xC0000000

def kHeapStart : Nat := 0xD0000000

def kHeapEnd : Nat := 0xE0000000

theorem wrap_of_lt {n : Nat} (h : n < 2 ^ 32) : wrap n = n := Nat.mod_eq_of_lt h

theorem wrap_lt (n : Nat) : wrap n < 2 ^ 32 := Nat.mod_lt _ (by decide)

theorem sub32_of_le {a b : Nat} (hab : b ≤ a) (ha : a < 2 ^ 32) : sub32 a b = a - b := by
  unfold sub32 wrap
  omega

/-- A mask and its complement split a word into two parts that add up to it. -/
theorem and_add_and_not32 {z m : Nat} (hz : z < 2 ^ 32) (hm : m < 2 ^ 32) :
    (z &&& m) + (z &&& not32 m) = z := by
  let x := BitVec.ofNat 32 z
  let y := BitVec.ofNat 32 m
  have hdisjoint : (x &&& y) &&& (x &&& ~~~y) = 0#32 := by
    ext i hi
    simp only [BitVec.getElem_and, BitVec.getElem_not, BitVec.getElem_zero]
    cases x[i] <;> cases y[i] <;> rfl
  have hjoin : (x &&& y) + (x &&& ~~~y) = x := by
    rw [BitVec.add_eq_or_of_and_eq_zero _ _ hdisjoint]
    ext i hi
    simp only [BitVec.getElem_or, BitVec.getElem_and, BitVec.getElem_not]
    cases x[i] <;> cases y[i] <;> rfl
  have hsum := congrArg BitVec.toNat hjoin
  rw [BitVec.toNat_add_of_and_eq_zero hdisjoint] at hsum
  have hzmod : z % 4294967296 = z := Nat.mod_eq_of_lt hz
  have hmmod : m % 4294967296 = m := Nat.mod_eq_of_lt hm
  simpa [x, y, not32, hzmod, hmmod] using hsum

/-- Masking off the low four bits, the rounding of the kernel allocator. -/
theorem and_neg_sixteen {n : Nat} (hn : n < 2 ^ 32) : n &&& sub32 0 16 = n - n % 16 := by
  have hsplit := and_add_and_not32 (m := 15) hn (by decide)
  have hlow : n &&& 15 = n % 16 := Nat.and_two_pow_sub_one_eq_mod n 4
  have hmask : sub32 0 16 = not32 15 := by decide
  rw [hmask]
  omega

theorem pageAlign_eq {n : Nat} (hn : n < 2 ^ 32) : pageAlign n = n - n % pageSize := by
  have hsplit := and_add_and_not32 (m := 4095) hn (by decide)
  have hlow : n &&& 4095 = n % 4096 := Nat.and_two_pow_sub_one_eq_mod n 12
  have hmask : sub32 0 pageSize = not32 4095 := by decide
  rw [pageAlign, hmask]
  unfold pageSize
  omega

/-- Rounding up, of an address in the last page too. -/
theorem pageAlignUp_eq {n : Nat} (hn : n < 2 ^ 32) : pageAlignUp n =
    if n ≤ 2 ^ 32 - pageSize then (n + 4095) / 4096 * 4096 else 0 := by
  have hmask : pageAlignUp n = pageAlign (wrap (n + 4095)) := rfl
  rw [hmask, pageAlign_eq (wrap_lt _)]
  unfold wrap pageSize
  split <;> omega

theorem le_pageAlignUp {n : Nat} (hn : n + pageSize ≤ 2 ^ 32) : n ≤ pageAlignUp n := by
  unfold pageSize at hn
  have hsplit := and_add_and_not32 (z := n + 4095) (m := 4095) (by omega) (by decide)
  have hlow : (n + 4095) &&& 4095 ≤ 4095 := Nat.and_le_right
  have hmask : sub32 0 pageSize = not32 4095 := by decide
  rw [pageAlignUp, hmask, show n + pageSize - 1 = n + 4095 from rfl, wrap_of_lt (by omega)]
  omega

/-- `ALIGN_UP` only clears bits of the sum that it forms first. -/
theorem alignUp_le_wrap (addr align : Nat) : alignUp addr align ≤ wrap (addr + align - 1) := by
  unfold alignUp
  exact Nat.and_le_left

/-- `ALIGN_UP` never moves an address down, moves it by less than the alignment,
and keeps it a multiple of 16, whatever the alignment is. -/
theorem alignUp_spec {addr align : Nat} (hpos : 0 < align) (halign : align < 2 ^ 32)
    (hwrap : addr + align - 1 < 2 ^ 32) (haddr : addr % 16 = 0) :
    addr ≤ alignUp addr align ∧ alignUp addr align ≤ addr + align - 1 ∧
      alignUp addr align % 16 = 0 := by
  have hmask : sub32 align 1 = align - 1 := sub32_of_le hpos halign
  have hm : align - 1 < 2 ^ 32 := by omega
  have hz : wrap (addr + align - 1) = addr + align - 1 := wrap_of_lt hwrap
  have hsplit := and_add_and_not32 (z := addr + align - 1) (m := align - 1) hwrap hm
  have hlow : (addr + align - 1) &&& (align - 1) ≤ align - 1 := Nat.and_le_right
  rw [alignUp, hmask, hz]
  refine ⟨by omega, by omega, ?_⟩
  -- The low nibbles of the sum and of the mask agree, so the mask clears them.
  rw [show (16 : Nat) = 2 ^ 4 from rfl, Nat.and_mod_two_pow]
  have hsum : (addr + align - 1) % 2 ^ 4 = (align - 1) % 16 := by omega
  have hnot : not32 (align - 1) % 2 ^ 4 = 15 - (align - 1) % 16 := by
    unfold not32
    omega
  rw [hsum, hnot]
  have hnibble : (align - 1) % 16 < 16 := Nat.mod_lt _ (by decide)
  generalize (align - 1) % 16 = c at hnibble
  interval_cases c <;> rfl

end OsdevArchive.Minirighi
