import OsdevArchive.Lib.Bitmap
import Mathlib.Data.Finset.Card
import Mathlib.Data.Finset.Range
import Mathlib.Data.Nat.Notation

/-!
The allocation of disk blocks of SilviOS (`fs/dir.c`). Blocks are counted from one, and block
`b` is bit `b - 1` of `vet_cluster`.
-/

namespace OsdevArchive.Silvios

open OsdevArchive.Lib.Bitmap

abbrev Block := BitVec 32

/-- `my_disk.vet_cluster`. -/
abbrev VetCluster := Nat → BitVec 32

/-- `LEN_VET_CLUSTER`. -/
def lenVetCluster : Nat := 90

/-- `sizeof(unsigned int) * 8`. -/
def bitsPerWord : Nat := 32

/-- `MAX_CLUSTER`. -/
def maxCluster : Nat := 80 * 18 * 2

/-- `DISK_FULL`. -/
def diskFull : Block := 1000

/-- The inner loop of `get_first_free_block`, with the number of bits that are left. -/
def clearBit (w : BitVec 32) : Nat → Nat → Option Nat
  | 0, _ => none
  | left + 1, j => if (w >>> j) % 2#32 = 0#32 then some j else clearBit w left (j + 1)

/-- The outer loop of `get_first_free_block`, with the number of words that are left. -/
def clearBitFrom (vetCluster : VetCluster) : Nat → Nat → Option (Nat × Nat)
  | 0, _ => none
  | left + 1, i =>
    match clearBit (vetCluster i) bitsPerWord 0 with
    | some j => some (i, j)
    | none => clearBitFrom vetCluster left (i + 1)

def getFirstFreeBlock (vetCluster : VetCluster) : Block × VetCluster :=
  match clearBitFrom vetCluster lenVetCluster 0 with
  | some (i, j) =>
    (BitVec.ofNat 32 (j + i * bitsPerWord + 1),
      Function.update vetCluster i (vetCluster i + 1#32 <<< j))
  | none => (diskFull, vetCluster)

/-- A shift by `-1` is one by 31 on this processor. -/
def freeBlock (vetCluster : VetCluster) (block : Block) : VetCluster :=
  let elemento := block.toNat / bitsPerWord
  let query := (block.toNat % bitsPerWord + 31) % bitsPerWord
  Function.update vetCluster elemento (vetCluster elemento - 1#32 <<< query)

/-! ### Busy and free -/

def IsBlock (b : Block) : Prop := 1 ≤ b.toNat ∧ b.toNat ≤ maxCluster

def Busy (vetCluster : VetCluster) (b : Block) : Prop := bit vetCluster (b.toNat - 1) = true

/-- The places of the free blocks. -/
def freePlaces (vetCluster : VetCluster) : Finset Nat :=
  (Finset.range maxCluster).filter fun p => bit vetCluster p = false

/-- The number of free blocks. -/
@[irreducible] def freeNumber (vetCluster : VetCluster) : Nat := (freePlaces vetCluster).card

variable {vetCluster : VetCluster} {b c : Block} {p : Nat}

theorem mem_freePlaces : p ∈ freePlaces vetCluster ↔ p < maxCluster ∧ bit vetCluster p = false := by
  unfold freePlaces
  rw [Finset.mem_filter, Finset.mem_range]

theorem toNat_place (hp : p < maxCluster) : (BitVec.ofNat 32 (p + 1)).toNat = p + 1 := by
  unfold maxCluster at hp
  rw [BitVec.toNat_ofNat]
  exact Nat.mod_eq_of_lt (by omega)

theorem isBlock_place (hp : p < maxCluster) : IsBlock (BitVec.ofNat 32 (p + 1)) := by
  unfold IsBlock
  rw [toNat_place hp]
  omega

theorem busy_place (hp : p < maxCluster) :
    Busy vetCluster (BitVec.ofNat 32 (p + 1)) ↔ bit vetCluster p = true := by
  unfold Busy
  rw [toNat_place hp, Nat.add_sub_cancel]

theorem getLsbD_eq_false_iff (w : BitVec 32) (j : Nat) :
    (w >>> j) % 2#32 = 0#32 ↔ w.getLsbD j = false := by
  have hmod : ((w >>> j) % 2#32 = 0#32) ↔ (w >>> j).toNat % 2 = 0 := by
    rw [BitVec.toNat_eq]
    rfl
  have hbit : w.getLsbD j = (w >>> j).getLsbD 0 := by simp
  rw [hmod, hbit, BitVec.getLsbD, Nat.testBit_zero, decide_eq_false_iff_not]
  omega

theorem clearBit_some {w : BitVec 32} {left j k : Nat} (h : clearBit w left j = some k) :
    j ≤ k ∧ k < j + left ∧ w.getLsbD k = false := by
  induction left generalizing j with
  | zero => cases h
  | succ left ih =>
    unfold clearBit at h
    split at h
    · rename_i hclear
      obtain rfl := Option.some.inj h
      exact ⟨Nat.le_refl j, by omega, (getLsbD_eq_false_iff w j).mp hclear⟩
    · obtain ⟨hle, hlt, hbit⟩ := ih h
      exact ⟨by omega, by omega, hbit⟩

theorem clearBit_none {w : BitVec 32} {left j : Nat} (h : clearBit w left j = none) (k : Nat)
    (hle : j ≤ k) (hlt : k < j + left) : w.getLsbD k = true := by
  induction left generalizing j with
  | zero => omega
  | succ left ih =>
    unfold clearBit at h
    split at h
    · cases h
    · rename_i hset
      obtain rfl | hlt' := Nat.eq_or_lt_of_le hle
      · rw [getLsbD_eq_false_iff] at hset
        simpa using hset
      · exact ih h hlt' (by omega)

theorem clearBitFrom_some {left i k j : Nat} (h : clearBitFrom vetCluster left i = some (k, j)) :
    k < i + left ∧ j < bitsPerWord ∧ (vetCluster k).getLsbD j = false := by
  induction left generalizing i with
  | zero => cases h
  | succ left ih =>
    unfold clearBitFrom at h
    split at h
    · rename_i hclear
      obtain ⟨rfl, rfl⟩ := Prod.mk.inj (Option.some.inj h)
      obtain ⟨-, hlt, hbit⟩ := clearBit_some hclear
      exact ⟨by omega, by omega, hbit⟩
    · obtain ⟨hlt, hj, hbit⟩ := ih h
      exact ⟨by omega, hj, hbit⟩

theorem clearBitFrom_none {left i : Nat} (h : clearBitFrom vetCluster left i = none) (k j : Nat)
    (hle : i ≤ k) (hlt : k < i + left) (hj : j < bitsPerWord) :
    (vetCluster k).getLsbD j = true := by
  induction left generalizing i with
  | zero => omega
  | succ left ih =>
    unfold clearBitFrom at h
    split at h
    · cases h
    · rename_i hset
      obtain rfl | hlt' := Nat.eq_or_lt_of_le hle
      · exact clearBit_none hset j (Nat.zero_le j) (by omega)
      · exact ih h hlt' (by omega)

/-- `get_first_free_block` takes a free block, if there is one. -/
theorem getFirstFreeBlock_cases (vetCluster : VetCluster) :
    (∃ p ∈ freePlaces vetCluster, getFirstFreeBlock vetCluster =
      (BitVec.ofNat 32 (p + 1), mask (· + ·) vetCluster p)) ∨
    freePlaces vetCluster = ∅ ∧ getFirstFreeBlock vetCluster = (diskFull, vetCluster) := by
  unfold getFirstFreeBlock
  split
  · rename_i i j hfound
    obtain ⟨hi, hj, hbit⟩ := clearBitFrom_some hfound
    unfold lenVetCluster at hi
    unfold bitsPerWord at hj ⊢
    have hdiv : (j + i * 32) / 32 = i := by omega
    have hmod : (j + i * 32) % 32 = j := by omega
    refine .inl ⟨j + i * 32, mem_freePlaces.mpr ⟨by unfold maxCluster; omega, ?_⟩, ?_⟩
    · unfold bit
      rw [hdiv, hmod, hbit]
    · unfold mask
      rw [hdiv, hmod]
  · rename_i hnone
    refine .inr ⟨?_, rfl⟩
    apply Finset.eq_empty_of_forall_notMem
    intro p hp
    obtain ⟨hlt, hclear⟩ := mem_freePlaces.mp hp
    unfold maxCluster at hlt
    have hset := clearBitFrom_none hnone (p / 32) (p % 32) (Nat.zero_le _)
      (by unfold lenVetCluster; omega) (by unfold bitsPerWord; omega)
    exact absurd (hset.symm.trans hclear) (by decide)

theorem freePlaces_mask (hp : p ∈ freePlaces vetCluster) :
    freePlaces (mask (· + ·) vetCluster p) = (freePlaces vetCluster).erase p := by
  have hclear := (mem_freePlaces.mp hp).2
  ext q
  rw [Finset.mem_erase, mem_freePlaces, mem_freePlaces, mask_add hclear, bit_or (by decide)]
  rw [Bool.or_eq_false_iff, decide_eq_false_iff_not]
  constructor
  · rintro ⟨hlt, hq, hne⟩
    exact ⟨hne, hlt, hq⟩
  · rintro ⟨hne, hlt, hq⟩
    exact ⟨hlt, hq, hne⟩

/-! ### What the operations promise -/

/-- `get_first_free_block` returns a block that was free and marks exactly that one. -/
def Takes (vetCluster : VetCluster) : Prop :=
  IsBlock (getFirstFreeBlock vetCluster).1 ∧ ¬ Busy vetCluster (getFirstFreeBlock vetCluster).1 ∧
    ∀ c, IsBlock c → (Busy (getFirstFreeBlock vetCluster).2 c ↔
      Busy vetCluster c ∨ c = (getFirstFreeBlock vetCluster).1)

/-- `free_block` marks exactly that block free. -/
def Frees (vetCluster : VetCluster) (b : Block) : Prop :=
  ∀ c, IsBlock c → (Busy (freeBlock vetCluster b) c ↔ Busy vetCluster c ∧ c ≠ b)

theorem place_inj (hb : IsBlock b) (hc : IsBlock c) : c.toNat - 1 = b.toNat - 1 ↔ c = b := by
  unfold IsBlock at hb hc
  rw [BitVec.toNat_eq]
  omega

theorem takes_of_free (h : (freePlaces vetCluster).Nonempty) : Takes vetCluster := by
  obtain ⟨p, hp, hfirst⟩ | ⟨hempty, -⟩ := getFirstFreeBlock_cases vetCluster
  · obtain ⟨hlt, hclear⟩ := mem_freePlaces.mp hp
    unfold Takes
    rw [hfirst]
    refine ⟨isBlock_place hlt, ?_, fun c hc => ?_⟩
    · rw [busy_place hlt, hclear]
      decide
    · have hplace := place_inj (isBlock_place hlt) hc
      rw [toNat_place hlt, Nat.add_sub_cancel] at hplace
      unfold Busy
      dsimp only
      rw [mask_add hclear, bit_or (by decide), Bool.or_eq_true, decide_eq_true_iff, hplace]
  · rw [hempty] at h
    exact absurd h Finset.not_nonempty_empty

theorem takes_iff : Takes vetCluster ↔ ∃ b, IsBlock b ∧ ¬ Busy vetCluster b := by
  constructor
  · intro h
    exact ⟨_, h.1, h.2.1⟩
  · rintro ⟨b, hb, hfree⟩
    apply takes_of_free
    refine ⟨b.toNat - 1, mem_freePlaces.mpr ⟨?_, by simpa [Busy] using hfree⟩⟩
    unfold IsBlock at hb
    omega

theorem IsBlock.ne_zero (h : IsBlock b) : b ≠ 0 := by
  rintro rfl
  exact absurd h.1 (by decide)

/-- As long as a block is free, the next one is taken. -/
theorem takes_next (h : 0 < freeNumber vetCluster) :
    ∃ b vetCluster', getFirstFreeBlock vetCluster = (b, vetCluster') ∧ IsBlock b ∧
      ¬ Busy vetCluster b ∧
      (∀ c, IsBlock c → (Busy vetCluster' c ↔ Busy vetCluster c ∨ c = b)) ∧
      freeNumber vetCluster' + 1 = freeNumber vetCluster := by
  unfold freeNumber at h ⊢
  have hnonempty := Finset.card_pos.mp h
  obtain ⟨hblock, hfree, hmarks⟩ := takes_of_free hnonempty
  refine ⟨(getFirstFreeBlock vetCluster).1, (getFirstFreeBlock vetCluster).2, rfl, hblock, hfree,
    hmarks, ?_⟩
  obtain ⟨p, hp, hfirst⟩ | ⟨hempty, -⟩ := getFirstFreeBlock_cases vetCluster
  · rw [hfirst, freePlaces_mask hp, Finset.card_erase_of_mem hp]
    exact Nat.sub_add_cancel h
  · rw [hempty] at hnonempty
    exact absurd hnonempty Finset.not_nonempty_empty

/-- A block that ends a word of the map: its bit is looked for in the next word. -/
def EndsWord (b : Block) : Prop := b.toNat % bitsPerWord = 0

instance instDecidableEndsWord (b : Block) : Decidable (EndsWord b) :=
  inferInstanceAs (Decidable (_ = _))

theorem freeBlock_eq (hb : IsBlock b) (h : ¬ EndsWord b) :
    freeBlock vetCluster b = mask (· - ·) vetCluster (b.toNat - 1) := by
  unfold EndsWord bitsPerWord at h
  unfold IsBlock at hb
  have hdiv : b.toNat / 32 = (b.toNat - 1) / 32 := by omega
  have hmod : (b.toNat % 32 + 31) % 32 = (b.toNat - 1) % 32 := by omega
  unfold freeBlock mask bitsPerWord
  rw [hdiv, hmod]

theorem frees_iff (hb : IsBlock b) (hbusy : Busy vetCluster b) :
    Frees vetCluster b ↔ ¬ EndsWord b := by
  constructor
  · intro h hends
    refine absurd rfl ((h b hb).mp ?_).2
    -- the word of the block is not written
    unfold EndsWord bitsPerWord at hends
    unfold IsBlock at hb
    have hword : (b.toNat - 1) / 32 ≠ b.toNat / 32 := by omega
    unfold Busy bit freeBlock bitsPerWord
    rw [Function.update_of_ne hword]
    exact hbusy
  · intro h c hc
    have hplace := place_inj hb hc
    unfold Busy
    rw [freeBlock_eq hb h, mask_sub (by decide) hbusy, bit_xor (by decide)]
    by_cases heq : c = b
    · rw [decide_eq_true (hplace.mpr heq), heq]
      simp only [ne_eq, not_true_eq_false, and_false, iff_false]
      rw [hbusy]
      decide
    · rw [decide_eq_false fun hp => heq (hplace.mp hp)]
      simp [heq]

end OsdevArchive.Silvios
