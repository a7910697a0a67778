import Mathlib.Algebra.GroupWithZero.Nat
import Mathlib.Algebra.Order.BigOperators.Group.List
import Mathlib.Tactic.Common

/-!
Sixteen-bit one's complement sums, as checksums of packets use them. `fold16` is
the value of a sum once all carries have been added back: it keeps the residue
modulo 65535, and it is zero only for zero. A 32-bit accumulator that adds its
carries back now and then computes the same value.
-/

namespace OsdevArchive.Lib.OnesComplement

/-- The 16-bit one's complement value of a sum. -/
def fold16 (n : Nat) : Nat := if n = 0 then 0 else (n - 1) % 65535 + 1

/-- One round of adding the carries back. -/
def addCarries (n : Nat) : Nat := n % 65536 + n / 65536

/-- Adding the carries back while there are any, for at most so many rounds. -/
def carries : Nat → Nat → Nat
  | 0, n => n
  | rounds + 1, n => if n / 65536 = 0 then n else carries rounds (addCarries n)

/-- Adding a word to a 32-bit accumulator. When the top bit is set the carries are
added back, so that the next word does not overflow it. -/
def addWord (sum word : Nat) : Nat :=
  if (sum + word) % 2 ^ 32 / 2 ^ 31 % 2 = 1 then addCarries ((sum + word) % 2 ^ 32)
  else (sum + word) % 2 ^ 32

/-- The accumulator after a list of words. -/
def accumulate (words : List Nat) : Nat := words.foldl addWord 0

variable {m n : Nat}

theorem fold16_lt : fold16 n < 65536 := by
  unfold fold16
  split <;> omega

theorem fold16_of_lt (h : n < 65536) : fold16 n = n := by
  unfold fold16
  split <;> omega

/-- The value depends on the residue and on whether the sum is zero. -/
theorem fold16_congr (hmod : n % 65535 = m % 65535) (hzero : n = 0 ↔ m = 0) :
    fold16 n = fold16 m := by
  unfold fold16
  split
  · rename_i hn
    rw [if_pos (hzero.mp hn)]
  · rename_i hn
    rw [if_neg fun hm => hn (hzero.mpr hm)]
    omega

theorem addCarries_mod : addCarries n % 65535 = n % 65535 := by
  unfold addCarries
  omega

theorem addCarries_eq_zero : addCarries n = 0 ↔ n = 0 := by
  unfold addCarries
  omega

theorem fold16_addCarries : fold16 (addCarries n) = fold16 n :=
  fold16_congr addCarries_mod addCarries_eq_zero

theorem fold16_carries (rounds : Nat) : fold16 (carries rounds n) = fold16 n := by
  induction rounds generalizing n with
  | zero => rfl
  | succ rounds ih =>
      rw [carries]
      split
      · rfl
      · exact ih.trans fold16_addCarries

theorem carries_of_lt (h : n < 65536) (rounds : Nat) : carries rounds n = n := by
  cases rounds with
  | zero => rfl
  | succ rounds => rw [carries, if_pos (Nat.div_eq_of_lt h)]

theorem carries_succ (rounds : Nat) : carries (rounds + 1) n = carries rounds (addCarries n) := by
  rw [carries]
  split
  · rename_i h
    have hlt : n < 65536 := by omega
    have heq : addCarries n = n := by
      unfold addCarries
      omega
    rw [heq, carries_of_lt hlt]
  · rfl

/-- Three rounds leave no carry in any 32-bit sum: the loop has ended by then. -/
theorem carries_eq (h : n < 2 ^ 32) : carries 3 n = fold16 n := by
  have hone : addCarries n ≤ 131070 := by
    unfold addCarries
    omega
  have htwo : addCarries (addCarries n) ≤ 65536 := by
    rw [addCarries]
    omega
  have hthree : addCarries (addCarries (addCarries n)) < 65536 := by
    rw [addCarries]
    omega
  have hlt : carries 3 n < 65536 := by
    rw [carries_succ, carries_succ, carries_succ, carries]
    exact hthree
  rw [← fold16_carries 3, fold16_of_lt hlt]

/-- One word: the top bit is clear again, the residue is that of the sum, and so is
being zero. -/
theorem addWord_spec {sum word : Nat} (hsum : sum < 2 ^ 31) (hword : word < 65536) :
    addWord sum word < 2 ^ 31 ∧ addWord sum word % 65535 = (sum + word) % 65535 ∧
      (addWord sum word = 0 ↔ sum + word = 0) := by
  unfold addWord
  rw [Nat.mod_eq_of_lt (by omega : sum + word < 2 ^ 32)]
  split
  · refine ⟨?_, addCarries_mod, addCarries_eq_zero⟩
    unfold addCarries
    omega
  · exact ⟨by omega, rfl, Iff.rfl⟩

/-- The accumulator stays below 2^31, keeps the residue of the sum, and is zero only
if the sum is. -/
theorem foldl_addWord (words : List Nat) (sum : Nat) (hsum : sum < 2 ^ 31)
    (hwords : ∀ word ∈ words, word < 65536) :
    words.foldl addWord sum < 2 ^ 31 ∧
      words.foldl addWord sum % 65535 = (sum + words.sum) % 65535 ∧
      (words.foldl addWord sum = 0 ↔ sum + words.sum = 0) := by
  induction words generalizing sum with
  | nil => exact ⟨hsum, rfl, Iff.rfl⟩
  | cons word rest ih =>
      obtain ⟨hword, hrest⟩ := List.forall_mem_cons.mp hwords
      have hadd := addWord_spec hsum hword
      obtain ⟨hlt, hmod, hzero⟩ := ih (addWord sum word) hadd.1 hrest
      rw [List.foldl_cons, List.sum_cons]
      refine ⟨hlt, ?_, ?_⟩
      · rw [hmod, Nat.add_mod, hadd.2.1, ← Nat.add_mod, Nat.add_assoc]
      · rw [hzero]
        have hiff := hadd.2.2
        omega

theorem accumulate_lt {words : List Nat} (h : ∀ word ∈ words, word < 65536) :
    accumulate words < 2 ^ 31 :=
  (foldl_addWord words 0 (by decide) h).1

/-- Small sums never set the top bit, and no carries are added back. -/
theorem accumulate_eq_sum {words : List Nat} (h : words.sum < 2 ^ 31) :
    accumulate words = words.sum := by
  have hfold : ∀ (ws : List Nat) (s : Nat), s + ws.sum < 2 ^ 31 →
      ws.foldl addWord s = s + ws.sum := by
    intro ws
    induction ws with
    | nil => exact fun _ _ => rfl
    | cons word rest ih =>
      intro s hsum
      rw [List.sum_cons] at hsum ⊢
      have hword : addWord s word = s + word := by
        unfold addWord
        rw [Nat.mod_eq_of_lt (by omega : s + word < 2 ^ 32), if_neg (by omega)]
      rw [List.foldl_cons, hword, ih (s + word) (by omega), Nat.add_assoc]
  have hall := hfold words 0 (by omega)
  rwa [Nat.zero_add] at hall

/-- The accumulator may stand for the plain sum. -/
theorem fold16_accumulate_add {words : List Nat} (h : ∀ word ∈ words, word < 65536) (k : Nat) :
    fold16 (accumulate words + k) = fold16 (words.sum + k) := by
  obtain ⟨-, hmod, hzero⟩ := foldl_addWord words 0 (by decide) h
  rw [Nat.zero_add] at hmod hzero
  refine fold16_congr ?_ ?_
  · rw [Nat.add_mod, accumulate, hmod, ← Nat.add_mod]
  · unfold accumulate
    omega

theorem fold16_mod : fold16 n % 65535 = n % 65535 := by
  unfold fold16
  split <;> omega

theorem fold16_eq_iff : fold16 n = 65535 ↔ n ≠ 0 ∧ n % 65535 = 0 := by
  unfold fold16
  split <;> omega

/-- A sum to which its own complement is added checks. -/
theorem fold16_add_complement (n : Nat) : fold16 (n + (65535 - fold16 n)) = 65535 := by
  have hlt : fold16 n < 65536 := fold16_lt
  have hmod : fold16 n % 65535 = n % 65535 := fold16_mod
  have hzero : fold16 0 = 0 := rfl
  rw [fold16_eq_iff]
  refine ⟨fun hsum => ?_, by omega⟩
  obtain rfl : n = 0 := by omega
  omega

/-- Less than a full round added shows. -/
theorem fold16_add_eq_iff {k : Nat} (hk : k < 65535) : fold16 (n + k) = fold16 n ↔ k = 0 := by
  unfold fold16
  split <;> split <;> omega

/-! ### Word by word -/

/-- The one's complement sum of words: each is added with an end-around carry. -/
def onesSum (words : List Nat) : Nat := words.foldl (fun sum word => addCarries (sum + word)) 0

/-- Adding the carries at the end or after each word is the same. -/
theorem onesSum_eq {words : List Nat} (h : ∀ word ∈ words, word < 65536) :
    onesSum words = fold16 words.sum := by
  have hfold : ∀ (ws : List Nat) (s : Nat), (∀ word ∈ ws, word < 65536) →
      ws.foldl (fun sum word => addCarries (sum + word)) (fold16 s) = fold16 (s + ws.sum) := by
    intro ws
    induction ws with
    | nil => exact fun _ _ => rfl
    | cons word rest ih =>
      intro s hws
      obtain ⟨hword, hrest⟩ := List.forall_mem_cons.mp hws
      have hstep : addCarries (fold16 s + word) = fold16 (s + word) := by
        have hlt : fold16 s < 65536 := fold16_lt
        have hsmall : addCarries (fold16 s + word) < 65536 := by
          unfold addCarries
          omega
        have hmod : fold16 s % 65535 = s % 65535 := fold16_mod
        have hzero : fold16 s = 0 ↔ s = 0 := by
          unfold fold16
          split <;> omega
        rw [← fold16_of_lt hsmall, fold16_addCarries]
        exact fold16_congr (by omega) (by omega)
      rw [List.foldl_cons, hstep, ih _ hrest, List.sum_cons, Nat.add_assoc]
  have hsum := hfold words 0 h
  rwa [Nat.zero_add] at hsum

end OsdevArchive.Lib.OnesComplement
