import Mathlib.Data.BitVec
import Mathlib.Logic.Function.Basic

/-!
A bitmap in words of `w` bits. Single bits are set and inverted by masks, and ranges of bits
one after the other.
-/

namespace OsdevArchive.Lib.Bitmap

variable {w : Nat} {m : Nat → BitVec w} {p q n : Nat}

/-- Bit `p` of the map. -/
def bit (m : Nat → BitVec w) (p : Nat) : Bool := (m (p / w)).getLsbD (p % w)

/-- The word of a bit with its mask put in by `op`. -/
def mask (op : BitVec w → BitVec w → BitVec w) (m : Nat → BitVec w) (p : Nat) : Nat → BitVec w :=
  Function.update m (p / w) (op (m (p / w)) (1#w <<< (p % w)))

/-- A range of bits, from the first one on. -/
def maskRange (op : BitVec w → BitVec w → BitVec w) (m : Nat → BitVec w) (p : Nat) :
    Nat → Nat → BitVec w
  | 0 => m
  | n + 1 => maskRange op (mask op m p) (p + 1) n

theorem getLsbD_one_shiftLeft {i k : Nat} (hi : i < w) :
    (1#w <<< k).getLsbD i = decide (i = k) := by
  rw [BitVec.getLsbD_shiftLeft, BitVec.getLsbD_one]
  by_cases hk : i = k
  · subst hk
    simp
    omega
  · rw [decide_eq_false hk]
    simp
    omega

variable (hw : 0 < w)
include hw

omit hw in
theorem same_word (h : q / w = p / w) : q % w = p % w ↔ q = p := by
  constructor
  · intro hmod
    rw [← Nat.div_add_mod q w, h, hmod, Nat.div_add_mod]
  · rintro rfl
    rfl

theorem bit_or : bit (mask (· ||| ·) m p) q = (bit m q || decide (q = p)) := by
  unfold bit mask
  rw [Function.update_apply]
  split
  · rename_i hword
    rw [BitVec.getLsbD_or, getLsbD_one_shiftLeft (Nat.mod_lt q hw), hword]
    congr 1
    exact decide_eq_decide.mpr (same_word hword)
  · rename_i hword
    have hne : q ≠ p := fun heq => hword (congrArg (· / w) heq)
    rw [decide_eq_false hne, Bool.or_false]

theorem bit_xor : bit (mask (· ^^^ ·) m p) q = (bit m q ^^ decide (q = p)) := by
  unfold bit mask
  rw [Function.update_apply]
  split
  · rename_i hword
    rw [BitVec.getLsbD_xor, getLsbD_one_shiftLeft (Nat.mod_lt q hw), hword]
    congr 1
    exact decide_eq_decide.mpr (same_word hword)
  · rename_i hword
    have hne : q ≠ p := fun heq => hword (congrArg (· / w) heq)
    rw [decide_eq_false hne, Bool.xor_false]

omit hw in
theorem and_one_shiftLeft {x : BitVec w} {k : Nat} (h : x.getLsbD k = false) :
    x &&& 1#w <<< k = 0#w := by
  apply BitVec.eq_of_getLsbD_eq
  intro i hi
  rw [BitVec.getLsbD_and, getLsbD_one_shiftLeft hi, BitVec.getLsbD_zero]
  by_cases hk : i = k
  · rw [hk, h, Bool.false_and]
  · rw [decide_eq_false hk, Bool.and_false]

omit hw in
/-- Adding the mask of a clear bit sets it. -/
theorem mask_add (h : bit m p = false) : mask (· + ·) m p = mask (· ||| ·) m p := by
  exact congrArg (Function.update m (p / w))
    (BitVec.add_eq_or_of_and_eq_zero _ _ (and_one_shiftLeft h))

/-- Subtracting the mask of a set bit clears it. -/
theorem mask_sub (h : bit m p = true) : mask (· - ·) m p = mask (· ^^^ ·) m p := by
  have hclear : (m (p / w) ^^^ 1#w <<< (p % w)).getLsbD (p % w) = false := by
    rw [BitVec.getLsbD_xor, getLsbD_one_shiftLeft (Nat.mod_lt p hw), decide_eq_true rfl]
    rw [show (m (p / w)).getLsbD (p % w) = true from h]
    rfl
  have hsum : (m (p / w) ^^^ 1#w <<< (p % w)) + 1#w <<< (p % w) = m (p / w) := by
    rw [BitVec.add_eq_or_of_and_eq_zero _ _ (and_one_shiftLeft hclear)]
    apply BitVec.eq_of_getLsbD_eq
    intro i hi
    rw [BitVec.getLsbD_or, BitVec.getLsbD_xor, getLsbD_one_shiftLeft hi]
    by_cases hk : i = p % w
    · rw [hk, decide_eq_true rfl, Bool.or_true]
      exact h.symm
    · rw [decide_eq_false hk, Bool.xor_false, Bool.or_false]
  exact congrArg (Function.update m (p / w)) (BitVec.sub_eq_iff_eq_add.mpr hsum.symm)

/-- A range of bits is set. -/
theorem bit_orRange :
    bit (maskRange (· ||| ·) m p n) q = (bit m q || decide (p ≤ q ∧ q < p + n)) := by
  induction n generalizing m p with
  | zero =>
    rw [decide_eq_false (by omega), Bool.or_false]
    rfl
  | succ n ih =>
    rw [maskRange, ih, bit_or hw, Bool.or_assoc, ← Bool.decide_or]
    congr 1
    exact decide_eq_decide.mpr (by omega)

/-- A range of bits is inverted. -/
theorem bit_xorRange :
    bit (maskRange (· ^^^ ·) m p n) q = (bit m q ^^ decide (p ≤ q ∧ q < p + n)) := by
  induction n generalizing m p with
  | zero =>
    rw [decide_eq_false (by omega), Bool.xor_false]
    rfl
  | succ n ih =>
    rw [maskRange, ih, bit_xor hw, Bool.xor_assoc]
    congr 1
    by_cases hq : q = p
    · rw [decide_eq_true hq, decide_eq_false (by omega), decide_eq_true (by omega)]
      rfl
    · rw [decide_eq_false hq, Bool.false_xor]
      exact decide_eq_decide.mpr (by omega)

end OsdevArchive.Lib.Bitmap
