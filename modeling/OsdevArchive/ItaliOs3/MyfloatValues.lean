import OsdevArchive.ItaliOs3.Myfloat
import OsdevArchive.Lib.Truncation
import Mathlib.Algebra.Order.Ring.Abs

/-!
The values of the floating point numbers of ItaliOs3, and what is expected of a result: the sign of
the exact one, and its first 64 digits.
-/

namespace OsdevArchive.ItaliOs3.Myfloat

open OsdevArchive.Lib.Truncation

/-- The exponent of the last digit. -/
def MyDouble.last (a : MyDouble) : ℤ := a.exp.toNat - bias80 - 63

/-- A value with a sign. -/
def signed (sign : Bool) (x : ℚ) : ℚ := if sign then -x else x

def MyDouble.value (a : MyDouble) : ℚ := signed a.sign (a.number.toNat * 2 ^ a.last)

/-- The first digit is one. -/
def Normal (a : MyDouble) : Prop := 2 ^ 63 ≤ a.number.toNat

/-- The exponent of a value that the last of its 64 digits has fits into its field. -/
def InRange (x : ℚ) : Prop :=
  ∃ m e, Truncated 63 |x| m e ∧ 0 ≤ e + 63 + bias80 ∧ e + 63 + bias80 < 2 ^ 15

/-- The sign and the normalised truncation of a value. -/
def IsTruncation (x : ℚ) (r : MyDouble) : Prop :=
  (r.sign = true ↔ x < 0) ∧ Truncated 63 |x| r.number.toNat r.last

/-- The operation returns it. -/
def Returns (x : ℚ) (ret : Option MyDouble) : Prop := ∃ r, ret = some r ∧ IsTruncation x r

variable {x y : ℚ} {r : MyDouble} {m : Nat} {e : ℤ} {sign : Bool}

theorem abs_signed (hx : 0 < x) (sign : Bool) : |signed sign x| = x := by
  cases sign
  · exact abs_of_pos hx
  · exact (abs_neg x).trans (abs_of_pos hx)

theorem signed_neg_iff (hx : 0 < x) (sign : Bool) : signed sign x < 0 ↔ sign = true := by
  cases sign
  · exact iff_of_false hx.le.not_gt Bool.false_ne_true
  · exact iff_of_true (neg_lt_zero.mpr hx) rfl

theorem ofInt_toNat (b : BitVec 15) : BitVec.ofInt 15 b.toNat = b := by
  rw [BitVec.ofInt_natCast, BitVec.ofNat_toNat, BitVec.setWidth_eq]

theorem exp_add (b : BitVec 15) (k : ℤ) :
    b + BitVec.ofInt 15 k = BitVec.ofInt 15 (b.toNat + k) := by
  rw [BitVec.ofInt_add, ofInt_toNat]

theorem toNat_ofInt {k : ℤ} (hlow : 0 ≤ k) (hhigh : k < 2 ^ 15) :
    ((BitVec.ofInt 15 k).toNat : ℤ) = k := by
  rw [BitVec.toNat_ofInt]
  omega

/-- The exponent of a truncation that is in range. -/
theorem InRange.bounds (h : InRange x) (ht : Truncated 63 |x| m e) :
    0 ≤ e + 63 + bias80 ∧ e + 63 + bias80 < 2 ^ 15 := by
  obtain ⟨m', e', ht', hbounds⟩ := h
  obtain ⟨-, rfl⟩ := ht.unique ht'
  exact hbounds

/-- The digits and the exponent of a truncation, if the exponent is in range. -/
theorem isTruncation_of (h : InRange x) (ht : Truncated 63 |x| m e)
    (hnumber : r.number.toNat = m) (hexp : r.exp = BitVec.ofInt 15 (e + 63 + bias80))
    (hsign : r.sign = true ↔ x < 0) : IsTruncation x r := by
  obtain ⟨hlow, hhigh⟩ := h.bounds ht
  have hlast : r.last = e := by
    unfold MyDouble.last
    rw [hexp, toNat_ofInt hlow hhigh]
    omega
  refine ⟨hsign, ?_⟩
  rw [hnumber, hlast]
  exact ht

/-- An exponent that is one off is not that of the truncation. -/
theorem not_isTruncation_of {k : ℤ} (h : InRange x) (ht : Truncated 63 |x| m e)
    (hexp : r.exp = BitVec.ofInt 15 (e + 63 + bias80 + k)) (hk : k = 1 ∨ k = -1) :
    ¬ IsTruncation x r := by
  rintro ⟨-, hr⟩
  obtain ⟨hlow, hhigh⟩ := h.bounds ht
  obtain ⟨-, hlast⟩ := hr.unique ht
  have hmod := congrArg BitVec.toNat hexp
  rw [BitVec.toNat_ofInt] at hmod
  unfold MyDouble.last at hlast
  omega

/-! ### The digits of a result -/

variable {w : Int128} {exp : BitVec 15}

/-- What the end of `somma` returns where the first digit is in the upper word. -/
theorem normalizza_some {i : Nat} (hi : primaCifra w.alto 64 = i) {d : Word}
    (hd : cifre w i = some d) : normalizza w exp sign =
      some ⟨d, BitVec.ofInt 15 (exp.toNat + (i + 1)), sign⟩ := by
  unfold normalizza
  dsimp only
  rw [hi, hd, exp_add]
  rfl

/-- Without digits in the upper word, the lower one is returned as it is. -/
theorem normalizza_basso (halto : w.alto = 0) :
    normalizza w exp sign = some ⟨w.basso, BitVec.ofInt 15 (exp.toNat + 0), sign⟩ := by
  unfold normalizza
  dsimp only
  rw [halto, primaCifra_zero, cifre_basso halto, exp_add]
  rfl

theorem normalizza_none {i : Int} (hi : primaCifra w.alto 64 = i) (hd : cifre w i = none) :
    normalizza w exp sign = none := by
  unfold normalizza
  dsimp only
  rw [hi]
  change (cifre w i).bind _ = none
  rw [hd]
  rfl

/-- A number of 128 bits whose upper word has its first digit at the place `i`. -/
theorem val_bounds {i : Nat} (hlow : 2 ^ i ≤ w.alto.toNat) (hhigh : w.alto.toNat < 2 ^ (i + 1)) :
    2 ^ (63 + (i + 1)) ≤ w.val ∧ w.val < 2 ^ (63 + (i + 1) + 1) := by
  have hbasso := w.basso.isLt
  have hval : w.val = w.alto.toNat * 2 ^ 64 + w.basso.toNat := rfl
  constructor
  · have hmul := Nat.mul_le_mul_right (2 ^ 64) hlow
    rw [← pow_add] at hmul
    rw [show 63 + (i + 1) = i + 64 by omega]
    omega
  · have hmul := Nat.mul_le_mul_right (2 ^ 64) (Nat.succ_le_of_lt hhigh)
    rw [← pow_add] at hmul
    rw [show 63 + (i + 1) + 1 = i + 1 + 64 by omega]
    omega

/-- The digits in front of the last `k` ones are a truncation, if they are 64. -/
theorem isTruncation_digits (hw : 0 < w.val)
    (hx : x = signed sign (w.val * 2 ^ ((exp.toNat : ℤ) - bias80 - 63))) (hrange : InRange x)
    {k : Nat} {d : Word} (hd : d.toNat = w.val / 2 ^ k) (hlow : 2 ^ (63 + k) ≤ w.val)
    (hhigh : w.val < 2 ^ (63 + k + 1)) :
    IsTruncation x ⟨d, BitVec.ofInt 15 (exp.toNat + k), sign⟩ := by
  have hpos : (0 : ℚ) < w.val * 2 ^ ((exp.toNat : ℤ) - bias80 - 63) :=
    mul_pos (by exact_mod_cast hw) (two_zpow_pos _)
  have habs : |x| = w.val * 2 ^ ((exp.toNat : ℤ) - bias80 - 63) := by
    rw [hx, abs_signed hpos]
  have hsign : x < 0 ↔ sign = true := by rw [hx, signed_neg_iff hpos]
  have ht := (truncated_nat (p := 63) hlow hhigh).scale ((exp.toNat : ℤ) - bias80 - 63)
  rw [← habs] at ht
  exact isTruncation_of hrange ht hd (congrArg (BitVec.ofInt 15) (by omega)) hsign.symm

/-- The end of `somma` makes the truncation of a number of 128 bits if it has 64 digits, and does
not have 128 unless the lower 64 are zeros. -/
theorem normalizza_iff (hw : 0 < w.val)
    (hx : x = signed sign (w.val * 2 ^ ((exp.toNat : ℤ) - bias80 - 63))) (hrange : InRange x) :
    Returns x (normalizza w exp sign) ↔
      2 ^ 63 ≤ w.val ∧ (w.val < 2 ^ 127 ∨ w.val % 2 ^ 64 = 0) := by
  have hupper := w.basso.isLt
  have hval : w.val = w.alto.toNat * 2 ^ 64 + w.basso.toNat := rfl
  by_cases halto : w.alto.toNat = 0
  · rw [normalizza_basso (BitVec.eq_of_toNat_eq halto)]
    constructor
    · rintro ⟨r, hr, hright⟩
      cases hr
      have hlow := hright.2.low
      dsimp only at hlow
      omega
    · rintro ⟨hlow, -⟩
      refine ⟨_, rfl, ?_⟩
      have hlast := isTruncation_digits hw hx hrange (k := 0) (d := w.basso) (by omega) hlow
        (by omega)
      rwa [Nat.cast_zero] at hlast
  · obtain ⟨i, hi, hfirst, hlow, hhigh⟩ := exists_primaCifra halto
    obtain ⟨hwlow, hwhigh⟩ := val_bounds hlow hhigh
    rcases Nat.lt_or_ge i 63 with hlt | hge
    · obtain ⟨d, hd, hnumber⟩ := cifre_some hlt hhigh
      apply iff_of_true
      · refine ⟨_, normalizza_some hfirst hd, ?_⟩
        exact_mod_cast isTruncation_digits hw hx hrange hnumber hwlow hwhigh
      · have hpow : 2 ^ (63 + (i + 1) + 1) ≤ 2 ^ 127 := Nat.pow_le_pow_right (by decide) (by omega)
        omega
    · -- The first place of the upper word: the digits would be shifted by 64 places.
      obtain rfl : i = 63 := by omega
      have hcifre := cifre_ultima w
      split at hcifre
      · rename_i hzero
        have hbasso : w.basso.toNat = 0 := by rw [hzero]; rfl
        apply iff_of_true
        · refine ⟨_, normalizza_some hfirst hcifre, ?_⟩
          exact_mod_cast isTruncation_digits hw hx hrange (k := 64) (by omega) hwlow hwhigh
        · omega
      · rename_i hne
        have hbasso : w.basso.toNat ≠ 0 := fun heq => hne (BitVec.eq_of_toNat_eq heq)
        apply iff_of_false
        · rw [normalizza_none hfirst hcifre]
          rintro ⟨r, hr, -⟩
          cases hr
        · omega

end OsdevArchive.ItaliOs3.Myfloat
