import Mathlib.Algebra.Order.Field.Power
import Mathlib.Algebra.Order.Field.Rat
import Mathlib.Data.Rat.Cast.Order
import Mathlib.Tactic.Positivity

/-!
Positive rationals truncated to a number of binary digits. `m * 2 ^ e` is the truncation of `x` if
`m` has the digits, the first of them being one, and what is cut off is less than one in the last
place.
-/

namespace OsdevArchive.Lib.Truncation

variable {p m m' : Nat} {e e' : ℤ} {x : ℚ}

/-- `x` truncated to `p + 1` binary digits. -/
structure Truncated (p : Nat) (x : ℚ) (m : Nat) (e : ℤ) : Prop where
  low : 2 ^ p ≤ m
  high : m < 2 ^ (p + 1)
  le : (m : ℚ) * 2 ^ e ≤ x
  lt : x < (m + 1) * 2 ^ e

theorem two_zpow_pos (e : ℤ) : (0 : ℚ) < 2 ^ e := zpow_pos two_pos e

theorem zpow_natCast_add (p : Nat) (e : ℤ) : (2 : ℚ) ^ (e + p) = 2 ^ p * 2 ^ e := by
  rw [zpow_add₀ two_ne_zero, zpow_natCast, mul_comm]

/-- The place of the first digit is within the value. -/
theorem Truncated.pow_le (h : Truncated p x m e) : (2 : ℚ) ^ (e + p) ≤ x := by
  have hm : (2 : ℚ) ^ p ≤ m := by exact_mod_cast h.low
  calc
    (2 : ℚ) ^ (e + p) = 2 ^ p * 2 ^ e := zpow_natCast_add p e
    _ ≤ m * 2 ^ e := mul_le_mul_of_nonneg_right hm (two_zpow_pos e).le
    _ ≤ x := h.le

theorem Truncated.lt_pow (h : Truncated p x m e) : x < (2 : ℚ) ^ (e + p + 1) := by
  have hm : (m : ℚ) + 1 ≤ 2 ^ (p + 1) := by exact_mod_cast h.high
  calc
    x < (m + 1) * 2 ^ e := h.lt
    _ ≤ 2 ^ (p + 1) * 2 ^ e := mul_le_mul_of_nonneg_right hm (two_zpow_pos e).le
    _ = 2 ^ (e + p + 1) := by
      rw [← zpow_natCast_add, Nat.cast_succ, add_assoc]

theorem Truncated.exponent_le (h : Truncated p x m e) (h' : Truncated p x m' e') : e ≤ e' := by
  have hpow : (2 : ℚ) ^ (e + p) < 2 ^ (e' + p + 1) := h.pow_le.trans_lt h'.lt_pow
  have hexp := (zpow_lt_zpow_iff_right₀ one_lt_two).mp hpow
  omega

theorem Truncated.digits_le (h : Truncated p x m e) (h' : Truncated p x m' e) : m ≤ m' := by
  have hlt : (m : ℚ) * 2 ^ e < (m' + 1) * 2 ^ e := h.le.trans_lt h'.lt
  have hdigits : (m : ℚ) < m' + 1 := lt_of_mul_lt_mul_right hlt (two_zpow_pos e).le
  exact Nat.lt_succ_iff.mp (by exact_mod_cast hdigits)

/-- A value has one truncation. -/
theorem Truncated.unique (h : Truncated p x m e) (h' : Truncated p x m' e') :
    m = m' ∧ e = e' := by
  obtain rfl : e = e' := le_antisymm (h.exponent_le h') (h'.exponent_le h)
  exact ⟨Nat.le_antisymm (h.digits_le h') (h'.digits_le h), rfl⟩

/-- Powers of two change the exponent only. -/
theorem Truncated.scale (h : Truncated p x m e) (k : ℤ) : Truncated p (x * 2 ^ k) m (e + k) := by
  have hpow : (2 : ℚ) ^ (e + k) = 2 ^ e * 2 ^ k := zpow_add₀ two_ne_zero e k
  refine ⟨h.low, h.high, ?_, ?_⟩
  · rw [hpow, ← mul_assoc]
    exact mul_le_mul_of_nonneg_right h.le (two_zpow_pos k).le
  · rw [hpow, ← mul_assoc]
    exact mul_lt_mul_of_pos_right h.lt (two_zpow_pos k)

/-- The quotient of two numbers is truncated by their integer division. -/
theorem truncated_div {a b : Nat} (hb : 0 < b) (hlow : 2 ^ p ≤ a / b)
    (hhigh : a / b < 2 ^ (p + 1)) : Truncated p ((a : ℚ) / b) (a / b) 0 := by
  have hb' : (0 : ℚ) < b := by exact_mod_cast hb
  refine ⟨hlow, hhigh, ?_, ?_⟩
  · rw [zpow_zero, mul_one, le_div_iff₀ hb']
    exact_mod_cast Nat.div_mul_le_self a b
  · rw [zpow_zero, mul_one, div_lt_iff₀ hb']
    exact_mod_cast (Nat.div_lt_iff_lt_mul hb).mp (Nat.lt_succ_self (a / b))

/-- A number is truncated by the digits behind which there are `k` more. -/
theorem truncated_nat {n k : Nat} (hlow : 2 ^ (p + k) ≤ n) (hhigh : n < 2 ^ (p + k + 1)) :
    Truncated p n (n / 2 ^ k) k := by
  have hk : 0 < 2 ^ k := Nat.two_pow_pos k
  have hdiv := truncated_div (p := p) (a := n) hk
    ((Nat.le_div_iff_mul_le hk).mpr (by rwa [← pow_add]))
    ((Nat.div_lt_iff_lt_mul hk).mpr (by rwa [← pow_add, Nat.add_right_comm]))
  have hscale := hdiv.scale k
  rwa [zero_add, zpow_natCast, Nat.cast_pow, Nat.cast_ofNat,
    div_mul_cancel₀ _ (pow_ne_zero k two_ne_zero)] at hscale

end OsdevArchive.Lib.Truncation
