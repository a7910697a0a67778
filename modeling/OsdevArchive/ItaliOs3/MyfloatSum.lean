import OsdevArchive.ItaliOs3.MyfloatValues
import Mathlib.Algebra.Order.Ring.Abs

/-!
The sum of the floating point arithmetic of ItaliOs3 (`somma`). The two numbers are put one over the
other in 128 bits, which needs an exponent distance from 1 to 63.
-/

namespace OsdevArchive.ItaliOs3.Myfloat

open OsdevArchive.Lib.Truncation

/-- The magnitude of the exact sum, in units of the last digit of the number with the smaller
exponent. -/
def magnitude (uno due : MyDouble) : Nat :=
  let u := uno.number.toNat * 2 ^ (diff uno due).toNat
  let d := due.number.toNat * 2 ^ (-diff uno due).toNat
  if uno.sign = due.sign then u + d else (u - d) + (d - u)

/-- The exponents differ by less than 64 places, and the sum has at least 64 digits, and no carry
into the 128th one with a digit in the lower 64. -/
def SumOk (uno due : MyDouble) : Prop :=
  diff uno due ≠ 0 ∧ -64 < diff uno due ∧ diff uno due < 64 ∧ 2 ^ 63 ≤ magnitude uno due ∧
    (magnitude uno due < 2 ^ 127 ∨ magnitude uno due % 2 ^ 64 = 0)

variable {uno due : MyDouble} {n : Nat}

/-! ### The order of the two numbers -/

theorem diff_comm (uno due : MyDouble) : diff due uno = -diff uno due := by
  unfold diff
  omega

theorem magnitude_comm (uno due : MyDouble) : magnitude due uno = magnitude uno due := by
  unfold magnitude
  rw [diff_comm uno due, neg_neg]
  dsimp only
  split
  · rename_i hsign
    rw [if_pos hsign.symm, Nat.add_comm]
  · rename_i hsign
    rw [if_neg fun heq => hsign heq.symm, Nat.add_comm]

theorem sumOk_comm (uno due : MyDouble) : SumOk due uno ↔ SumOk uno due := by
  unfold SumOk
  rw [diff_comm uno due, magnitude_comm]
  omega

theorem somma128_comm (x y : Int128) : somma128 x y = somma128 y x := by
  apply Int128.val_inj
  rw [val_somma128, val_somma128, Nat.add_comm]

theorem somma_comm (h : 0 < diff uno due) : somma due uno = somma uno due := by
  have hneg : ¬ 0 < diff due uno := by
    rw [diff_comm uno due]
    omega
  have hfar : (64 < diff due uno ∨ diff due uno < -64) ↔
      64 < diff uno due ∨ diff uno due < -64 := by
    rw [diff_comm uno due]
    omega
  unfold somma
  simp only [hfar, if_neg hneg, if_pos h]
  split
  · rfl
  · unfold allineati
    rw [if_neg hneg, if_pos h, diff_comm uno due, neg_neg]
    cases spostato uno.number (diff uno due) with
    | none => simp only [Option.bind_eq_bind, Option.bind_none]
    | some w =>
      by_cases hsign : uno.sign = due.sign
      · simp [hsign, somma128_comm w]
      · have hsign' : ¬ due.sign = uno.sign := fun heq => hsign heq.symm
        simp [hsign, hsign']

/-! ### The sum of numbers at different exponents -/

theorem last_eq (h : diff uno due = n) : uno.last = due.last + n := by
  unfold diff at h
  unfold MyDouble.last
  omega

theorem signed_add_same (sign : Bool) (x y : ℚ) :
    signed sign x + signed sign y = signed sign (x + y) := by
  cases sign
  · rfl
  · exact (neg_add x y).symm

theorem signed_add_other {s s' : Bool} (h : s ≠ s') (x y : ℚ) :
    signed s x + signed s' y = signed s (x - y) := by
  cases s
  · obtain rfl : s' = true := by simpa using h
    exact (sub_eq_add_neg x y).symm
  · obtain rfl : s' = false := by simpa using h
    show -x + y = -(x - y)
    ring

/-- The number with the larger exponent has the larger magnitude. -/
theorem number_lt (hn : 0 < n) (huno : Normal uno) (due : MyDouble) :
    due.number.toNat < uno.number.toNat * 2 ^ n := by
  have hlt := due.number.isLt
  have hpow : 2 ^ 1 ≤ 2 ^ n := Nat.pow_le_pow_right (by decide) hn
  have hmul := Nat.mul_le_mul huno hpow
  omega

theorem magnitude_eq (hdiff : diff uno due = n) (hn : 0 < n) (huno : Normal uno) :
    magnitude uno due =
      if uno.sign = due.sign then uno.number.toNat * 2 ^ n + due.number.toNat
      else uno.number.toNat * 2 ^ n - due.number.toNat := by
  have hlt := number_lt hn huno due
  have hneg : (-(n : Int)).toNat = 0 := by omega
  unfold magnitude
  rw [hdiff, Int.toNat_natCast, hneg, pow_zero, Nat.mul_one]
  dsimp only
  split
  · rfl
  · omega

/-- The exact sum is the magnitude with the sign of the number with the larger exponent. -/
theorem value_add (hdiff : diff uno due = n) (hn : 0 < n) (huno : Normal uno) :
    uno.value + due.value = signed uno.sign (magnitude uno due * 2 ^ due.last) := by
  have hlt := number_lt hn huno due
  have hpow : (uno.number.toNat : ℚ) * 2 ^ uno.last =
      (uno.number.toNat * 2 ^ n : Nat) * 2 ^ due.last := by
    rw [last_eq hdiff, zpow_natCast_add]
    push_cast
    ring
  unfold MyDouble.value
  rw [hpow, magnitude_eq hdiff hn huno]
  by_cases hsign : uno.sign = due.sign
  · rw [if_pos hsign, ← hsign, signed_add_same, ← add_mul]
    push_cast
    rfl
  · rw [if_neg hsign, signed_add_other hsign, ← sub_mul, Nat.cast_sub hlt.le]

/-- What `somma` computes where the exponents differ by less than 64 places. -/
theorem somma_pos (hdiff : diff uno due = n) (hpos : 0 < n) (hn : n < 64) (huno : Normal uno) :
    ∃ w, somma uno due = normalizza w due.exp uno.sign ∧ w.val = magnitude uno due := by
  have hlt := number_lt hpos huno due
  have hgt : 0 < diff uno due := by omega
  have hnear : ¬ (64 < diff uno due ∨ diff uno due < -64) := by omega
  obtain ⟨w, hw, hval⟩ := spostato_some hpos hn uno.number
  have hdue : Int128.val ⟨0, due.number⟩ = due.number.toNat := by
    unfold Int128.val
    simp
  have hbound : uno.number.toNat * 2 ^ n < 2 ^ 127 := by
    have hpow : 2 ^ n ≤ 2 ^ 63 := Nat.pow_le_pow_right (by decide) (by omega)
    have hmul := Nat.mul_lt_mul_of_lt_of_le uno.number.isLt hpow (by decide)
    omega
  have hdue' := due.number.isLt
  have hallineati : allineati uno due = some (w, ⟨0, due.number⟩) := by
    unfold allineati
    rw [if_pos hgt, hdiff, hw]
    rfl
  rw [magnitude_eq hdiff hpos huno]
  by_cases hsign : uno.sign = due.sign
  · refine ⟨somma128 w ⟨0, due.number⟩, ?_, ?_⟩
    · unfold somma
      rw [if_neg hnear, hallineati]
      simp only [Option.bind_eq_bind, Option.bind_some, if_pos hgt, hsign, if_true]
    · rw [val_somma128, hval, hdue, if_pos hsign]
      omega
  · refine ⟨sottrai128 w ⟨0, due.number⟩, ?_, ?_⟩
    · unfold somma
      rw [if_neg hnear, hallineati]
      simp only [Option.bind_eq_bind, Option.bind_some, if_pos hgt, if_neg hsign]
    · rw [val_sottrai128, hval, hdue, if_neg hsign]
      omega

/-- Without a place between the exponents, and with 64 of them, a word is shifted by 64 places. -/
theorem somma_none (huno : Normal uno) (hdue : Normal due)
    (h : diff uno due = 0 ∨ diff uno due = 64 ∨ diff uno due = -64) : somma uno due = none := by
  have hu : uno.number ≠ 0 := fun heq => by rw [Normal, heq] at huno; exact absurd huno (by decide)
  have hd : due.number ≠ 0 := fun heq => by rw [Normal, heq] at hdue; exact absurd hdue (by decide)
  have hnear : ¬ (64 < diff uno due ∨ diff uno due < -64) := by omega
  have hnone : allineati uno due = none := by
    unfold allineati
    rcases h with h | h | h
    · rw [h, if_neg (by decide), neg_zero, spostato_zero hd]
      rfl
    · rw [h, if_pos (by decide), spostato_all hu]
      rfl
    · rw [h, if_neg (by decide), neg_neg, spostato_all hd]
      rfl
  unfold somma
  rw [if_neg hnear, hnone]
  rfl

/-- With the larger exponent first. -/
theorem somma_pos_iff (hdiff : diff uno due = n) (hpos : 0 < n) (hn : n < 64) (huno : Normal uno)
    (hsum : uno.value + due.value ≠ 0) (hrange : InRange (uno.value + due.value)) :
    Returns (uno.value + due.value) (somma uno due) ↔ SumOk uno due := by
  have hvalue := value_add hdiff hpos huno
  obtain ⟨w, hsomma, hw⟩ := somma_pos hdiff hpos hn huno
  have hnonzero : 0 < w.val := by
    rw [hw]
    apply Nat.pos_of_ne_zero
    intro hzero
    apply hsum
    rw [hvalue, hzero, Nat.cast_zero, zero_mul]
    cases uno.sign
    · rfl
    · exact neg_zero
  rw [← hw] at hvalue
  rw [hsomma, normalizza_iff hnonzero hvalue hrange, hw]
  unfold SumOk
  omega

/-- `somma` returns the truncation of the exact sum exactly if the numbers overlap in 128 bits and
their sum has at least 64 digits. -/
theorem somma_iff (huno : Normal uno) (hdue : Normal due) (hfar : |diff uno due| ≤ 64)
    (hsum : uno.value + due.value ≠ 0) (hrange : InRange (uno.value + due.value)) :
    Returns (uno.value + due.value) (somma uno due) ↔ SumOk uno due := by
  rw [abs_le] at hfar
  by_cases hout : diff uno due = 0 ∨ diff uno due = 64 ∨ diff uno due = -64
  · rw [somma_none huno hdue hout]
    apply iff_of_false
    · rintro ⟨r, hr, -⟩
      cases hr
    · unfold SumOk
      omega
  · rcases Int.lt_or_gt_of_ne (fun heq => hout (Or.inl heq) : diff uno due ≠ 0) with hlt | hgt
    · have hcomm := diff_comm uno due
      have hgt : 0 < diff due uno := by omega
      rw [somma_comm hgt, ← sumOk_comm, add_comm]
      rw [add_comm] at hsum hrange
      exact somma_pos_iff (n := (diff due uno).toNat) (by omega) (by omega) (by omega) hdue hsum
        hrange
    · exact somma_pos_iff (n := (diff uno due).toNat) (by omega) (by omega) (by omega) huno hsum
        hrange

end OsdevArchive.ItaliOs3.Myfloat
