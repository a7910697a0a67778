import OsdevArchive.ItaliOs3.MyfloatProduct
import Mathlib.Tactic.FieldSimp
import Mathlib.Tactic.NormNum

/-!
The quotient of the floating point arithmetic of ItaliOs3 (`dividi`), a column division, and what
holds of the whole arithmetic.
-/

namespace OsdevArchive.ItaliOs3.Myfloat

open OsdevArchive.Lib.Truncation

variable {uno due : MyDouble} {secondo primo : Int128}

/-! ### The column division -/

/-- The shift at the end of a step. -/
theorem val_shift (primo : Int128) (h : primo.val < 2 ^ 64) :
    Int128.val ⟨primo.basso >>> 63, primo.basso <<< 1⟩ = 2 * primo.val := by
  have hbasso := primo.basso.isLt
  unfold Int128.val at h ⊢
  simp only [BitVec.toNat_ushiftRight, BitVec.toNat_shiftLeft, Nat.shiftRight_eq_div_pow,
    Nat.shiftLeft_eq]
  omega

/-- A step writes a digit of the quotient, and leaves less than `secondo` to divide. -/
theorem colonna_step {d r : Nat} (n : Nat) (hr : r < 2 * d) :
    r * 2 ^ (n + 1) / (2 * d) =
      if d ≤ r then 2 ^ n + 2 * (r - d) * 2 ^ n / (2 * d) else 2 * r * 2 ^ n / (2 * d) := by
  have hd : 0 < 2 * d := by omega
  split
  · rename_i hle
    have hsplit : r * 2 ^ (n + 1) = 2 * (r - d) * 2 ^ n + 2 ^ n * (2 * d) := by
      obtain ⟨k, rfl⟩ := Nat.exists_eq_add_of_le hle
      rw [Nat.add_sub_cancel_left]
      ring
    rw [hsplit, Nat.add_mul_div_right _ _ hd, Nat.add_comm]
  · congr 1
    ring

/-- The division writes the digits of the quotient behind `number`. -/
theorem colonna_val {d : Nat} (hsecondo : secondo.val = d) (hd : d < 2 ^ 64) (n : Nat)
    (hprimo : primo.val < 2 * d) (number : Word) :
    (colonna secondo n primo number).toNat =
      (number.toNat + primo.val * 2 ^ n / (2 * d)) % 2 ^ 64 := by
  induction n generalizing primo number with
  | zero =>
    rw [pow_zero, Nat.mul_one, Nat.div_eq_of_lt hprimo, Nat.add_zero,
      Nat.mod_eq_of_lt number.isLt]
    rfl
  | succ n ih =>
    have hiff := confronta128_iff primo secondo
    rw [hsecondo] at hiff
    rw [colonna, colonna_step n hprimo]
    dsimp only
    by_cases hle : d ≤ primo.val
    · have hsottrai : (sottrai128 primo secondo).val = primo.val - d := by
        have hlt := primo.val_lt
        rw [val_sottrai128, hsecondo]
        omega
      have hshift := val_shift (sottrai128 primo secondo) (by omega)
      rw [hsottrai] at hshift
      rw [if_pos (hiff.mpr hle), if_pos hle]
      dsimp only
      rw [ih (by omega), hshift, BitVec.toNat_add, toNat_pow2]
      omega
    · have hshift := val_shift primo (by omega)
      rw [if_neg fun heq => hle (hiff.mp heq), if_neg hle]
      dsimp only
      rw [ih (by omega), hshift]

/-- The quotient of two normalised numbers. -/
theorem colonna_eq (uno : MyDouble) (hdue : Normal due) :
    (colonna ⟨0, due.number⟩ 64 ⟨0, uno.number⟩ 0).toNat =
      uno.number.toNat * 2 ^ 63 / due.number.toNat := by
  have hone (w : Word) : Int128.val ⟨0, w⟩ = w.toNat := by
    unfold Int128.val
    simp
  have hu := uno.number.isLt
  have hpos : 0 < due.number.toNat := (Nat.two_pow_pos 63).trans_le hdue
  have hlt : uno.number.toNat < 2 * due.number.toNat := by
    unfold Normal at hdue
    omega
  have hdiv : uno.number.toNat * 2 ^ 64 / (2 * due.number.toNat) =
      uno.number.toNat * 2 ^ 63 / due.number.toNat := by
    rw [← Nat.mul_div_mul_left _ due.number.toNat (show 0 < 2 by decide)]
    congr 1
    ring
  have hbound : uno.number.toNat * 2 ^ 63 / due.number.toNat < 2 ^ 64 := by
    rw [Nat.div_lt_iff_lt_mul hpos]
    omega
  have h := colonna_val (hone due.number) due.number.isLt 64 ((hone uno.number).symm ▸ hlt) 0
  rw [h, hone, hdiv]
  change (0 + _) % _ = _
  rw [Nat.zero_add, Nat.mod_eq_of_lt hbound]

/-! ### The quotient -/

theorem signed_div (s s' : Bool) (x y : ℚ) :
    signed s x / signed s' y = signed (s ^^ s') (x / y) := by
  cases s
  · cases s'
    · rfl
    · exact div_neg x
  · cases s'
    · exact neg_div y x
    · exact neg_div_neg_eq x y

/-- The exact quotient, with the digits of the integer division by `2 ^ k`. -/
theorem value_div (k : Nat) (uno due : MyDouble) :
    uno.value / due.value = signed (uno.sign ^^ due.sign)
      ((uno.number.toNat * 2 ^ k : Nat) / due.number.toNat * 2 ^ (uno.last - due.last - k)) := by
  unfold MyDouble.value
  rw [signed_div]
  congr 1
  rw [zpow_sub₀ two_ne_zero, zpow_sub₀ two_ne_zero, zpow_natCast, Nat.cast_mul, Nat.cast_pow,
    Nat.cast_ofNat]
  field_simp

theorem ofInt_exp_div (b c : BitVec 15) :
    b + BitVec.ofNat 15 bias80 - c = BitVec.ofInt 15 (b.toNat + bias80 - c.toNat) := by
  apply BitVec.eq_of_toNat_eq
  simp only [BitVec.toNat_sub, BitVec.toNat_add, BitVec.toNat_ofNat, BitVec.toNat_ofInt, bias80]
  omega

/-- What `dividi` makes of the digits of the quotient. -/
theorem dividi_eq {number : Word} {i : Nat}
    (hcolonna : colonna ⟨0, due.number⟩ 64 ⟨0, uno.number⟩ 0 = number)
    (hfirst : primaCifra number 64 = i) (hi : i = 62 ∨ i = 63) :
    dividi uno due = some ⟨number <<< (63 - i),
      BitVec.ofInt 15 (uno.exp.toNat + bias80 - due.exp.toNat), uno.sign ^^ due.sign⟩ := by
  have hneg : ¬ (i : Int) < 0 := by omega
  have hsub : (63 - (i : Int)) = (63 - i : Nat) := by omega
  unfold dividi
  rw [hcolonna]
  dsimp only
  rw [hfirst, if_neg hneg, correzione_high hi, hsub, shl_some (by omega)]
  simp only [Option.bind_eq_bind, Option.bind_some, BitVec.sub_zero, ofInt_exp_div]

/-- `dividi` returns the truncation of the exact quotient exactly if the digits of `uno` are not
less than those of `due`. -/
theorem dividi_iff (huno : Normal uno) (hdue : Normal due)
    (hrange : InRange (uno.value / due.value)) :
    Returns (uno.value / due.value) (dividi uno due) ↔
      due.number.toNat ≤ uno.number.toNat := by
  have hu := uno.number.isLt
  have hd := due.number.isLt
  have hcolonna := colonna_eq uno hdue
  unfold Normal at huno hdue
  have hpos : 0 < due.number.toNat := by omega
  have hvalue (k : Nat) : (0 : ℚ) < (uno.number.toNat * 2 ^ k : Nat) / due.number.toNat *
      2 ^ (uno.last - due.last - k) := by
    have hk : 0 < uno.number.toNat * 2 ^ k := Nat.mul_pos (by omega) (Nat.two_pow_pos k)
    exact mul_pos (div_pos (by exact_mod_cast hk) (by exact_mod_cast hpos)) (two_zpow_pos _)
  have habs (k : Nat) : |uno.value / due.value| =
      (uno.number.toNat * 2 ^ k : Nat) / due.number.toNat *
        2 ^ (uno.last - due.last - k) := by
    rw [value_div k, abs_signed (hvalue k)]
  have hlast : uno.last - due.last = uno.exp.toNat - due.exp.toNat := by
    unfold MyDouble.last
    omega
  rcases Nat.lt_or_ge uno.number.toNat due.number.toNat with hlt | hge
  · have hlow : 2 ^ 62 ≤ uno.number.toNat * 2 ^ 63 / due.number.toNat := by
      rw [Nat.le_div_iff_mul_le hpos]
      omega
    have hhigh : uno.number.toNat * 2 ^ 63 / due.number.toNat < 2 ^ 63 := by
      rw [Nat.div_lt_iff_lt_mul hpos]
      omega
    rw [← hcolonna] at hlow hhigh
    have hret := dividi_eq rfl (primaCifra_eq hlow hhigh (by decide)) (Or.inl rfl)
    have ht := (truncated_div (p := 63) (a := uno.number.toNat * 2 ^ 64) hpos
      (by rw [Nat.le_div_iff_mul_le hpos]; omega)
      (by rw [Nat.div_lt_iff_lt_mul hpos]; omega)).scale (uno.last - due.last - (64 : Nat))
    rw [← habs] at ht
    apply iff_of_false
    · rintro ⟨r, hr, hright⟩
      rw [hret] at hr
      cases hr
      refine not_isTruncation_of (k := 1) hrange ht ?_ (Or.inl rfl) hright
      exact congrArg (BitVec.ofInt 15) (by omega)
    · omega
  · have hlow : 2 ^ 63 ≤ uno.number.toNat * 2 ^ 63 / due.number.toNat := by
      rw [Nat.le_div_iff_mul_le hpos]
      omega
    have hhigh : uno.number.toNat * 2 ^ 63 / due.number.toNat < 2 ^ 64 := by
      rw [Nat.div_lt_iff_lt_mul hpos]
      omega
    have ht := (truncated_div (p := 63) hpos hlow hhigh).scale (uno.last - due.last - (63 : Nat))
    rw [← habs] at ht
    rw [← hcolonna] at hlow hhigh
    have hret := dividi_eq rfl (primaCifra_eq hlow hhigh (by decide)) (Or.inr rfl)
    have hsign : uno.value / due.value < 0 ↔ (uno.sign ^^ due.sign) = true := by
      rw [value_div 0, signed_neg_iff (hvalue 0)]
    rw [Nat.sub_self, BitVec.shiftLeft_zero] at hret
    apply iff_of_true
    · refine ⟨_, hret, isTruncation_of hrange ht hcolonna ?_ hsign.symm⟩
      exact congrArg (BitVec.ofInt 15) (by omega)
    · exact hge

/-! ### The arithmetic -/

/-- Sums and differences of 128 bits are exact up to multiples of `2 ^ 128`; where the operations
return the truncation of the exact result depends on the places of the two numbers. -/
theorem operazioni_iff (huno : Normal uno) (hdue : Normal due) :
    (|diff uno due| ≤ 64 → uno.value + due.value ≠ 0 → InRange (uno.value + due.value) →
        (Returns (uno.value + due.value) (somma uno due) ↔ SumOk uno due)) ∧
      (InRange (uno.value * due.value) →
        (Returns (uno.value * due.value) (moltiplica uno due) ↔
          uno.number.toNat * due.number.toNat < 2 ^ 127 ∧ due.number.toNat % 2 = 0)) ∧
      (InRange (uno.value / due.value) →
        (Returns (uno.value / due.value) (dividi uno due) ↔
          due.number.toNat ≤ uno.number.toNat)) ∧
      ∀ x y : Int128, ((somma128 x y).val : ℤ) = (x.val + y.val) % 2 ^ 128 ∧
        ((sottrai128 x y).val : ℤ) = (x.val - y.val) % 2 ^ 128 := by
  refine ⟨somma_iff huno hdue, moltiplica_iff huno hdue, dividi_iff huno hdue, fun x y => ?_⟩
  have hy := y.val_lt
  rw [val_somma128, val_sottrai128]
  omega

/-- 1.125 -/
def unEUnOttavo : MyDouble := { number := 0x9000000000000000, exp := 16383, sign := false }

/-- 1.5 -/
def unEMezzo : MyDouble := { number := 0xC000000000000000, exp := 16383, sign := false }

theorem value_unEUnOttavo : unEUnOttavo.value = 9 / 8 := by
  have hlast : unEUnOttavo.last = -63 := by decide
  have hnumber : unEUnOttavo.number.toNat = 9 * 2 ^ 60 := by decide
  rw [MyDouble.value, hlast, hnumber, signed, if_neg (by decide)]
  norm_num

theorem value_unEMezzo : unEMezzo.value = 3 / 2 := by
  have hlast : unEMezzo.last = -63 := by decide
  have hnumber : unEMezzo.number.toNat = 3 * 2 ^ 62 := by decide
  rw [MyDouble.value, hlast, hnumber, signed, if_neg (by decide)]
  norm_num

theorem inRange_quotient : InRange (unEMezzo.value / unEUnOttavo.value) := by
  have hvalue : |unEMezzo.value / unEUnOttavo.value| = 4 / 3 := by
    rw [value_unEMezzo, value_unEUnOttavo]
    norm_num
  refine ⟨2 ^ 65 / 3, -63, ?_, by decide, by decide⟩
  rw [hvalue]
  constructor <;> norm_num

/-- The quotient is 1.333…, and its truncation comes out. -/
theorem operazioni_unEMezzo :
    Returns (unEMezzo.value / unEUnOttavo.value) (dividi unEMezzo unEUnOttavo) ∧
      unEUnOttavo.number.toNat ≤ unEMezzo.number.toNat := by
  have hle : unEUnOttavo.number.toNat ≤ unEMezzo.number.toNat := by decide
  have huno : Normal unEMezzo := by unfold Normal; decide
  have hdue : Normal unEUnOttavo := by unfold Normal; decide
  exact ⟨((operazioni_iff huno hdue).2.2.1 inRange_quotient).mpr hle, hle⟩

/-- The quotient is 0.75, and 1.5 comes out. -/
theorem unEUnOttavo_dividi :
    Normal unEUnOttavo ∧ Normal unEMezzo ∧ InRange (unEUnOttavo.value / unEMezzo.value) ∧
      dividi unEUnOttavo unEMezzo = some unEMezzo ∧
      ¬ Returns (unEUnOttavo.value / unEMezzo.value) (dividi unEUnOttavo unEMezzo) := by
  have huno : Normal unEUnOttavo := by unfold Normal; decide
  have hdue : Normal unEMezzo := by unfold Normal; decide
  have hvalue : |unEUnOttavo.value / unEMezzo.value| = 3 / 4 := by
    rw [value_unEUnOttavo, value_unEMezzo]
    norm_num
  have hrange : InRange (unEUnOttavo.value / unEMezzo.value) := by
    refine ⟨3 * 2 ^ 62, -64, ?_, by decide, by decide⟩
    rw [hvalue]
    constructor <;> norm_num
  have hdividi : dividi unEUnOttavo unEMezzo = some unEMezzo := by decide +kernel
  refine ⟨huno, hdue, hrange, hdividi, fun h => ?_⟩
  exact absurd ((dividi_iff huno hdue hrange).mp h) (by decide)

end OsdevArchive.ItaliOs3.Myfloat
