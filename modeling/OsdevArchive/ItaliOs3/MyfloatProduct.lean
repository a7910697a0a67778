import OsdevArchive.ItaliOs3.MyfloatSum
import Mathlib.Data.Nat.Bitwise

/-!
The product of the floating point arithmetic of ItaliOs3 (`moltiplica`): 64 shifted addends. The
exponent is not corrected where the product carries into its first place: `(64-i)/i` is zero for
both places that the first digit can have.
-/

namespace OsdevArchive.ItaliOs3.Myfloat

open OsdevArchive.Lib.Truncation

variable {uno due : MyDouble} {n : Nat}

/-! ### The product of the digits -/

theorem toNat_pow2 (n : Nat) : (pow2 n).toNat = 2 ^ n % 2 ^ 64 := by
  unfold pow2
  rw [BitVec.toNat_shiftLeft, Nat.shiftLeft_eq]
  change 1 * 2 ^ n % 2 ^ 64 = 2 ^ n % 2 ^ 64
  rw [Nat.one_mul]

theorem and_pow2_eq_zero_iff (hn : n < 64) (w : Word) :
    w &&& pow2 n = 0 ↔ w.toNat / 2 ^ n % 2 = 0 := by
  have hlt : 2 ^ n < 2 ^ 64 := Nat.pow_lt_pow_right one_lt_two hn
  rw [← BitVec.toNat_inj, BitVec.toNat_and, toNat_pow2, Nat.mod_eq_of_lt hlt, Nat.and_two_pow,
    Nat.testBit_eq_decide_div_mod_eq]
  change _ * 2 ^ n = 0 ↔ _
  have hpos : 2 ^ n ≠ 0 := (Nat.two_pow_pos n).ne'
  rcases Nat.mod_two_eq_zero_or_one (w.toNat / 2 ^ n) with h | h <;> simp [h]

/-- The addend of a digit, which is not the last one if it is set. -/
theorem addendo_some (uno : MyDouble) (hn : n < 64) (h : n = 0 → due.number.toNat % 2 = 0) :
    ∃ x, addendo uno due n = some x ∧
      x.val = uno.number.toNat * (2 ^ n * (due.number.toNat / 2 ^ n % 2)) := by
  have hiff := and_pow2_eq_zero_iff hn due.number
  unfold addendo
  by_cases hzero : due.number &&& pow2 n = 0
  · rw [if_neg (not_not.mpr hzero), hiff.mp hzero]
    exact ⟨_, rfl, rfl⟩
  · have hone : due.number.toNat / 2 ^ n % 2 = 1 := by
      have hne : due.number.toNat / 2 ^ n % 2 ≠ 0 := fun heq => hzero (hiff.mpr heq)
      omega
    have hpos : 0 < n := by
      apply Nat.pos_of_ne_zero
      rintro rfl
      rw [pow_zero, Nat.div_one, h rfl] at hone
      exact absurd hone (by decide)
    have hall (w : Word) : w &&& 0xFFFFFFFFFFFFFFFF = w := BitVec.and_allOnes
    obtain ⟨x, hx, hval⟩ := spostato_some hpos hn uno.number
    refine ⟨x, ?_, by rw [hval, hone, Nat.mul_one]⟩
    rw [if_pos hzero, ← hx]
    unfold spostato
    simp only [hall]
    cases shl uno.number n <;> cases shr uno.number (64 - n) <;> rfl

/-- The last digit needs a shift by 64 places. -/
theorem addendo_none (huno : uno.number ≠ 0) (hodd : due.number.toNat % 2 ≠ 0) :
    addendo uno due 0 = none := by
  have hset : due.number &&& pow2 0 ≠ 0 := by
    rw [Ne, and_pow2_eq_zero_iff (by decide), pow_zero, Nat.div_one]
    exact hodd
  have hnone : shr uno.number (64 - (0 : Nat)) = none := shr_none huno
  unfold addendo
  rw [if_pos hset, hnone]
  rfl

/-- The first `n` addends make the product with the last `n` digits. -/
theorem prodotto_some (uno : MyDouble) (heven : due.number.toNat % 2 = 0) (hn : n ≤ 64) :
    ∃ ris, prodotto uno due n = some ris ∧
      ris.val = uno.number.toNat * (due.number.toNat % 2 ^ n) := by
  induction n with
  | zero => exact ⟨_, rfl, by rw [pow_zero, Nat.mod_one, Nat.mul_zero]; rfl⟩
  | succ n ih =>
    obtain ⟨ris, hris, hval⟩ := ih (by omega)
    obtain ⟨app, happ, hadd⟩ := addendo_some uno (Nat.lt_of_succ_le hn) fun _ => heven
    refine ⟨somma128 ris app, ?_, ?_⟩
    · rw [prodotto, hris, Option.bind_eq_bind, Option.bind_some, happ]
      rfl
    · have hbound : uno.number.toNat * (due.number.toNat % 2 ^ (n + 1)) < 2 ^ 128 := by
        have hmod := (Nat.mod_le due.number.toNat (2 ^ (n + 1))).trans_lt due.number.isLt
        have hmul := Nat.mul_lt_mul_of_lt_of_le uno.number.isLt hmod.le (by decide)
        omega
      rw [val_somma128, hval, hadd, ← Nat.mul_add, ← Nat.mod_pow_succ, Nat.mod_eq_of_lt hbound]

theorem prodotto_none (huno : uno.number ≠ 0) (hodd : due.number.toNat % 2 ≠ 0) (n : Nat) :
    prodotto uno due (n + 1) = none := by
  induction n with
  | zero =>
    rw [prodotto, prodotto, addendo_none huno hodd]
    rfl
  | succ n ih =>
    rw [prodotto, ih]
    rfl

/-! ### The product -/

theorem signed_mul (s s' : Bool) (x y : ℚ) :
    signed s x * signed s' y = signed (s ^^ s') (x * y) := by
  cases s
  · cases s'
    · rfl
    · exact mul_neg x y
  · cases s'
    · exact neg_mul x y
    · exact neg_mul_neg x y

theorem value_mul (uno due : MyDouble) :
    uno.value * due.value = signed (uno.sign ^^ due.sign)
      ((uno.number.toNat * due.number.toNat : Nat) * 2 ^ (uno.last + due.last)) := by
  unfold MyDouble.value
  rw [signed_mul, zpow_add₀ two_ne_zero, Nat.cast_mul, mul_mul_mul_comm]

theorem ofInt_exp_mul (b c : BitVec 15) :
    b + c - BitVec.ofNat 15 bias80 = BitVec.ofInt 15 (b.toNat + c.toNat - bias80) := by
  apply BitVec.eq_of_toNat_eq
  simp only [BitVec.toNat_sub, BitVec.toNat_add, BitVec.toNat_ofNat, BitVec.toNat_ofInt, bias80]
  omega

theorem correzione_high {i : Nat} (h : i = 62 ∨ i = 63) : correzione i = some 0#15 := by
  rcases h with rfl | rfl <;> decide

/-- What `moltiplica` makes of the digits of the product. -/
theorem moltiplica_eq {ris : Int128} {i : Nat} (hris : prodotto uno due 64 = some ris)
    (hfirst : primaCifra ris.alto 64 = i) (hi : i = 62 ∨ i = 63) :
    moltiplica uno due = (cifre ris i).map fun d =>
      ⟨d, BitVec.ofInt 15 (uno.exp.toNat + due.exp.toNat - bias80), uno.sign ^^ due.sign⟩ := by
  unfold moltiplica
  rw [hris, Option.bind_eq_bind, Option.bind_some, hfirst]
  dsimp only
  rw [correzione_high hi]
  cases cifre ris i with
  | none => rfl
  | some d =>
    simp only [Option.bind_eq_bind, Option.bind_some, Option.map_some, BitVec.add_zero,
      ofInt_exp_mul]

/-- `moltiplica` returns the truncation of the exact product exactly if there is no carry into the
first digit, and the last digit of `due` is zero. -/
theorem moltiplica_iff (huno : Normal uno) (hdue : Normal due)
    (hrange : InRange (uno.value * due.value)) :
    Returns (uno.value * due.value) (moltiplica uno due) ↔
      uno.number.toNat * due.number.toNat < 2 ^ 127 ∧ due.number.toNat % 2 = 0 := by
  have hu : uno.number ≠ 0 := fun heq => by rw [Normal, heq] at huno; exact absurd huno (by decide)
  by_cases heven : due.number.toNat % 2 = 0
  · obtain ⟨ris, hris, hval⟩ := prodotto_some uno heven (Nat.le_refl 64)
    rw [Nat.mod_eq_of_lt due.number.isLt] at hval
    have hlow : 2 ^ 126 ≤ ris.val := by
      have hmul := Nat.mul_le_mul huno hdue
      omega
    have hval' : ris.val = ris.alto.toNat * 2 ^ 64 + ris.basso.toNat := rfl
    have hbasso := ris.basso.isLt
    have halto := ris.alto.isLt
    have hvalue := value_mul uno due
    rw [← hval] at hvalue
    have hpos : (0 : ℚ) < ris.val * 2 ^ (uno.last + due.last) :=
      mul_pos (by exact_mod_cast (Nat.two_pow_pos 126).trans_le hlow) (two_zpow_pos _)
    have habs : |uno.value * due.value| = ris.val * 2 ^ (uno.last + due.last) := by
      rw [hvalue, abs_signed hpos]
    have hsign := signed_neg_iff hpos (uno.sign ^^ due.sign)
    rw [← hvalue] at hsign
    have hlast : uno.last + due.last =
        uno.exp.toNat + due.exp.toNat - 2 * bias80 - 126 := by
      unfold MyDouble.last
      omega
    rw [← hval]
    rcases Nat.lt_or_ge ris.val (2 ^ 127) with hlt | hge
    · have hfirst : primaCifra ris.alto 64 = (62 : Nat) :=
        primaCifra_eq (by omega) (by omega) (by decide)
      obtain ⟨d, hd, hnumber⟩ := cifre_some (x := ris) (i := 62) (by decide) (by omega)
      have ht := (truncated_nat (p := 63) (k := 63) hlow hlt).scale (uno.last + due.last)
      rw [← habs] at ht
      apply iff_of_true
      · have hret := moltiplica_eq hris hfirst (Or.inl rfl)
        rw [hd, Option.map_some] at hret
        refine ⟨_, hret, isTruncation_of hrange ht hnumber ?_ hsign.symm⟩
        exact congrArg (BitVec.ofInt 15) (by omega)
      · exact ⟨hlt, heven⟩
    · have hfirst : primaCifra ris.alto 64 = (63 : Nat) :=
        primaCifra_eq (by omega) (by omega) (by decide)
      have ht := (truncated_nat (p := 63) (k := 64) hge ris.val_lt).scale (uno.last + due.last)
      rw [← habs] at ht
      apply iff_of_false
      · rintro ⟨r, hr, hright⟩
        rw [moltiplica_eq hris hfirst (Or.inr rfl), Option.map_eq_some_iff] at hr
        obtain ⟨d, -, rfl⟩ := hr
        refine not_isTruncation_of (k := -1) hrange ht ?_ (Or.inr rfl) hright
        exact congrArg (BitVec.ofInt 15) (by omega)
      · omega
  · apply iff_of_false
    · rintro ⟨r, hr, -⟩
      unfold moltiplica at hr
      rw [prodotto_none hu heven 63] at hr
      cases hr
    · exact fun hright => heven hright.2

end OsdevArchive.ItaliOs3.Myfloat
