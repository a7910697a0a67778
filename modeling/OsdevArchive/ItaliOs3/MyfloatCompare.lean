import OsdevArchive.ItaliOs3.MyfloatValues

/-!
The comparison of the floating point unit of ItaliOs3 (`myfloat::compare`), which writes its outcome
into three bits of the status word. The test of the two signs is the wrong way round.
-/

namespace OsdevArchive.ItaliOs3.Myfloat

open OsdevArchive.Lib.Truncation

abbrev StatusWord := BitVec 16

/-- `fpu_const::C0`. -/
def C0 : StatusWord := 0x0100

/-- `fpu_const::C2`. -/
def C2 : StatusWord := 0x0400

/-- `fpu_const::C3`. -/
def C3 : StatusWord := 0x4000

/-! ### The function -/

/-- The loop that shifts the digits to the right until the exponent is `exp`, for `n` steps at
most. -/
def alzato (exp : BitVec 15) : Nat → MyDouble → MyDouble
  | 0, b => b
  | n + 1, b =>
    if b.exp < exp then alzato exp n { b with exp := b.exp + 1, number := b.number >>> 1 } else b

/-- `res` where the exponents have met. -/
def confrontaCifre (a b : MyDouble) : Int :=
  if b.number < a.number ∧ a.number ≠ b.number then 1
  else if a.number = b.number then 0
  else -1

/-- `res`. -/
def res (a b : MyDouble) : Int :=
  if !(a.sign ^^ b.sign) then
    if a.sign then 1 else -1
  else if 64 < diff a b ∨ diff a b < -64 then
    if 0 < diff a b then 1 else -1
  else if 0 < diff a b then
    confrontaCifre a (alzato a.exp (a.exp.toNat - b.exp.toNat) b)
  else
    confrontaCifre (alzato b.exp (b.exp.toNat - a.exp.toNat) a) b

/-- `compare`, on the status word of the registers. -/
def compare (a b : MyDouble) (sr : StatusWord) : StatusWord :=
  if res a b = -1 then sr &&& ~~~(C0 ||| C2 ||| C3) ||| C0
  else if res a b = 0 then sr &&& ~~~(C0 ||| C2 ||| C3) ||| C3
  else if res a b = 1 then sr &&& ~~~(C0 ||| C2 ||| C3)
  else if res a b = 2 then sr ||| C0 ||| C2 ||| C3
  else sr

/-! ### What is expected of it -/

/-- The bits for the order of two values. -/
def esito (x y : ℚ) : StatusWord := if x < y then C0 else if x = y then C3 else 0

/-- The three bits are those of the order of the values, the others are as they were. -/
def Confrontati (a b : MyDouble) (sr : StatusWord) : Prop :=
  compare a b sr &&& (C0 ||| C2 ||| C3) = esito a.value b.value ∧
    compare a b sr &&& ~~~(C0 ||| C2 ||| C3) = sr &&& ~~~(C0 ||| C2 ||| C3)

/-- The magnitude of a normalised number is less. -/
def Minore (a b : MyDouble) : Prop :=
  a.exp.toNat < b.exp.toNat ∨ a.exp.toNat = b.exp.toNat ∧ a.number.toNat < b.number.toNat

instance (a b : MyDouble) : Decidable (Minore a b) := inferInstanceAs (Decidable (_ ∨ _))

/-- The order of the magnitudes is the one that makes the outcome right. -/
def Ordinati (a b : MyDouble) : Prop :=
  if a.sign = false ∧ b.sign = true then Minore b a else Minore a b

variable {a b c : MyDouble} {n : Nat} {sr : StatusWord}

/-! ### The order of the magnitudes -/

theorem alzato_eq (exp : BitVec 15) (h : b.exp.toNat + n = exp.toNat) :
    alzato exp n b = { b with exp := exp, number := b.number >>> n } := by
  induction n generalizing b with
  | zero =>
    have hexp : b.exp = exp := BitVec.eq_of_toNat_eq h
    rw [alzato, ← hexp]
    rfl
  | succ n ih =>
    have hlt : b.exp < exp := by
      rw [BitVec.lt_def]
      omega
    have hnext : (b.exp + 1).toNat = b.exp.toNat + 1 := by
      have hexp := exp.isLt
      rw [BitVec.toNat_add]
      change (b.exp.toNat + 1) % 2 ^ 15 = _
      omega
    rw [alzato, if_pos hlt, ih (by dsimp only; omega)]
    dsimp only
    rw [Nat.add_comm, BitVec.shiftRight_add]

/-- Behind a shift to the right there are less than 64 digits. -/
theorem ushiftRight_lt (hn : 0 < n) (w : Word) : (w >>> n).toNat < 2 ^ 63 := by
  have hlt := w.isLt
  have hpow : 2 ^ 1 ≤ 2 ^ n := Nat.pow_le_pow_right (by decide) hn
  rw [BitVec.toNat_ushiftRight, Nat.shiftRight_eq_div_pow, Nat.div_lt_iff_lt_mul (by omega)]
  omega

theorem confrontaCifre_less (h : a.number.toNat < b.number.toNat) : confrontaCifre a b = -1 := by
  unfold confrontaCifre
  simp only [BitVec.lt_def, ← BitVec.toNat_inj]
  rw [if_neg (by omega), if_neg (by omega)]

theorem confrontaCifre_equal (h : a.number = b.number) : confrontaCifre a b = 0 := by
  unfold confrontaCifre
  rw [if_neg fun hne => hne.2 h, if_pos h]

theorem confrontaCifre_greater (h : b.number.toNat < a.number.toNat) : confrontaCifre a b = 1 := by
  unfold confrontaCifre
  simp only [BitVec.lt_def, Ne, ← BitVec.toNat_inj]
  rw [if_pos ⟨h, by omega⟩]

/-- With equal signs, `res` is the sign. -/
theorem res_same (h : a.sign = b.sign) : res a b = if a.sign then 1 else -1 := by
  unfold res
  rw [h, Bool.xor_self, Bool.not_false, if_pos rfl]

/-- With different signs, `res` is the order of the magnitudes. -/
theorem res_other (ha : Normal a) (hb : Normal b) (h : a.sign ≠ b.sign) :
    res a b = if Minore a b then -1 else if Minore b a then 1 else 0 := by
  have hsign : (!(a.sign ^^ b.sign)) = false := by
    rw [Bool.not_eq_false', Bool.xor_iff_ne]
    exact h
  have hdiff : diff a b = a.exp.toNat - b.exp.toNat := rfl
  unfold Normal at ha hb
  rw [res, hsign, if_neg Bool.false_ne_true]
  rcases Nat.lt_trichotomy a.exp.toNat b.exp.toNat with hlt | heq | hgt
  · have hless : Minore a b := Or.inl hlt
    have hpos : ¬ 0 < diff a b := by omega
    rw [if_pos hless, if_neg hpos, if_neg hpos, alzato_eq b.exp (by omega)]
    split
    · rfl
    · apply confrontaCifre_less
      have hshift := ushiftRight_lt (n := b.exp.toNat - a.exp.toNat) (by omega) a.number
      exact hshift.trans_le hb
  · have hpos : ¬ 0 < diff a b := by omega
    have hnear : ¬ (64 < diff a b ∨ diff a b < -64) := by omega
    have hless : Minore a b ↔ a.number.toNat < b.number.toNat := by
      unfold Minore
      omega
    have hgreater : Minore b a ↔ b.number.toNat < a.number.toNat := by
      unfold Minore
      omega
    rw [if_neg hnear, if_neg hpos, show b.exp.toNat - a.exp.toNat = 0 by omega, alzato]
    simp only [hless, hgreater]
    split
    · rename_i hnumber
      exact confrontaCifre_less hnumber
    · split
      · rename_i hnumber
        exact confrontaCifre_greater hnumber
      · apply confrontaCifre_equal
        apply BitVec.eq_of_toNat_eq
        omega
  · have hgreater : Minore b a := Or.inl hgt
    have hless : ¬ Minore a b := by
      unfold Minore
      omega
    have hpos : 0 < diff a b := by omega
    rw [if_neg hless, if_pos hgreater, if_pos hpos, if_pos hpos, alzato_eq a.exp (by omega)]
    split
    · rfl
    · apply confrontaCifre_greater
      have hshift := ushiftRight_lt (n := a.exp.toNat - b.exp.toNat) (by omega) b.number
      exact hshift.trans_le ha

/-! ### The order of the values -/

/-- The value without its sign. -/
def modulo (a : MyDouble) : ℚ := a.number.toNat * 2 ^ a.last

theorem Normal.truncated (ha : Normal a) : Truncated 63 (modulo a) a.number.toNat a.last := by
  refine ⟨ha, a.number.isLt, le_refl _, ?_⟩
  exact mul_lt_mul_of_pos_right (lt_add_one _) (two_zpow_pos _)

theorem Normal.modulo_pos (ha : Normal a) : 0 < modulo a :=
  (two_zpow_pos _).trans_le ha.truncated.pow_le

theorem modulo_lt (ha : Normal a) (hb : Normal b) (h : Minore a b) : modulo a < modulo b := by
  rcases h with hexp | ⟨hexp, hnumber⟩
  · calc
      modulo a < 2 ^ (a.last + (63 : Nat) + 1) := ha.truncated.lt_pow
      _ ≤ 2 ^ (b.last + (63 : Nat)) := by
        apply zpow_le_zpow_right₀ one_le_two
        unfold MyDouble.last
        omega
      _ ≤ modulo b := hb.truncated.pow_le
  · have hlast : a.last = b.last := by
      unfold MyDouble.last
      omega
    unfold modulo
    rw [hlast]
    exact mul_lt_mul_of_pos_right (by exact_mod_cast hnumber) (two_zpow_pos _)

/-- The magnitudes of normalised numbers are ordered by the exponents first. -/
theorem minore_iff (ha : Normal a) (hb : Normal b) : Minore a b ↔ modulo a < modulo b := by
  refine ⟨modulo_lt ha hb, fun hlt => ?_⟩
  by_contra hnot
  by_cases hgreater : Minore b a
  · exact absurd (modulo_lt hb ha hgreater) hlt.not_gt
  · unfold Minore at hnot hgreater
    have hexp : a.exp.toNat = b.exp.toNat := by omega
    have hnumber : a.number.toNat = b.number.toNat := by omega
    unfold modulo MyDouble.last at hlt
    rw [hexp, hnumber] at hlt
    exact lt_irrefl _ hlt

/-! ### The status word -/

/-- The three bits for `res`. -/
def segni (r : Int) : StatusWord := if r = -1 then C0 else if r = 0 then C3 else 0

theorem res_cases (ha : Normal a) (hb : Normal b) : res a b = -1 ∨ res a b = 0 ∨ res a b = 1 := by
  by_cases h : a.sign = b.sign
  · rw [res_same h]
    split <;> decide
  · rw [res_other ha hb h]
    split
    · decide
    · split <;> decide

theorem compare_eq (ha : Normal a) (hb : Normal b) (sr : StatusWord) :
    compare a b sr = sr &&& ~~~(C0 ||| C2 ||| C3) ||| segni (res a b) := by
  unfold compare segni
  rcases res_cases ha hb with h | h | h
  · rw [h, if_pos rfl, if_pos rfl]
  · rw [h, if_neg (by decide), if_pos rfl, if_neg (by decide), if_pos rfl]
  · rw [h, if_neg (by decide), if_neg (by decide), if_pos rfl, if_neg (by decide),
      if_neg (by decide)]
    exact BitVec.or_zero.symm

/-- The bits that are written, and the others. -/
theorem bits_write {m f : StatusWord} (hf : f &&& m = f) (sr : StatusWord) :
    (sr &&& ~~~m ||| f) &&& m = f ∧ (sr &&& ~~~m ||| f) &&& ~~~m = sr &&& ~~~m := by
  have hand : f &&& ~~~m = 0 := by
    rw [← hf, BitVec.and_assoc]
    simp
  constructor
  · rw [BitVec.and_or_distrib_right]
    simp [BitVec.and_assoc, hf]
  · rw [BitVec.and_or_distrib_right, hand]
    simp [BitVec.and_assoc]

theorem segni_cases (r : Int) : segni r = C0 ∨ segni r = C3 ∨ segni r = 0 := by
  unfold segni
  split
  · exact Or.inl rfl
  · split
    · exact Or.inr (Or.inl rfl)
    · exact Or.inr (Or.inr rfl)

theorem segni_and (r : Int) : segni r &&& (C0 ||| C2 ||| C3) = segni r := by
  rcases segni_cases r with h | h | h <;> rw [h] <;> decide

/-- The bits are those for `res`, the others are left. -/
theorem compare_bits (ha : Normal a) (hb : Normal b) (sr : StatusWord) :
    compare a b sr &&& (C0 ||| C2 ||| C3) = segni (res a b) ∧
      compare a b sr &&& ~~~(C0 ||| C2 ||| C3) = sr &&& ~~~(C0 ||| C2 ||| C3) := by
  rw [compare_eq ha hb]
  exact bits_write (segni_and _) sr

theorem esito_eq_C0_iff {x y : ℚ} : esito x y = C0 ↔ x < y := by
  unfold esito
  split
  · exact iff_of_true rfl ‹_›
  · split
    · exact iff_of_false (by decide) ‹_›
    · exact iff_of_false (by decide) ‹_›

theorem esito_eq_zero_iff {x y : ℚ} : esito x y = 0 ↔ y < x := by
  unfold esito
  split
  · rename_i hlt
    exact iff_of_false (by decide) hlt.not_gt
  · split
    · rename_i heq
      exact iff_of_false (by decide) heq.not_gt
    · rename_i hlt hne
      exact iff_of_true rfl (lt_of_le_of_ne (not_lt.mp hlt) (Ne.symm hne))

theorem minore_asymm (h : Minore a b) : ¬ Minore b a := by
  unfold Minore at *
  omega

theorem ordinati_same (h : a.sign = b.sign) : Ordinati a b ↔ Minore a b := by
  unfold Ordinati
  rw [if_neg]
  rintro ⟨ha, hb⟩
  rw [ha, hb] at h
  exact Bool.false_ne_true h

theorem segni_esito_same (ha : Normal a) (hb : Normal b) (h : a.sign = b.sign) :
    segni (res a b) = esito a.value b.value ↔ Ordinati a b := by
  have havalue : a.value = signed a.sign (modulo a) := rfl
  have hbvalue : b.value = signed b.sign (modulo b) := rfl
  rw [res_same h, ordinati_same h, havalue, hbvalue, ← h]
  cases a.sign with
  | false =>
    rw [if_neg Bool.false_ne_true, minore_iff ha hb]
    exact eq_comm.trans esito_eq_C0_iff
  | true =>
    have hneg : modulo a < modulo b ↔ signed true (modulo b) < signed true (modulo a) :=
      neg_lt_neg_iff.symm
    rw [if_pos rfl, minore_iff ha hb, hneg]
    exact eq_comm.trans esito_eq_zero_iff

theorem segni_esito_other (ha : Normal a) (hb : Normal b) (h : a.sign ≠ b.sign) :
    segni (res a b) = esito a.value b.value ↔ Ordinati a b := by
  have hapos := ha.modulo_pos
  have hbpos := hb.modulo_pos
  rw [res_other ha hb h]
  by_cases hsign : a.sign = false
  · have hsign' : b.sign = true := by simpa [hsign] using h
    have hord : Ordinati a b ↔ Minore b a := by
      unfold Ordinati
      rw [if_pos ⟨hsign, hsign'⟩]
    have hgreater : b.value < a.value := by
      unfold MyDouble.value
      rw [hsign, hsign']
      exact (neg_lt_zero.mpr hbpos).trans hapos
    rw [hord, esito_eq_zero_iff.mpr hgreater]
    by_cases hless : Minore a b
    · rw [if_pos hless]
      exact iff_of_false (by decide) (minore_asymm hless)
    · rw [if_neg hless]
      by_cases hmore : Minore b a
      · rw [if_pos hmore]
        exact iff_of_true rfl hmore
      · rw [if_neg hmore]
        exact iff_of_false (by decide) hmore
  · have hsign' : a.sign = true := by simpa using hsign
    have hord : Ordinati a b ↔ Minore a b := by
      unfold Ordinati
      rw [if_neg fun hand => hsign hand.1]
    have hless : a.value < b.value := by
      have hb' : b.sign = false := by simpa [hsign'] using h
      unfold MyDouble.value
      rw [hsign', hb']
      exact (neg_lt_zero.mpr hapos).trans hbpos
    rw [hord, esito_eq_C0_iff.mpr hless]
    by_cases hmin : Minore a b
    · rw [if_pos hmin]
      exact iff_of_true rfl hmin
    · rw [if_neg hmin]
      apply iff_of_false _ hmin
      split <;> decide

/-- `compare` writes the order of the values exactly if the magnitudes are in the order of
`Ordinati`. -/
theorem confrontati_iff (ha : Normal a) (hb : Normal b) (sr : StatusWord) :
    Confrontati a b sr ↔ Ordinati a b := by
  obtain ⟨hbits, hothers⟩ := compare_bits ha hb sr
  unfold Confrontati
  rw [hbits, and_iff_left hothers]
  by_cases h : a.sign = b.sign
  · exact segni_esito_same ha hb h
  · exact segni_esito_other ha hb h

/-! ### The order laws -/

/-- The first is less, in the status word. -/
def Less (a b : MyDouble) (sr : StatusWord) : Prop :=
  compare a b sr &&& (C0 ||| C2 ||| C3) = C0

/-- The first is greater, in the status word. -/
def Greater (a b : MyDouble) (sr : StatusWord) : Prop :=
  compare a b sr &&& (C0 ||| C2 ||| C3) = 0

theorem segni_eq_C0_iff (r : Int) : segni r = C0 ↔ r = -1 := by
  unfold segni
  split
  · exact iff_of_true rfl ‹_›
  · apply iff_of_false _ ‹_›
    split <;> decide

theorem less_iff (ha : Normal a) (hb : Normal b) : Less a b sr ↔ res a b = -1 := by
  unfold Less
  rw [(compare_bits ha hb sr).1, segni_eq_C0_iff]

theorem greater_iff (ha : Normal a) (hb : Normal b) : Greater a b sr ↔ res a b = 1 := by
  unfold Greater
  rw [(compare_bits ha hb sr).1]
  rcases res_cases ha hb with h | h | h <;> rw [h] <;> decide

/-- The order with the operands exchanged is the opposite one exactly if the signs are different. -/
theorem opposti_iff (ha : Normal a) (hb : Normal b) :
    ((Less a b sr ↔ Greater b a sr) ∧ (Greater a b sr ↔ Less b a sr)) ↔ a.sign ≠ b.sign := by
  rw [less_iff ha hb, less_iff hb ha, greater_iff ha hb, greater_iff hb ha]
  by_cases h : a.sign = b.sign
  · apply iff_of_false _ (not_not.mpr h)
    rw [res_same h, res_same h.symm, ← h]
    cases a.sign <;> decide
  · refine iff_of_true ?_ h
    rw [res_other ha hb h, res_other hb ha (Ne.symm h)]
    by_cases hless : Minore a b
    · rw [if_pos hless, if_neg (minore_asymm hless), if_pos hless]
      decide
    · rw [if_neg hless, if_neg hless]
      split <;> decide

/-- Where the outcomes are right, they are transitive. -/
theorem less_trans (ha : Normal a) (hb : Normal b) (hc : Normal c) (hab : Ordinati a b)
    (hbc : Ordinati b c) (hac : Ordinati a c) (h : Less a b sr) (h' : Less b c sr) :
    Less a c sr := by
  have hright := ((confrontati_iff ha hb sr).mpr hab).1
  have hright' := ((confrontati_iff hb hc sr).mpr hbc).1
  have hlt := esito_eq_C0_iff.mp (hright.symm.trans h)
  have hlt' := esito_eq_C0_iff.mp (hright'.symm.trans h')
  exact ((confrontati_iff ha hc sr).mpr hac).1.trans (esito_eq_C0_iff.mpr (hlt.trans hlt'))

/-- The outcome is right exactly if the order of the magnitudes is that of `Ordinati`, it is
antisymmetric exactly for different signs, and it is transitive where it is right. -/
theorem compare_iff (ha : Normal a) (hb : Normal b) (hc : Normal c) (sr : StatusWord) :
    (Confrontati a b sr ↔ Ordinati a b) ∧
      (((Less a b sr ↔ Greater b a sr) ∧ (Greater a b sr ↔ Less b a sr)) ↔ a.sign ≠ b.sign) ∧
      (Ordinati a b → Ordinati b c → Ordinati a c → Less a b sr → Less b c sr → Less a c sr) :=
  ⟨confrontati_iff ha hb sr, opposti_iff ha hb, less_trans ha hb hc⟩

/-- 1.0, and 2.0. -/
def unita : MyDouble := { number := 0x8000000000000000, exp := 16383, sign := false }

def doppio : MyDouble := { unita with exp := 16384 }

/-- 1.0 is found to be less than 2.0. -/
theorem compare_unita_doppio : Confrontati unita doppio 0 ∧ Less unita doppio 0 := by
  have hunita : Normal unita := by unfold Normal; decide
  have hdoppio : Normal doppio := by unfold Normal; decide
  exact ⟨(compare_iff hunita hdoppio hunita 0).1.mpr (by unfold Ordinati; decide),
    by unfold Less; decide⟩

/-- 2.0 is less than 1.0 there. -/
theorem doppio_less_unita :
    Normal doppio ∧ Normal unita ∧ unita.value < doppio.value ∧ Less doppio unita 0 ∧
      Less unita doppio 0 ∧ ¬ Confrontati doppio unita 0 := by
  have hunita : Normal unita := by unfold Normal; decide
  have hdoppio : Normal doppio := by unfold Normal; decide
  have hvalue : unita.value < doppio.value := (minore_iff hunita hdoppio).mp (by decide)
  refine ⟨hdoppio, hunita, hvalue, (less_iff hdoppio hunita).mpr (by decide),
    (less_iff hunita hdoppio).mpr (by decide), fun h => ?_⟩
  exact absurd ((confrontati_iff hdoppio hunita 0).mp h) (by unfold Ordinati; decide)

end OsdevArchive.ItaliOs3.Myfloat
