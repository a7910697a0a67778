import Mathlib.Data.BitVec
import Mathlib.Data.Nat.Log
import Mathlib.Data.Rat.Defs
import Mathlib.Tactic.Ring

/-!
The software arithmetic of the floating point unit of ItaliOs3 (`fpu_emu/my_double.cc`): sum,
product, quotient and comparison of numbers with 64 digits and an exponent of 15 bits. C++ leaves
open what a shift by 64 places or more gives, except that nothing comes from zero; where such a
result is needed there is none. The words stand for numbers: 128-bit sums and differences, shifts,
and the digits from the first one on.
-/

namespace OsdevArchive.ItaliOs3.Myfloat

abbrev Word := BitVec 64

/-- `struct mdbl`. -/
structure MyDouble where
  number : Word
  exp : BitVec 15
  sign : Bool
deriving DecidableEq

structure Int128 where
  alto : Word
  basso : Word
deriving DecidableEq

/-- `fpu_const::BIAS_80`. -/
def bias80 : Nat := 16383

/-- `x << n`. -/
def shl (x : Word) (n : Int) : Option Word :=
  if x = 0 then some 0 else if 0 ≤ n ∧ n < 64 then some (x <<< n.toNat) else none

/-- `x >> n`. -/
def shr (x : Word) (n : Int) : Option Word :=
  if x = 0 then some 0 else if 0 ≤ n ∧ n < 64 then some (x >>> n.toNat) else none

/-- `pow(2, k)`. -/
def pow2 (k : Nat) : Word := 1#64 <<< k

/-! ### Words of 128 bits -/

def low32 (x : Word) : BitVec 32 := (x &&& 0xFFFFFFFF).setWidth 32

def high32 (x : Word) : BitVec 32 := (x >>> 32).setWidth 32

/-- `somma128`. -/
def somma128 (uno due : Int128) : Int128 :=
  let s1 := (low32 uno.basso).setWidth 64 + (low32 due.basso).setWidth 64
  let s2 := (high32 uno.basso).setWidth 64 + (high32 due.basso).setWidth 64 + (s1 >>> 32)
  let s3 := (low32 uno.alto).setWidth 64 + (low32 due.alto).setWidth 64 + (s2 >>> 32)
  let s4 := (high32 uno.alto).setWidth 64 + (high32 due.alto).setWidth 64 + (s3 >>> 32)
  { alto := (s4 <<< 32) + (s3 &&& 0xFFFFFFFF)
    basso := (s2 <<< 32) + (s1 &&& 0xFFFFFFFF) }

/-- `sottrai128`. -/
def sottrai128 (uno due : Int128) : Int128 :=
  somma128 (somma128 ⟨0, 1⟩ ⟨~~~due.alto, ~~~due.basso⟩) uno

/-- `confronta128`. -/
def confronta128 (uno due : Int128) : Bool :=
  if due.alto < uno.alto then true
  else if uno.alto < due.alto then false
  else due.basso ≤ uno.basso

/-- The loop that looks for the first digit from the place `n - 1` down. -/
def primaCifra (x : Word) : Nat → Int
  | 0 => -1
  | n + 1 => if x >>> n = 1 then n else primaCifra x n

/-- The digits of a number of 128 bits from its first one on, where the loop has come to `i`. -/
def cifre (x : Int128) (i : Int) : Option Word := do
  let basso ← shr x.basso (i + 1)
  let alto ← shl x.alto (63 - i)
  some (basso ||| alto)

/-! ### The operations -/

/-- `diff`. -/
def diff (uno due : MyDouble) : Int := uno.exp.toNat - due.exp.toNat

/-- A number that is shifted to the left in 128 bits. -/
def spostato (x : Word) (n : Int) : Option Int128 := do
  let basso ← shl x n
  let alto ← shr x (64 - n)
  some ⟨alto, basso⟩

/-- The two numbers at the smaller exponent. -/
def allineati (uno due : MyDouble) : Option (Int128 × Int128) :=
  if 0 < diff uno due then do
    let primo ← spostato uno.number (diff uno due)
    some (primo, ⟨0, due.number⟩)
  else do
    let secondo ← spostato due.number (-diff uno due)
    some (⟨0, uno.number⟩, secondo)

/-- The end of `somma`: the digits of the result and its exponent. -/
def normalizza (result : Int128) (exp : BitVec 15) (sign : Bool) : Option MyDouble := do
  let i := primaCifra result.alto 64
  let number ← cifre result i
  some { number := number, exp := exp + BitVec.ofInt 15 (i + 1), sign := sign }

/-- `somma`. -/
def somma (uno due : MyDouble) : Option MyDouble :=
  if 64 < diff uno due ∨ diff uno due < -64 then
    some (if 0 < diff uno due then uno else due)
  else do
    let (primo, secondo) ← allineati uno due
    let exp := if 0 < diff uno due then due.exp else uno.exp
    let (sign, result) :=
      if uno.sign = due.sign then (due.sign, somma128 primo secondo)
      else if 0 < diff uno due then (uno.sign, sottrai128 primo secondo)
      else (due.sign, sottrai128 secondo primo)
    normalizza result exp sign

/-- `app[i]` of `moltiplica`. -/
def addendo (uno due : MyDouble) (i : Nat) : Option Int128 :=
  if due.number &&& pow2 i ≠ 0 then do
    let alto ← shr uno.number (64 - i)
    let basso ← shl uno.number i
    some ⟨alto &&& 0xFFFFFFFFFFFFFFFF, basso⟩
  else some ⟨0, 0⟩

/-- `(64-i)/i`. -/
def correzione (i : Int) : Option (BitVec 15) :=
  if i = 0 then none else some (BitVec.ofInt 15 ((64 - i).tdiv i))

/-- The sum of the first `n` addends. -/
def prodotto (uno due : MyDouble) : Nat → Option Int128
  | 0 => some ⟨0, 0⟩
  | n + 1 => do
    let ris ← prodotto uno due n
    let app ← addendo uno due n
    some (somma128 ris app)

/-- `moltiplica`. -/
def moltiplica (uno due : MyDouble) : Option MyDouble := do
  let ris ← prodotto uno due 64
  let i := primaCifra ris.alto 64
  let number ← cifre ris i
  let giu ← correzione i
  some
    { number := number
      exp := uno.exp + due.exp - BitVec.ofNat 15 bias80 + giu
      sign := uno.sign ^^ due.sign }

/-- The column division, where `i` places are left: `primo` and the digits of the quotient. -/
def colonna (secondo : Int128) : Nat → Int128 → Word → Word
  | 0, _, number => number
  | i + 1, primo, number =>
    let (primo, number) :=
      if confronta128 primo secondo then (sottrai128 primo secondo, number + pow2 i)
      else (primo, number)
    colonna secondo i ⟨primo.basso >>> 63, primo.basso <<< 1⟩ number

/-- `dividi`. The place `i` is unsigned there, and goes round below zero. -/
def dividi (uno due : MyDouble) : Option MyDouble := do
  let number := colonna ⟨0, due.number⟩ 64 ⟨0, uno.number⟩ 0
  let i := primaCifra number 64
  if i < 0 then none
  else do
    let giu ← correzione i
    let cifre ← shl number (63 - i)
    some
      { number := cifre
        exp := uno.exp + BitVec.ofNat 15 bias80 - due.exp - giu
        sign := uno.sign ^^ due.sign }

/-! ### The numbers of the words -/

/-- The number of two words. -/
def Int128.val (x : Int128) : Nat := x.alto.toNat * 2 ^ 64 + x.basso.toNat

variable {x y : Int128} {w : Word} {n i : Nat}

theorem Int128.val_lt (x : Int128) : x.val < 2 ^ 128 := by
  have halto := x.alto.isLt
  have hbasso := x.basso.isLt
  unfold Int128.val
  omega

theorem Int128.val_inj (h : x.val = y.val) : x = y := by
  have hx := x.basso.isLt
  have hy := y.basso.isLt
  unfold Int128.val at h
  obtain ⟨xa, xb⟩ := x
  obtain ⟨ya, yb⟩ := y
  dsimp only at h hx hy
  rw [BitVec.eq_of_toNat_eq (show xa.toNat = ya.toNat by omega),
    BitVec.eq_of_toNat_eq (show xb.toNat = yb.toNat by omega)]

theorem toNat_and_ffffffff (w : Word) : (w &&& 0xFFFFFFFF).toNat = w.toNat % 2 ^ 32 := by
  rw [BitVec.toNat_and]
  exact Nat.and_two_pow_sub_one_eq_mod w.toNat 32

theorem toNat_low32 (w : Word) : ((low32 w).setWidth 64).toNat = w.toNat % 2 ^ 32 := by
  unfold low32
  simp only [BitVec.toNat_setWidth, toNat_and_ffffffff]
  omega

theorem toNat_high32 (w : Word) : ((high32 w).setWidth 64).toNat = w.toNat / 2 ^ 32 := by
  have hlt := w.isLt
  unfold high32
  simp only [BitVec.toNat_setWidth, BitVec.toNat_ushiftRight, Nat.shiftRight_eq_div_pow]
  omega

/-- Sums of 128 bits go round. -/
theorem val_somma128 (x y : Int128) : (somma128 x y).val = (x.val + y.val) % 2 ^ 128 := by
  have hxa := x.alto.isLt
  have hxb := x.basso.isLt
  have hya := y.alto.isLt
  have hyb := y.basso.isLt
  simp only [Int128.val, somma128, BitVec.toNat_add, toNat_low32, toNat_high32,
    toNat_and_ffffffff, BitVec.toNat_ushiftRight, BitVec.toNat_shiftLeft,
    Nat.shiftRight_eq_div_pow, Nat.shiftLeft_eq]
  omega

theorem val_not (x : Int128) : Int128.val ⟨~~~x.alto, ~~~x.basso⟩ = 2 ^ 128 - 1 - x.val := by
  have halto := x.alto.isLt
  have hbasso := x.basso.isLt
  simp only [Int128.val, BitVec.toNat_not]
  omega

theorem val_sottrai128 (x y : Int128) :
    (sottrai128 x y).val = (x.val + (2 ^ 128 - y.val)) % 2 ^ 128 := by
  have hx := x.val_lt
  have hy := y.val_lt
  have hone : Int128.val ⟨0, 1⟩ = 1 := by decide
  unfold sottrai128
  rw [val_somma128, val_somma128, val_not, hone]
  omega

theorem confronta128_iff (x y : Int128) : confronta128 x y = true ↔ y.val ≤ x.val := by
  have hx := x.basso.isLt
  have hy := y.basso.isLt
  unfold confronta128 Int128.val
  simp only [BitVec.lt_def, BitVec.le_def]
  split
  · simp only [true_iff]
    omega
  · split
    · simp only [Bool.false_eq_true, false_iff]
      omega
    · rw [decide_eq_true_iff]
      omega

/-! ### Shifts -/

theorem shl_some (h : n < 64) (w : Word) : shl w n = some (w <<< n) := by
  unfold shl
  split
  · rename_i hzero
    rw [hzero]
    simp
  · rw [if_pos ⟨Int.natCast_nonneg n, by omega⟩, Int.toNat_natCast]

theorem shr_some (h : n < 64) (w : Word) : shr w n = some (w >>> n) := by
  unfold shr
  split
  · rename_i hzero
    rw [hzero]
    simp
  · rw [if_pos ⟨Int.natCast_nonneg n, by omega⟩, Int.toNat_natCast]

theorem shl_zero (w : Word) : shl w 0 = some w := by
  have h := shl_some (n := 0) (by decide) w
  rwa [BitVec.shiftLeft_zero] at h

theorem shr_zero (w : Word) : shr w 0 = some w := by
  have h := shr_some (n := 0) (by decide) w
  rwa [BitVec.ushiftRight_zero] at h

theorem shl_none (hw : w ≠ 0) : shl w 64 = none := by
  unfold shl
  rw [if_neg hw]
  rfl

theorem shr_none (hw : w ≠ 0) : shr w 64 = none := by
  unfold shr
  rw [if_neg hw]
  rfl

/-- Less than 64 places, and not none, make a shift over two words. -/
theorem spostato_some (hpos : 0 < n) (hn : n < 64) (w : Word) :
    ∃ x, spostato w n = some x ∧ x.val = w.toNat * 2 ^ n := by
  have hsub : (64 - (n : Int)) = (64 - n : Nat) := by omega
  refine ⟨⟨w >>> (64 - n), w <<< n⟩, ?_, ?_⟩
  · unfold spostato
    rw [shl_some hn, hsub, shr_some (by omega)]
    rfl
  · have hpow : 2 ^ 64 = 2 ^ (64 - n) * 2 ^ n := by
      rw [← pow_add]
      congr 1
      omega
    simp only [Int128.val, BitVec.toNat_ushiftRight, BitVec.toNat_shiftLeft,
      Nat.shiftRight_eq_div_pow, Nat.shiftLeft_eq]
    calc
      w.toNat / 2 ^ (64 - n) * 2 ^ 64 + w.toNat * 2 ^ n % 2 ^ 64
          = (2 ^ (64 - n) * (w.toNat / 2 ^ (64 - n)) + w.toNat % 2 ^ (64 - n)) * 2 ^ n := by
        rw [hpow, Nat.mul_mod_mul_right]
        ring
      _ = w.toNat * 2 ^ n := by rw [Nat.div_add_mod]

theorem spostato_zero (hw : w ≠ 0) : spostato w 0 = none := by
  unfold spostato
  rw [shl_zero, Int.sub_zero, shr_none hw]
  rfl

theorem spostato_all (hw : w ≠ 0) : spostato w 64 = none := by
  unfold spostato
  rw [shl_none hw]
  rfl

/-! ### The first digit -/

theorem ushiftRight_eq_one_iff (w : Word) (n : Nat) :
    w >>> n = 1 ↔ 2 ^ n ≤ w.toNat ∧ w.toNat < 2 ^ (n + 1) := by
  have hpos : 0 < 2 ^ n := Nat.two_pow_pos n
  rw [← BitVec.toNat_inj, BitVec.toNat_ushiftRight, Nat.shiftRight_eq_div_pow]
  change w.toNat / 2 ^ n = 1 ↔ _
  rw [Nat.div_eq_iff hpos, pow_succ]
  omega

/-- The loop finds the first digit. -/
theorem primaCifra_eq (hlow : 2 ^ i ≤ w.toNat) (hhigh : w.toNat < 2 ^ (i + 1)) (hi : i < n) :
    primaCifra w n = i := by
  induction n with
  | zero => omega
  | succ n ih =>
    rw [primaCifra]
    rcases Nat.lt_succ_iff_lt_or_eq.mp hi with hlt | rfl
    · rw [if_neg]
      · exact ih hlt
      · rw [ushiftRight_eq_one_iff]
        rintro ⟨hle, -⟩
        have hmono : 2 ^ (i + 1) ≤ 2 ^ n := Nat.pow_le_pow_right (by decide) hlt
        omega
    · rw [if_pos ((ushiftRight_eq_one_iff w i).mpr ⟨hlow, hhigh⟩)]

theorem primaCifra_zero (n : Nat) : primaCifra 0 n = -1 := by
  induction n with
  | zero => rfl
  | succ n ih =>
    rw [primaCifra, if_neg, ih]
    rw [ushiftRight_eq_one_iff]
    rintro ⟨hle, -⟩
    have hpos : 0 < 2 ^ n := Nat.two_pow_pos n
    change 2 ^ n ≤ 0 at hle
    omega

/-- A word that is not zero has a first digit. -/
theorem exists_primaCifra (hw : w.toNat ≠ 0) :
    ∃ i : Nat, i < 64 ∧ primaCifra w 64 = i ∧ 2 ^ i ≤ w.toNat ∧ w.toNat < 2 ^ (i + 1) := by
  have hlow := Nat.pow_log_le_self 2 hw
  have hhigh := Nat.lt_pow_succ_log_self one_lt_two w.toNat
  have hlt : Nat.log 2 w.toNat < 64 := Nat.log_lt_of_lt_pow hw w.isLt
  exact ⟨_, hlt, primaCifra_eq hlow hhigh hlt, hlow, hhigh⟩

/-- The digits from the first one on, which has the place `64 + i`. -/
theorem cifre_some (hi : i < 63) (hhigh : x.alto.toNat < 2 ^ (i + 1)) :
    ∃ d, cifre x i = some d ∧ d.toNat = x.val / 2 ^ (i + 1) := by
  have hsub : (63 - (i : Int)) = (63 - i : Nat) := by omega
  refine ⟨x.basso >>> (i + 1) ||| x.alto <<< (63 - i), ?_, ?_⟩
  · unfold cifre
    rw [hsub, shl_some (by omega)]
    have hshr := shr_some (show i + 1 < 64 by omega) x.basso
    rw [Nat.cast_succ] at hshr
    rw [hshr]
    rfl
  · -- The digits of the two words do not overlap.
    have hsplit : 2 ^ 64 = 2 ^ (63 - i) * 2 ^ (i + 1) := by
      rw [← pow_add]
      congr 1
      omega
    have hpos : 0 < 2 ^ (i + 1) := Nat.two_pow_pos (i + 1)
    have hbasso : x.basso.toNat / 2 ^ (i + 1) < 2 ^ (63 - i) := by
      rw [Nat.div_lt_iff_lt_mul hpos, ← hsplit]
      exact x.basso.isLt
    have halto : x.alto.toNat * 2 ^ (63 - i) < 2 ^ 64 := by
      rw [hsplit, Nat.mul_comm]
      exact Nat.mul_lt_mul_of_pos_left hhigh (Nat.two_pow_pos (63 - i))
    rw [BitVec.toNat_or, BitVec.toNat_ushiftRight, BitVec.toNat_shiftLeft,
      Nat.shiftRight_eq_div_pow, Nat.shiftLeft_eq, Nat.mod_eq_of_lt halto, Nat.or_comm,
      Nat.mul_comm x.alto.toNat, ← Nat.two_pow_add_eq_or_of_lt hbasso]
    have hval : x.val = x.basso.toNat + 2 ^ (63 - i) * x.alto.toNat * 2 ^ (i + 1) := by
      unfold Int128.val
      rw [hsplit]
      ring
    rw [hval, Nat.add_mul_div_right _ _ hpos, Nat.add_comm]

/-- Behind the last place of the upper word, the lower word may only be zero. -/
theorem cifre_ultima (x : Int128) :
    cifre x 63 = if x.basso = 0 then some x.alto else none := by
  have hnext : (63 : Int) + 1 = 64 := rfl
  have hsub : (63 : Int) - 63 = 0 := rfl
  unfold cifre
  rw [hnext, hsub, shl_zero]
  split
  · rename_i hzero
    rw [hzero, shr, if_pos rfl]
    exact congrArg some (BitVec.zero_or ..)
  · rename_i hne
    rw [shr_none hne]
    rfl

theorem cifre_basso (hzero : x.alto = 0) : cifre x (-1) = some x.basso := by
  have hnext : (-1 : Int) + 1 = 0 := rfl
  unfold cifre
  rw [hnext, shr_zero, hzero, shl, if_pos rfl]
  exact congrArg some (BitVec.or_zero ..)

end OsdevArchive.ItaliOs3.Myfloat
