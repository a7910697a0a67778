import Mathlib.Tactic.IntervalCases
import OsdevArchive.Lib.Calendar

/-!
The dates of files in the ext2 driver (`fs/ext2/ext2.c`): `det_date` and `det_time` take a count of
seconds since 1970 apart. `det_date` subtracts years and then months; it takes every fourth year
for a leap year.
-/

namespace OsdevArchive.Minirighi.Ext2

open OsdevArchive.Lib.Calendar

/-- `struct time_ext2`. -/
structure Time where
  ora : Nat
  minuti : Nat
  secondi : Nat
  deriving DecidableEq

/-- `det_time`. -/
def detTime (inoTime : BitVec 32) : Time :=
  let s := inoTime.toNat % 86400
  let ora := s / 3600
  let s := s - ora * 3600
  let minuti := s / 60
  let s := s - minuti * 60
  ⟨ora, minuti, s⟩

/-- The loop over the years; `none` if it does not end within `fuel` rounds. -/
def yearLoop : (fuel anno mg : Nat) → Option (Nat × Nat)
  | 0, _, _ => none
  | fuel + 1, anno, mg =>
      if anno % 4 = 0 then
        if mg < 366 then some (anno, mg) else yearLoop fuel (anno + 1) (mg - 366)
      else if mg < 365 then some (anno, mg) else yearLoop fuel (anno + 1) (mg - 365)

/-- The loop over the months. -/
def monthLoop (anno : Nat) : (fuel mese mg : Nat) → Option (Nat × Nat)
  | 0, _, _ => none
  | fuel + 1, mese, mg =>
      if mese = 4 ∨ mese = 6 ∨ mese = 9 ∨ mese = 11 then
        if mg ≤ 30 then some (mese, mg) else monthLoop anno fuel (mese + 1) (mg - 30)
      else if mese = 2 ∧ anno % 4 = 0 then
        if mg ≤ 29 then some (mese, mg) else monthLoop anno fuel (mese + 1) (mg - 29)
      else if mese = 2 ∧ anno % 4 ≠ 0 then
        if mg ≤ 28 then some (mese, mg) else monthLoop anno fuel (mese + 1) (mg - 28)
      else if mg ≤ 31 then some (mese, mg) else monthLoop anno fuel (mese + 1) (mg - 31)

/-- `det_date`. -/
def detDate (inoTime : BitVec 32) : Option Date := do
  let mg := inoTime.toNat / 86400 + 1
  let (anno, mg) ← yearLoop (mg + 1) 1970 mg
  let (mese, mg) ← monthLoop anno (mg + 1) 1 mg
  some ⟨anno, mese, mg⟩

/-- The days since 1970. -/
def dayOf (inoTime : BitVec 32) : Nat := inoTime.toNat / 86400

/-- The time of the day. -/
structure IsTime (inoTime : BitVec 32) (t : Time) : Prop where
  ora : t.ora < 24
  minuti : t.minuti < 60
  secondi : t.secondi < 60
  eq : t.ora * 3600 + t.minuti * 60 + t.secondi = inoTime.toNat % 86400

/-- `det_date` and `det_time` give the Gregorian date and the time. -/
def Dated (inoTime : BitVec 32) : Prop :=
  (∃ d, detDate inoTime = some d ∧ IsDay gregorian 1970 (dayOf inoTime) d) ∧
    IsTime inoTime (detTime inoTime)

/-- The last day of a year. -/
def YearEnd (d : Date) : Prop := d.month = 12 ∧ d.day = 31

instance decidableYearEnd (d : Date) : Decidable (YearEnd d) := inferInstanceAs (Decidable (_ ∧ _))

/-- A day before March 1, 2100. -/
def BeforeMarch2100 (d : Date) : Prop :=
  d.year < 2100 ∨ d.year = 2100 ∧ (d.month = 1 ∨ d.month = 2 ∧ d.day ≤ 28)

/-! ## The loops -/

theorem yearLoop_eq (fuel anno mg : Nat) : yearLoop fuel anno mg =
    seek (fun y => yearDays (julian y)) (fun y n => decide (n < yearDays (julian y)))
      fuel anno mg := by
  induction fuel generalizing anno mg with
  | zero => rfl
  | succ fuel ih =>
    rw [yearLoop, seek]
    by_cases hleap : anno % 4 = 0 <;> simp [hleap, julian, yearDays, ih]

theorem monthLoop_eq (anno fuel mese mg : Nat) : monthLoop anno fuel mese mg =
    seek (monthDays (julian anno)) (fun m n => decide (n ≤ monthDays (julian anno) m))
      fuel mese mg := by
  induction fuel generalizing mese mg with
  | zero => rfl
  | succ fuel ih =>
    rw [monthLoop, seek]
    by_cases hshort : mese = 4 ∨ mese = 6 ∨ mese = 9 ∨ mese = 11
    · simp [hshort, monthDays, ih]
    · by_cases hfeb : mese = 2
      · by_cases hleap : anno % 4 = 0 <;> simp [hfeb, hleap, monthDays, julian, ih]
      · simp [hshort, hfeb, monthDays, ih]

variable {inoTime : BitVec 32} {n : Nat} {d : Date}

/-- The loop over the years counts days from one, but leaves a year on its last day already. -/
theorem yearLoop_of_lies {y r : Nat}
    (h : Lies (fun y => yearDays (julian y)) 1970 n y r) :
    yearLoop (n + 1 + 1) 1970 (n + 1) =
      if r + 1 < yearDays (julian (1970 + y)) then some (1970 + y, r + 1)
      else some (1970 + (y + 1), 0) := by
  obtain ⟨hlt, hn⟩ := h
  have hfuel : y * 1 ≤ total (fun y => yearDays (julian y)) 1970 y :=
    le_total fun y => yearDays_pos (julian y)
  have hgo : ∀ i < y, decide (n + 1 - total (fun y => yearDays (julian y)) 1970 i <
      yearDays (julian (1970 + i))) = false := by
    intro i hi
    have hbefore := total_add_le (fun y => yearDays (julian y)) 1970 hi
    apply decide_eq_false
    omega
  rw [yearLoop_eq]
  by_cases hlast : r + 1 < yearDays (julian (1970 + y))
  · rw [if_pos hlast, seek_eq (j := y) (by omega) hgo (by apply decide_eq_true; omega)]
    congr 2
    omega
  · have hnext : total (fun y => yearDays (julian y)) 1970 (y + 1) = n + 1 := by
      rw [total]
      omega
    rw [if_neg hlast, seek_eq (j := y + 1) (by omega), hnext, Nat.sub_self]
    · intro i hi
      rcases Nat.lt_or_eq_of_le (Nat.le_of_lt_succ hi) with hi | rfl
      · exact hgo i hi
      · apply decide_eq_false
        omega
    · rw [hnext, Nat.sub_self]
      exact decide_eq_true (yearDays_pos _)

theorem monthLoop_of_lies {anno m r s : Nat} (h : Lies (monthDays (julian anno)) 1 r m s) :
    monthLoop anno (r + 1 + 1) 1 (r + 1) = some (1 + m, s + 1) := by
  obtain ⟨hlt, hr⟩ := h
  have hfuel : m * 1 ≤ total (monthDays (julian anno)) 1 m := le_total (monthDays_pos _)
  rw [monthLoop_eq, seek_eq (j := m) (by omega)]
  · congr 2
    omega
  · intro i hi
    have hbefore := total_add_le (monthDays (julian anno)) 1 hi
    apply decide_eq_false
    omega
  · apply decide_eq_true
    omega

/-- The last day of December is the last one of the year. -/
theorem yearEnd_iff (h : IsDay julian 1970 n d) : YearEnd d ↔
    yearDays (julian d.year) ≤
      total (monthDays (julian d.year)) 1 (d.month - 1) + (d.day - 1) + 1 := by
  obtain ⟨-, ⟨hfirst, hmonth⟩, ⟨hpos, hday⟩, -⟩ := h
  have hyear := total_monthDays (julian d.year)
  have hdecember : monthDays (julian d.year) (1 + 11) = 31 := rfl
  rw [total, hdecember] at hyear
  unfold YearEnd
  by_cases hlast : d.month = 12
  · rw [hlast] at hday ⊢
    change d.day ≤ 31 at hday
    change 12 = 12 ∧ d.day = 31 ↔
      _ ≤ total (monthDays (julian d.year)) 1 11 + (d.day - 1) + 1
    omega
  · have hbefore := total_add_le (monthDays (julian d.year)) 1
      (show d.month - 1 < 11 by omega)
    rw [Nat.add_sub_cancel' hfirst] at hbefore
    omega

/-- `det_date` gives the Julian date, but a day zero in place of the last day of a year. -/
theorem detDate_eq (h : IsDay julian 1970 (dayOf inoTime) d) : detDate inoTime =
    some (if YearEnd d then ⟨d.year + 1, 1, 0⟩ else d) := by
  have hyear := h.in_year
  have hmonth := h.in_month
  have hback : 1970 + (d.year - 1970) = d.year := Nat.add_sub_cancel' h.year
  have hloop := yearLoop_of_lies hyear
  rw [hback] at hloop
  have hend := yearEnd_iff h
  unfold detDate
  unfold dayOf at hloop
  dsimp only
  rw [hloop]
  by_cases hlast : YearEnd d
  · have hnext : 1970 + (d.year - 1970 + 1) = d.year + 1 := by omega
    have hjanuary : monthLoop (d.year + 1) (0 + 1) 1 0 = some (1, 0) := by simp [monthLoop]
    rw [if_neg (Nat.not_lt.mpr (hend.mp hlast)), if_pos hlast, hnext]
    simp only [Option.bind_eq_bind, Option.bind_some, hjanuary]
  · have hm := h.month
    have hd := h.day
    rw [if_pos (Nat.lt_of_not_le (mt hend.mpr hlast)), if_neg hlast]
    simp only [Option.bind_eq_bind, Option.bind_some, monthLoop_of_lies hmonth]
    rw [Nat.add_sub_cancel' hm.1, Nat.sub_add_cancel hd.1]

/-! ## The two calendars -/

theorem gregorian_eq {y : Nat} (hy : y < 2200) (h : 1970 ≤ y) (hne : y ≠ 2100) :
    gregorian y = julian y := by
  unfold gregorian julian
  apply decide_eq_decide.mpr
  omega

theorem julian_2100 : julian 2100 = true := rfl

theorem gregorian_2100 : gregorian 2100 = false := rfl

theorem years_eq {y : Nat} (hy : 1970 + y ≤ 2100) :
    total (fun y => yearDays (julian y)) 1970 y =
      total (fun y => yearDays (gregorian y)) 1970 y := by
  apply total_congr
  intro i hi
  rw [gregorian_eq (by omega) (by omega) (by omega)]

/-- Behind 2100 the Julian calendar has had one day more. -/
theorem years_succ {y : Nat} (hy : 2100 < 1970 + y) (hend : 1970 + y ≤ 2200) :
    total (fun y => yearDays (julian y)) 1970 y =
      total (fun y => yearDays (gregorian y)) 1970 y + 1 := by
  have hlonger : yearDays (julian (1970 + 130)) = yearDays (gregorian (1970 + 130)) + 1 := by
    change yearDays (julian 2100) = yearDays (gregorian 2100) + 1
    rw [julian_2100, gregorian_2100]
    rfl
  have hyear : 130 < y := by omega
  refine total_succ_of_longer hlonger hyear fun i hi hne => ?_
  rw [gregorian_eq (by omega) (by omega) (by omega)]

/-- Before March 2100 the calendars agree. -/
theorem isDay_iff_of_before (hd : BeforeMarch2100 d) :
    IsDay julian 1970 n d ↔ IsDay gregorian 1970 n d := by
  have hdays : 1970 ≤ d.year → 1 ≤ d.month →
      total (fun y => yearDays (julian y)) 1970 (d.year - 1970) =
          total (fun y => yearDays (gregorian y)) 1970 (d.year - 1970) ∧
        total (monthDays (julian d.year)) 1 (d.month - 1) =
          total (monthDays (gregorian d.year)) 1 (d.month - 1) ∧
        (d.day ≤ monthDays (julian d.year) d.month ↔
          d.day ≤ monthDays (gregorian d.year) d.month) := by
    intro hyear hmonth
    rcases hd with hlt | ⟨heq, hmonth | ⟨hmonth, hday⟩⟩
    · rw [gregorian_eq (by omega) hyear (by omega)]
      exact ⟨years_eq (by omega), rfl, Iff.rfl⟩
    · rw [heq, hmonth]
      exact ⟨years_eq (by omega), rfl, Iff.rfl⟩
    · rw [heq, hmonth]
      refine ⟨years_eq (by omega), rfl, fun _ => hday, fun _ => ?_⟩
      exact Nat.le_trans hday (by decide)
  constructor
  · rintro ⟨hyear, hmonth, hday, hnumber⟩
    obtain ⟨hyears, hmonths, hiff⟩ := hdays hyear hmonth.1
    refine ⟨hyear, hmonth, ⟨hday.1, hiff.mp hday.2⟩, ?_⟩
    rw [← hyears, ← hmonths, hnumber]
  · rintro ⟨hyear, hmonth, hday, hnumber⟩
    obtain ⟨hyears, hmonths, hiff⟩ := hdays hyear hmonth.1
    refine ⟨hyear, hmonth, ⟨hday.1, hiff.mpr hday.2⟩, ?_⟩
    rw [hyears, hmonths, hnumber]

/-- Then they do not. -/
theorem not_isDay_of_behind (hd : ¬BeforeMarch2100 d) (hyear : d.year < 2200)
    (h : IsDay julian 1970 n d) : ¬IsDay gregorian 1970 n d := by
  intro h'
  have hnumber := h.number
  rw [h'.number] at hnumber
  have hmonth := h.month
  have hday := h'.day
  unfold BeforeMarch2100 at hd
  by_cases heq : d.year = 2100
  · have hyears := years_eq (y := d.year - 1970) (by omega)
    rw [heq] at hday hnumber hyears
    have hmonths : total (monthDays (julian 2100)) 1 (d.month - 1) =
        total (monthDays (gregorian 2100)) 1 (d.month - 1) + if 3 ≤ d.month then 1 else 0 := by
      obtain ⟨month, hm⟩ : ∃ m, m = d.month := ⟨_, rfl⟩
      rw [← hm] at hmonth ⊢
      obtain ⟨hfirst, hlast⟩ := hmonth
      interval_cases month <;> rfl
    rw [hyears, hmonths] at hnumber
    split at hnumber
    · omega
    · have hfebruary : d.month = 2 := by omega
      rw [hfebruary] at hday
      change _ ∧ d.day ≤ 28 at hday
      omega
  · have hyears := years_succ (y := d.year - 1970) (by omega) (by omega)
    rw [hyears, gregorian_eq hyear h.year heq] at hnumber
    omega

/-! ## `det_date` -/

theorem isTime_detTime (inoTime : BitVec 32) : IsTime inoTime (detTime inoTime) := by
  unfold detTime
  constructor <;> dsimp only <;> omega

/-- The dates and times are right before March 2100, but for the last days of the years. -/
theorem dated_iff (inoTime : BitVec 32) : Dated inoTime ↔
    ∃ d, IsDay gregorian 1970 (dayOf inoTime) d ∧ BeforeMarch2100 d ∧ ¬YearEnd d := by
  constructor
  · rintro ⟨⟨d', hdate, hday'⟩, -⟩
    obtain ⟨d, hday⟩ := exists_isDay julian 1970 (dayOf inoTime)
    rw [detDate_eq hday] at hdate
    by_cases hend : YearEnd d
    · rw [if_pos hend] at hdate
      obtain rfl := Option.some.inj hdate
      exact absurd hday'.day.1 (Nat.not_succ_le_zero 0)
    · rw [if_neg hend] at hdate
      obtain rfl := Option.some.inj hdate
      refine ⟨d, hday', ?_, hend⟩
      by_contra hbehind
      have hyears : (d.year - 1970) * 365 ≤
          total (fun y => yearDays (julian y)) 1970 (d.year - 1970) :=
        le_total fun y => by unfold yearDays; split <;> decide
      have hnumber := hday.number
      have hlt := inoTime.isLt
      unfold dayOf at hnumber
      exact not_isDay_of_behind hbehind (by omega) hday hday'
  · rintro ⟨d, hday, hbefore, hend⟩
    refine ⟨⟨d, ?_, hday⟩, isTime_detTime inoTime⟩
    rw [detDate_eq ((isDay_iff_of_before hbefore).mpr hday), if_neg hend]

/-- The first second of December 31, 1970. -/
theorem newYearsEve_misdated : detDate (364 * 86400) = some ⟨1971, 1, 0⟩ ∧
    ¬Dated (364 * 86400) := by
  have hdate : detDate (364 * 86400) = some ⟨1971, 1, 0⟩ := by decide
  refine ⟨hdate, ?_⟩
  rintro ⟨⟨d, hdated, hday⟩, -⟩
  rw [hdate] at hdated
  obtain rfl := Option.some.inj hdated
  exact absurd hday.day.1 (by decide)

end OsdevArchive.Minirighi.Ext2
