import Mathlib.Data.Nat.Basic

/-!
Periods that follow one another, each of a length of its own, and the calendar that they make:
years of months of days. A day is a number, counted from the first day of an epoch; its date is
the year in which it lies, the month in that year and the day in that month. Which years are
leap years is a parameter.
-/

namespace OsdevArchive.Lib.Calendar

/-! ### Periods -/

section Periods

variable (len : Nat → Nat)

/-- The length of the `j` periods from the `k`-th on. -/
def total (k : Nat) : Nat → Nat
  | 0 => 0
  | j + 1 => total k j + len (k + j)

/-- The number `n` lies in the period `k + j`, behind `r` others. -/
structure Lies (k n j r : Nat) : Prop where
  lt : r < len (k + j)
  eq : n = total len k j + r

variable {len} {len' : Nat → Nat} {k n i j r : Nat}

theorem total_mono (len : Nat → Nat) (k : Nat) (h : i ≤ j) : total len k i ≤ total len k j := by
  induction h with
  | refl => exact Nat.le_refl _
  | step _ ih => exact Nat.le_trans ih (Nat.le_add_right _ _)

/-- A period that comes before another one ends before it begins. -/
theorem total_add_le (len : Nat → Nat) (k : Nat) (h : i < j) :
    total len k i + len (k + i) ≤ total len k j :=
  total_mono len k (j := j) (Nat.succ_le_of_lt h)

theorem total_congr (h : ∀ i < j, len (k + i) = len' (k + i)) : total len k j = total len' k j := by
  induction j with
  | zero => rfl
  | succ j ih =>
    rw [total, total, ih fun i hi => h i (Nat.lt_succ_of_lt hi), h j (Nat.lt_succ_self j)]

/-- Where one of the periods is longer by one, so are all that contain it. -/
theorem total_succ_of_longer {i : Nat} (hlonger : len (k + i) = len' (k + i) + 1) (hij : i < j)
    (h : ∀ l < j, l ≠ i → len (k + l) = len' (k + l)) : total len k j = total len' k j + 1 := by
  induction j with
  | zero => exact absurd hij (Nat.not_lt_zero i)
  | succ j ih =>
    rw [total, total]
    rcases Nat.lt_or_eq_of_le (Nat.le_of_lt_succ hij) with hlt | rfl
    · rw [ih hlt fun l hl => h l (Nat.lt_succ_of_lt hl),
        h j (Nat.lt_succ_self j) (Nat.ne_of_gt hlt)]
      omega
    · rw [total_congr fun l hl => h l (Nat.lt_succ_of_lt hl) (Nat.ne_of_lt hl), hlonger]
      omega

theorem le_total {m : Nat} (hm : ∀ i, m ≤ len i) : j * m ≤ total len k j := by
  induction j with
  | zero => simp
  | succ j ih =>
    have hlast := hm (k + j)
    rw [total, Nat.add_mul, Nat.one_mul]
    omega

/-- Periods that are not empty leave no gap. -/
theorem exists_lies (hpos : ∀ i, 0 < len i) (k n : Nat) : ∃ j r, Lies len k n j r := by
  induction n with
  | zero => exact ⟨0, 0, hpos _, rfl⟩
  | succ n ih =>
    obtain ⟨j, r, hlt, rfl⟩ := ih
    by_cases hlast : r + 1 < len (k + j)
    · exact ⟨j, r + 1, hlast, rfl⟩
    · refine ⟨j + 1, 0, hpos _, ?_⟩
      rw [total]
      omega

/-- A loop that takes off one period after the other until `stays` holds. -/
def seek (len : Nat → Nat) (stays : Nat → Nat → Bool) : Nat → Nat → Nat → Option (Nat × Nat)
  | 0, _, _ => none
  | fuel + 1, k, n => if stays k n then some (k, n) else seek len stays fuel (k + 1) (n - len k)

/-- The loop gets to a period if it stays in none before. -/
theorem seek_eq {stays : Nat → Nat → Bool} {fuel : Nat} (hfuel : j < fuel)
    (hgo : ∀ i < j, stays (k + i) (n - total len k i) = false)
    (hstay : stays (k + j) (n - total len k j) = true) :
    seek len stays fuel k n = some (k + j, n - total len k j) := by
  induction j generalizing k n fuel with
  | zero =>
    obtain ⟨fuel, rfl⟩ : ∃ f, fuel = f + 1 := ⟨fuel - 1, by omega⟩
    exact if_pos hstay
  | succ j ih =>
    obtain ⟨fuel, rfl⟩ : ∃ f, fuel = f + 1 := ⟨fuel - 1, by omega⟩
    have hshift : ∀ i, total len k (i + 1) = len k + total len (k + 1) i := by
      intro i
      induction i with
      | zero => simp [total]
      | succ i ihi =>
        rw [total, ihi, total, Nat.add_assoc, Nat.add_assoc k 1 i, Nat.add_comm 1 i]
    have hfirst := hgo 0 (Nat.succ_pos j)
    rw [total, Nat.sub_zero, Nat.add_zero] at hfirst
    rw [seek, hfirst, if_neg Bool.false_ne_true, ih (Nat.lt_of_succ_lt_succ hfuel)]
    · rw [hshift, Nat.sub_sub, Nat.add_assoc, Nat.add_comm 1 j]
    · intro i hi
      have hnext := hgo (i + 1) (Nat.succ_lt_succ hi)
      rwa [hshift, ← Nat.sub_sub, Nat.add_comm i 1, ← Nat.add_assoc] at hnext
    · rwa [hshift, ← Nat.sub_sub, Nat.add_comm j 1, ← Nat.add_assoc] at hstay

end Periods

/-! ### Dates -/

/-- The days of a month. -/
def monthDays (leap : Bool) (month : Nat) : Nat :=
  if month = 4 ∨ month = 6 ∨ month = 9 ∨ month = 11 then 30
  else if month = 2 then if leap then 29 else 28
  else 31

/-- The days of a year. -/
def yearDays (leap : Bool) : Nat := if leap then 366 else 365

theorem total_monthDays (leap : Bool) : total (monthDays leap) 1 12 = yearDays leap := by
  cases leap <;> decide

theorem monthDays_pos (leap : Bool) (month : Nat) : 0 < monthDays leap month := by
  unfold monthDays
  split
  · decide
  · split
    · cases leap <;> decide
    · decide

theorem yearDays_pos (leap : Bool) : 0 < yearDays leap := by
  cases leap <;> decide

structure Date where
  year : Nat
  month : Nat
  day : Nat
  deriving DecidableEq

/-- The day `n` of an epoch that begins with the year `epoch` has this date. -/
structure IsDay (leap : Nat → Bool) (epoch n : Nat) (d : Date) : Prop where
  year : epoch ≤ d.year
  month : 1 ≤ d.month ∧ d.month ≤ 12
  day : 1 ≤ d.day ∧ d.day ≤ monthDays (leap d.year) d.month
  number : n = total (fun y => yearDays (leap y)) epoch (d.year - epoch) +
    total (monthDays (leap d.year)) 1 (d.month - 1) + (d.day - 1)

variable {leap leap' : Nat → Bool} {epoch n : Nat} {d d' : Date}

/-- The place of the day in its year. -/
theorem IsDay.in_year (h : IsDay leap epoch n d) :
    Lies (fun y => yearDays (leap y)) epoch n (d.year - epoch)
      (total (monthDays (leap d.year)) 1 (d.month - 1) + (d.day - 1)) := by
  obtain ⟨hyear, ⟨hfirst, hlast⟩, ⟨hpos, hday⟩, hnumber⟩ := h
  have hmonth : total (monthDays (leap d.year)) 1 (d.month - 1) +
      monthDays (leap d.year) d.month ≤ yearDays (leap d.year) := by
    have hle := total_add_le (monthDays (leap d.year)) 1
      (show d.month - 1 < 12 by omega)
    rwa [total_monthDays, Nat.add_sub_cancel' hfirst] at hle
  refine ⟨?_, by omega⟩
  rw [Nat.add_sub_cancel' hyear]
  omega

/-- The place of the day in its month. -/
theorem IsDay.in_month (h : IsDay leap epoch n d) :
    Lies (monthDays (leap d.year)) 1
      (total (monthDays (leap d.year)) 1 (d.month - 1) + (d.day - 1)) (d.month - 1)
      (d.day - 1) := by
  refine ⟨?_, rfl⟩
  rw [Nat.add_sub_cancel' h.month.1]
  have hday := h.day
  omega

theorem exists_isDay (leap : Nat → Bool) (epoch n : Nat) : ∃ d, IsDay leap epoch n d := by
  obtain ⟨j, r, hlt, rfl⟩ := exists_lies (fun y => yearDays_pos (leap y)) epoch n
  obtain ⟨m, s, hmonth, rfl⟩ := exists_lies (monthDays_pos (leap (epoch + j))) 1 r
  have hm : m < 12 := by
    by_contra hm
    have hle := total_mono (monthDays (leap (epoch + j))) 1 (Nat.le_of_not_lt hm)
    rw [total_monthDays] at hle
    omega
  refine ⟨⟨epoch + j, m + 1, s + 1⟩, Nat.le_add_right _ _, ⟨by simp, hm⟩, ⟨by simp, ?_⟩, ?_⟩
  · rw [Nat.add_comm m 1]
    exact hmonth
  · simp only [Nat.add_sub_cancel_left, Nat.add_sub_cancel]
    omega

/-! ### Leap years -/

/-- The leap years of the Gregorian calendar. -/
def gregorian (year : Nat) : Bool := year % 4 = 0 ∧ (year % 100 ≠ 0 ∨ year % 400 = 0)

/-- Those of the Julian calendar. -/
def julian (year : Nat) : Bool := year % 4 = 0

end OsdevArchive.Lib.Calendar
