import Mathlib.Data.Finset.Card
import Mathlib.Data.Finset.Range

/-!
Stretches of free places among the places below an end, and the stretch in front of the end.
-/

namespace OsdevArchive.Lib.Stretches

variable {free : Nat → Prop} {a n m q : Nat}

/-- From `a` on there are `n` free places. -/
def Stretch (free : Nat → Prop) (a n : Nat) : Prop := ∀ q, a ≤ q → q < a + n → free q

/-- A stretch of `n` places, below the end `e`. -/
def HasStretch (free : Nat → Prop) (e n : Nat) : Prop := ∃ a, a + n ≤ e ∧ Stretch free a n

theorem stretch_zero (free : Nat → Prop) (a : Nat) : Stretch free a 0 := by
  intro q hle hlt
  omega

theorem Stretch.cons (h : Stretch free (a + 1) n) (ha : free a) : Stretch free a (n + 1) := by
  intro q hle hlt
  obtain rfl | hgt := Nat.eq_or_lt_of_le hle
  · exact ha
  · exact h q hgt (by omega)

theorem Stretch.shorter (h : Stretch free a n) (hm : m ≤ n) : Stretch free a m := by
  intro q hle hlt
  exact h q hle (by omega)

theorem Stretch.tail (h : Stretch free a (n + 1)) : Stretch free (a + 1) n := by
  intro q hle hlt
  exact h q (by omega) (by omega)

/-- A stretch is on one side of a place that is not free. -/
theorem Stretch.aside (h : Stretch free a n) (hq : ¬ free q) : q < a ∨ a + n ≤ q := by
  obtain hlt | hle := Nat.lt_or_ge q a
  · exact .inl hlt
  · refine .inr (Nat.le_of_not_lt fun hlt => hq (h q hle hlt))

/-- Stretches that all start from `q` on start behind the next place that is not free, if they are
longer than the way to it. -/
theorem start_behind {e p : Nat} (h : ∀ a, a + n ≤ e → Stretch free a n → q ≤ a)
    (hp : ¬ free p) (hnear : p < q + n) : ∀ a, a + n ≤ e → Stretch free a n → p + 1 ≤ a := by
  intro a hle ha
  have hge := h a hle ha
  obtain hside | hside := ha.aside hp
  · exact hside
  · omega

theorem Stretch.congr {free' : Nat → Prop} (h : Stretch free a n)
    (hsame : ∀ q, a ≤ q → q < a + n → free q → free' q) : Stretch free' a n := by
  intro q hle hlt
  exact hsame q hle hlt (h q hle hlt)

variable [DecidablePred free]

/-- The length of the stretch that goes up to the end `e`. -/
def lastLength (free : Nat → Prop) [DecidablePred free] : Nat → Nat
  | 0 => 0
  | e + 1 => if free e then lastLength free e + 1 else 0

/-- The last stretch starts behind a place that is not free, or at the first one. -/
theorem lastLength_eq {e : Nat} (hle : a ≤ e) (h : Stretch free a (e - a))
    (hstart : ∀ q, q + 1 = a → ¬ free q) : lastLength free e = e - a := by
  induction e with
  | zero =>
    rw [Nat.zero_sub]
    rfl
  | succ e ih =>
    unfold lastLength
    obtain rfl | hlt := Nat.eq_or_lt_of_le hle
    · rw [if_neg (hstart e rfl), Nat.sub_self]
    · have hfree : free e := h e (by omega) (by omega)
      rw [if_pos hfree, ih (by omega) (h.shorter (by omega))]
      omega

/-! ### Counting -/

/-- The number of free places below the end `e`. -/
def freeCount (free : Nat → Prop) [DecidablePred free] (e : Nat) : Nat :=
  ((Finset.range e).filter free).card

theorem exists_free {e : Nat} (h : 0 < freeCount free e) : ∃ q < e, free q := by
  obtain ⟨q, hq⟩ := Finset.card_pos.mp h
  obtain ⟨hlt, hfree⟩ := Finset.mem_filter.mp hq
  exact ⟨q, Finset.mem_range.mp hlt, hfree⟩

theorem freeCount_pos {e : Nat} (hq : q < e) (hfree : free q) : 0 < freeCount free e :=
  Finset.card_pos.mpr ⟨q, Finset.mem_filter.mpr ⟨Finset.mem_range.mpr hq, hfree⟩⟩

/-- A free place is taken. -/
theorem freeCount_take {free' : Nat → Prop} [DecidablePred free'] {e : Nat} (hq : q < e)
    (hfree : free q) (hothers : ∀ p, free' p ↔ free p ∧ p ≠ q) :
    freeCount free' e + 1 = freeCount free e := by
  have hmem : q ∈ (Finset.range e).filter free :=
    Finset.mem_filter.mpr ⟨Finset.mem_range.mpr hq, hfree⟩
  have herase : (Finset.range e).filter free' = ((Finset.range e).filter free).erase q := by
    ext p
    rw [Finset.mem_filter, Finset.mem_erase, Finset.mem_filter, hothers]
    constructor
    · rintro ⟨hp, hpfree, hne⟩
      exact ⟨hne, hp, hpfree⟩
    · rintro ⟨hne, hp, hpfree⟩
      exact ⟨hp, hpfree, hne⟩
  unfold freeCount
  rw [herase]
  exact Finset.card_erase_add_one hmem

/-- A stretch is taken. -/
theorem freeCount_stretch {free' : Nat → Prop} [DecidablePred free'] {e : Nat} (hle : a + n ≤ e)
    (h : Stretch free a n) (hothers : ∀ p, free' p ↔ free p ∧ ¬ (a ≤ p ∧ p < a + n)) :
    freeCount free' e + n = freeCount free e := by
  induction n generalizing free' with
  | zero =>
    have hsame (p : Nat) : free' p ↔ free p := (hothers p).trans (and_iff_left (by omega))
    unfold freeCount
    rw [Nat.add_zero, Finset.filter_congr fun p _ => hsame p]
  | succ n ih =>
    have hfirst := @ih (fun p => free p ∧ ¬ (a ≤ p ∧ p < a + n)) _ (by omega)
      (h.shorter (Nat.le_succ n)) fun p => Iff.rfl
    have hlast : freeCount free' e + 1 =
        freeCount (fun p => free p ∧ ¬ (a ≤ p ∧ p < a + n)) e := by
      apply freeCount_take (show a + n < e by omega) ⟨h (a + n) (by omega) (by omega), by omega⟩
      intro p
      rw [hothers, and_assoc]
      apply and_congr_right
      omega
    omega

end OsdevArchive.Lib.Stretches
