import Mathlib.Algebra.BigOperators.Group.Finset.Basic
import Mathlib.Algebra.BigOperators.Group.Finset.Piecewise
import Mathlib.Algebra.BigOperators.Group.Finset.Sigma
import Mathlib.Data.Fintype.Card
import Mathlib.Order.Interval.Finset.Nat
import Mathlib.Tactic.Common

/-!
Counting the members of a finite family that meet a predicate. A concurrent
program keeps one program point per task; an invariant over any number of tasks
counts those at certain points, and a step moves one task. `tally_update` is
the balance of one move; the remaining lemmas read a count back as a statement
about the members.
-/

namespace OsdevArchive.Lib.Counting

variable {ι β : Type*} [Fintype ι]

/-- How many members of the family `f` meet `p`. -/
def tally (p : β → Bool) (f : ι → β) : Nat :=
  (Finset.univ.filter fun i => p (f i) = true).card

variable {p : β → Bool} {f : ι → β} {i j : ι}

/-- Moving one member changes the count by that member's part. -/
theorem tally_update [DecidableEq ι] (p : β → Bool) (f : ι → β) (i : ι) (v : β) :
    tally p (Function.update f i v) + (p (f i)).toNat = tally p f + (p v).toNat := by
  have hsplit (g : ι → β) : tally p g =
      ((Finset.univ.erase i).filter fun j => p (g j) = true).card + (p (g i)).toNat := by
    unfold tally
    rw [← Finset.insert_erase (Finset.mem_univ i), Finset.filter_insert]
    cases hp : p (g i) <;> simp
  have hrest : ((Finset.univ.erase i).filter fun j => p (Function.update f i v j) = true) =
      (Finset.univ.erase i).filter fun j => p (f j) = true := by
    refine Finset.filter_congr fun j hj => ?_
    rw [Function.update_of_ne (Finset.ne_of_mem_erase hj)]
  rw [hsplit (Function.update f i v), hsplit f, hrest, Function.update_self]
  omega

theorem tally_pos (h : p (f i) = true) : 0 < tally p f :=
  Finset.card_pos.mpr ⟨i, by simpa using h⟩

theorem exists_of_tally_pos (h : 0 < tally p f) : ∃ i, p (f i) = true := by
  obtain ⟨i, hi⟩ := Finset.card_pos.mp h
  exact ⟨i, by simpa using hi⟩

/-- A count of at most one means that a member that meets `p` is the only one. -/
theorem eq_of_tally_le_one (h : tally p f ≤ 1) (hi : p (f i) = true) (hj : p (f j) = true) :
    i = j :=
  Finset.card_le_one.mp h i (by simpa using hi) j (by simpa using hj)

theorem tally_eq_zero (h : ∀ i, p (f i) = false) : tally p f = 0 := by
  simp [tally, h]

theorem tally_le_card (p : β → Bool) (f : ι → β) : tally p f ≤ Fintype.card ι :=
  Finset.card_le_univ _

/-- Different members that meet `p` are counted each. -/
theorem length_le_tally {l : List ι} (hnodup : l.Nodup) (hall : ∀ i ∈ l, p (f i) = true) :
    l.length ≤ tally p f := by
  classical
  rw [← List.toFinset_card_of_nodup hnodup]
  apply Finset.card_le_card
  intro i hi
  simpa using hall i (List.mem_toFinset.mp hi)

/-- A sum of which one term changes. -/
theorem sum_move [DecidableEq ι] {g g' : ι → Nat} (h : ∀ j, j ≠ i → g' j = g j) :
    ∑ j, g' j + g i = ∑ j, g j + g' i := by
  rw [← Finset.sum_erase_add _ g' (Finset.mem_univ i),
    ← Finset.sum_erase_add _ g (Finset.mem_univ i),
    Finset.sum_congr rfl fun j hj => h j (Finset.ne_of_mem_erase hj)]
  exact Nat.add_right_comm ..

end OsdevArchive.Lib.Counting

/-!
Slots that hold an extent of addresses or nothing. They tile the addresses below a limit
when each of these lies in exactly one extent and the others in none; this stays so when
two slots are changed and what they hold together is the same.
-/

namespace OsdevArchive.Lib.Cover

open OsdevArchive.Lib.Counting

structure Extent where
  base : Nat
  size : Nat
  deriving DecidableEq

/-- Whether the address lies in what the slot holds. -/
def has (a : Nat) : Option Extent → Bool
  | none => false
  | some e => decide (e.base ≤ a ∧ a < e.base + e.size)

def size : Option Extent → Nat
  | none => 0
  | some e => e.size

variable {ι : Type*} [Fintype ι] {f : ι → Option Extent} {e : Extent} {i j : ι} {a limit : Nat}

def Tiles (limit : Nat) (f : ι → Option Extent) : Prop :=
  ∀ a, tally (has a) f = if a < limit then 1 else 0

/-- Two adjacent extents hold what the one that they make up holds. -/
theorem has_append (a base m n : Nat) :
    (has a (some ⟨base, m⟩)).toNat + (has a (some ⟨base + m, n⟩)).toNat =
      (has a (some ⟨base, m + n⟩)).toNat := by
  simp only [has]
  by_cases hlow : base ≤ a ∧ a < base + m
  · rw [decide_eq_true hlow, decide_eq_false (by omega), decide_eq_true (by omega)]
    rfl
  · rw [decide_eq_false hlow, Bool.toNat_false, Nat.zero_add]
    congr 1
    rw [decide_eq_decide]
    omega

theorem has_empty (a base : Nat) : has a (some ⟨base, 0⟩) = false :=
  decide_eq_false (by simp only; omega)

theorem Tiles.unique (h : Tiles limit f) (hi : has a (f i) = true) (hj : has a (f j) = true) :
    i = j := by
  refine eq_of_tally_le_one (p := has a) ?_ hi hj
  rw [h a]
  split <;> omega

theorem Tiles.exists_iff (h : Tiles limit f) : (∃ i, has a (f i) = true) ↔ a < limit := by
  constructor
  · rintro ⟨i, hi⟩
    have hpos : 0 < tally (has a) f := tally_pos hi
    rw [h a] at hpos
    by_contra hge
    rw [if_neg hge] at hpos
    exact absurd hpos (Nat.lt_irrefl 0)
  · intro hlt
    apply exists_of_tally_pos
    rw [h a, if_pos hlt]
    exact Nat.one_pos

/-- Two slots are changed, and hold together what they held. -/
theorem Tiles.exchange [DecidableEq ι] (h : Tiles limit f) (hij : i ≠ j) {x y : Option Extent}
    (hsame : ∀ a, (has a x).toNat + (has a y).toNat = (has a (f i)).toNat + (has a (f j)).toNat) :
    Tiles limit (Function.update (Function.update f i x) j y) := by
  intro a
  have hfirst := tally_update (has a) f i x
  have hsecond := tally_update (has a) (Function.update f i x) j y
  rw [Function.update_of_ne hij.symm] at hsecond
  have hall := h a
  have hboth := hsame a
  omega

theorem Tiles.within (h : Tiles limit f) (he : f i = some e) (hpos : 0 < e.size) :
    e.base + e.size ≤ limit := by
  have hlast : has (e.base + e.size - 1) (f i) = true := by
    rw [he]
    exact decide_eq_true (by omega)
  have hlt := h.exists_iff.mp ⟨i, hlast⟩
  omega

theorem tally_eq_sum {β : Type*} (p : β → Bool) (f : ι → β) :
    tally p f = ∑ i, (p (f i)).toNat := by
  rw [tally, Finset.card_filter]
  apply Finset.sum_congr rfl
  intro i _
  cases p (f i) <;> rfl

/-- The addresses of an extent are counted among those below the limit. -/
theorem Tiles.size_eq_sum (h : Tiles limit f) (i : ι) :
    size (f i) = ∑ a ∈ Finset.range limit, (has a (f i)).toNat := by
  cases he : f i with
  | none => simp [size, has]
  | some e =>
    have hfilter : {a ∈ Finset.range limit | e.base ≤ a ∧ a < e.base + e.size} =
        Finset.Ico e.base (e.base + e.size) := by
      ext a
      rw [Finset.mem_filter, Finset.mem_range, Finset.mem_Ico, and_iff_right_iff_imp]
      intro ha
      apply h.exists_iff.mp
      exact ⟨i, by rw [he]; exact decide_eq_true ha⟩
    have hcount : ∀ a, (has a (some e)).toNat =
        if e.base ≤ a ∧ a < e.base + e.size then 1 else 0 := by
      intro a
      rw [has, Bool.toNat, Bool.cond_decide]
    simp only [hcount]
    rw [← Finset.card_filter, hfilter, Nat.card_Ico, Nat.add_sub_cancel_left, size]

/-- What the extents of a tiling add up to. -/
theorem Tiles.sum_size (h : Tiles limit f) : ∑ i, size (f i) = limit := by
  calc ∑ i, size (f i)
      = ∑ i, ∑ a ∈ Finset.range limit, (has a (f i)).toNat :=
        Finset.sum_congr rfl fun i _ => h.size_eq_sum i
    _ = ∑ a ∈ Finset.range limit, ∑ i, (has a (f i)).toNat := Finset.sum_comm
    _ = ∑ a ∈ Finset.range limit, 1 := by
        apply Finset.sum_congr rfl
        intro a ha
        rw [← tally_eq_sum, h a, if_pos (Finset.mem_range.mp ha)]
    _ = limit := by simp

end OsdevArchive.Lib.Cover
