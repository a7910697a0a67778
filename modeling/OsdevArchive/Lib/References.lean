import Mathlib.Data.Set.Card

/-!
Slots that refer to targets, and a counter for each target that holds the number of references
to it less one. A target without references has a counter of zero, so that the counter alone
does not tell the last reference from none.
-/

namespace OsdevArchive.Lib.References

open Function

variable {ι κ : Type*} {slot : ι → Option κ} {extra : κ → Nat} {x : ι} {f : κ}

/-- The slots that refer to a target. -/
def referers (slot : ι → Option κ) (f : κ) : Set ι := {x | slot x = some f}

/-- The references to each target are those that its counter tells, and one. -/
def Counted (slot : ι → Option κ) (extra : κ → Nat) : Prop :=
  ∀ f, (referers slot f).encard = extra f + 1 ∨ referers slot f = ∅ ∧ extra f = 0

theorem mem_referers : x ∈ referers slot f ↔ slot x = some f := Iff.rfl

theorem referers_eq_empty : referers slot f = ∅ ↔ ∀ x, slot x ≠ some f :=
  Set.eq_empty_iff_forall_notMem

theorem counted_none : Counted (fun _ : ι => (none : Option κ)) fun _ => 0 :=
  fun _ => Or.inr ⟨referers_eq_empty.mpr nofun, rfl⟩

theorem Counted.of_ref (h : Counted slot extra) (hx : slot x = some f) :
    (referers slot f).encard = extra f + 1 := by
  rcases h f with hcount | ⟨hempty, -⟩
  · exact hcount
  · exact absurd hx (referers_eq_empty.mp hempty x)

theorem Counted.of_empty (h : Counted slot extra) (hempty : referers slot f = ∅) : extra f = 0 := by
  rcases h f with hcount | ⟨-, hzero⟩
  · rw [hempty, Set.encard_empty] at hcount
    exact absurd hcount.symm (by simp)
  · exact hzero

/-- A target whose counter is at zero has no other reference. -/
theorem Counted.only (h : Counted slot extra) (hx : slot x = some f) (hzero : extra f = 0) {y : ι}
    (hy : slot y = some f) : y = x := by
  have hone := h.of_ref hx
  rw [hzero, Nat.cast_zero, zero_add] at hone
  exact Set.encard_le_one_iff.mp (le_of_eq hone) y x hy hx

/-- A target whose counter is not at zero has another reference. -/
theorem Counted.another (h : Counted slot extra) (hx : slot x = some f) (hpos : extra f ≠ 0) :
    ∃ y, y ≠ x ∧ slot y = some f := by
  by_contra hnone
  have hsingle : referers slot f ⊆ {x} := by
    intro y hy
    by_contra hne
    exact hnone ⟨y, hne, hy⟩
  have hle := Set.encard_le_encard hsingle
  rw [h.of_ref hx, Set.encard_singleton] at hle
  have hle : extra f + 1 ≤ 1 := by exact_mod_cast hle
  omega

variable [DecidableEq ι]

theorem referers_update_none (slot : ι → Option κ) (x : ι) (g : κ) :
    referers (update slot x none) g = referers slot g \ {x} := by
  ext y
  rw [Set.mem_sdiff, Set.mem_singleton_iff, mem_referers, mem_referers]
  by_cases hy : y = x
  · simp [hy]
  · simp [hy]

theorem referers_update_some (hx : slot x = none) (g : κ) [DecidableEq κ] :
    referers (update slot x (some f)) g =
      if g = f then insert x (referers slot f) else referers slot g := by
  ext y
  by_cases hy : y = x
  · subst hy
    by_cases hg : g = f
    · simp [mem_referers, hg]
    · simp [mem_referers, hg, hx, Ne.symm hg]
  · by_cases hg : g = f
    · simp [mem_referers, hg, hy]
    · simp [mem_referers, hg, hy]

variable [DecidableEq κ]

/-- A reference to a target that has none. -/
theorem Counted.place (h : Counted slot extra) (hx : slot x = none)
    (hempty : referers slot f = ∅) : Counted (update slot x (some f)) extra := by
  intro g
  rw [referers_update_some hx]
  split
  · rename_i hg
    subst hg
    left
    rw [hempty, insert_empty_eq, Set.encard_singleton, h.of_empty hempty, Nat.cast_zero, zero_add]
  · exact h g

/-- A further reference to a target. -/
theorem Counted.share {extra' : κ → Nat} (h : Counted slot extra) (hx : slot x = none)
    (hne : ∃ y, slot y = some f)
    (hextra : ∀ g, extra' g = extra g + if g = f then 1 else 0) :
    Counted (update slot x (some f)) extra' := by
  intro g
  rw [referers_update_some hx, hextra]
  split
  · rename_i hg
    subst hg
    obtain ⟨y, hy⟩ := hne
    have hnew : x ∉ referers slot g := by simp [mem_referers, hx]
    left
    rw [Set.encard_insert_of_notMem hnew, h.of_ref hy, Nat.cast_add, Nat.cast_one]
  · exact h g

/-- A reference is given up. -/
theorem Counted.drop {extra' : κ → Nat} (h : Counted slot extra) (hx : slot x = some f)
    (hextra : ∀ g, extra' g = if g = f then extra f - 1 else extra g) :
    Counted (update slot x none) extra' := by
  intro g
  rw [referers_update_none, hextra]
  split
  · rename_i hg
    subst hg
    by_cases hzero : extra g = 0
    · right
      rw [hzero]
      refine ⟨?_, rfl⟩
      rw [Set.sdiff_eq_empty]
      intro y hy
      exact h.only hx hzero hy
    · left
      have hrest := Set.encard_sdiff_singleton_add_one (mem_referers.mpr hx)
      rw [h.of_ref hx] at hrest
      have hlast := WithTop.add_right_cancel ENat.one_ne_top hrest
      rw [hlast]
      exact_mod_cast (Nat.sub_add_cancel (Nat.pos_of_ne_zero hzero)).symm
  · rename_i hg
    have hother : x ∉ referers slot g := by
      rw [mem_referers, hx]
      rintro ⟨⟩
      exact hg rfl
    rw [Set.sdiff_singleton_eq_self hother]
    exact h g

/-- A reference moves to a target that has none. -/
theorem Counted.move {extra' : κ → Nat} {g : κ} (h : Counted slot extra) (hx : slot x = some f)
    (hextra : ∀ g, extra' g = if g = f then extra f - 1 else extra g)
    (hg : ∀ y, slot y ≠ some g) : Counted (update slot x (some g)) extra' := by
  have hempty : referers (update slot x none) g = ∅ := by
    rw [referers_update_none, referers_eq_empty.mpr hg, Set.empty_sdiff]
  have hmoved := (h.drop hx hextra).place (update_self ..) hempty
  rwa [update_idem] at hmoved

end OsdevArchive.Lib.References
