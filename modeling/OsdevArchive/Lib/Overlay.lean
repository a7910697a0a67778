import Mathlib.Logic.Function.Basic

/-!
A partial map over a total one, as a cache lies over a store: what it holds is read
from it, the rest from below. The lemmas say how an entry may be written, filled from
below, dropped and written through.
-/

namespace OsdevArchive.Lib.Overlay

variable {A D : Type*} {top : A → Option D} {base : A → D} {a : A}

/-- What is seen through `top`. -/
def overlay (top : A → Option D) (base : A → D) (a : A) : D := (top a).getD (base a)

theorem overlay_of_none (h : top a = none) : overlay top base a = base a := by
  rw [overlay, h, Option.getD_none]

theorem overlay_of_some {d : D} (h : top a = some d) : overlay top base a = d := by
  rw [overlay, h, Option.getD_some]

variable [DecidableEq A]

theorem overlay_put (top : A → Option D) (base : A → D) (a : A) (d : D) :
    overlay (Function.update top a (some d)) base =
      Function.update (overlay top base) a d := by
  funext b
  by_cases hb : b = a
  · subst b
    rw [overlay, Function.update_self, Function.update_self, Option.getD_some]
  · rw [overlay, Function.update_of_ne hb, Function.update_of_ne hb, overlay]

/-- An entry filled from below does not show. -/
theorem overlay_fill (h : top a = none) :
    overlay (Function.update top a (some (base a))) base = overlay top base := by
  have hbase : base a = overlay top base a := (overlay_of_none h).symm
  rw [overlay_put, hbase, Function.update_eq_self]

/-- An entry that agrees with what is below it may be dropped. -/
theorem overlay_drop (h : ∀ d, top a = some d → d = base a) :
    overlay (Function.update top a none) base = overlay top base := by
  funext b
  by_cases hb : b = a
  · subst b
    cases hover : top a with
    | none => rw [overlay, overlay, Function.update_self, hover]
    | some d => rw [overlay_of_some hover, h d hover, overlay_of_none (Function.update_self ..)]
  · rw [overlay, overlay, Function.update_of_ne hb]

/-- A write to what has no entry. -/
theorem overlay_through (h : top a = none) (d : D) :
    overlay top (Function.update base a d) = Function.update (overlay top base) a d := by
  funext b
  by_cases hb : b = a
  · subst b
    rw [overlay_of_none h, Function.update_self, Function.update_self]
  · rw [overlay, Function.update_of_ne hb, Function.update_of_ne hb, overlay]

end OsdevArchive.Lib.Overlay
