import Mathlib.Data.List.Basic

/-!
Paths through directories. `holds d n e` says that the directory `d` has the entry `e` under the
name `n`, and `enters e` is the directory that `e` stands for, if it does. A path is resolved when
each name but the last leads to a directory and the last one is there; an eager walk stops at the
first entry that is no directory.
-/

namespace OsdevArchive.Lib.Paths

variable {δ ν ε : Type*} (holds : δ → ν → ε → Prop) (enters : ε → Option δ)

/-- The names lead from the directory to the entry. -/
inductive Resolves : δ → List ν → ε → Prop where
  | last {d : δ} {n : ν} {e : ε} : holds d n e → Resolves d [n] e
  | enter {d d' : δ} {n : ν} {ns : List ν} {e e' : ε} : holds d n e' → enters e' = some d' →
      Resolves d' ns e → Resolves d (n :: ns) e

/-- Only behind the last name there may be an entry that is no directory. -/
def Straight : δ → List ν → Prop
  | _, [] => True
  | d, n :: ns => ∀ e, holds d n e →
      (enters e = none → ns = []) ∧ ∀ d', enters e = some d' → Straight d' ns

/-- Where the eager walk ends: at an entry, or with a name that is not there (`none`). Before the
first name it is at `last`. -/
inductive Lands : δ → List ν → Option ε → Option ε → Prop where
  | done {d : δ} {last : Option ε} : Lands d [] last last
  | enter {d d' : δ} {n : ν} {ns : List ν} {e : ε} {last r : Option ε} : holds d n e →
      enters e = some d' → Lands d' ns (some e) r → Lands d (n :: ns) last r
  | stop {d : δ} {n : ν} {ns : List ν} {e : ε} {last : Option ε} : holds d n e →
      enters e = none → Lands d (n :: ns) last (some e)
  | missing {d : δ} {n : ν} {ns : List ν} {last : Option ε} : (∀ e, ¬holds d n e) →
      Lands d (n :: ns) last none

/-- A name that is not there is missing from a directory that meets `p`. -/
def MissesIn (p : δ → Prop) : δ → List ν → Prop
  | _, [] => True
  | d, n :: ns => ((∀ e, ¬holds d n e) → p d) ∧
      ∀ e d', holds d n e → enters e = some d' → MissesIn p d' ns

variable {holds enters} {d : δ} {ns : List ν} {last r : Option ε} {e : ε}

/-- Before a first name it does not matter where the walk is. -/
theorem Lands.of_ne_nil {last' : Option ε} (h : Lands holds enters d ns last r) (hns : ns ≠ []) :
    Lands holds enters d ns last' r := by
  cases h with
  | done => exact absurd rfl hns
  | enter hholds henters hrest => exact .enter hholds henters hrest
  | stop hholds henters => exact .stop hholds henters
  | missing hmissing => exact .missing hmissing

theorem Resolves.ne_nil (h : Resolves holds enters d ns e) : ns ≠ [] := by
  cases h <;> exact List.cons_ne_nil _ _

section Unique

variable (hunique : ∀ d n e e', holds d n e → holds d n e' → e = e')

include hunique

/-- What a path is resolved to from the first entry on. -/
theorem resolves_cons {n : ν} {e' : ε} (h : holds d n e') :
    Resolves holds enters d (n :: ns) e ↔
      ns = [] ∧ e = e' ∨ ∃ d', enters e' = some d' ∧ Resolves holds enters d' ns e := by
  constructor
  · intro hres
    cases hres with
    | last h' => exact Or.inl ⟨rfl, hunique _ _ _ _ h' h⟩
    | enter h' henters hrest =>
      rw [hunique _ _ _ _ h' h] at henters
      exact Or.inr ⟨_, henters, hrest⟩
  · rintro (⟨rfl, rfl⟩ | ⟨d', henters, hrest⟩)
    · exact .last h
    · exact .enter h henters hrest

/-- On a straight path the eager walk ends at the entry that the path is resolved to. -/
theorem Lands.resolves_iff (h : Lands holds enters d ns last r)
    (hstraight : Straight holds enters d ns) (hns : ns ≠ []) :
    r = some e ↔ Resolves holds enters d ns e := by
  induction h with
  | done => exact absurd rfl hns
  | @enter d d' n ns e' last r hholds henters hrest ih =>
    rw [resolves_cons hunique hholds]
    have hbehind := (hstraight e' hholds).2 d' henters
    by_cases hlast : ns = []
    · subst hlast
      cases hrest
      constructor
      · exact fun heq => Or.inl ⟨rfl, (Option.some.inj heq).symm⟩
      · rintro (⟨-, rfl⟩ | ⟨d'', -, hres⟩)
        · rfl
        · exact absurd rfl hres.ne_nil
    · rw [ih hbehind hlast]
      constructor
      · exact fun hres => Or.inr ⟨d', henters, hres⟩
      · rintro (⟨hnil, -⟩ | ⟨d'', henters', hres⟩)
        · exact absurd hnil hlast
        · rw [henters] at henters'
          rwa [Option.some.inj henters']
  | @stop d n ns e' last hholds henters =>
    rw [resolves_cons hunique hholds]
    have hnil := (hstraight e' hholds).1 henters
    constructor
    · exact fun heq => Or.inl ⟨hnil, (Option.some.inj heq).symm⟩
    · rintro (⟨-, rfl⟩ | ⟨d'', henters', -⟩)
      · rfl
      · rw [henters] at henters'
        cases henters'
  | missing hmissing =>
    refine iff_of_false (Option.some_ne_none e).symm fun hres => ?_
    cases hres with
    | last hholds => exact hmissing _ hholds
    | enter hholds _ _ => exact hmissing _ hholds

/-- On any other path it ends at an entry although the path is not resolved. -/
theorem Lands.of_not_straight (h : Lands holds enters d ns last r)
    (hnot : ¬Straight holds enters d ns) :
    (∃ e, r = some e) ∧ ∀ e, ¬Resolves holds enters d ns e := by
  induction h with
  | done => exact absurd trivial hnot
  | @enter d d' n ns e' last r hholds henters hrest ih =>
    have hbehind : ¬Straight holds enters d' ns := by
      intro hstraight
      apply hnot
      intro e hholds'
      rw [← hunique _ _ _ _ hholds hholds', henters]
      refine ⟨fun hnone => absurd hnone (Option.some_ne_none d'), fun d'' heq => ?_⟩
      rwa [← Option.some.inj heq]
    obtain ⟨hsome, hnone⟩ := ih hbehind
    refine ⟨hsome, fun e hres => ?_⟩
    rcases (resolves_cons hunique hholds).mp hres with ⟨rfl, -⟩ | ⟨d'', henters', hres⟩
    · exact hbehind trivial
    · rw [henters] at henters'
      rw [← Option.some.inj henters'] at hres
      exact hnone e hres
  | @stop d n ns e' last hholds henters =>
    refine ⟨⟨e', rfl⟩, fun e hres => ?_⟩
    rcases (resolves_cons hunique hholds).mp hres with ⟨rfl, -⟩ | ⟨d'', henters', -⟩
    · apply hnot
      intro e'' hholds'
      rw [← hunique _ _ _ _ hholds hholds', henters]
      exact ⟨fun _ => rfl, fun d'' heq => by cases heq⟩
    · rw [henters] at henters'
      cases henters'
  | missing hmissing => exact absurd (fun e hholds => absurd hholds (hmissing e)) hnot

end Unique

end OsdevArchive.Lib.Paths
