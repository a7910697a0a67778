import Mathlib.Data.List.Nodup
import Mathlib.Logic.Function.Basic

/-!
Singly linked lists in a store. A pointer is an optional cell, `none` being null, and
the links are a function on pointers: null has a link as well, as it has in C for code
that follows it. Such a list has no repeated cell, is determined by its head, and
depends on the links of its own cells only. `Placed` says that all cells are divided
among a free list and the lists of some owners.
-/

namespace OsdevArchive.Lib.LinkedList

variable {α : Type*}

/-- Following the links from `p` on leads through the cells `es` to null. -/
def Linked (next : Option α → Option α) : Option α → List α → Prop
  | p, [] => p = none
  | p, e :: es => p = some e ∧ Linked next (next (some e)) es

variable {next next' : Option α → Option α} {p q : Option α} {e : α} {es fs : List α}

theorem linked_nil : Linked next none [] := rfl

theorem linked_cons : Linked next p (e :: es) ↔ p = some e ∧ Linked next (next (some e)) es :=
  Iff.rfl

theorem Linked.eq_of_some (h : Linked next (some e) es) :
    ∃ fs, es = e :: fs ∧ Linked next (next (some e)) fs := by
  cases es with
  | nil => exact absurd h (by simp [Linked])
  | cons f fs =>
    obtain ⟨hhead, htail⟩ := h
    obtain rfl : e = f := Option.some.inj hhead
    exact ⟨fs, rfl, htail⟩

theorem Linked.eq_nil (h : Linked next none es) : es = [] := by
  cases es with
  | nil => rfl
  | cons f fs => exact absurd h.1 (by simp)

/-- The head determines the list. -/
theorem Linked.unique (h : Linked next p es) (k : Linked next p fs) : es = fs := by
  induction es generalizing p fs with
  | nil =>
    obtain rfl : p = none := h
    exact k.eq_nil.symm
  | cons e es ih =>
    obtain ⟨rfl, htail⟩ := h
    obtain ⟨gs, rfl, hgs⟩ := k.eq_of_some
    rw [ih htail hgs]

/-- The links of other cells do not matter. -/
theorem Linked.congr (h : Linked next p es) (hsame : ∀ e ∈ es, next' (some e) = next (some e)) :
    Linked next' p es := by
  induction es generalizing p with
  | nil => exact h
  | cons e es ih =>
    refine ⟨h.1, ?_⟩
    rw [hsame e List.mem_cons_self]
    exact ih h.2 fun f hf => hsame f (List.mem_cons_of_mem e hf)

/-- From each of its cells on, the rest of the list is linked. -/
theorem Linked.suffix (h : Linked next p (fs ++ e :: es)) : Linked next (some e) (e :: es) := by
  induction fs generalizing p with
  | nil => exact ⟨rfl, h.2⟩
  | cons f fs ih => exact ih h.2

theorem Linked.nodup (h : Linked next p es) : es.Nodup := by
  induction es generalizing p with
  | nil => exact List.nodup_nil
  | cons e es ih =>
    refine List.nodup_cons.mpr ⟨fun hmem => ?_, ih h.2⟩
    -- a second occurrence would make the list a proper suffix of itself
    obtain ⟨fs, gs, rfl⟩ := List.append_of_mem hmem
    have hlinked : Linked next (some e) (e :: (fs ++ e :: gs)) := ⟨rfl, h.2⟩
    have htail : e :: (fs ++ e :: gs) = e :: gs := hlinked.unique h.2.suffix
    have hlength := congrArg List.length htail
    simp only [List.length_cons, List.length_append] at hlength
    omega

/-- Where the link of the last cell leads to another list, the two are one. -/
theorem Linked.append (h : Linked next p es) (hlast : es.getLast? = some e)
    (hsame : ∀ f ∈ es, f ≠ e → next' (some f) = next (some f))
    (k : Linked next' (next' (some e)) fs) : Linked next' p (es ++ fs) := by
  induction es generalizing p with
  | nil => simp at hlast
  | cons f es ih =>
    refine ⟨h.1, ?_⟩
    cases es with
    | nil =>
      obtain rfl : f = e := by simpa using hlast
      exact k
    | cons g gs =>
      rw [List.getLast?_cons_cons] at hlast
      have hmem : e ∈ g :: gs := List.mem_of_getLast? hlast
      have hne : f ≠ e := fun hfe => (List.nodup_cons.mp h.nodup).1 (hfe ▸ hmem)
      rw [hsame f List.mem_cons_self hne]
      exact ih h.2 hlast fun i hi => hsame i (List.mem_cons_of_mem f hi)

variable [DecidableEq α]

theorem Linked.update (h : Linked next p es) (he : e ∉ es) (q : Option α) :
    Linked (Function.update next (some e) q) p es := by
  apply h.congr
  intro f hf
  have hne : some f ≠ some e := fun hfe => he (Option.some.inj hfe ▸ hf)
  exact Function.update_of_ne hne ..

/-- A cell that is in no list yet is put in front. -/
theorem Linked.push (h : Linked next p es) (he : e ∉ es) :
    Linked (Function.update next (some e) p) (some e) (e :: es) := by
  refine ⟨rfl, ?_⟩
  rw [Function.update_self]
  exact h.update he p

/-- The cell behind another one is taken out of the list. -/
theorem Linked.unlink {a b : α} (h : Linked next p (es ++ a :: b :: fs)) :
    Linked (Function.update next (some a) (next (some b))) p (es ++ a :: fs) := by
  have hnodup := h.nodup
  induction es generalizing p with
  | nil =>
    obtain ⟨hhead, -, htail⟩ := h
    have ha : a ∉ b :: fs := (List.nodup_cons.mp hnodup).1
    refine ⟨hhead, ?_⟩
    rw [Function.update_self]
    exact htail.update (fun hmem => ha (List.mem_cons_of_mem b hmem)) _
  | cons e es ih =>
    obtain ⟨hfresh, hrest⟩ := List.nodup_cons.mp hnodup
    have hne : some e ≠ some a := by
      intro heq
      exact hfresh (Option.some.inj heq ▸ List.mem_append_right es List.mem_cons_self)
    refine ⟨h.1, ?_⟩
    rw [Function.update_of_ne hne]
    exact ih h.2 hrest

/-! ### A free list and its owners -/

section
variable {P : Type*} {place : α → Option P} {free : List α} {lists : P → List α} {p : P}

/-- Each cell is in one list: in that of its owner, or, if it has none, in the free list. -/
structure Placed (place : α → Option P) (free : List α) (lists : P → List α) : Prop where
  unowned : ∀ e, e ∈ free ↔ place e = none
  owner : ∀ p e, e ∈ lists p ↔ place e = some p

variable [DecidableEq P]

theorem Placed.take (h : Placed place (e :: free) lists) (hnew : e ∉ free) :
    Placed (Function.update place e (some p)) free
      (Function.update lists p (e :: lists p)) := by
  have hplace : place e = none := (h.unowned e).mp List.mem_cons_self
  constructor
  · intro f
    by_cases hf : f = e
    · subst hf
      simp [hnew]
    · rw [Function.update_of_ne hf, ← h.unowned f]
      simp [hf]
  · intro q f
    by_cases hf : f = e
    · subst hf
      by_cases hq : q = p
      · subst hq
        simp
      · rw [Function.update_of_ne hq, h.owner, hplace]
        simp [Ne.symm hq]
    · rw [Function.update_of_ne hf, ← h.owner q f]
      by_cases hq : q = p
      · subst hq
        simp [hf]
      · rw [Function.update_of_ne hq]

theorem Placed.giveBack (h : Placed place free lists) (he : e ∈ lists p)
    (hnodup : (lists p).Nodup) :
    Placed (Function.update place e none) (e :: free)
      (Function.update lists p ((lists p).erase e)) := by
  constructor
  · intro f
    by_cases hf : f = e
    · subst hf
      simp
    · rw [Function.update_of_ne hf, ← h.unowned f]
      simp [hf]
  · intro q f
    by_cases hf : f = e
    · subst hf
      by_cases hq : q = p
      · subst hq
        simp [hnodup.mem_erase_iff]
      · have hplace : place f = some p := (h.owner p f).mp he
        rw [Function.update_of_ne hq, h.owner, hplace]
        simp [Ne.symm hq]
    · rw [Function.update_of_ne hf, ← h.owner q f]
      by_cases hq : q = p
      · subst hq
        simp [hnodup.mem_erase_iff, hf]
      · rw [Function.update_of_ne hq]

end

end OsdevArchive.Lib.LinkedList
