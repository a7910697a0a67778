import Mathlib.Data.List.Basic

/-!
Words that begin with other words, up to a separator, and the longest of them.
-/

namespace OsdevArchive.Lib.Prefixes

variable {α : Type*} {sep : α} {p s rest rest' : List α}

/-- Two words are read as long as they are equal; this is what is left of them. -/
def strip [DecidableEq α] : List α → List α → List α × List α
  | a :: p, b :: s => if a = b then strip p s else (a :: p, b :: s)
  | p, s => (p, s)

/-- The second word is used up exactly if the first one begins with it. -/
theorem strip_eq_iff [DecidableEq α] : strip p s = (rest, []) ↔ p = s ++ rest := by
  induction p generalizing s with
  | nil =>
    cases s with
    | nil => simp [strip, eq_comm]
    | cons b s => simp [strip]
  | cons a p ih =>
    cases s with
    | nil => simp [strip, eq_comm]
    | cons b s =>
      rw [strip, List.cons_append]
      by_cases heq : a = b
      · rw [if_pos heq, ih, heq, List.cons_inj_right]
      · rw [if_neg heq]
        refine iff_of_false (fun h => by cases (Prod.mk.inj h).2) fun h => ?_
        exact heq (List.cons.inj h).1

/-- The word begins with `s` and the separator. -/
def Under (sep : α) (s p : List α) : Prop := ∃ rest, p = s ++ sep :: rest

/-- The word is `s`, or begins with it and the separator. -/
def Covers (sep : α) (s p : List α) : Prop := s = p ∨ Under sep s p

theorem Under.length_lt (h : Under sep s p) : s.length < p.length := by
  obtain ⟨rest, rfl⟩ := h
  rw [List.length_append, List.length_cons]
  omega

/-! ### The longest one -/

variable {β : Type*} {ok : β → Prop} {key : β → Nat} {l l' : List β} {b c : β}

/-- An admissible element with the largest key. -/
structure IsLongest (ok : β → Prop) (key : β → Nat) (l : List β) (b : β) : Prop where
  mem : b ∈ l
  admissible : ok b
  le : ∀ c ∈ l, ok c → key c ≤ key b

theorem IsLongest.perm (h : IsLongest ok key l b) (hperm : l.Perm l') : IsLongest ok key l' b :=
  ⟨hperm.mem_iff.mp h.mem, h.admissible, fun c hc => h.le c (hperm.mem_iff.mpr hc)⟩

theorem IsLongest.key_eq (h : IsLongest ok key l b) (h' : IsLongest ok key l c) : key b = key c :=
  Nat.le_antisymm (h'.le b h.mem h.admissible) (h.le c h'.mem h'.admissible)

end OsdevArchive.Lib.Prefixes
