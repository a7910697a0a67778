import Mathlib.Logic.Function.Basic

/-!
Overwritten places of a memory with their old values. A log is undone from its head on; a place
may stand in it more than once, and then the entry that is undone last decides.
-/

namespace OsdevArchive.Lib.UndoLog

variable {κ β : Type*} [DecidableEq κ]

/-- The memory with the saved values written back. -/
def undo : List (κ × β) → (κ → β) → κ → β
  | [], memory => memory
  | (k, v) :: log, memory => undo log (Function.update memory k v)

@[simp] theorem undo_cons (k : κ) (v : β) (log : List (κ × β)) (memory : κ → β) :
    undo ((k, v) :: log) memory = undo log (Function.update memory k v) := rfl

theorem undo_append (log log' : List (κ × β)) (memory : κ → β) :
    undo (log ++ log') memory = undo log' (undo log memory) := by
  induction log generalizing memory with
  | nil => rfl
  | cons saved log ih => exact ih _

/-- Saving a place before it is overwritten. -/
theorem undo_save (log : List (κ × β)) (memory : κ → β) (k : κ) (v : β) :
    undo ((k, memory k) :: log) (Function.update memory k v) = undo log memory := by
  rw [undo_cons, Function.update_idem, Function.update_eq_self]

/-- Undoing changes the saved places only. -/
theorem undo_of_notMem {log : List (κ × β)} {k : κ} (h : k ∉ log.map Prod.fst)
    (memory : κ → β) : undo log memory k = memory k := by
  induction log generalizing memory with
  | nil => rfl
  | cons saved log ih =>
    obtain ⟨j, v⟩ := saved
    rw [List.map_cons, List.mem_cons, not_or] at h
    rw [undo_cons, ih h.2, Function.update_of_ne h.1]

/-- What a saved place holds does not matter. -/
theorem undo_update_of_mem {log : List (κ × β)} {k : κ} (h : k ∈ log.map Prod.fst)
    (memory : κ → β) (v : β) : undo log (Function.update memory k v) = undo log memory := by
  induction log generalizing memory with
  | nil => cases h
  | cons saved log ih =>
    obtain ⟨j, w⟩ := saved
    rw [undo_cons, undo_cons]
    by_cases hj : k = j
    · rw [hj, Function.update_idem]
    · have hlog : k ∈ log.map Prod.fst := by
        rw [List.map_cons, List.mem_cons] at h
        exact h.resolve_left hj
      rw [Function.update_comm hj, ih hlog]

theorem undo_update_of_notMem {log : List (κ × β)} {k : κ} (h : k ∉ log.map Prod.fst)
    (memory : κ → β) (v : β) :
    undo log (Function.update memory k v) = Function.update (undo log memory) k v := by
  induction log generalizing memory with
  | nil => rfl
  | cons saved log ih =>
    obtain ⟨j, w⟩ := saved
    rw [List.map_cons, List.mem_cons, not_or] at h
    rw [undo_cons, undo_cons, Function.update_comm h.1, ih h.2]

/-- A write is undone exactly if its place is saved, or it changes nothing. -/
theorem undo_update_iff (log : List (κ × β)) (memory : κ → β) (k : κ) (v : β) :
    undo log (Function.update memory k v) = undo log memory ↔
      k ∈ log.map Prod.fst ∨ v = memory k := by
  by_cases hsaved : k ∈ log.map Prod.fst
  · exact iff_of_true (undo_update_of_mem hsaved memory v) (.inl hsaved)
  · rw [undo_update_of_notMem hsaved, Function.update_eq_self_iff, undo_of_notMem hsaved]
    exact (or_iff_right hsaved).symm

end OsdevArchive.Lib.UndoLog
