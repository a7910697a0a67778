import Mathlib.Logic.Function.Basic

/-!
The table of shared pages (`kernel/cow.c`). Each address occurs once in the queue
`cow_pages`, so the queue is a map from addresses to counters. A page whose counter
has come down to zero keeps its entry until the next `unset_shared_page`.
-/

namespace OsdevArchive.Minirighi

/-- `cow_pages`: the counter of an address, if it has an entry. -/
abbrev Cow (F : Type*) := F → Option Nat

namespace Cow

variable {F : Type*} [DecidableEq F]

/-- `set_shared_page`. It fails with `-ENOMEM` when a new entry is needed and there
is no memory for it. -/
def setSharedPage (cow : Cow F) (addr : F) (mem : Bool) : Option (Cow F) :=
  match cow addr with
  | some n => some (Function.update cow addr (some (n + 1)))
  | none => if mem then some (Function.update cow addr (some 1)) else none

/-- `unset_shared_page` returns the counter before the decrement; an entry that was
at zero is removed. -/
def unsetSharedPage (cow : Cow F) (addr : F) : Cow F × Nat :=
  match cow addr with
  | none => (cow, 0)
  | some 0 => (Function.update cow addr none, 0)
  | some (n + 1) => (Function.update cow addr (some n), n + 1)

/-- How often the page is shared; no entry means not at all. -/
def count (cow : Cow F) (addr : F) : Nat := (cow addr).getD 0

variable {cow cow' : Cow F} {a b : F}

theorem setSharedPage_count {mem : Bool} (h : cow.setSharedPage a mem = some cow') (b : F) :
    cow'.count b = cow.count b + if b = a then 1 else 0 := by
  unfold setSharedPage at h
  split at h
  · obtain rfl := Option.some.inj h
    by_cases hb : b = a
    · subst hb
      simp [count, *]
    · simp [count, hb]
  · split at h
    · obtain rfl := Option.some.inj h
      by_cases hb : b = a
      · subst hb
        simp [count, *]
      · simp [count, hb]
    · cases h

theorem unsetSharedPage_snd : (cow.unsetSharedPage a).2 = cow.count a := by
  unfold unsetSharedPage count
  split <;> simp [*]

theorem unsetSharedPage_count (b : F) :
    (cow.unsetSharedPage a).1.count b = if b = a then cow.count a - 1 else cow.count b := by
  by_cases hb : b = a
  · subst hb
    unfold unsetSharedPage count
    split <;> simp [*]
  · unfold unsetSharedPage count
    split <;> simp [hb]

/-- The last reference: the counters stay the same. -/
theorem unsetSharedPage_last (h : cow.count a = 0) :
    ∃ cow', cow.unsetSharedPage a = (cow', 0) ∧ cow'.count = cow.count := by
  refine ⟨(cow.unsetSharedPage a).1, ?_, funext fun b => ?_⟩
  · rw [← h, ← unsetSharedPage_snd]
  · rw [unsetSharedPage_count]
    split
    · rename_i hb
      rw [hb, h]
    · rfl

theorem unsetSharedPage_shared (h : cow.count a ≠ 0) :
    ∃ n, cow.unsetSharedPage a = ((cow.unsetSharedPage a).1, n + 1) := by
  obtain ⟨n, hn⟩ := Nat.exists_eq_succ_of_ne_zero h
  refine ⟨n, ?_⟩
  rw [Prod.ext_iff, unsetSharedPage_snd]
  exact ⟨rfl, hn⟩

theorem unsetSharedPage_of_ne (h : b ≠ a) : (cow.unsetSharedPage a).1 b = cow b := by
  unfold unsetSharedPage
  split
  · rfl
  · exact Function.update_of_ne h ..
  · exact Function.update_of_ne h ..

end Cow

end OsdevArchive.Minirighi
