import Mathlib.Data.List.Perm.Basic
import Mathlib.Tactic.Common

/-!
Slots that hold something or nothing, some of which are emptied. Nothing is lost and
nothing comes twice: what was taken out and what is left are what was there.
-/

namespace OsdevArchive.Lib.Emptying

variable {α β : Type*} [DecidableEq α] {f : α → Option β} {s l k : List α}

/-- The slots after those of `l` were emptied. -/
def emptied (f : α → Option β) (l : List α) (a : α) : Option β := if a ∈ l then none else f a

/-- The slots of `l` that are not in `s`. -/
def outside (l s : List α) : List α := l.filter (· ∉ s)

@[simp] theorem emptied_nil : emptied f [] = f := by
  funext a
  simp [emptied]

theorem emptied_append : emptied f (k ++ l) = emptied (emptied f k) l := by
  funext a
  simp only [emptied, List.mem_append]
  split <;> split <;> simp_all

theorem filterMap_emptied : s.filterMap (emptied f l) = (s.filter (· ∉ l)).filterMap f := by
  rw [List.filterMap_filter]
  congr 1
  funext a
  by_cases ha : a ∈ l
  · simp [emptied, ha]
  · simp [emptied, ha]

theorem mem_outside {a : α} : a ∈ outside l s ↔ a ∈ l ∧ a ∉ s := by simp [outside]

theorem outside_eq_nil : outside l s = [] ↔ ∀ a ∈ l, a ∈ s := by simp [outside]

/-- What is taken out of the slots `l` and what is left in `s` are what was in `s` and in
the slots of `l` that are not there. -/
theorem emptied_perm (hs : s.Nodup) (hl : l.Nodup) :
    (l.filterMap f ++ s.filterMap (emptied f l)).Perm
      (s.filterMap f ++ (outside l s).filterMap f) := by
  have hcommon : (l.filter (· ∈ s)).Perm (s.filter (· ∈ l)) := by
    rw [List.perm_ext_iff_of_nodup (hl.filter _) (hs.filter _)]
    intro a
    simp [and_comm]
  have hl' : (l.filter (· ∈ s) ++ l.filter (· ∉ s)).Perm l := by
    simpa using List.filter_append_perm (· ∈ s) l
  have hs' : (s.filter (· ∈ l) ++ s.filter (· ∉ l)).Perm s := by
    simpa using List.filter_append_perm (· ∈ l) s
  have hswap : ((s.filter (· ∈ l) ++ l.filter (· ∉ s)) ++ s.filter (· ∉ l)).Perm
      ((s.filter (· ∈ l) ++ s.filter (· ∉ l)) ++ l.filter (· ∉ s)) := by
    rw [List.append_assoc, List.append_assoc]
    exact List.perm_append_comm.append_left _
  have hperm : (l ++ s.filter (· ∉ l)).Perm (s ++ l.filter (· ∉ s)) :=
    ((hl'.symm.trans (hcommon.append_right _)).append_right _).trans
      (hswap.trans (hs'.append_right _))
  rw [filterMap_emptied, outside, ← List.filterMap_append, ← List.filterMap_append]
  exact hperm.filterMap f

end OsdevArchive.Lib.Emptying
