import Mathlib.Data.List.Basic
import Mathlib.Logic.Function.Basic

/-!
Sweeps through a list whose elements each have a condition that may change the world: each
condition is evaluated once, in the order of the list, in the world that the ones before it have
left. Where a condition is the claim of a lock, a lock that can be had goes to the first that
claims it.
-/

namespace OsdevArchive.Lib.Sweep

variable {α κ γ ω : Type*}

/-- The elements whose condition held, the others, and the world behind the sweep. -/
structure Swept (α ω : Type*) where
  passed : List α
  kept : List α
  world : ω

def sweep (cond : α → ω → Bool × ω) : List α → ω → Swept α ω
  | [], w => ⟨[], [], w⟩
  | a :: as, w =>
    let r := sweep cond as (cond a w).2
    if (cond a w).1 then { r with passed := a :: r.passed } else { r with kept := a :: r.kept }

/-- The conditions with a record of what was evaluated. -/
def recorded (cond : α → ω → Bool × ω) (a : α) (w : ω × List α) : Bool × ω × List α :=
  ((cond a w.1).1, (cond a w.1).2, w.2 ++ [a])

variable {cond : α → ω → Bool × ω} {as : List α} {a : α} {w : ω}

theorem sweep_cons_true (h : (cond a w).1 = true) : sweep cond (a :: as) w =
    { sweep cond as (cond a w).2 with passed := a :: (sweep cond as (cond a w).2).passed } :=
  if_pos h

theorem sweep_cons_false (h : (cond a w).1 = false) : sweep cond (a :: as) w =
    { sweep cond as (cond a w).2 with kept := a :: (sweep cond as (cond a w).2).kept } :=
  if_neg (Bool.eq_false_iff.mp h)

/-- Those that pass do so in their order. -/
theorem sweep_passed_sublist (cond : α → ω → Bool × ω) (as : List α) (w : ω) :
    (sweep cond as w).passed.Sublist as := by
  induction as generalizing w with
  | nil => exact .slnil
  | cons a as ih =>
    cases hcond : (cond a w).1 with
    | true =>
      rw [sweep_cons_true hcond]
      exact (ih _).cons_cons a
    | false =>
      rw [sweep_cons_false hcond]
      exact (ih _).cons a

/-- Each condition has been evaluated once. -/
theorem sweep_recorded (cond : α → ω → Bool × ω) (as log : List α) (w : ω) :
    (sweep (recorded cond) as (w, log)).world.2 = log ++ as := by
  induction as generalizing w log with
  | nil => exact (List.append_nil log).symm
  | cons a as ih =>
    have hrest := ih (log ++ [a]) (cond a w).2
    rw [List.append_assoc, List.singleton_append] at hrest
    cases hcond : (cond a w).1 with
    | true =>
      have hlogged : (recorded cond a (w, log)).1 = true := hcond
      rw [sweep_cons_true hlogged]
      exact hrest
    | false =>
      have hlogged : (recorded cond a (w, log)).1 = false := hcond
      rw [sweep_cons_false hlogged]
      exact hrest

/-- In a list without repetitions the others are those that have not passed. -/
theorem sweep_kept_eq [DecidableEq α] (h : as.Nodup) (w : ω) :
    (sweep cond as w).kept = as.filter fun a => decide (a ∉ (sweep cond as w).passed) := by
  induction as generalizing w with
  | nil => rfl
  | cons a as ih =>
    obtain ⟨hnot, hnodup⟩ := List.nodup_cons.mp h
    have hpassed : a ∉ (sweep cond as (cond a w).2).passed := fun hmem =>
      hnot ((sweep_passed_sublist cond as _).subset hmem)
    cases hcond : (cond a w).1 with
    | true =>
      rw [sweep_cons_true hcond]
      simp only [List.mem_cons, not_or]
      rw [List.filter_cons_of_neg (by simp), ih hnodup]
      apply List.filter_congr
      intro b hb
      have hne : b ≠ a := fun heq => hnot (heq ▸ hb)
      simp only [hne, not_false_eq_true, true_and]
    | false =>
      rw [sweep_cons_false hcond]
      simp only
      rw [List.filter_cons, if_pos (decide_eq_true hpassed), ih hnodup]

/-! ### Claims of locks -/

variable [DecidableEq γ] [DecidableEq κ]

/-- The condition of an element that wants a lock is that it is not taken, and then it is; of
the others it is known whether it holds. -/
def claim (taken : γ) (wants : α → Option κ) (other : α → Bool) (a : α) (lock : κ → γ) :
    Bool × (κ → γ) :=
  match wants a with
  | none => (other a, lock)
  | some k => if lock k = taken then (false, lock) else (true, Function.update lock k taken)

variable {taken : γ} {wants : α → Option κ} {other : α → Bool}

theorem claim_other (taken : γ) (other : α → Bool) (lock : κ → γ) (h : wants a = none) :
    claim taken wants other a lock = (other a, lock) := by
  rw [claim, h]

theorem claim_taken (other : α → Bool) {lock : κ → γ} {k : κ} (h : wants a = some k)
    (hlock : lock k = taken) :
    claim taken wants other a lock = (false, lock) := by
  rw [claim, h]
  exact if_pos hlock

theorem claim_free (other : α → Bool) {lock : κ → γ} {k : κ} (h : wants a = some k)
    (hlock : lock k ≠ taken) :
    claim taken wants other a lock = (true, Function.update lock k taken) := by
  rw [claim, h]
  exact if_neg hlock

/-- A lock that is not taken goes to the first element that wants it, and to no other. -/
theorem sweep_claim (as : List α) (lock : κ → γ) (k : κ) :
    (sweep (claim taken wants other) as lock).passed.filter (fun a => decide (wants a = some k)) =
        (if lock k = taken then []
          else (as.filter fun a => decide (wants a = some k)).take 1) ∧
      (sweep (claim taken wants other) as lock).world k =
        if (as.filter fun a => decide (wants a = some k)) = [] then lock k else taken := by
  induction as generalizing lock with
  | nil => simp [sweep]
  | cons a as ih =>
    cases hwants : wants a with
    | none =>
      have hclaim := claim_other taken other lock hwants
      cases hother : other a with
      | true =>
        rw [hother] at hclaim
        rw [sweep_cons_true (by rw [hclaim]), hclaim]
        simpa [List.filter_cons, hwants] using ih lock
      | false =>
        rw [hother] at hclaim
        rw [sweep_cons_false (by rw [hclaim]), hclaim]
        simpa [List.filter_cons, hwants] using ih lock
    | some k' =>
      by_cases htaken : lock k' = taken
      · have hclaim := claim_taken other hwants htaken
        rw [sweep_cons_false (by rw [hclaim]), hclaim]
        by_cases hk : k' = k
        · subst hk
          simpa [List.filter_cons, hwants, htaken] using ih lock
        · simpa [List.filter_cons, hwants, hk] using ih lock
      · have hclaim := claim_free other hwants htaken
        rw [sweep_cons_true (by rw [hclaim]), hclaim]
        by_cases hk : k' = k
        · subst hk
          have hrest := ih (Function.update lock k' taken)
          rw [Function.update_self] at hrest
          simpa [List.filter_cons, hwants, htaken] using hrest
        · have hrest := ih (Function.update lock k' taken)
          rw [Function.update_of_ne (Ne.symm hk)] at hrest
          simpa [List.filter_cons, hwants, hk] using hrest

end OsdevArchive.Lib.Sweep
