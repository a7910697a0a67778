import Mathlib.Algebra.GroupWithZero.Nat
import OsdevArchive.Minirighi.TaskKill

/-!
What the loop at `found:` in `kill` makes of the forest of tasks. A task is doomed if it is a
zombie, or a thread of the ready or the wait queue whose father is doomed: processes stop the
propagation. The loop ends with exactly the doomed tasks dead, and forgets exactly the fathers
that are doomed.
-/

namespace OsdevArchive.Minirighi.Task

open OsdevArchive.Minirighi.RefreshQueues

variable {P T S W : Type*} {k k' : Kernel P T S W} {u : T}

/-- The tasks that are dead, or will be when the propagation ends. -/
inductive Doomed (k : Kernel P T S W) : T → Prop where
  | zombie {t : T} : k.tasks.state t = .zombie → Doomed k t
  | thread {e : P} {f : T} : e ∈ k.searched → k.isThread (k.value e) = true →
      k.father (k.value e) = some f → Doomed k f → Doomed k (k.value e)

/-- The loop has been through some of the tasks. It has killed and orphaned only where it had
to, and no thread without its father is alive. -/
structure Swept (k k' : Kernel P T S W) : Prop where
  culled : Culled k k'
  isThread : k'.isThread = k.isThread
  state : ∀ u, k'.tasks.state u = k.tasks.state u ∨
    k'.tasks.state u = .zombie ∧ Doomed k u
  father : ∀ u, k'.father u = k.father u ∨
    k'.father u = none ∧ ∃ e ∈ k.searched, k.value e = u ∧ ∃ f, k.father u = some f ∧ Doomed k f
  thread : ∀ u, k.isThread u = true → k'.father u ≠ k.father u → k'.tasks.state u = .zombie

theorem Swept.refl (k : Kernel P T S W) : Swept k k where
  culled := .refl k
  isThread := rfl
  state _ := Or.inl rfl
  father _ := Or.inl rfl
  thread _ _ hne := absurd rfl hne

/-- A zombie of the swept forest was doomed. -/
theorem Swept.doomed (h : Swept k k') (hu : k'.tasks.state u = .zombie) : Doomed k u := by
  rcases h.state u with hsame | ⟨-, hdoomed⟩
  · exact .zombie (hsame ▸ hu)
  · exact hdoomed

variable [DecidableEq T]

/-- Started in `k`, the loop ends in `k'`. -/
inductive Ends : Kernel P T S W → Kernel P T S W → Prop where
  | last {k : Kernel P T S W} : k.sweep.2 = false → Ends k k.sweep.1
  | again {k k' : Kernel P T S W} : k.sweep.2 = true → Ends k.sweep.1 k' → Ends k k'

/-- One visit. -/
theorem Swept.orphan {r : Kernel P T S W × Bool} {e : P} (h : Swept k r.1)
    (he : e ∈ k.searched) : Swept k (Kernel.orphan r e).1 := by
  obtain ⟨k', flag⟩ := r
  have hvalue : k'.value = k.value := h.culled.same.value
  have hculled := h.culled.trans (Culled.orphan (k', flag) e)
  unfold Kernel.orphan at hculled ⊢
  dsimp only at h hculled ⊢
  cases hfather : k'.father (k'.value e) with
  | none => exact h
  | some f =>
    rw [hfather] at hculled
    dsimp only at hculled ⊢
    by_cases hzombie : k'.tasks.state f = .zombie
    · have hdoomed : Doomed k f := h.doomed hzombie
      have hfirst : k.father (k.value e) = some f := by
        rcases h.father (k.value e) with hsame | ⟨hnone, -⟩
        · rw [← hsame, ← hvalue, hfather]
        · rw [hvalue, hnone] at hfather
          cases hfather
      rw [if_pos hzombie] at hculled ⊢
      -- The father is forgotten in both cases.
      have hforgot : ∀ u, Function.update k'.father (k'.value e) none u = k.father u ∨
          Function.update k'.father (k'.value e) none u = none ∧
            ∃ e ∈ k.searched, k.value e = u ∧ ∃ f, k.father u = some f ∧ Doomed k f := by
        intro u
        by_cases hu : u = k.value e
        · subst hu
          rw [hvalue, Function.update_self]
          exact Or.inr ⟨rfl, e, he, rfl, f, hfirst, hdoomed⟩
        · rw [hvalue, Function.update_of_ne hu]
          exact h.father u
      by_cases hthread : k'.isThread (k'.value e) = true
      · rw [if_pos hthread] at hculled ⊢
        have hdies : Doomed k (k.value e) :=
          .thread he (by rw [← h.isThread, ← hvalue, hthread]) hfirst hdoomed
        refine ⟨hculled, h.isThread, ?_, hforgot, ?_⟩
        · intro u
          by_cases hu : u = k.value e
          · subst hu
            exact Or.inr ⟨by simp [hvalue], hdies⟩
          · simpa [hvalue, hu] using h.state u
        · intro u hu hne
          by_cases hue : u = k.value e
          · simp [hvalue, hue]
          · have hdead := h.thread u hu (by simpa [hvalue, hue] using hne)
            simpa [hvalue, hue] using hdead
      · rw [if_neg hthread] at hculled ⊢
        refine ⟨hculled, h.isThread, h.state, hforgot, ?_⟩
        intro u hu hne
        by_cases hue : u = k.value e
        · rw [hue, ← h.isThread, ← hvalue] at hu
          exact absurd hu hthread
        · exact h.thread u hu (by simpa [hvalue, hue] using hne)
    · rw [if_neg hzombie]
      exact h

theorem Swept.foldl {L : List P} {r : Kernel P T S W × Bool} (h : Swept k r.1)
    (hL : ∀ e ∈ L, e ∈ k.searched) : Swept k (L.foldl Kernel.orphan r).1 := by
  induction L generalizing r with
  | nil => exact h
  | cons e L ih =>
    exact ih (h.orphan (hL e List.mem_cons_self)) fun e' he' => hL e' (List.mem_cons_of_mem e he')

/-- One walk over both queues. -/
theorem Swept.sweep (h : Swept k k') : Swept k k'.sweep.1 := by
  apply Swept.foldl (r := (k', false)) h
  intro e he
  rwa [searched_of_culled h.culled] at he

theorem Swept.sweepLoop (h : Swept k k') (fuel : Nat) : Swept k (Kernel.sweepLoop fuel k') := by
  induction fuel generalizing k' with
  | zero => exact h
  | succ fuel ih =>
    rw [Kernel.sweepLoop]
    split
    · exact ih h.sweep
    · exact h.sweep

/-- Every walk that is followed by another one forgets a father, so the loop ends. -/
theorem sweepLoop_ends {fuel : Nat} (h : k.children < fuel) :
    Ends k (Kernel.sweepLoop fuel k) := by
  induction fuel generalizing k with
  | zero => exact absurd h (Nat.not_lt_zero _)
  | succ fuel ih =>
    rw [Kernel.sweepLoop]
    split
    · next hflag =>
      have hless := children_sweep hflag
      exact .again hflag (ih (by omega))
    · next hflag => exact .last (Bool.eq_false_iff.mpr hflag)

omit [DecidableEq T] in
/-- Where no child of a dead father is left, every doomed task is dead. -/
theorem Swept.dead (h : Swept k k') (hclosed : k'.Closed) (hu : Doomed k u) :
    k'.tasks.state u = .zombie := by
  induction hu with
  | zombie hz =>
    rcases h.state _ with hsame | ⟨hdead, -⟩
    · rw [hsame, hz]
    · exact hdead
  | @thread e f he hthread hfather _ ih =>
    rcases h.father (k.value e) with hsame | ⟨hnone, -⟩
    · -- The father is still there, which a closed forest excludes.
      rw [hfather, ← h.culled.same.value] at hsame
      rw [← searched_of_culled h.culled] at he
      exact absurd ih (hclosed e he f hsame)
    · apply h.thread _ hthread
      rw [hnone, hfather]
      exact Option.some_ne_none f |>.symm

/-- What the loop makes of the tasks `k`. -/
structure Propagated (k k' : Kernel P T S W) : Prop where
  dead : ∀ u, Doomed k u → k'.tasks.state u = .zombie
  spared : ∀ u, ¬Doomed k u → k'.tasks.state u = k.tasks.state u
  orphaned : ∀ e ∈ k.searched, ∀ f, k.father (k.value e) = some f → Doomed k f →
    k'.father (k.value e) = none
  kept : ∀ u, (∀ f, k.father u = some f → ¬Doomed k f) → k'.father u = k.father u
  others : ∀ u, (∀ e ∈ k.searched, k.value e ≠ u) → k'.father u = k.father u
  closed : k'.Closed

omit [DecidableEq T] in
theorem Swept.propagated (h : Swept k k') (hclosed : k'.Closed) : Propagated k k' where
  dead _ hu := h.dead hclosed hu
  spared u hu := (h.state u).resolve_right fun hdead => hu hdead.2
  orphaned e he f hf hdoomed := by
    rcases h.father (k.value e) with hsame | ⟨hnone, -⟩
    · rw [hf, ← h.culled.same.value] at hsame
      rw [← searched_of_culled h.culled] at he
      exact absurd (h.dead hclosed hdoomed) (hclosed e he f hsame)
    · exact hnone
  kept u hu := (h.father u).resolve_right fun ⟨_, _, _, _, f, hf, hdoomed⟩ => hu f hf hdoomed
  others u hu := (h.father u).resolve_right fun ⟨_, e, he, heq, _⟩ => hu e he heq
  closed := hclosed

/-- `kill` strikes the task with this pid, if there is one. Its loop then ends, with exactly the
doomed tasks dead and exactly their children of the two queues without a father. -/
theorem kill_propagates (k : Kernel P T S W) (pid : Int) :
    Ends (k.strikePid pid) (k.cull pid) ∧ Propagated (k.strikePid pid) (k.cull pid) := by
  have hfuel := children_strikePid_lt k pid
  have hswept := (Swept.refl (k.strikePid pid)).sweepLoop (k.searched.length + 1)
  exact ⟨sweepLoop_ends hfuel, hswept.propagated (sweepLoop_closed hfuel)⟩

local instance instNeZeroThree : NeZero 3 := ⟨Nat.succ_ne_zero 2⟩

/-- The processes `0` and `1`, the second a child of the first, and a thread `2` of the second. -/
def family : Kernel (Fin 3) (Fin 3) Unit Unit where
  queue st := if st = .ready then [0, 1, 2] else []
  tasks := ⟨fun _ => .ready, false⟩
  counter _ := 0
  value e := e
  allocated _ := true
  father t := if t = 1 then some 0 else if t = 2 then some 1 else none
  isThread t := decide (t = 2)
  pid t := t
  priority _ := 0
  lastPid := 2
  currTask := 1
  creating := none
  exiting := false
  picked := none
  semaphore _ := Semaphore.St.initMutex ⟨fun _ => .ready, false⟩
  waitQueue _ := []

/-- The first process is killed. The thread descends from it, through the second process, and
stays alive. -/
theorem thread_of_child_lives : family.isThread 2 = true ∧ family.father 2 = some 1 ∧
    family.father 1 = some 0 ∧ (family.cull 0).tasks.state 0 = .zombie ∧
    (family.cull 0).tasks.state 2 = .ready := by
  decide

end OsdevArchive.Minirighi.Task
