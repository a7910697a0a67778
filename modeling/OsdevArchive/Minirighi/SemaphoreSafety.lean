import Mathlib.Data.Set.Subsingleton
import OsdevArchive.Lib.Counting
import OsdevArchive.Minirighi.Semaphore

/-!
Mutual exclusion of the semaphore. The invariant balances `count` against the
tasks: it is one minus the tasks that hold the semaphore, minus those that have
decremented it and are not yet in `sleepers`, minus `sleepers`. It holds in
every interleaving, whatever the scheduler and the allocator do.
-/

namespace OsdevArchive.Minirighi.Semaphore

open OsdevArchive.Lib.Counting OsdevArchive.Lib.Runs

/-- The task holds the semaphore: it is past its successful decrement and before
the increment of `UP`. -/
@[simp] def Pc.holds : Pc → Bool
  | .clearSleepers | .remQueue | .wakeNext | .doneUnlock | .critical => true
  | _ => false

/-- The task has decremented `count` in vain and is not yet in `sleepers`. -/
@[simp] def Pc.entering : Pc → Bool
  | .failLock | .addQueue | .countSleeper => true
  | _ => false

/-- The task holds `semaphore_lock`. -/
@[simp] def Pc.locked : Pc → Bool
  | .addQueue | .countSleeper | .loadSleepers | .addNegative _ | .clearSleepers
  | .oneSleeper | .sleepUnlock | .remQueue | .wakeNext | .doneUnlock | .upWake
  | .upUnlock => true
  | _ => false

/-- The task has counted itself and has not yet stored the new `sleepers`. -/
@[simp] def Pc.counted : Pc → Bool
  | .loadSleepers | .addNegative _ | .clearSleepers | .oneSleeper => true
  | _ => false

/-- What `sleepers` is about to be once the task at `pc` has stored it. -/
@[simp] def Pc.settles (pc : Pc) (sleepers : Int) : Int :=
  match pc with
  | .clearSleepers => 0
  | .oneSleeper => 1
  | _ => sleepers

variable {T : Type*}

/-- The part of `count` that the waiting tasks account for. -/
def St.owed (s : St T) : Int :=
  match s.semaphoreLock with
  | some t => (s.pc t).settles s.sleepers
  | none => s.sleepers

variable [Fintype T]

structure Inv (s : St T) : Prop where
  locked : ∀ t, (s.pc t).locked = true ↔ s.semaphoreLock = some t
  loaded : ∀ t n, s.pc t = .addNegative n → n = s.sleepers
  nonneg : 0 ≤ s.sleepers
  atMostTwo : s.sleepers ≤ 2
  atMostOne : (∀ t, (s.pc t).counted = false) → s.sleepers ≤ 1
  one : tally Pc.holds s.pc ≤ 1
  balance : s.count = 1 - tally Pc.holds s.pc - tally Pc.entering s.pc - s.owed

variable {s s' : St T} {t : T} {pc : Pc}

theorem Inv.initMutex (tasks : Tasks T) : Inv (St.initMutex tasks) where
  locked t := by simp [St.initMutex, Pc.locked]
  loaded t n h := by simp [St.initMutex] at h
  nonneg := Int.le_refl 0
  atMostTwo := by simp [St.initMutex]
  atMostOne _ := by simp [St.initMutex]
  one := by
    rw [tally_eq_zero fun _ => rfl]
    exact Nat.zero_le 1
  balance := by
    rw [tally_eq_zero fun _ => rfl, tally_eq_zero fun _ => rfl]
    rfl

omit [Fintype T] in
theorem Pc.locked_of_counted (h : pc.counted = true) : pc.locked = true := by
  cases pc <;> simp_all [Pc.counted, Pc.locked]

/-- How an action of `t` may change the owner of the spinlock. -/
def LockMove (s s' : St T) (t : T) (pc : Pc) : Prop :=
  (s'.semaphoreLock = s.semaphoreLock ∧ pc.locked = (s.pc t).locked) ∨
    (s.semaphoreLock = none ∧ s'.semaphoreLock = some t ∧ pc.locked = true) ∨
    (s.semaphoreLock = some t ∧ s'.semaphoreLock = none ∧ pc.locked = false)

omit [Fintype T] in
theorem Pc.settles_of_unlocked (h : pc.locked = false) (n : Int) : pc.settles n = n := by
  cases pc <;> simp_all [Pc.locked, Pc.settles]

theorem Inv.owed_nonneg (hi : Inv s) : 0 ≤ s.owed := by
  have hnonneg := hi.nonneg
  have hsettles (pc : Pc) : 0 ≤ pc.settles s.sleepers := by
    cases pc <;> simp [Pc.settles, hnonneg]
  unfold St.owed
  split
  · exact hsettles _
  · exact hnonneg

/-- While a task holds the spinlock, it alone decides what `sleepers` becomes. -/
theorem Inv.owed_of_locked (hi : Inv s) (h : (s.pc t).locked = true) :
    s.owed = (s.pc t).settles s.sleepers := by
  simp [St.owed, (hi.locked t).mp h]

variable [DecidableEq T]

theorem Inv.owed_move (hi : Inv s) (hpc : s'.pc = Function.update s.pc t pc)
    (hlock : LockMove s s' t pc)
    (hsleepers : s'.sleepers = s.sleepers ∨ (s.pc t).locked = true) :
    s'.owed + (s.pc t).settles s.sleepers = s.owed + pc.settles s'.sleepers := by
  have hself : s'.pc t = pc := by rw [hpc, Function.update_self]
  rcases hlock with ⟨hsame, hlocked⟩ | ⟨hfree, htaken, hlocked⟩ | ⟨hheld, hreleased, hlocked⟩
  · cases ht : (s.pc t).locked with
    | true =>
        have howner := (hi.locked t).mp ht
        rw [hi.owed_of_locked ht]
        simp only [St.owed, hsame, howner, hself]
        omega
    | false =>
        have hkeep : s'.sleepers = s.sleepers := hsleepers.resolve_right (ht ▸ Bool.false_ne_true)
        rw [Pc.settles_of_unlocked ht, Pc.settles_of_unlocked (hlocked.trans ht), hkeep]
        have howed : s'.owed = s.owed := by
          unfold St.owed
          rw [hsame, hkeep, hpc]
          split
          · rename_i u howner
            have hne : u ≠ t := fun hut => by
              rw [← hut, (hi.locked u).mpr howner] at ht
              cases ht
            rw [Function.update_of_ne hne]
          · rfl
        omega
  · have ht : (s.pc t).locked = false := by
      have howner := (hi.locked t).not.mpr (by simp [hfree])
      simpa using howner
    have hkeep : s'.sleepers = s.sleepers := hsleepers.resolve_right (ht ▸ Bool.false_ne_true)
    rw [Pc.settles_of_unlocked ht]
    simp only [St.owed, hfree, htaken, hself]
    omega
  · rw [hi.owed_of_locked ((hi.locked t).mpr hheld), Pc.settles_of_unlocked hlocked]
    simp only [St.owed, hreleased]
    omega

/-- The spinlock still belongs to the task that is between its lock and its unlock. -/
theorem Inv.locked_move (hi : Inv s) (hpc : s'.pc = Function.update s.pc t pc)
    (hlock : LockMove s s' t pc) (u : T) :
    (s'.pc u).locked = true ↔ s'.semaphoreLock = some u := by
  have hu := hi.locked u
  by_cases hut : u = t
  · subst u
    have hself : s'.pc t = pc := by rw [hpc, Function.update_self]
    rw [hself]
    rcases hlock with ⟨hsame, hlocked⟩ | ⟨-, htaken, hlocked⟩ | ⟨-, hreleased, hlocked⟩
    · rw [hlocked, hsame]
      exact hu
    · exact iff_of_true hlocked htaken
    · exact iff_of_false (by rw [hlocked]; exact Bool.false_ne_true) (by rw [hreleased]; simp)
  · have hother : s'.pc u = s.pc u := by rw [hpc, Function.update_of_ne hut]
    rw [hother, hu]
    rcases hlock with ⟨hsame, -⟩ | ⟨hfree, htaken, -⟩ | ⟨hheld, hreleased, -⟩
    · rw [hsame]
    · simp [hfree, htaken, Ne.symm hut]
    · simp [hheld, hreleased, Ne.symm hut]

/-- One action moves one task; the rest of the invariant is arithmetic. -/
theorem Inv.of_move (hi : Inv s) (hpc : s'.pc = Function.update s.pc t pc)
    (hlock : LockMove s s' t pc)
    (hloaded : ∀ n, pc = .addNegative n → n = s'.sleepers)
    (hsleepers : s'.sleepers = s.sleepers ∨ (s.pc t).locked = true)
    (hrange : 0 ≤ s'.sleepers ∧ s'.sleepers ≤ 2 ∧
      (pc.counted = false → s'.sleepers ≤ 1 ∨ s'.sleepers = s.sleepers ∧ (s.pc t).counted = false))
    (hone : pc.holds = true → (s.pc t).holds = true ∨ tally Pc.holds s.pc = 0)
    (hbalance : s'.count + pc.holds.toNat + pc.entering.toNat + pc.settles s'.sleepers =
      s.count + (s.pc t).holds.toNat + (s.pc t).entering.toNat +
        (s.pc t).settles s.sleepers) : Inv s' := by
  have hH := tally_update Pc.holds s.pc t pc
  have hE := tally_update Pc.entering s.pc t pc
  rw [← hpc] at hH hE
  have hother : ∀ u, u ≠ t → s'.pc u = s.pc u := fun u hu => by
    rw [hpc, Function.update_of_ne hu]
  have hself : s'.pc t = pc := by rw [hpc, Function.update_self]
  refine ⟨hi.locked_move hpc hlock, ?_, hrange.1, hrange.2.1, ?_, ?_, ?_⟩
  · intro u n hu
    by_cases hut : u = t
    · rw [hut, hself] at hu
      exact hloaded n hu
    · rw [hother u hut] at hu
      rcases hsleepers with hkeep | hheld
      · rw [hkeep]
        exact hi.loaded u n hu
      · -- Two tasks would hold the spinlock.
        have howner := (hi.locked u).mp (by simp [hu, Pc.locked])
        rw [(hi.locked t).mp hheld] at howner
        exact absurd (Option.some.inj howner).symm hut
  · intro hnone
    rcases hrange.2.2 (hself ▸ hnone t) with hle | ⟨hkeep, ht⟩
    · exact hle
    · rw [hkeep]
      refine hi.atMostOne fun u => ?_
      by_cases hut : u = t
      · rw [hut]
        exact ht
      · rw [← hother u hut]
        exact hnone u
  · have hle := hi.one
    cases hpcHolds : pc.holds with
    | false =>
        rw [hpcHolds] at hH
        simp only [Bool.toNat_false] at hH
        omega
    | true =>
        rcases hone hpcHolds with hkeep | hzero
        · simp only [hpcHolds, hkeep, Bool.toNat_true] at hH
          omega
        · simp only [hpcHolds, hzero, Bool.toNat_true] at hH
          omega
  · have hbefore := hi.balance
    have howed := hi.owed_move hpc hlock hsleepers
    omega

omit [Fintype T] in
theorem spinLock_eq_some (h : s.spinLock t pc = some s') :
    s.semaphoreLock = none ∧ s' = { s with semaphoreLock := some t }.goto t pc := by
  unfold St.spinLock at h
  split at h
  · exact ⟨‹_›, (Option.some.inj h).symm⟩
  · cases h

omit [Fintype T] in
@[simp] theorem goto_pc : (s.goto t pc).pc = Function.update s.pc t pc := rfl

omit [DecidableEq T] in
theorem Inv.wakeup (hi : Inv s) (tasks : Tasks T) : Inv { s with tasks := tasks } :=
  ⟨hi.locked, hi.loaded, hi.nonneg, hi.atMostTwo, hi.atMostOne, hi.one, hi.balance⟩

theorem Inv.wakeHead (hi : Inv s) : Inv s.wakeHead := by
  unfold St.wakeHead
  split
  · exact hi
  · exact hi.wakeup _

omit [Fintype T] in
@[simp] theorem wakeHead_pc : s.wakeHead.pc = s.pc := by
  unfold St.wakeHead
  split <;> rfl

theorem Inv.goto (hi : Inv s) (hlocked : pc.locked = (s.pc t).locked)
    (hloaded : ∀ n, pc = .addNegative n → n = s.sleepers)
    (hcounted : pc.counted = false → s.sleepers ≤ 1 ∨ (s.pc t).counted = false)
    (hholds : pc.holds = (s.pc t).holds) (hentering : pc.entering = (s.pc t).entering)
    (hsettles : pc.settles s.sleepers = (s.pc t).settles s.sleepers) : Inv (s.goto t pc) := by
  refine hi.of_move rfl (Or.inl ⟨rfl, hlocked⟩) hloaded (Or.inl rfl)
    ⟨hi.nonneg, hi.atMostTwo, fun hc => (hcounted hc).imp_right fun h => ⟨rfl, h⟩⟩
    (fun h => Or.inl (hholds ▸ h)) ?_
  simp only [St.goto]
  rw [hholds, hentering, hsettles]

theorem Inv.spinLock (hi : Inv s) (hfree : s.semaphoreLock = none) (hlocked : pc.locked = true)
    (hloaded : ∀ n, pc ≠ .addNegative n) (hcounted : (s.pc t).counted = false)
    (hholds : pc.holds = (s.pc t).holds) (hentering : pc.entering = (s.pc t).entering)
    (hsettles : pc.settles s.sleepers = (s.pc t).settles s.sleepers) :
    Inv ({ s with semaphoreLock := some t }.goto t pc) := by
  refine hi.of_move rfl (Or.inr (Or.inl ⟨hfree, rfl, hlocked⟩))
    (fun n h => absurd h (hloaded n)) (Or.inl rfl)
    ⟨hi.nonneg, hi.atMostTwo, fun _ => Or.inr ⟨rfl, hcounted⟩⟩
    (fun h => Or.inl (hholds ▸ h)) ?_
  simp only [St.goto]
  rw [hholds, hentering, hsettles]

theorem Inv.spinUnlock (hi : Inv s) (hheld : (s.pc t).locked = true)
    (hlocked : pc.locked = false) (hcounted : (s.pc t).counted = false)
    (hholds : pc.holds = (s.pc t).holds) (hentering : pc.entering = (s.pc t).entering)
    (hsettles : (s.pc t).settles s.sleepers = s.sleepers) : Inv (s.spinUnlock t pc) := by
  refine hi.of_move rfl (Or.inr (Or.inr ⟨(hi.locked t).mp hheld, rfl, hlocked⟩)) ?_ (Or.inl rfl)
    ⟨hi.nonneg, hi.atMostTwo, fun _ => Or.inr ⟨rfl, hcounted⟩⟩
    (fun h => Or.inl (hholds ▸ h)) ?_
  · rintro n rfl
    simp at hlocked
  · rw [hholds, hentering, hsettles, Pc.settles_of_unlocked hlocked]
    rfl

/-- `down` takes one from the count, and enters or goes to sleep. -/
theorem Inv.down (hi : Inv s) (hpc : s.pc t = .down) :
    Inv ({ s with count := s.count - 1 }.goto t
      (if 0 ≤ s.count - 1 then .critical else .failLock)) := by
  have hbalance := hi.balance
  have howed := hi.owed_nonneg
  refine hi.of_move rfl (Or.inl ⟨rfl, ?_⟩) ?_ (Or.inl rfl) ⟨hi.nonneg, hi.atMostTwo, ?_⟩ ?_ ?_ <;>
    simp only [St.goto, hpc] <;> split <;> simp
  all_goals omega

/-- The owner of the spinlock is the only one that could have counted itself before. -/
theorem Inv.countSleeper (hi : Inv s) (hpc : s.pc t = .countSleeper) :
    Inv ({ s with sleepers := s.sleepers + 1 }.goto t .loadSleepers) := by
  have hnonneg := hi.nonneg
  have hone : s.sleepers ≤ 1 := hi.atMostOne fun u => by
    by_contra hu
    have howner := (hi.locked u).mp (Pc.locked_of_counted (by simpa using hu))
    rw [(hi.locked t).mp (by simp [hpc])] at howner
    obtain rfl := Option.some.inj howner
    simp [hpc] at hu
  refine hi.of_move rfl (Or.inl ⟨rfl, ?_⟩) ?_ (Or.inr ?_) ⟨?_, ?_, ?_⟩ ?_ ?_ <;>
    simp [St.goto, hpc] <;> omega

/-- The sleepers that were loaded are still the sleepers, and the count takes them over. -/
theorem Inv.addNegative (hi : Inv s) {n : Int} (hpc : s.pc t = .addNegative n) :
    Inv ({ s with count := s.count + (n - 1) }.goto t
      (if s.count + (n - 1) < 0 then .oneSleeper else .clearSleepers)) := by
  have hbalance := hi.balance
  have hn := hi.loaded t n hpc
  have hlast := hi.owed_of_locked (t := t) (by simp [hpc])
  simp only [hpc, Pc.settles] at hlast
  refine hi.of_move rfl (Or.inl ⟨rfl, ?_⟩) ?_ (Or.inl rfl) ⟨hi.nonneg, hi.atMostTwo, ?_⟩ ?_ ?_ <;>
    simp only [St.goto, hpc] <;> split <;> simp
  all_goals omega

omit [DecidableEq T] in
theorem Inv.waitq (hi : Inv s) (waitq : List T) : Inv { s with waitq := waitq } :=
  ⟨hi.locked, hi.loaded, hi.nonneg, hi.atMostTwo, hi.atMostOne, hi.one, hi.balance⟩

theorem Inv.run (hi : Inv s) {noMem schedDisabled : Bool}
    (hstep : s.run t noMem schedDisabled = some s') : Inv s' := by
  unfold St.run at hstep
  cases hpc : s.pc t <;> simp only [hpc, Option.some.injEq] at hstep
  case down =>
    subst hstep
    exact hi.down hpc
  case addQueue =>
    subst hstep
    apply Inv.goto
    · cases noMem
      · exact hi.waitq _
      · exact hi
    all_goals cases noMem <;> simp [hpc]
  case countSleeper =>
    subst hstep
    exact hi.countSleeper hpc
  case addNegative n =>
    subst hstep
    exact hi.addNegative hpc
  case clearSleepers =>
    subst hstep
    refine hi.of_move rfl (Or.inl ⟨rfl, ?_⟩) ?_ (Or.inr ?_) ⟨?_, ?_, ?_⟩ ?_ ?_ <;>
      simp [St.goto, hpc]
  case oneSleeper =>
    subst hstep
    refine hi.of_move rfl (Or.inl ⟨rfl, ?_⟩) ?_ (Or.inr ?_) ⟨?_, ?_, ?_⟩ ?_ ?_ <;>
      simp [St.goto, hpc]
  case critical =>
    subst hstep
    refine hi.of_move rfl (Or.inl ⟨rfl, ?_⟩) ?_ (Or.inl rfl) ⟨hi.nonneg, hi.atMostTwo, ?_⟩ ?_ ?_ <;>
      simp only [St.goto, hpc] <;> split <;> simp
  case sleepTest =>
    subst hstep
    split <;> exact hi.goto (by simp [hpc]) (by simp) (by simp [hpc]) (by simp [hpc])
      (by simp [hpc]) (by simp [hpc])
  case sleepWrite =>
    subst hstep
    exact (hi.wakeup _).goto (by simp [hpc]) (by simp) (by simp [hpc]) (by simp [hpc])
      (by simp [hpc]) (by simp [hpc])
  case asleep =>
    split at hstep <;> cases hstep
    exact hi.goto (by simp [hpc]) (by simp) (by simp [hpc]) (by simp [hpc])
      (by simp [hpc]) (by simp [hpc])
  case loadSleepers =>
    subst hstep
    exact hi.goto (by simp [hpc]) (by simp) (by simp) (by simp [hpc]) (by simp [hpc])
      (by simp [hpc])
  case remQueue =>
    subst hstep
    exact (hi.waitq _).goto (by simp [hpc]) (by simp) (by simp [hpc]) (by simp [hpc])
      (by simp [hpc]) (by simp [hpc])
  case wakeNext | upWake =>
    subst hstep
    exact hi.wakeHead.goto (by simp [hpc]) (by simp) (by simp [hpc]) (by simp [hpc])
      (by simp [hpc]) (by simp [hpc])
  case failLock | retryLock | upLock =>
    obtain ⟨hfree, rfl⟩ := spinLock_eq_some hstep
    exact hi.spinLock hfree (by simp) (by simp) (by simp [hpc]) (by simp [hpc])
      (by simp [hpc]) (by simp [hpc])
  case sleepUnlock | doneUnlock | upUnlock =>
    subst hstep
    exact hi.spinUnlock (by simp [hpc]) (by simp) (by simp [hpc]) (by simp [hpc])
      (by simp [hpc]) (by simp [hpc])

theorem Inv.step (hi : Inv s) {a : Act T} (hstep : Computes St.step s a s') : Inv s' := by
  cases a with
  | run t noMem schedDisabled => exact hi.run hstep
  | wakeup t =>
      obtain rfl : { s with tasks := s.tasks.wakeupTask t } = s' := Option.some.inj hstep
      exact hi.wakeup _

theorem inv_of_run {tasks : Tasks T} {as : List (Act T)}
    (hrun : Run (Computes St.step) (St.initMutex tasks) as s) : Inv s :=
  hrun.invariant (fun _ _ _ hi hstep => hi.step hstep) (Inv.initMutex tasks)

/-- At most one task is inside the critical section, in every interleaving of
any number of tasks, and whichever spurious wakeups and failures occur. -/
theorem mutual_exclusion {tasks : Tasks T} {as : List (Act T)}
    (hrun : Run (Computes St.step) (St.initMutex tasks) as s) :
    {t | s.pc t = .critical}.Subsingleton := by
  intro t ht u hu
  have ht' : s.pc t = .critical := ht
  have hu' : s.pc u = .critical := hu
  exact eq_of_tally_le_one (p := Pc.holds) (inv_of_run hrun).one (by simp [ht']) (by simp [hu'])

/-- The tasks of the runs below, all ready. -/
def readyTasks : Tasks (Fin 2) := ⟨fun _ => .ready, false⟩

/-- The task that enters first. -/
def winner : Fin 2 := ⟨0, Nat.two_pos⟩

def loser : Fin 2 := ⟨1, Nat.one_lt_two⟩

/-- One task enters; the other one fails to and goes to sleep. -/
def contendedActs : List (Act (Fin 2)) :=
  .run winner false false :: List.replicate 10 (.run loser false false)

theorem mutual_exclusion_contended :
    ∃ s : St (Fin 2), s.pc 0 = .critical ∧ s.pc 1 = .asleep ∧ s.waitq = [1] ∧
      {t | s.pc t = .critical}.Subsingleton := by
  have hrun : (contendedActs.foldlM St.step (St.initMutex readyTasks)).map
        (fun s => (s.pc 0, s.pc 1, s.waitq)) = some (.critical, .asleep, [1]) := by
    decide +kernel
  obtain ⟨s, hsteps, hobs⟩ := Option.map_eq_some_iff.mp hrun
  simp only [Prod.mk.injEq] at hobs
  exact ⟨s, hobs.1, hobs.2.1, hobs.2.2, mutual_exclusion (.of_foldlM hsteps)⟩

/-- `count` stays within the number of tasks, so that a 32-bit counter does not
wrap. -/
theorem count_bounds {tasks : Tasks T} {as : List (Act T)}
    (hrun : Run (Computes St.step) (St.initMutex tasks) as s) :
    -(Fintype.card T : Int) - 2 ≤ s.count ∧ s.count ≤ 1 := by
  have hi := inv_of_run hrun
  have hbalance := hi.balance
  have howed := hi.owed_nonneg
  have hone := hi.one
  have hcard := tally_le_card Pc.entering s.pc
  have htwo : s.owed ≤ 2 := by
    have hle := hi.atMostTwo
    unfold St.owed
    split
    · cases s.pc _ <;> simp <;> omega
    · exact hle
  omega

theorem count_bounds_contended : ∃ s : St (Fin 2), s.count = -1 ∧
    -(Fintype.card (Fin 2) : Int) - 2 ≤ s.count ∧ s.count ≤ 1 := by
  have hrun : (contendedActs.foldlM St.step (St.initMutex readyTasks)).map St.count =
      some (-1) := by
    decide +kernel
  obtain ⟨s, hsteps, hcount⟩ := Option.map_eq_some_iff.mp hrun
  exact ⟨s, hcount, count_bounds (.of_foldlM hsteps)⟩

end OsdevArchive.Minirighi.Semaphore
