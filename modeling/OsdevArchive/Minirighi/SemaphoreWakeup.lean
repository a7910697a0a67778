import Mathlib.Data.List.Nodup
import OsdevArchive.Minirighi.SemaphoreSafety

/-!
Lost wakeups of the semaphore. A waiting task drops the spinlock before it
records that it sleeps. A wakeup that reaches it in between finds it ready and
does nothing, and the task then sleeps although the semaphore is free. The
invariant below shows that this window, and a failed `add_queue`, are the only
ways to lose a wakeup: in a run without them, whenever some task sleeps, another
one is about to try again, is about to wake the head of the queue, or will find
`count` below one in its `UP`.
-/

namespace OsdevArchive.Minirighi.Semaphore

open OsdevArchive.Lib.Counting OsdevArchive.Lib.Runs

/-- The task sleeps inside `__down_failed`. -/
def St.Blocked {T : Type*} (s : St T) (t : T) : Prop :=
  s.pc t = .asleep ∧ s.tasks.state t = .wait

/-- Some task sleeps, and all others are outside: none of them holds the
semaphore, waits for it awake, or is still in its `UP`. -/
def St.Stuck {T : Type*} (s : St T) : Prop :=
  (∃ t, s.Blocked t) ∧ ∀ t, s.pc t = .down ∨ s.Blocked t

/-- Between dropping the spinlock and recording that it sleeps. -/
def Pc.inWindow : Pc → Bool
  | .sleepTest | .sleepWrite => true
  | _ => false

/-- The action does not wake a task inside its window, and `add_queue` finds
memory. -/
def St.NoLoss {T : Type*} (s : St T) : Act T → Prop
  | .run t noMem _ =>
      (s.pc t = .addQueue → noMem = false) ∧
        (s.pc t = .wakeNext ∨ s.pc t = .upWake →
          ∀ u ∈ s.waitq.head?, (s.pc u).inWindow = false)
  | .wakeup _ => True

/-- The task is about to try `count` again. -/
@[simp] def Pc.checks (pc : Pc) (state : TaskState) : Bool :=
  match pc with
  | .failLock | .addQueue | .countSleeper | .loadSleepers | .addNegative _
  | .retryLock => true
  | .asleep => state = .ready
  | _ => false

/-- The task has tried in vain and has not been woken up. -/
@[simp] def Pc.sleeps (pc : Pc) (state : TaskState) : Bool :=
  match pc with
  | .oneSleeper | .sleepUnlock | .sleepTest | .sleepWrite => true
  | .asleep => state ≠ .ready
  | _ => false

/-- The task is about to wake the head of the queue. -/
@[simp] def Pc.wakes : Pc → Bool
  | .clearSleepers | .remQueue | .wakeNext | .upLock | .upWake => true
  | _ => false

/-- The task is listed in `waitq`. -/
@[simp] def Pc.queued : Pc → Bool
  | .countSleeper | .loadSleepers | .addNegative _ | .clearSleepers | .oneSleeper
  | .sleepUnlock | .sleepTest | .sleepWrite | .asleep | .retryLock | .remQueue => true
  | _ => false

variable {T : Type*}

/-- Somebody will look after the sleeping tasks. -/
def St.Served (s : St T) : Prop :=
  (∃ u, (s.pc u).checks (s.tasks.state u) = true ∨ (s.pc u).wakes = true) ∨
    (s.owed = 1 ∧ ∃ u, (s.pc u).holds = true)

structure WakeInv (s : St T) : Prop where
  queued : ∀ t, t ∈ s.waitq ↔ (s.pc t).queued = true
  nodup : s.waitq.Nodup
  served : (∃ t, (s.pc t).sleeps (s.tasks.state t) = true) → s.Served

variable {s s' : St T} {t : T} {pc : Pc}

theorem Pc.queued_of_sleeps {state : TaskState} (h : pc.sleeps state = true) :
    pc.queued = true := by
  cases pc <;> simp_all

/-- In a state in which the sleeping tasks are looked after, not all others are
outside. -/
theorem WakeInv.not_stuck (hw : WakeInv s) : ¬s.Stuck := by
  rintro ⟨⟨t, hpc, hstate⟩, hall⟩
  rcases hw.served ⟨t, by simp [hpc, hstate]⟩ with ⟨u, hu⟩ | ⟨-, u, hu⟩
  · rcases hall u with hdown | ⟨hasleep, hwait⟩
    · simp [hdown] at hu
    · simp [hasleep, hwait] at hu
  · rcases hall u with hdown | ⟨hasleep, hwait⟩
    · simp [hdown] at hu
    · simp [hasleep] at hu

variable [DecidableEq T]

/-- Tasks other than `t` are where they were. -/
structure Frame (s s' : St T) (t : T) : Prop where
  pc : ∀ u, u ≠ t → s'.pc u = s.pc u
  state : ∀ u, u ≠ t → s'.tasks.state u = s.tasks.state u

omit [DecidableEq T] in
/-- What looks after the sleeping tasks stays there when `t` moves, unless it
was `t`. -/
theorem St.Served.frame (hs : s.Served) (hf : Frame s s' t)
    (hself : (s.pc t).checks (s.tasks.state t) = true ∨ (s.pc t).wakes = true → s'.Served)
    (howed : s.owed = 1 → ∀ u, (s.pc u).holds = true → s'.Served) : s'.Served := by
  rcases hs with ⟨u, hu⟩ | ⟨hone, u, hu⟩
  · by_cases hut : u = t
    · exact hself (hut ▸ hu)
    · exact Or.inl ⟨u, by rwa [hf.pc u hut, hf.state u hut]⟩
  · exact howed hone u hu

/-! ## The queue -/

omit [DecidableEq T] in
theorem WakeInv.initMutex (tasks : Tasks T) : WakeInv (St.initMutex tasks) where
  queued t := by simp [St.initMutex]
  nodup := by simp [St.initMutex]
  served := by
    rintro ⟨t, ht⟩
    simp [St.initMutex] at ht

theorem queued_goto (hq : ∀ u, u ∈ s.waitq ↔ (s.pc u).queued = true)
    (hpc : s'.pc = Function.update s.pc t pc) (hwaitq : s'.waitq = s.waitq)
    (hsame : pc.queued = (s.pc t).queued) :
    ∀ u, u ∈ s'.waitq ↔ (s'.pc u).queued = true := by
  intro u
  rw [hwaitq, hq u, hpc]
  by_cases hut : u = t
  · rw [hut, Function.update_self, hsame]
  · rw [Function.update_of_ne hut]

theorem queued_addQueue (hq : ∀ u, u ∈ s.waitq ↔ (s.pc u).queued = true)
    (hpc : s'.pc = Function.update s.pc t pc) (hwaitq : s'.waitq = s.waitq ++ [t])
    (hqueued : pc.queued = true) : ∀ u, u ∈ s'.waitq ↔ (s'.pc u).queued = true := by
  intro u
  rw [hwaitq, List.mem_append, hq u, hpc, List.mem_singleton]
  by_cases hut : u = t
  · rw [hut, Function.update_self, hqueued]
    exact iff_of_true (Or.inr rfl) rfl
  · rw [Function.update_of_ne hut]
    simp [hut]

theorem queued_remQueue (hq : ∀ u, u ∈ s.waitq ↔ (s.pc u).queued = true)
    (hnodup : s.waitq.Nodup) (hpc : s'.pc = Function.update s.pc t pc)
    (hwaitq : s'.waitq = s.waitq.erase t) (hqueued : pc.queued = false) :
    ∀ u, u ∈ s'.waitq ↔ (s'.pc u).queued = true := by
  intro u
  rw [hwaitq, hnodup.mem_erase_iff, hq u, hpc]
  by_cases hut : u = t
  · simp only [hut, Function.update_self, hqueued, ne_eq, not_true_eq_false, false_and,
      Bool.false_eq_true]
  · rw [Function.update_of_ne hut]
    simp [hut]

/-! ## The actions -/

/-- The head of the queue, woken up outside its window, is about to try again. -/
theorem WakeInv.wakeHead [Fintype T] (hi : Inv s) (hw : WakeInv s)
    (hlocked : (s.pc t).locked = true) (hqueued : (s.pc t).queued = false)
    (hwindow : ∀ u ∈ s.waitq.head?, (s.pc u).inWindow = false)
    (hwaiting : s.waitq ≠ []) :
    ∃ u, u ≠ t ∧ (s.pc u).checks (s.wakeHead.tasks.state u) = true := by
  obtain ⟨u, rest, hcons⟩ := List.exists_cons_of_ne_nil hwaiting
  have hu : (s.pc u).queued = true := (hw.queued u).mp (by simp [hcons])
  have hne : u ≠ t := by
    rintro rfl
    rw [hqueued] at hu
    cases hu
  have hfree : (s.pc u).locked ≠ true := fun h => by
    have howner := (hi.locked u).mp h
    rw [(hi.locked t).mp hlocked] at howner
    exact hne (Option.some.inj howner).symm
  have hout := hwindow u (by simp [hcons])
  have hstate : s.wakeHead.tasks.state u = .ready := by
    simp [St.wakeHead, hcons]
  refine ⟨u, hne, ?_⟩
  rw [hstate]
  cases hpc : s.pc u <;> simp_all [Pc.inWindow]

theorem frame_goto (htasks : s'.tasks = s.tasks) (hpc : s'.pc = Function.update s.pc t pc) :
    Frame s s' t where
  pc u hu := by rw [hpc, Function.update_of_ne hu]
  state u _ := by rw [htasks]

/-- A sleeping task other than `t` slept before `t` moved. -/
theorem sleeper_before (hf : Frame s s' t) (hself : (s'.pc t).sleeps (s'.tasks.state t) = true →
      (s.pc t).sleeps (s.tasks.state t) = true)
    (h : ∃ u, (s'.pc u).sleeps (s'.tasks.state u) = true) :
    ∃ u, (s.pc u).sleeps (s.tasks.state u) = true := by
  obtain ⟨u, hu⟩ := h
  by_cases hut : u = t
  · exact ⟨t, hself (hut ▸ hu)⟩
  · exact ⟨u, by rwa [← hf.pc u hut, ← hf.state u hut]⟩

omit [DecidableEq T] in
/-- A task that is now about to try again, or to wake the head, looks after all. -/
theorem served_by (h : (s'.pc t).checks (s'.tasks.state t) = true ∨ (s'.pc t).wakes = true) :
    s'.Served := Or.inl ⟨t, h⟩

omit [DecidableEq T] in
theorem Pc.checks_of_entering (h : pc.entering = true) (state : TaskState) :
    pc.checks state = true := by
  cases pc <;> simp_all

omit [DecidableEq T] in
@[simp] theorem wakeHead_waitq [DecidableEq T] : s.wakeHead.waitq = s.waitq := by
  unfold St.wakeHead
  split <;> rfl

/-- Waking the head looks after all sleeping tasks: they are in the queue. -/
theorem WakeInv.wakeHead_goto [Fintype T] (hi : Inv s) (hw : WakeInv s)
    (hlocked : (s.pc t).locked = true) (hqueued : (s.pc t).queued = false)
    (hwindow : ∀ u ∈ s.waitq.head?, (s.pc u).inWindow = false) (hpc : pc.queued = false) :
    WakeInv (s.wakeHead.goto t pc) := by
  have hq : ∀ u, u ∈ s.waitq ↔ ((s.wakeHead.goto t pc).pc u).queued = true := by
    have h : ∀ u, u ∈ (s.wakeHead.goto t pc).waitq ↔
        ((s.wakeHead.goto t pc).pc u).queued = true :=
      queued_goto (t := t) (s := s) hw.queued (by simp) (by simp [St.goto])
        (hpc.trans hqueued.symm)
    simpa [St.goto] using h
  refine ⟨fun u => by simpa [St.goto] using hq u, by simpa [St.goto] using hw.nodup, ?_⟩
  rintro ⟨u, hu⟩
  have hmem : u ∈ s.waitq := (hq u).mpr (Pc.queued_of_sleeps hu)
  obtain ⟨v, hne, hv⟩ := hw.wakeHead hi hlocked hqueued hwindow (List.ne_nil_of_mem hmem)
  refine served_by (t := v) (Or.inl ?_)
  rw [goto_pc, Function.update_of_ne hne, wakeHead_pc]
  exact hv

/-- A move of a task that does not look after the sleeping ones, keeps its place
in the queue and leaves `owed` alone. -/
theorem WakeInv.idle [Fintype T] (hi : Inv s) (hw : WakeInv s)
    (hpc : s'.pc = Function.update s.pc t pc) (hwaitq : s'.waitq = s.waitq)
    (hstate : ∀ u, u ≠ t → s'.tasks.state u = s.tasks.state u) (hlock : LockMove s s' t pc)
    (hsleepers : s'.sleepers = s.sleepers ∨ (s.pc t).locked = true)
    (hqueued : pc.queued = (s.pc t).queued)
    (hsettles : pc.settles s'.sleepers = (s.pc t).settles s.sleepers)
    (hsleeps : pc.sleeps (s'.tasks.state t) = true → (s.pc t).sleeps (s.tasks.state t) = true)
    (hchecks : (s.pc t).checks (s.tasks.state t) = false) (hwakes : (s.pc t).wakes = false)
    (hholds : (s.pc t).holds = true → pc.holds = true) : WakeInv s' := by
  have hself : s'.pc t = pc := by rw [hpc, Function.update_self]
  have hf : Frame s s' t := ⟨fun u hu => by rw [hpc, Function.update_of_ne hu], hstate⟩
  have hmove := hi.owed_move hpc hlock hsleepers
  refine ⟨queued_goto hw.queued hpc hwaitq hqueued, hwaitq ▸ hw.nodup, fun hsleeper => ?_⟩
  refine (hw.served (sleeper_before hf (hself ▸ hsleeps) hsleeper)).frame hf ?_ ?_
  · rintro (hc | hk)
    · rw [hchecks] at hc
      cases hc
    · rw [hwakes] at hk
      cases hk
  · intro hone u hu
    refine Or.inr ⟨by omega, ?_⟩
    by_cases hut : u = t
    · exact ⟨t, by rw [hself]; exact hholds (hut ▸ hu)⟩
    · exact ⟨u, by rwa [hf.pc u hut]⟩

/-- The decrement of `DOWN`. -/
theorem WakeInv.decrement [Fintype T] (hi : Inv s) (hw : WakeInv s) (hpc : s.pc t = .down) :
    WakeInv ({ s with count := s.count - 1 }.goto t
      (if 0 ≤ s.count - 1 then .critical else .failLock)) := by
  have hbalance := hi.balance
  have howed := hi.owed_nonneg
  have hnonneg := hi.nonneg
  refine ⟨queued_goto hw.queued rfl rfl (by rw [hpc]; split <;> rfl), hw.nodup, ?_⟩
  by_cases hfree : 0 ≤ s.count - 1 <;> simp only [hfree, if_true, if_false]
  · -- The semaphore was free, so no sleeping task relied on its holder.
    intro hsleeper
    have hf : Frame s ({ s with count := s.count - 1 }.goto t .critical) t := frame_goto rfl rfl
    refine (hw.served (sleeper_before hf (by simp) hsleeper)).frame hf (by simp [hpc]) ?_
    intro hone
    omega
  · exact fun _ => served_by (t := t) (by simp)

/-- The increment of `UP`. -/
theorem WakeInv.increment [Fintype T] (hi : Inv s) (hw : WakeInv s) (hpc : s.pc t = .critical) :
    WakeInv ({ s with count := s.count + 1 }.goto t
      (if 0 < s.count + 1 then .down else .upLock)) := by
  have hbalance := hi.balance
  have howed := hi.owed_nonneg
  have hnonneg := hi.nonneg
  refine ⟨queued_goto hw.queued rfl rfl (by rw [hpc]; split <;> rfl), hw.nodup, ?_⟩
  by_cases hpos : 0 < s.count + 1 <;> simp only [hpos, if_true, if_false]
  · intro hsleeper
    have hf : Frame s ({ s with count := s.count + 1 }.goto t .down) t := frame_goto rfl rfl
    refine (hw.served (sleeper_before hf (by simp) hsleeper)).frame hf (by simp [hpc]) ?_
    intro hone u hu
    have hholder := tally_pos (p := Pc.holds) (f := s.pc) hu
    omega
  · exact fun _ => served_by (t := t) (by simp)

/-- The sleepers are put into `count`. Where it stays negative, another task is on its way in,
or holds the semaphore. -/
theorem WakeInv.settle [Fintype T] {n : Int} (hi : Inv s) (hw : WakeInv s)
    (hpc : s.pc t = .addNegative n)
    (hi' : Inv ({ s with count := s.count + (n - 1) }.goto t
      (if s.count + (n - 1) < 0 then .oneSleeper else .clearSleepers))) :
    WakeInv ({ s with count := s.count + (n - 1) }.goto t
      (if s.count + (n - 1) < 0 then .oneSleeper else .clearSleepers)) := by
  have hbalance := hi.balance
  have howed := hi.owed_nonneg
  have hnonneg := hi.nonneg
  refine ⟨queued_goto hw.queued rfl rfl (by rw [hpc]; split <;> rfl), hw.nodup, ?_⟩
  have hn := hi.loaded t n hpc
  have hlast := hi.owed_of_locked (t := t) (by simp [hpc])
  simp only [hpc, Pc.settles] at hlast
  by_cases hneg : s.count + (n - 1) < 0 <;> simp only [hneg, if_true, if_false] at hi' ⊢
  · intro _
    by_cases hentering : 0 < tally Pc.entering s.pc
    · obtain ⟨u, hu⟩ := exists_of_tally_pos hentering
      have hut : u ≠ t := by
        rintro rfl
        simp [hpc] at hu
      refine served_by (t := u) (Or.inl ?_)
      rw [goto_pc, Function.update_of_ne hut]
      exact Pc.checks_of_entering hu _
    · obtain ⟨u, hu⟩ := exists_of_tally_pos (p := Pc.holds) (f := s.pc) (by omega)
      have hut : u ≠ t := by
        rintro rfl
        simp [hpc] at hu
      refine Or.inr ⟨?_, u, by rwa [goto_pc, Function.update_of_ne hut]⟩
      rw [hi'.owed_of_locked (t := t) (by simp)]
      simp
  · exact fun _ => served_by (t := t) (by simp)

/-- Every action of a task that loses no wakeup keeps the sleeping tasks looked
after. -/
theorem WakeInv.run [Fintype T] (hi : Inv s) (hw : WakeInv s)
    {noMem schedDisabled : Bool} (hstep : s.run t noMem schedDisabled = some s')
    (hok : s.NoLoss (.run t noMem schedDisabled)) : WakeInv s' := by
  have hi' : Inv s' := hi.run hstep
  obtain ⟨hmem, hwindow⟩ := hok
  unfold St.run at hstep
  cases hpc : s.pc t <;> simp only [hpc, Option.some.injEq] at hstep
  case down =>
    subst hstep
    exact hw.decrement hi hpc
  case addNegative n =>
    subst hstep
    exact hw.settle hi hpc hi'
  case critical =>
    subst hstep
    exact hw.increment hi hpc
  case addQueue =>
    obtain rfl := hmem hpc
    subst hstep
    refine ⟨queued_addQueue hw.queued rfl rfl rfl, ?_, fun _ => served_by (t := t) (by simp)⟩
    have hnew : t ∉ s.waitq := fun h => by simpa [hpc] using (hw.queued t).mp h
    simpa [St.goto] using hw.nodup.concat hnew
  case wakeNext =>
    subst hstep
    exact hw.wakeHead_goto hi (by simp [hpc]) (by simp [hpc]) (hwindow (Or.inl hpc)) rfl
  case upWake =>
    subst hstep
    exact hw.wakeHead_goto hi (by simp [hpc]) (by simp [hpc]) (hwindow (Or.inr hpc)) rfl
  case countSleeper | loadSleepers | clearSleepers =>
    subst hstep
    exact ⟨queued_goto hw.queued rfl rfl (by rw [hpc]; rfl), hw.nodup, fun _ =>
      served_by (t := t) (by simp)⟩
  case failLock | retryLock | upLock =>
    obtain ⟨-, rfl⟩ := spinLock_eq_some hstep
    exact ⟨queued_goto hw.queued rfl rfl (by rw [hpc]; rfl), hw.nodup, fun _ =>
      served_by (t := t) (by simp)⟩
  case asleep =>
    split at hstep <;> cases hstep
    exact ⟨queued_goto hw.queued rfl rfl (by rw [hpc]; rfl), hw.nodup, fun _ =>
      served_by (t := t) (by simp)⟩
  case remQueue =>
    subst hstep
    exact ⟨queued_remQueue hw.queued hw.nodup rfl rfl rfl, hw.nodup.erase t, fun _ =>
      served_by (t := t) (by simp)⟩
  case oneSleeper =>
    subst hstep
    exact hw.idle hi (t := t) rfl rfl (fun _ _ => rfl) (Or.inl ⟨rfl, by simp [hpc]⟩)
      (Or.inr (by simp [hpc])) (by simp [hpc]) (by simp [hpc, St.goto]) (by simp [hpc])
      (by simp [hpc]) (by simp [hpc]) (by simp [hpc])
  case sleepTest =>
    subst hstep
    split <;>
      exact hw.idle hi (t := t) rfl rfl (fun _ _ => rfl) (Or.inl ⟨rfl, by simp [hpc]⟩)
        (Or.inl rfl) (by simp [hpc]) (by simp [hpc, St.goto]) (by simp [hpc]) (by simp [hpc])
        (by simp [hpc]) (by simp [hpc])
  case sleepWrite =>
    subst hstep
    exact hw.idle hi (t := t) rfl rfl (fun u hu => by simp [St.goto, hu])
      (Or.inl ⟨rfl, by simp [hpc]⟩) (Or.inl rfl) (by simp [hpc]) (by simp [hpc, St.goto])
      (by simp [hpc]) (by simp [hpc]) (by simp [hpc]) (by simp [hpc])
  case sleepUnlock | doneUnlock | upUnlock =>
    subst hstep
    have hheld := (hi.locked t).mp (by simp [hpc])
    exact hw.idle hi (t := t) rfl rfl (fun _ _ => rfl) (Or.inr (Or.inr ⟨hheld, rfl, rfl⟩))
      (Or.inl rfl) (by simp [hpc]) (by simp [hpc, St.goto, St.spinUnlock]) (by simp [hpc])
      (by simp [hpc]) (by simp [hpc]) (by simp [hpc])

theorem WakeInv.wakeup (hw : WakeInv s) (v : T) :
    WakeInv { s with tasks := s.tasks.wakeupTask v } := by
  refine ⟨hw.queued, hw.nodup, ?_⟩
  rintro ⟨u, hu⟩
  have hsleeps : (s.pc u).sleeps (s.tasks.state u) = true := by
    by_cases huv : u = v
    · subst huv
      cases hpc : s.pc u <;> simp_all
    · simpa [huv] using hu
  refine (hw.served ⟨u, hsleeps⟩).imp ?_ id
  rintro ⟨w, hw'⟩
  refine ⟨w, hw'.imp_left fun hc => ?_⟩
  by_cases hwv : w = v
  · subst hwv
    cases hpc : s.pc w <;> simp_all
  · simpa [hwv] using hc

theorem WakeInv.step [Fintype T] (hi : Inv s) (hw : WakeInv s) {a : Act T} (hok : s.NoLoss a)
    (hstep : Computes St.step s a s') : WakeInv s' := by
  cases a with
  | run t noMem schedDisabled => exact hw.run hi hstep hok
  | wakeup t =>
      obtain rfl : { s with tasks := s.tasks.wakeupTask t } = s' := Option.some.inj hstep
      exact hw.wakeup t

/-- In every run in which no wakeup falls into the window of its target and
`add_queue` never fails, no reached state is one in which the semaphore is free
and unattended while a task sleeps on it. -/
theorem no_lost_wakeup [Fintype T] (tasks : Tasks T) (as : List (Act T)) (s : St T)
    (hrun : Run (Guarded St.NoLoss (Computes St.step)) (St.initMutex tasks) as s) :
    ¬s.Stuck := by
  have hinv : Inv s ∧ WakeInv s := by
    refine hrun.guarded_invariant (I := fun s => Inv s ∧ WakeInv s) ?_
      ⟨Inv.initMutex tasks, WakeInv.initMutex tasks⟩
    intro s a s' hi hok hstep
    exact ⟨hi.1.step hstep, hi.2.step hi.1 hok hstep⟩
  exact hinv.2.not_stuck

instance (s : St T) (a : Act T) : Decidable (s.NoLoss a) :=
  match a with
  | .run .. => inferInstanceAs (Decidable (_ ∧ _))
  | .wakeup _ => isTrue trivial

/-- After the contended entry the holder leaves and wakes the sleeping task. -/
def handoverActs : List (Act (Fin 2)) :=
  contendedActs ++ List.replicate 4 (.run winner false false)

theorem no_lost_wakeup_handover :
    ∃ s : St (Fin 2), s.pc 0 = .down ∧ s.pc 1 = .asleep ∧ s.tasks.state 1 = .ready ∧
      ¬s.Stuck := by
  have hrun : (handoverActs.foldlM (checked St.NoLoss St.step) (St.initMutex readyTasks)).map
        (fun s => (s.pc 0, s.pc 1, s.tasks.state 1)) = some (.down, .asleep, .ready) := by
    decide +kernel
  obtain ⟨s, hsteps, hobs⟩ := Option.map_eq_some_iff.mp hrun
  simp only [Prod.mk.injEq] at hobs
  exact ⟨s, hobs.1, hobs.2.1, hobs.2.2,
    no_lost_wakeup readyTasks handoverActs s (.of_foldlM_checked hsteps)⟩

/-- The holder leaves while the waiting task is inside its window. -/
def lossActs : List (Act (Fin 2)) :=
  .run winner false false :: List.replicate 8 (.run loser false false) ++
    List.replicate 4 (.run winner false false) ++ List.replicate 2 (.run loser false false)

/-- The wakeup finds the waiting task ready, and the task goes to sleep after it. -/
theorem wakeup_lost :
    ∃ s : St (Fin 2), Run (Computes St.step) (St.initMutex readyTasks) lossActs s ∧
      s.Stuck := by
  have hrun : (lossActs.foldlM St.step (St.initMutex readyTasks)).map
        (fun s => (s.pc 0, s.pc 1, s.tasks.state 1)) = some (.down, .asleep, .wait) := by
    decide +kernel
  obtain ⟨s, hsteps, hobs⟩ := Option.map_eq_some_iff.mp hrun
  simp only [Prod.mk.injEq] at hobs
  have hblocked : s.Blocked 1 := ⟨hobs.2.1, hobs.2.2⟩
  refine ⟨s, .of_foldlM hsteps, ⟨1, hblocked⟩, fun t => ?_⟩
  match t with
  | 0 => exact Or.inl hobs.1
  | 1 => exact Or.inr hblocked

end OsdevArchive.Minirighi.Semaphore
