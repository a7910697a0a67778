import Mathlib.Data.List.Rotate
import OsdevArchive.Lib.Runs
import OsdevArchive.Minirighi.QueueAgreement
import OsdevArchive.Minirighi.TaskKill

/-!
Zombies stay dead. `kill` may strike a task that is still listed in a semaphore or
a wait queue, and `wakeup_task` makes ready whatever task it is given. So the dead
stay dead in the runs in which no wakeup finds its task dead; in these runs they
are never dispatched either, since a zombie in the ready queue always comes with a
request to refresh the queues.
-/

namespace OsdevArchive.Minirighi.Task

open OsdevArchive.Lib.Runs OsdevArchive.Minirighi.RefreshQueues

variable {P T S W : Type*}

/-- The next action of the running task on the semaphore wakes the head of its
queue. -/
def wakesHead : Semaphore.Pc → Bool
  | .wakeNext | .upWake => true
  | _ => false

variable [DecidableEq P] [DecidableEq T] {idleTask kpagd : T}

/-- The action wakes no dead task, and `schedule` does not fall back on a dead idle
task. -/
def Kernel.Lets (idleTask kpagd : T) (k : Kernel P T S W) : Act P T S W → Prop
  | .schedule => k.creating = none →
      (k.tasks.refreshQueues = true → (∃ e ∈ k.searched, k.IsZombie k.value e) →
        ¬k.Dead kpagd) ∧
      (k.Dead idleTask → ∃ e ∈ (k.refreshed kpagd).queue .ready,
        k.startCounter kpagd (k.value e) < intMax)
  | .wakeup t => ¬k.Dead t
  | .semaphore i _ _ => wakesHead ((k.semaphore i).pc k.currTask) = true →
      ∀ t ∈ (k.semaphore i).waitq.head?, ¬k.Dead t
  | .wakeupQueue w => ∀ pid ∈ k.waitQueue w, ∀ t ∈ k.getTaskInfo idleTask pid, ¬k.Dead t
  | .kill pid => ∀ p ∈ k.find pid, ∀ f ∈ k.father p, f ≠ p ∧ ¬k.Dead f
  | _ => True

/-! ## Writes of the task states -/

/-- From `a` to `b` no allocated zombie is made ready or waiting, nobody dies, and
every write has asked for a refresh. -/
structure Steady (allocated : T → Bool) (a b : Tasks T) : Prop where
  stays : ∀ u, allocated u = true → a.state u = .zombie → b.state u = .zombie
  fresh : ∀ u, b.state u = .zombie → a.state u = .zombie
  flag : b = a ∨ b.refreshQueues = true

variable {allocated : T → Bool} {a b c : Tasks T} {t u : T} {k k' : Kernel P T S W}

omit [DecidableEq T] in
theorem Steady.refl (a : Tasks T) : Steady allocated a a :=
  ⟨fun _ _ h => h, fun _ h => h, Or.inl rfl⟩

omit [DecidableEq T] in
theorem Steady.trans (h : Steady allocated a b) (h' : Steady allocated b c) :
    Steady allocated a c := by
  refine ⟨fun u hu hz => h'.stays u hu (h.stays u hu hz), fun u hz => h.fresh u (h'.fresh u hz),
    ?_⟩
  rcases h'.flag with heq | hflag
  · exact heq ▸ h.flag
  · exact Or.inr hflag

theorem Steady.setTaskState {v : TaskState} (hv : v ≠ .zombie)
    (h : ¬(allocated t = true ∧ a.state t = .zombie)) :
    Steady allocated a (a.setTaskState t v) := by
  refine ⟨fun u hu hz => ?_, fun u hz => ?_, Or.inr rfl⟩
  · have hne : u ≠ t := fun heq => h (heq ▸ ⟨hu, hz⟩)
    simpa [hne] using hz
  · by_cases hut : u = t
    · subst hut
      exact absurd (by simpa using hz) hv
    · simpa [hut] using hz

theorem Steady.wakeupTask (h : ¬(allocated t = true ∧ a.state t = .zombie)) :
    Steady allocated a (a.wakeupTask t) := by
  unfold Tasks.wakeupTask
  split
  · exact .setTaskState (by simp) h
  · exact .refl a

theorem Steady.sleepTask (h : ¬(allocated t = true ∧ a.state t = .zombie)) :
    Steady allocated a (a.sleepTask t) := by
  unfold Tasks.sleepTask
  split
  · exact .setTaskState (by simp) h
  · exact .refl a

theorem Steady.run {s s' : Semaphore.St T} {noMem schedDisabled : Bool}
    (hrun : s.run t noMem schedDisabled = some s')
    (halive : ¬(allocated t = true ∧ s.tasks.state t = .zombie))
    (hhead : wakesHead (s.pc t) = true → ∀ u ∈ s.waitq.head?,
      ¬(allocated u = true ∧ s.tasks.state u = .zombie)) :
    Steady allocated s.tasks s'.tasks := by
  have hwake : wakesHead (s.pc t) = true → Steady allocated s.tasks s.wakeHead.tasks := by
    intro hpc
    unfold Semaphore.St.wakeHead
    split
    · exact .refl _
    · exact .wakeupTask (hhead hpc _ ‹_›)
  cases hpc : s.pc t
  case wakeNext | upWake =>
      simp only [Semaphore.St.run, hpc, Option.some.injEq] at hrun
      rw [← hrun]
      exact hwake (by simp [hpc, wakesHead])
  case sleepWrite =>
      simp only [Semaphore.St.run, hpc, Option.some.injEq] at hrun
      rw [← hrun]
      exact .setTaskState (by simp) halive
  case failLock | retryLock | upLock =>
      simp only [Semaphore.St.run, hpc, Semaphore.St.spinLock] at hrun
      split at hrun <;> cases hrun
      exact .refl _
  case asleep =>
      simp only [Semaphore.St.run, hpc] at hrun
      split at hrun <;> cases hrun
      exact .refl _
  case addQueue =>
      simp only [Semaphore.St.run, hpc, Option.some.injEq] at hrun
      rw [← hrun]
      cases noMem <;> exact .refl _
  all_goals
    simp only [Semaphore.St.run, hpc, Option.some.injEq] at hrun
    rw [← hrun]
    exact .refl _

/-! ## The invariant -/

structure Inv (k : Kernel P T S W) : Prop where
  nodup : k.entries.Nodup
  /-- A zombie in the ready queue comes with a request for a refresh. -/
  flagged : k.tasks.refreshQueues = false → ∀ e ∈ k.queue .ready, ¬k.IsZombie k.value e
  /-- A dead running task is on its way out of `kill`. -/
  exiting : k.Dead k.currTask → k.exiting = true
  creating : ∀ t ∈ k.creating, k.tasks.state t ≠ .zombie

/-- A dead task stays dead and is not dispatched. -/
def Rests (k k' : Kernel P T S W) (u : T) : Prop :=
  k.Dead u → k'.Dead u ∧ (k.currTask ≠ u → k'.currTask ≠ u)

omit [DecidableEq P] [DecidableEq T] in
theorem Rests.trans {k'' : Kernel P T S W} (h : Rests k k' u) (h' : Rests k' k'' u) :
    Rests k k'' u := by
  intro hu
  obtain ⟨hdead, hcurr⟩ := h hu
  obtain ⟨hdead', hcurr'⟩ := h' hdead
  exact ⟨hdead', fun hne => hcurr' (hcurr hne)⟩

omit [DecidableEq P] [DecidableEq T] in
theorem Inv.of_steady (hi : Inv k) (k' : Kernel P T S W) (hs : Steady k.allocated k.tasks k'.tasks)
    (hsame : SameTasks k k') (hexit : k'.exiting = k.exiting) :
    Inv k' ∧ ∀ u, Rests k k' u := by
  obtain ⟨hqueue, hvalue, halloc, hcurr, hcreating⟩ := hsame
  have hentries : k'.entries = k.entries := by simp only [Lists.entries, hqueue]
  refine ⟨⟨?_, ?_, ?_, ?_⟩, fun u hu => ⟨?_, ?_⟩⟩
  · exact hentries ▸ hi.nodup
  · intro hflag
    rcases hs.flag with heq | hset
    · simp only [Lists.IsZombie, hqueue, hvalue, heq]
      exact hi.flagged (heq ▸ hflag)
    · exact absurd hset (by simp [hflag])
  · rintro ⟨hcurrAlloc, hz⟩
    rw [hexit]
    rw [hcurr] at hcurrAlloc hz
    exact hi.exiting ⟨halloc ▸ hcurrAlloc, hs.fresh _ hz⟩
  · intro t ht hz
    exact hi.creating t (hcreating ▸ ht) (hs.fresh t hz)
  · exact ⟨halloc ▸ hu.1, hs.stays u hu.1 hu.2⟩
  · exact fun hne => hcurr ▸ hne

omit [DecidableEq P] in
/-- `__wakeup_queue` writes task states only. -/
theorem foldl_wakeupPid {pids : List Int}
    (hpids : ∀ pid ∈ pids, ∀ t ∈ k.getTaskInfo idleTask pid, ¬k.Dead t) :
    ∃ tasks, pids.foldl (Kernel.wakeupPid idleTask) k = { k with tasks := tasks } ∧
      Steady k.allocated k.tasks tasks := by
  induction pids using List.reverseRecOn with
  | nil => exact ⟨k.tasks, rfl, .refl _⟩
  | append_singleton pids pid ih =>
      obtain ⟨tasks, heq, hs⟩ := ih fun q hq => hpids q (by simp [hq])
      rw [List.foldl_append, heq, List.foldl_cons, List.foldl_nil]
      have hinfo : Kernel.getTaskInfo idleTask { k with tasks := tasks } pid =
          k.getTaskInfo idleTask pid := rfl
      unfold Kernel.wakeupPid
      rw [hinfo]
      cases hfound : k.getTaskInfo idleTask pid with
      | none => exact ⟨tasks, rfl, hs⟩
      | some p =>
          refine ⟨tasks.wakeupTask p, rfl, hs.trans (.wakeupTask ?_)⟩
          rintro ⟨halloc, hz⟩
          exact hpids pid (by simp) p hfound ⟨halloc, hs.fresh p hz⟩

/-! ## The scheduler -/

omit [DecidableEq P] in
/-- The candidate is the one from before, or a listed task; it is a listed task
when one of them has a counter below `min_counter`. -/
theorem foldl_visit (value : P → T) (L : List P) (d : Kernel.Choice T) :
    ((L.foldl (Kernel.Choice.visit value) d).currTask = d.currTask ∨
        ∃ e ∈ L, (L.foldl (Kernel.Choice.visit value) d).currTask = value e) ∧
      ((∃ e ∈ L, d.counter (value e) < d.minCounter) →
        ∃ e ∈ L, (L.foldl (Kernel.Choice.visit value) d).currTask = value e) := by
  induction L generalizing d with
  | nil => simp
  | cons x L ih =>
      obtain ⟨hor, hmin⟩ := ih (d.visit value x)
      rw [List.foldl_cons]
      by_cases hx : d.counter (value x) < d.minCounter
      · have hcurr : (d.visit value x).currTask = value x := by
          unfold Kernel.Choice.visit
          simp only [hx, if_true]
          split <;> rfl
        have hlisted : ∃ e ∈ x :: L,
            (L.foldl (Kernel.Choice.visit value) (d.visit value x)).currTask = value e := by
          rcases hor with h | ⟨e, he, h⟩
          · exact ⟨x, List.mem_cons_self, h.trans hcurr⟩
          · exact ⟨e, List.mem_cons_of_mem x he, h⟩
        exact ⟨Or.inr hlisted, fun _ => hlisted⟩
      · have hsame : (d.visit value x).currTask = d.currTask ∧
            (d.visit value x).minCounter = d.minCounter ∧
            ∀ t, (d.visit value x).counter t ≤ d.counter t := by
          unfold Kernel.Choice.visit
          simp only [hx, if_false]
          split
          · refine ⟨rfl, rfl, fun t => ?_⟩
            by_cases ht : t = value x
            · subst ht
              simp only [Function.update_self]
              omega
            · simp [ht]
          · exact ⟨rfl, rfl, fun t => le_refl _⟩
        obtain ⟨hcurr, hminEq, hle⟩ := hsame
        constructor
        · rcases hor with h | ⟨e, he, h⟩
          · exact Or.inl (h.trans hcurr)
          · exact Or.inr ⟨e, List.mem_cons_of_mem x he, h⟩
        · rintro ⟨e, he, hlt⟩
          rcases List.mem_cons.mp he with rfl | he
          · exact absurd hlt hx
          · obtain ⟨e', he', h⟩ :=
              hmin ⟨e, he, by rw [hminEq]; exact lt_of_le_of_lt (hle _) hlt⟩
            exact ⟨e', List.mem_cons_of_mem x he', h⟩

theorem refreshed_entries_perm (hi : Inv k) : (k.refreshed kpagd).entries.Perm k.entries := by
  unfold Kernel.refreshed
  split
  · exact refresh_entries_perm hi.nodup
  · exact List.Perm.refl _

theorem refreshed_ready (hi : Inv k) {e : P} (he : e ∈ (k.refreshed kpagd).queue .ready) :
    ¬(k.refreshed kpagd).IsZombie k.value e := by
  unfold Kernel.refreshed at he ⊢
  split at he
  · rename_i hflag
    rw [if_pos hflag]
    exact refresh_ready_alive hi.nodup he
  · rename_i hflag
    rw [if_neg hflag]
    exact hi.flagged (by simpa using hflag) e he

/-- A refresh revives nobody, unless the daemon itself is dead. -/
theorem refreshed_state (hk : k.tasks.refreshQueues = true →
      (∃ e ∈ k.searched, k.IsZombie k.value e) → ¬k.Dead kpagd)
    (hu : k.Dead u) : (k.refreshed kpagd).tasks.state u = .zombie := by
  unfold Kernel.refreshed
  split
  · rename_i hflag
    rw [refresh_state_eq, if_neg]
    · exact hu.2
    · rintro ⟨rfl, hex⟩
      exact hk hflag hex hu
  · exact hu.2

theorem refreshed_fresh (hz : (k.refreshed kpagd).tasks.state u = .zombie) :
    k.tasks.state u = .zombie := by
  unfold Kernel.refreshed at hz
  split at hz
  · rw [refresh_state_eq] at hz
    split at hz
    · cases hz
    · exact hz
  · exact hz

theorem Inv.schedule (hi : Inv k) (hok : k.Lets idleTask kpagd .schedule) :
    Inv (k.schedule idleTask kpagd) ∧ ∀ u, Rests k (k.schedule idleTask kpagd) u := by
  unfold Kernel.schedule
  by_cases hcreating : k.creating.isSome
  · rw [if_pos hcreating]
    exact ⟨hi, fun _ hu => ⟨hu, id⟩⟩
  rw [if_neg hcreating]
  have hnone : k.creating = none := by simpa using hcreating
  obtain ⟨hdaemon, hidle⟩ := hok hnone
  obtain ⟨hor, hmin⟩ := foldl_visit k.value ((k.refreshed kpagd).queue .ready)
    ⟨idleTask, intMax, k.startCounter kpagd⟩
  -- The chosen task is not dead.
  have hchosen (u : T) (hu : k.Dead u) : (((k.refreshed kpagd).queue .ready).foldl
      (Kernel.Choice.visit k.value)
      ⟨idleTask, intMax, k.startCounter kpagd⟩).currTask ≠ u := by
    have hlisted {e : P} (he : e ∈ (k.refreshed kpagd).queue .ready) : k.value e ≠ u := by
      rintro rfl
      exact refreshed_ready hi he (refreshed_state hdaemon hu)
    intro heq
    rcases hor with h | ⟨e, he, h⟩
    · have hui : idleTask = u := h.symm.trans heq
      obtain ⟨e, he, h⟩ := hmin (hidle (hui ▸ hu))
      exact hlisted he (h.symm.trans heq)
    · exact hlisted he (h.symm.trans heq)
  refine ⟨⟨?_, ?_, ?_, ?_⟩, fun u hu => ⟨?_, fun _ => hchosen u hu⟩⟩
  · exact (refreshed_entries_perm hi).nodup_iff.mpr hi.nodup
  · exact fun _ e he => refreshed_ready hi he
  · rintro ⟨halloc, hz⟩
    exact absurd rfl (hchosen _ ⟨halloc, refreshed_fresh hz⟩)
  · intro t ht
    simp [hnone] at ht
  · exact ⟨hu.1, refreshed_state hdaemon hu⟩

/-! ## `kill`, creation and the daemon -/

omit [DecidableEq P] in
theorem Inv.kill (hi : Inv k) {pid : Int} (hcreating : k.creating = none)
    (hok : ∀ p ∈ k.find pid, ∀ f ∈ k.father p, f ≠ p ∧ ¬k.Dead f) :
    Inv (k.kill pid) ∧ ∀ u, Rests k (k.kill pid) u := by
  obtain ⟨⟨hqueue, hvalue, halloc, hcurr, hcreate⟩, hstays, hflag⟩ := Culled.cull hok
  refine ⟨⟨?_, ?_, ?_, ?_⟩, fun u hu => ⟨hstays u hu, fun hne => ?_⟩⟩
  · simpa only [Kernel.kill, Lists.entries, hqueue] using hi.nodup
  · simp only [Kernel.kill, Lists.IsZombie, hqueue, hvalue]
    intro hfalse
    rcases hflag with heq | hset
    · rw [heq] at hfalse ⊢
      exact hi.flagged hfalse
    · exact absurd hset (by simp [hfalse])
  · exact fun hdead => decide_eq_true hdead.2
  · intro t ht
    simp [Kernel.kill, hcreate, hcreating] at ht
  · simpa only [Kernel.kill, hcurr] using hne

omit [DecidableEq T] in
theorem count_addQueue {st : TaskState} (hst : st ≠ .new) (e : Option P) (x : P) :
    (k.addQueue st t e).entries.count x = e.toList.count x + k.entries.count x := by
  rw [count_entries, count_entries]
  cases e with
  | none => simp [Kernel.addQueue]
  | some p =>
      cases st <;> simp [Kernel.addQueue, times, Function.update] at hst ⊢ <;> omega

omit [DecidableEq T] in
theorem nodup_addQueue {st : TaskState} (hst : st ≠ .new) {e : Option P} (he : k.Unused e)
    (h : k.entries.Nodup) : (k.addQueue st t e).entries.Nodup := by
  rw [List.nodup_iff_count_le_one] at h ⊢
  intro x
  rw [count_addQueue hst]
  have hx := h x
  cases e with
  | none => simpa using hx
  | some p =>
      by_cases hpx : p = x
      · have hzero : k.entries.count x = 0 := List.count_eq_zero.mpr (hpx ▸ he p rfl)
        simp [hpx, hzero]
      · simpa [hpx] using hx

omit [DecidableEq P] in
theorem remZombie_entries : (k.remZombie t).entries.Sublist k.entries := by
  unfold Kernel.remZombie Lists.entries
  simpa [Function.update] using List.eraseP_sublist

omit [DecidableEq T] in
/-- In the ready queue, only the new entry is another one than before. -/
theorem mem_ready_addQueue {st : TaskState} {e : Option P} (he : k.Unused e) {p : P}
    (hp : p ∈ (k.addQueue st t e).queue .ready) :
    (k.addQueue st t e).value p = t ∨
      p ∈ k.queue .ready ∧ (k.addQueue st t e).value p = k.value p := by
  cases e with
  | none => exact Or.inr ⟨hp, rfl⟩
  | some q =>
      by_cases hpq : p = q
      · exact Or.inl (by simp [Kernel.addQueue, hpq])
      · refine Or.inr ⟨?_, by simp [Kernel.addQueue, hpq]⟩
        cases st <;> simpa [Kernel.addQueue, Function.update, hpq] using hp

/-- Linking the task `t` and writing its state, without a request for a refresh. -/
theorem Inv.of_link (hi : Inv k) (st v : TaskState) {e : Option P} (hst : st ≠ .new)
    (hv : v ≠ .zombie) (he : k.Unused e) (hdead : ¬k.Dead t)
    (hqueue : k'.queue = (k.addQueue st t e).queue)
    (hvalue : k'.value = (k.addQueue st t e).value)
    (htasks : k'.tasks = ⟨Function.update k.tasks.state t v, k.tasks.refreshQueues⟩)
    (hcurr : k'.currTask = k.currTask) (hexit : k'.exiting = k.exiting)
    (halloc : ∀ u ≠ t, k'.allocated u = k.allocated u)
    (hcreating : ∀ u ∈ k'.creating, u = t) : Inv k' ∧ ∀ u, Rests k k' u := by
  have hback (u : T) (hz : k'.tasks.state u = .zombie) : u ≠ t ∧ k.tasks.state u = .zombie := by
    rw [htasks] at hz
    by_cases hut : u = t
    · exact absurd (by simpa [hut] using hz) hv
    · exact ⟨hut, by simpa [hut] using hz⟩
  have hentries : k'.entries = (k.addQueue st t e).entries := by
    simp only [Lists.entries, hqueue]
  refine ⟨⟨hentries ▸ nodup_addQueue hst he hi.nodup, ?_, ?_, ?_⟩, fun u hu => ⟨⟨?_, ?_⟩, ?_⟩⟩
  · intro hfalse p hp hz
    obtain ⟨hne, hz⟩ := hback _ hz
    rw [hqueue] at hp
    rw [hvalue] at hne hz
    rcases mem_ready_addQueue he hp with heq | ⟨hp, heq⟩
    · exact hne heq
    · rw [htasks] at hfalse
      exact hi.flagged hfalse p hp ((congrArg _ heq).symm.trans hz)
  · rintro ⟨halive, hz⟩
    obtain ⟨hne, hz⟩ := hback _ hz
    rw [halloc _ hne, hcurr] at halive
    rw [hcurr] at hz
    rw [hexit]
    exact hi.exiting ⟨halive, hz⟩
  · intro u hu hz
    exact (hback u hz).1 (hcreating u hu)
  · have hut : u ≠ t := fun heq => hdead (heq ▸ hu)
    exact (halloc u hut).trans hu.1
  · have hut : u ≠ t := fun heq => hdead (heq ▸ hu)
    rw [htasks]
    simpa [hut] using hu.2
  · exact fun hne => hcurr ▸ hne

theorem Inv.createBegin (hi : Inv k) (halloc : k.allocated t = false) {e : Option P}
    (he : k.Unused e) : Inv (k.createBegin t e) ∧ ∀ u, Rests k (k.createBegin t e) u := by
  refine hi.of_link .zombie .new (by simp) (by simp) he
    (fun hdead => by simp [hdead.1] at halloc) rfl rfl ?_ ?_ ?_ ?_ ?_
  · cases e <;> rfl
  · cases e <;> rfl
  · cases e <;> rfl
  · intro u hu
    cases e <;> simp [Kernel.createBegin, Kernel.addQueue, Kernel.writeState, hu]
  · intro u hu
    exact (Option.some.inj hu).symm

theorem Inv.createEnd (hi : Inv k) (isThread : Bool) (ht : k.creating = some t) {e : Option P}
    (he : k.Unused e) :
    Inv (k.createEnd t isThread e) ∧ ∀ u, Rests k (k.createEnd t isThread e) u := by
  refine hi.of_link .ready .ready (by simp) (by simp) he
    (fun hdead => hi.creating t ht hdead.2) rfl rfl ?_ ?_ ?_ ?_ ?_
  · cases e <;> rfl
  · cases e <;> rfl
  · cases e <;> rfl
  · intro u _
    cases e <;> rfl
  · intro u hu
    simp [Kernel.createEnd] at hu

omit [DecidableEq P] [DecidableEq T] in
theorem Inv.of_zombieQueue (hi : Inv k) (k' : Kernel P T S W) (hnodup : k'.entries.Nodup)
    (hready : k'.queue .ready = k.queue .ready) (hvalue : k'.value = k.value)
    (htasks : k'.tasks = k.tasks) (hcurr : k'.currTask = k.currTask)
    (hexit : k'.exiting = k.exiting) (hcreating : k'.creating = k.creating)
    (halloc : k'.allocated = k.allocated) : Inv k' ∧ ∀ u, Rests k k' u := by
  have hdead (u : T) : k'.Dead u ↔ k.Dead u := by simp only [Kernel.Dead, halloc, htasks]
  refine ⟨⟨hnodup, ?_, ?_, ?_⟩, fun u hu => ⟨(hdead u).mpr hu, fun hne => hcurr ▸ hne⟩⟩
  · simp only [Lists.IsZombie, hready, hvalue, htasks]
    exact hi.flagged
  · rw [hexit, hdead, hcurr]
    exact hi.exiting
  · rw [hcreating, htasks]
    exact hi.creating

omit [DecidableEq P] in
theorem Inv.remZombie (hi : Inv k) (t : T) :
    Inv (k.remZombie t) ∧ ∀ u, Rests k (k.remZombie t) u :=
  hi.of_zombieQueue _ (hi.nodup.sublist remZombie_entries) rfl rfl rfl rfl rfl rfl rfl

omit [DecidableEq P] [DecidableEq T] in
theorem pickZombie_entries :
    ({ k with
      picked := (k.queue .zombie).head?.map k.value
      queue := Function.update k.queue .zombie ((k.queue .zombie).rotate 1) } :
        Kernel P T S W).entries.Perm k.entries := by
  simpa [Lists.entries, Function.update] using
    ((List.rotate_perm (k.queue .zombie) 1).append_left _).append_left _

omit [DecidableEq P] [DecidableEq T] in
/-- The zombie at the head of its queue is picked, and the queue turned by one. -/
theorem Inv.pickZombie (hi : Inv k) :
    let k' := { k with
      picked := (k.queue .zombie).head?.map k.value
      queue := Function.update k.queue .zombie ((k.queue .zombie).rotate 1) }
    Inv k' ∧ ∀ u, Rests k k' u :=
  hi.of_zombieQueue _ (pickZombie_entries.nodup_iff.mpr hi.nodup) rfl rfl rfl rfl rfl rfl rfl

omit [DecidableEq P] in
/-- Freeing a task that is not dead, or, if it is dead, is expected to go. -/
theorem Inv.of_free (hi : Inv k) (k' : Kernel P T S W) (hsub : k'.entries.Sublist k.entries)
    (hready : k'.queue .ready = k.queue .ready) (hvalue : k'.value = k.value)
    (htasks : k'.tasks = k.tasks) (hcurr : k'.currTask = k.currTask)
    (hexit : k'.exiting = k.exiting) (hcreating : k'.creating = none)
    (halloc : k'.allocated = Function.update k.allocated t false) :
    Inv k' ∧ ∀ u, u ≠ t → Rests k k' u := by
  refine ⟨⟨hi.nodup.sublist hsub, ?_, ?_, ?_⟩, fun u hut hu => ⟨⟨?_, ?_⟩, ?_⟩⟩
  · simp only [Lists.IsZombie, hready, hvalue, htasks]
    exact hi.flagged
  · rintro ⟨halive, hz⟩
    rw [halloc, hcurr] at halive
    rw [htasks, hcurr] at hz
    rw [hexit]
    by_cases hct : k.currTask = t
    · simp [hct] at halive
    · exact hi.exiting ⟨by simpa [hct] using halive, hz⟩
  · intro u hu
    simp [hcreating] at hu
  · rw [halloc]
    simpa [hut] using hu.1
  · exact htasks ▸ hu.2
  · exact fun hne => hcurr ▸ hne

omit [DecidableEq P] in
theorem Inv.createFail (hi : Inv k) (ht : k.creating = some t) :
    let k' := { k with allocated := Function.update k.allocated t false, creating := none }
    Inv k' ∧ ∀ u, Rests k k' u := by
  have h := hi.of_free { k with allocated := Function.update k.allocated t false, creating := none }
    (List.Sublist.refl _) rfl rfl rfl rfl rfl rfl rfl
  refine ⟨h.1, fun u hu => h.2 u (fun heq => hi.creating t ht ?_) hu⟩
  exact heq ▸ hu.2

omit [DecidableEq P] in
theorem Inv.freeZombie (hi : Inv k) (t : T) (hcreating : k.creating = none) :
    let k' := { k.remZombie t with
      allocated := Function.update k.allocated t false, picked := none }
    Inv k' ∧ ∀ u, u ≠ t → Rests k k' u :=
  hi.of_free _ remZombie_entries rfl rfl rfl rfl rfl hcreating rfl

theorem Inv.wakeupQueue [DecidableEq W] (hi : Inv k) {w : W}
    (hpids : k.Lets idleTask kpagd (.wakeupQueue w)) :
    Inv (k.wakeupQueue idleTask w) ∧ ∀ u, Rests k (k.wakeupQueue idleTask w) u := by
  obtain ⟨tasks, heq, hs⟩ := foldl_wakeupPid hpids
  unfold Kernel.wakeupQueue
  rw [heq]
  exact hi.of_steady _ hs ⟨rfl, rfl, rfl, rfl, rfl⟩ rfl

/-! ## Runs -/

variable [DecidableEq S] [DecidableEq W]

theorem Inv.step (hi : Inv k) {act : Act P T S W} (hok : k.Lets idleTask kpagd act)
    (hstep : k.step idleTask kpagd act = some k') :
    Inv k' ∧ ∀ u, act ≠ .freeZombie u → Rests k k' u := by
  cases Kernel.moves_of_step idleTask kpagd hstep with
  | schedule => exact ⟨(hi.schedule hok).1, fun u _ => (hi.schedule hok).2 u⟩
  | sleep hrun =>
      have h := hi.of_steady { k with tasks := k.tasks.sleepTask k.currTask }
        (.sleepTask fun hdead => absurd (hi.exiting hdead) (Bool.eq_false_iff.mp hrun))
        ⟨rfl, rfl, rfl, rfl, rfl⟩ rfl
      exact ⟨h.1, fun u _ => h.2 u⟩
  | wakeup t =>
      have h := hi.of_steady { k with tasks := k.tasks.wakeupTask t } (.wakeupTask hok)
        ⟨rfl, rfl, rfl, rfl, rfl⟩ rfl
      exact ⟨h.1, fun u _ => h.2 u⟩
  | semaphore i noMem schedDisabled s hrun hs =>
      have h := hi.of_steady
        { k with tasks := s.tasks, semaphore := Function.update k.semaphore i s }
        (.run hs (fun hdead => absurd (hi.exiting hdead) (Bool.eq_false_iff.mp hrun)) hok)
        ⟨rfl, rfl, rfl, rfl, rfl⟩ rfl
      exact ⟨h.1, fun u _ => h.2 u⟩
  | addWaitQueue w noMem =>
      have h : Inv (k.addWaitQueue w noMem) ∧ ∀ u, Rests k (k.addWaitQueue w noMem) u := by
        cases noMem <;> exact hi.of_steady _ (.refl _) ⟨rfl, rfl, rfl, rfl, rfl⟩ rfl
      exact ⟨h.1, fun u _ => h.2 u⟩
  | wakeupQueue w => exact ⟨(hi.wakeupQueue hok).1, fun u _ => (hi.wakeupQueue hok).2 u⟩
  | createBegin t e hfree hunused =>
      have h := hi.createBegin hfree hunused
      exact ⟨h.1, fun u _ => h.2 u⟩
  | createFail t ht => exact ⟨(hi.createFail ht).1, fun u _ => (hi.createFail ht).2 u⟩
  | createEnd t isThread e ht hunused =>
      have hrem := hi.remZombie t
      have h := hrem.1.createEnd isThread ht hunused
      exact ⟨h.1, fun u _ => (hrem.2 u).trans (h.2 u)⟩
  | kill pid hcreating =>
      have h := hi.kill hcreating hok
      exact ⟨h.1, fun u _ => h.2 u⟩
  | pickZombie => exact ⟨hi.pickZombie.1, fun u _ => hi.pickZombie.2 u⟩
  | freeZombie t hcreating =>
      have h := hi.freeZombie t hcreating
      exact ⟨h.1, fun u hne => h.2 u fun heq => hne (heq ▸ rfl)⟩

/-- The kernel after the start: nobody has died yet. -/
structure Booted (k : Kernel P T S W) : Prop where
  nodup : k.entries.Nodup
  alive : ∀ t, k.tasks.state t ≠ .zombie

omit [DecidableEq P] [DecidableEq T] [DecidableEq S] [DecidableEq W] in
theorem Booted.inv (h : Booted k) : Inv k :=
  ⟨h.nodup, fun _ _ _ => h.alive _, fun hdead => absurd hdead.2 (h.alive _),
    fun t _ => h.alive t⟩

/-- In every run in which no wakeup finds its task dead, and `schedule` never has
to fall back on a dead idle task: whoever is a zombie stays one as long as the
daemon does not free it, and is never dispatched again. -/
theorem zombie_stays_dead (idleTask kpagd : T) (k₀ k k' : Kernel P T S W) (hboot : Booted k₀)
    (acts acts' : List (Act P T S W)) (t : T)
    (hrun : Run (Guarded (Kernel.Lets idleTask kpagd)
      (Computes (Kernel.step idleTask kpagd))) k₀ acts k)
    (hdead : k.Dead t)
    (hrun' : Run (Guarded (Kernel.Lets idleTask kpagd)
      (Computes (Kernel.step idleTask kpagd))) k acts' k')
    (hfree : .freeZombie t ∉ acts') :
    k'.tasks.state t = .zombie ∧ (k.currTask ≠ t → k'.currTask ≠ t) := by
  have hi : Inv k := hrun.guarded_invariant
    (fun _ _ _ hi hok hstep => (hi.step hok hstep).1) hboot.inv
  have hfinal : Inv k' ∧ k'.Dead t ∧ (k.currTask ≠ t → k'.currTask ≠ t) := by
    refine hrun'.labelled.guarded_invariant
      (I := fun k' => Inv k' ∧ k'.Dead t ∧ (k.currTask ≠ t → k'.currTask ≠ t)) ?_
      ⟨hi, hdead, id⟩
    rintro k₁ act k₂ ⟨hi₁, hdead₁, hcurr₁⟩ hact ⟨hok, hstep⟩
    obtain ⟨hi₂, hrests⟩ := hi₁.step hok hstep
    obtain ⟨hdead₂, hcurr₂⟩ := hrests t (fun heq => hfree (heq ▸ hact)) hdead₁
    exact ⟨hi₂, hdead₂, fun hne => hcurr₂ (hcurr₁ hne)⟩
  exact ⟨hfinal.2.1.2, hfinal.2.2⟩

/-! ## Runs of four tasks -/

/-- The idle task `0` runs, the daemon `1` is ready, and there is one semaphore. -/
def boot : Kernel Nat (Fin 4) Unit Unit where
  queue st := if st = .ready then [0, 1] else []
  tasks := ⟨fun _ => .ready, false⟩
  counter _ := 0
  value e := if e = 0 then 0 else 1
  allocated t := decide (t < 2)
  father t := if t = 1 then some 0 else none
  isThread t := decide (t = 1)
  pid t := t + 1
  priority _ := 0
  lastPid := 2
  currTask := 0
  creating := none
  exiting := false
  picked := none
  semaphore _ := Semaphore.St.initMutex ⟨fun _ => .ready, false⟩
  waitQueue _ := []

theorem booted_boot : Booted boot := ⟨by decide, by decide⟩

/-- Two tasks are created. Task `2` gets the semaphore, task `3` waits for it and is
killed by task `2`. -/
def killWaiterActs : List (Act Nat (Fin 4) Unit Unit) :=
  [.createBegin 2 (some 2), .createEnd false (some 2), .createBegin 3 (some 3),
    .createEnd false (some 3), .schedule, .semaphore () false false, .schedule] ++
  List.replicate 10 (.semaphore () false false) ++ [.schedule, .kill 4]

/-- Task `2` leaves the critical section, and the next task is scheduled. -/
def leaveActs : List (Act Nat (Fin 4) Unit Unit) :=
  List.replicate 4 (.semaphore () false false) ++ [.schedule]

instance (k : Kernel P T S W) (t : T) : Decidable (k.Dead t) :=
  inferInstanceAs (Decidable (_ ∧ _))

instance (k : Kernel P T S W) (act : Act P T S W) :
    Decidable (k.Lets idleTask kpagd act) :=
  match act with
  | .schedule => inferInstanceAs (Decidable (_ → _))
  | .wakeup _ => inferInstanceAs (Decidable (¬_))
  | .semaphore .. => inferInstanceAs (Decidable (_ → _))
  | .wakeupQueue w => inferInstanceAs (Decidable (∀ pid ∈ k.waitQueue w, _))
  | .kill _ => inferInstanceAs (Decidable (∀ p ∈ k.find _, _))
  | .sleep | .addWaitQueue .. | .createBegin .. | .createFail | .createEnd .. | .pickZombie
  | .freeZombie _ => isTrue trivial

/-- Without the last `UP` the killed task stays where it is. -/
theorem zombie_stays_dead_waiter :
    ∃ k k' : Kernel Nat (Fin 4) Unit Unit, k.Dead 3 ∧ k.currTask ≠ 3 ∧
      k'.tasks.state 3 = .zombie ∧ k'.currTask ≠ 3 := by
  have hrun : (killWaiterActs.foldlM (checked (Kernel.Lets 0 1) (Kernel.step 0 1)) boot).isSome
        = true := by
    decide +kernel
  obtain ⟨k, hk⟩ := Option.isSome_iff_exists.mp hrun
  have hrun' : ((killWaiterActs ++ [Act.schedule, .schedule]).foldlM
        (checked (Kernel.Lets 0 1) (Kernel.step 0 1)) boot).isSome = true := by
    decide +kernel
  obtain ⟨k', hk'⟩ := Option.isSome_iff_exists.mp hrun'
  have hobs : ((killWaiterActs.foldlM (checked (Kernel.Lets 0 1) (Kernel.step 0 1)) boot).map
        fun k => (decide (k.Dead 3), decide (k.currTask ≠ 3))) = some (true, true) := by
    decide +kernel
  rw [List.foldlM_append, hk] at hk'
  simp only [hk, Option.map_some, Option.some.injEq, Prod.mk.injEq, decide_eq_true_eq] at hobs
  have h := zombie_stays_dead 0 1 boot k k' booted_boot killWaiterActs [.schedule, .schedule] 3
    (.of_foldlM_checked hk) hobs.1 (.of_foldlM_checked hk') (by decide)
  exact ⟨k, k', hobs.1, hobs.2, h.1, h.2 hobs.2⟩

/-- The `UP` of task `2` makes the killed task ready again, and it is dispatched. -/
theorem killed_waiter_returns :
    ∃ k k' : Kernel Nat (Fin 4) Unit Unit,
      Run (Computes (Kernel.step 0 1)) boot killWaiterActs k ∧ k.Dead 3 ∧
      Run (Computes (Kernel.step 0 1)) k leaveActs k' ∧ .freeZombie 3 ∉ leaveActs ∧
      k.currTask ≠ 3 ∧ k'.tasks.state 3 = .ready ∧ k'.currTask = 3 := by
  have hrun : (killWaiterActs.foldlM (Kernel.step 0 1) boot).isSome = true := by decide +kernel
  obtain ⟨k, hk⟩ := Option.isSome_iff_exists.mp hrun
  have hrun' : ((killWaiterActs ++ leaveActs).foldlM (Kernel.step 0 1) boot).map
        (fun k => (k.tasks.state 3, k.currTask)) = some (.ready, 3) := by
    decide +kernel
  obtain ⟨k', hk', hobs'⟩ := Option.map_eq_some_iff.mp hrun'
  have hobs : ((killWaiterActs.foldlM (Kernel.step 0 1) boot).map
        fun k => (decide (k.Dead 3), decide (k.currTask ≠ 3))) = some (true, true) := by
    decide +kernel
  rw [List.foldlM_append, hk] at hk'
  simp only [hk, Option.map_some, Option.some.injEq, Prod.mk.injEq, decide_eq_true_eq] at hobs
  simp only [Prod.mk.injEq] at hobs'
  exact ⟨k, k', .of_foldlM hk, hobs.1, .of_foldlM hk', by decide, hobs.2, hobs'.1, hobs'.2⟩

end OsdevArchive.Minirighi.Task
