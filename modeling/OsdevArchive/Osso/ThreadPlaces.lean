import OsdevArchive.Osso.SemaphoreRuns
import OsdevArchive.Osso.Threads

/-!
Where the threads are: a thread that is active and not suspended runs, is ready or sleeps
on one semaphore, and a destroyed one is at none of these places. Neither `SIGNAL_CONT` nor
`Destroy_Thread` looks where the thread is; so this holds as long as only suspended
threads are continued and destroyed.
-/

namespace OsdevArchive.Osso.Threads

open OsdevArchive.Lib.RingBuffer OsdevArchive.Lib.Runs
open OsdevArchive.Osso.Semaphore (Placed lower raise runnable_put)

/-! ### Places -/

inductive Place (Sem : Type) where
  | running
  | ready
  | waiting (sem : Sem)

/-- The thread is at this place, with these threads in the queues. -/
def In {Sem T : Type} (sc : Sched T) (waiting : Sem → List T) (ready : List T) (t : T) :
    Place Sem → Prop
  | .running => sc.threadInEsecuzione = some t
  | .ready => t ∈ ready
  | .waiting sem => t ∈ waiting sem

section
variable {S B P T : Type} [DecidableEq S] [DecidableEq B] [DecidableEq P]
  {W : Queues (S ⊕ Lock P B) T}

/-- `waiting` and `ready` are what the queues hold, and each thread is where it should be. -/
structure WellPlacedIn (s : State P W) (waiting : S ⊕ Lock P B → List T) (ready : List T) :
    Prop where
  queues : W.Waiting s.sems.queues waiting
  codaPronti : s.sems.sched.Ready ready
  readyOnce : ready.Nodup
  waitingOnce : ∀ sem, (waiting sem).Nodup
  unsuspended : ∀ t, s.sems.sched.active t → s.stage t = .released →
    ∃! place, In s.sems.sched waiting ready t place
  destroyed : ∀ t, ¬ s.sems.sched.active t → ∀ place, ¬ In s.sems.sched waiting ready t place

def WellPlaced (s : State P W) : Prop := ∃ waiting ready, WellPlacedIn s waiting ready

/-- The thread runs, is ready or sleeps. -/
def Somewhere {Sem : Type} (sc : Sched T) (waiting : Sem → List T) (ready : List T) (t : T) :
    Prop :=
  t ∈ sc.runnable ready ∨ ∃ sem, t ∈ waiting sem

theorem somewhere_iff {Sem : Type} {sc : Sched T} {waiting : Sem → List T} {ready : List T}
    {t : T} : Somewhere sc waiting ready t ↔ ∃ place, In sc waiting ready t place := by
  constructor
  · rintro (hrun | ⟨sem, hwaits⟩)
    · rcases List.mem_append.mp hrun with hrun | hready
      · exact ⟨.running, Option.mem_toList.mp hrun⟩
      · exact ⟨.ready, hready⟩
    · exact ⟨.waiting sem, hwaits⟩
  · rintro ⟨place, hin⟩
    cases place with
    | running => exact .inl (List.mem_append_left _ (Option.mem_toList.mpr hin))
    | ready => exact .inl (List.mem_append_right _ hin)
    | waiting sem => exact .inr ⟨sem, hin⟩

/-- A thread is at one place at most. -/
theorem in_unique {Sem : Type} {sc : Sched T} {waiting : Sem → List T} {ready : List T} {t : T}
    (h : Placed sc waiting ready) {place place' : Place Sem} (hin : In sc waiting ready t place)
    (hin' : In sc waiting ready t place') : place = place' := by
  have hnodup := List.nodup_append.mp h.nodup
  have hrun : ∀ {t}, sc.threadInEsecuzione = some t → t ∈ sc.runnable ready := fun ht =>
    List.mem_append_left _ (Option.mem_toList.mpr ht)
  have hready : ∀ {t}, t ∈ ready → t ∈ sc.runnable ready := List.mem_append_right _
  have hapart : sc.threadInEsecuzione = some t → t ∉ ready := fun ht hmem =>
    hnodup.2.2 t (Option.mem_toList.mpr ht) t hmem rfl
  cases place with
  | running =>
    cases place' with
    | running => rfl
    | ready => exact absurd hin' (hapart hin)
    | waiting sem => exact absurd (hrun hin) (h.asleep sem t hin')
  | ready =>
    cases place' with
    | running => exact absurd hin (hapart hin')
    | ready => rfl
    | waiting sem => exact absurd (hready hin) (h.asleep sem t hin')
  | waiting sem =>
    cases place' with
    | running => exact absurd (hrun hin') (h.asleep sem t hin)
    | ready => exact absurd (hready hin') (h.asleep sem t hin)
    | waiting sem' => rw [h.apart.unique sem sem' t hin hin']

end

/-! ### Steps that keep who is somewhere -/

section
variable {S B T : Type} [DecidableEq S] [DecidableEq B] {W : Queues (S ⊕ B) T}
  {s s' : Semaphore.State W} {sem : S ⊕ B} {r : T}

/-- The semaphores move threads between the places, and no others are active. -/
def Keeps (s s' : Semaphore.State W) : Prop :=
  ∀ waiting ready, Semaphore.Inv s waiting ready →
    s'.sched.active = s.sched.active ∧ ∃ waiting' ready', Semaphore.Inv s' waiting' ready' ∧
      ∀ k, Somewhere s'.sched waiting' ready' k ↔ Somewhere s.sched waiting ready k

variable (sem) in
theorem keeps_release (hs : s.release (raise sem) sem = some s') :
    s'.sched.threadInEsecuzione = s.sched.threadInEsecuzione ∧ Keeps s s' := by
  rw [Semaphore.State.release] at hs
  split at hs
  · obtain rfl := Option.some.inj hs
    exact ⟨rfl, fun _ _ h => ⟨rfl, _, _, h.raised ‹_› _, fun _ => Iff.rfl⟩⟩
  · simp only [Option.bind_eq_bind, Option.bind_eq_some_iff, Option.some.injEq] at hs
    obtain ⟨sched, hsched, rfl⟩ := hs
    obtain ⟨_, -, -, -, hput⟩ := Sched.addThreadToCodaPronti_eq_some hsched
    have hrun : sched.threadInEsecuzione = s.sched.threadInEsecuzione := by rw [hput]
    have hactive : sched.active = s.sched.active := by rw [hput]
    refine ⟨hrun, fun waiting ready h => ⟨hactive, ?_⟩⟩
    obtain ⟨first, rest, hw, hready, hinv⟩ := h.woken ‹_› hsched
    refine ⟨_, _, hinv, fun k => ?_⟩
    rw [Somewhere, hready, Somewhere, or_assoc]
    refine or_congr_right ⟨?_, ?_⟩
    · rintro (rfl | ⟨sem', hmem⟩)
      · exact ⟨sem, hw ▸ List.mem_cons_self⟩
      · exact ⟨sem', mem_of_mem_update_tail hw hmem⟩
    · rintro ⟨sem', hmem⟩
      by_cases hsem : sem' = sem
      · subst hsem
        rw [hw] at hmem
        refine (List.mem_cons.mp hmem).imp_right fun hmem => ⟨sem', ?_⟩
        rwa [Function.update_self]
      · refine .inr ⟨sem', ?_⟩
        rwa [Function.update_of_ne hsem]

variable (sem) in
theorem keeps_tryAcquire : Keeps s (s.tryAcquire (lower sem) sem).2 := by
  intro waiting ready h
  simp only [Semaphore.State.tryAcquire]
  split
  · exact ⟨rfl, _, _, h.granted ‹_› _ _, fun _ => Iff.rfl⟩
  · exact ⟨rfl, _, _, h, fun _ => Iff.rfl⟩

variable [DecidableEq T]

variable (sem) in
theorem keeps_acquire (hrun : s.sched.threadInEsecuzione = some r)
    (hs : s.acquire (lower sem) sem = some s') : Keeps s s' := by
  simp only [Semaphore.State.acquire] at hs
  split at hs
  · obtain rfl := Option.some.inj hs
    exact fun _ _ h => ⟨rfl, _, _, h.granted ‹_› _ _, fun _ => Iff.rfl⟩
  · simp only [Option.bind_eq_bind, Option.bind_eq_some_iff, Option.some.injEq, hrun] at hs
    obtain ⟨queues, hqueues, sched, hsched, rfl⟩ := hs
    intro waiting ready h
    obtain ⟨-, ready', hready, hinv⟩ := h.blocked hrun ‹_› hqueues hsched
    have hactive := (h.placed.sleep sem hrun).schedule_active hsched
    refine ⟨hactive, _, ready', hinv, fun k => ?_⟩
    have hrunnable : s.sched.runnable ready = r :: ready := by simp [Sched.runnable, hrun]
    rw [Somewhere, hready, Somewhere, hrunnable, List.mem_cons]
    simp only [mem_update_append, exists_or, exists_eq_left]
    tauto

theorem keeps_schedule {sched : Sched T} (hs : s.sched.scheduleNextThread = some sched) :
    Keeps s { s with sched := sched } := by
  intro waiting ready h
  obtain ⟨-, ready', hplaced, hsame⟩ := h.placed.schedule hs
  exact ⟨h.placed.schedule_active hs, _, ready', ⟨h.queues, hplaced, h.positive, h.order⟩,
    fun k => or_congr_left (hsame k)⟩

end

/-! ### Threads that are taken out -/

section
variable {Sem T : Type} [DecidableEq T] {sc : Sched T} {waiting : Sem → List T} {ready : List T}
  {t : T}

/-- A ready thread is taken out of the queue. -/
theorem placed_remove (h : Placed sc waiting ready)
    {codaPronti : RingQueue maxReferences (ThreadIdx T)}
    (hready : Sched.Ready { sc with codaPronti := codaPronti } (ready.erase t)) :
    Placed { sc with codaPronti := codaPronti } waiting (ready.erase t) := by
  have hsub : (Sched.runnable { sc with codaPronti := codaPronti } (ready.erase t)).Sublist
      (sc.runnable ready) := List.Sublist.append_left List.erase_sublist _
  exact
    { codaPronti := hready
      nodup := h.nodup.sublist hsub
      apart := h.apart
      asleep := fun sem k hk hmem => h.asleep sem k hk (hsub.subset hmem)
      runnableActive := fun k hk => h.runnableActive k (hsub.subset hk)
      sleeperActive := h.sleeperActive }

/-- A thread that is nowhere is no longer active. -/
theorem placed_deactivate (h : Placed sc waiting ready) (ht : ¬ Somewhere sc waiting ready t) :
    Placed { sc with active := Function.update sc.active t false } waiting ready := by
  have hkeep : ∀ k, Somewhere sc waiting ready k → sc.active k →
      Function.update sc.active t false k = true := by
    intro k hk hactive
    have hne : k ≠ t := fun heq => ht (heq ▸ hk)
    rwa [Function.update_of_ne hne]
  exact
    { codaPronti := h.codaPronti
      nodup := h.nodup
      apart := h.apart
      asleep := h.asleep
      runnableActive := fun k hk => hkeep k (.inl hk) (h.runnableActive k hk)
      sleeperActive := fun sem k hk => hkeep k (.inr ⟨sem, hk⟩) (h.sleeperActive sem k hk) }

omit [DecidableEq T] in
/-- The running thread gives up. -/
theorem placed_leave (h : Placed sc waiting ready) (hrun : sc.threadInEsecuzione = some t) :
    Placed { sc with threadInEsecuzione := none } waiting ready ∧
      ∀ k, Somewhere { sc with threadInEsecuzione := none } waiting ready k ↔
        Somewhere sc waiting ready k ∧ k ≠ t := by
  have hrunnable : sc.runnable ready = t :: ready := by simp [Sched.runnable, hrun]
  have hnone : Sched.runnable { sc with threadInEsecuzione := none } ready = ready := by
    simp [Sched.runnable]
  have hnodup := h.nodup
  rw [hrunnable, List.nodup_cons] at hnodup
  have hwaits : ∀ sem, t ∉ waiting sem := h.not_mem hrun
  constructor
  · constructor
    · exact h.codaPronti
    · rw [hnone]
      exact hnodup.2
    · exact h.apart
    · intro sem k hk hmem
      rw [hnone] at hmem
      exact h.asleep sem k hk (hrunnable ▸ List.mem_cons_of_mem t hmem)
    · intro k hk
      rw [hnone] at hk
      exact h.runnableActive k (hrunnable ▸ List.mem_cons_of_mem t hk)
    · exact h.sleeperActive
  · intro k
    rw [Somewhere, hnone, Somewhere, hrunnable, List.mem_cons]
    constructor
    · rintro (hk | ⟨sem, hk⟩)
      · exact ⟨.inl (.inr hk), fun heq => hnodup.1 (heq ▸ hk)⟩
      · exact ⟨.inr ⟨sem, hk⟩, fun heq => hwaits sem (heq ▸ hk)⟩
    · rintro ⟨(rfl | hk) | hk, hne⟩
      · exact absurd rfl hne
      · exact .inl hk
      · exact .inr hk

end

/-! ### The invariant -/

/-- The thread that a call is making. -/
def Pc.making {P T : Type} : Pc P T → Option T
  | .allocKernelStack _ tid | .allocUserStack _ tid | .addThread tid => some tid
  | .user | .processSlot _ | .newProcess _ _ | .threadSlot _ | .forkSlot _ | .sigQueue _ _
  | .destroyMutex _ | .destroyKernelStack _ _ | .destroyUserStack _ _
  | .exitMutex | .exitKernelStack | .exitUserStack => none

/-- A thread that is destroyed is still in `Exit_Thread`. -/
def Pc.lingers {P T : Type} : Pc P T → Bool
  | .exitKernelStack | .exitUserStack => true
  | .user | .processSlot _ | .newProcess _ _ | .threadSlot _ | .forkSlot _
  | .allocKernelStack _ _ | .allocUserStack _ _ | .addThread _ | .sigQueue _ _
  | .destroyMutex _ | .destroyKernelStack _ _ | .destroyUserStack _ _ | .exitMutex => false

section
variable {S B P T : Type} [DecidableEq S] [DecidableEq B] [DecidableEq P]
  {W : Queues (S ⊕ Lock P B) T}

/-- Who is released is somewhere, and nobody else is; each thread is made by one call. -/
structure Inv (sems : Semaphore.State W) (stage : T → Stage) (pc : T → Pc P T)
    (waiting : S ⊕ Lock P B → List T) (ready : List T) : Prop where
  semaphores : Semaphore.Inv sems waiting ready
  active : ∀ t, sems.sched.active t ↔ stage t ≠ .free
  released : ∀ t, stage t = .released ↔ Somewhere sems.sched waiting ready t
  making : ∀ t tid, (pc t).making = some tid → stage tid = .making
  once : ∀ t t' tid, (pc t).making = some tid → (pc t').making = some tid → t = t'
  left : ∀ t, (pc t).lingers = false

def Kept (s : State P W) : Prop := ∃ waiting ready, Inv s.sems s.stage s.pc waiting ready

/-- A thread may go on at this point: what its call is making, no other call makes. -/
structure MayGo (s : State P W) (t : T) (goes : Pc P T) : Prop where
  making : ∀ tid, goes.making = some tid →
    s.stage tid = .making ∧ ∀ t' ≠ t, (s.pc t').making ≠ some tid
  left : goes.lingers = false

variable {s s' : State P W} {t tid : T} {goes : Pc P T} {l : Lock P B}

theorem Kept.wellPlaced (h : Kept s) : WellPlaced s := by
  obtain ⟨waiting, ready, hinv⟩ := h
  have hplaced := hinv.semaphores.placed
  refine ⟨waiting, ready, hinv.semaphores.queues, hplaced.codaPronti,
    (List.nodup_append.mp hplaced.nodup).2.1, hplaced.apart.nodup, fun t _ hstage => ?_,
    fun t hactive place hin => ?_⟩
  · obtain ⟨place, hin⟩ := somewhere_iff.mp ((hinv.released t).mp hstage)
    exact ⟨place, hin, fun place' hin' => in_unique hplaced hin' hin⟩
  · have hstage := (hinv.released t).mpr (somewhere_iff.mpr ⟨place, hin⟩)
    exact hactive ((hinv.active t).mpr (by simp [hstage]))

/-- A call goes on making its thread. -/
theorem Kept.still_making (h : Kept s) (hpc : (s.pc t).making = some tid) :
    s.stage tid = .making ∧ ∀ t' ≠ t, (s.pc t').making ≠ some tid := by
  obtain ⟨waiting, ready, hinv⟩ := h
  exact ⟨hinv.making t tid hpc, fun t' hne ht' => hne (hinv.once t' t tid ht' hpc)⟩

theorem mayGo_none (hmaking : goes.making = none) (hleft : goes.lingers = false) :
    MayGo s t goes := by
  refine ⟨fun tid htid => ?_, hleft⟩
  rw [hmaking] at htid
  cases htid

theorem mayGo_user : MayGo s t .user := mayGo_none rfl rfl

theorem Kept.keeps (h : Kept s) {sems : Semaphore.State W} (hk : Keeps s.sems sems) :
    Kept { s with sems := sems } := by
  obtain ⟨waiting, ready, hinv⟩ := h
  obtain ⟨hactive, waiting', ready', hsems, hsame⟩ := hk _ _ hinv.semaphores
  refine ⟨waiting', ready', hsems, fun k => ?_, fun k => ?_, hinv.making, hinv.once, hinv.left⟩
  · rw [hactive]
    exact hinv.active k
  · rw [hsame]
    exact hinv.released k

/-- The thread that runs is released. -/
theorem Kept.running_released (h : Kept s) (hrun : s.sems.sched.threadInEsecuzione = some t) :
    s.stage t = .released := by
  obtain ⟨waiting, ready, hinv⟩ := h
  exact (hinv.released t).mpr (.inl (by simp [Sched.runnable, hrun]))

theorem released_ok (hok : s.released l = some s') :
    ∃ sems, s' = { s with sems := sems } ∧
      sems.sched.threadInEsecuzione = s.sems.sched.threadInEsecuzione ∧ Keeps s.sems sems := by
  simp only [State.released, Option.bind_eq_bind, Option.bind_eq_some_iff,
    Option.some.injEq] at hok
  obtain ⟨sems, hsems, rfl⟩ := hok
  exact ⟨sems, rfl, keeps_release (.inr l) hsems⟩

theorem Kept.released (h : Kept s) (hok : s.released l = some s') : Kept s' := by
  obtain ⟨sems, rfl, -, hk⟩ := released_ok hok
  exact h.keeps hk

variable [DecidableEq T]

omit [DecidableEq P] in
theorem making_update (pcs : T → Pc P T) (t' : T) : (Function.update pcs t goes t').making =
    if t' = t then goes.making else (pcs t').making := by
  by_cases ht : t' = t
  · subst ht
    rw [Function.update_self, if_pos rfl]
  · rw [Function.update_of_ne ht, if_neg ht]

theorem Kept.goto (h : Kept s) (hgo : MayGo s t goes) : Kept (s.goto t goes) := by
  obtain ⟨waiting, ready, hinv⟩ := h
  refine ⟨waiting, ready, hinv.semaphores, hinv.active, hinv.released, ?_, ?_, fun t' => ?_⟩
  · intro t' tid htid
    rw [State.goto, making_update] at htid
    split at htid
    · exact (hgo.making tid htid).1
    · exact hinv.making t' tid htid
  · intro t₁ t₂ tid h₁ h₂
    rw [State.goto, making_update] at h₁ h₂
    split at h₁
    · split at h₂
      · exact ‹t₁ = t›.trans ‹t₂ = t›.symm
      · exact absurd h₂ ((hgo.making tid h₁).2 t₂ ‹_›)
    · split at h₂
      · exact absurd h₁ ((hgo.making tid h₂).2 t₁ ‹_›)
      · exact hinv.once t₁ t₂ tid h₁ h₂
  · by_cases ht : t' = t
    · subst ht
      simpa [State.goto] using hgo.left
    · simpa [State.goto, ht] using hinv.left t'

theorem Kept.acquired (h : Kept s) (hrun : s.sems.sched.threadInEsecuzione = some t)
    (hgo : MayGo s t goes) (hok : s.acquired t goes l = some s') : Kept s' := by
  simp only [State.acquired, Option.bind_eq_bind, Option.bind_eq_some_iff,
    Option.some.injEq] at hok
  obtain ⟨sems, hsems, rfl⟩ := hok
  have hk := keeps_acquire (.inr l) hrun hsems
  exact (h.keeps hk).goto ⟨hgo.making, hgo.left⟩

/-- One thread changes its stage, and its place with it. -/
theorem Inv.restage {sems sems' : Semaphore.State W} {stage : T → Stage} {pc : T → Pc P T}
    {waiting waiting' : S ⊕ Lock P B → List T} {ready ready' : List T}
    (h : Inv sems stage pc waiting ready) (tid : T) (new : Stage)
    (hsems : Semaphore.Inv sems' waiting' ready')
    (hactive : sems'.sched.active =
      Function.update sems.sched.active tid (decide (new ≠ .free)))
    (hothers : ∀ k, k ≠ tid →
      (Somewhere sems'.sched waiting' ready' k ↔ Somewhere sems.sched waiting ready k))
    (hself : new = .released ↔ Somewhere sems'.sched waiting' ready' tid)
    (hmaking : ∀ t, (pc t).making ≠ some tid) :
    Inv sems' (Function.update stage tid new) pc waiting' ready' where
  semaphores := hsems
  active k := by
    rw [hactive]
    by_cases hk : k = tid
    · subst hk
      simp
    · rw [Function.update_of_ne hk, Function.update_of_ne hk]
      exact h.active k
  released k := by
    by_cases hk : k = tid
    · subst hk
      rw [Function.update_self]
      exact hself
    · rw [Function.update_of_ne hk, hothers k hk]
      exact h.released k
  making t k hk := by
    have hne : k ≠ tid := fun heq => hmaking t (heq ▸ hk)
    rw [Function.update_of_ne hne]
    exact h.making t k hk
  once := h.once
  left := h.left

omit [DecidableEq T] in
theorem semaphores_sched {sems : Semaphore.State W} {sched : Sched T}
    {waiting : S ⊕ Lock P B → List T} {ready ready' : List T}
    (h : Semaphore.Inv sems waiting ready) (hplaced : Placed sched waiting ready') :
    Semaphore.Inv { sems with sched := sched } waiting ready' :=
  ⟨h.queues, hplaced, h.positive, h.order⟩

end

end OsdevArchive.Osso.Threads
