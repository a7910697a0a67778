import OsdevArchive.Osso.ThreadPlaces

/-!
The runs in which the threads stay where they should be. A step is proper unless it
continues a thread that is not suspended, ends the destruction of one that is not, adds
one to a full table, or lets a thread block that has just been destroyed.
-/

namespace OsdevArchive.Osso.Threads

open OsdevArchive.Lib.RingBuffer OsdevArchive.Lib.Runs
open OsdevArchive.Osso.Semaphore (Placed)

variable {S B P T : Type} [DecidableEq S] [DecidableEq B] [DecidableEq P] [DecidableEq T]
  {W : Queues (S ⊕ Lock P B) T} {cfg : Config P T} {s s' : State P W} {t tid : T}

/-! ### Proper steps -/

/-- Nobody would miss the thread. -/
def Gone (s : State P W) (tid : T) : Prop := s.stage tid = .suspended ∨ s.stage tid = .free

/-- The next part of the call of thread `t`. -/
def ProperPc (s : State P W) (t : T) : Pc P T → Prop
  | .addThread _ => entry (s.processi (s.task t)).threads none ≠ none
  | .destroyMutex tid => s.kernelStack t = false ∧ s.userStack tid = false → Gone s tid
  | .destroyKernelStack tid _ => s.userStack tid = false → Gone s tid
  | .destroyUserStack tid _ => Gone s tid
  | .exitMutex =>
    s.kernelStack t = true ∨ s.userStack t = true → 0 < s.sems.status (.inr (.memSem (s.task t)))
  | .user | .processSlot _ | .newProcess _ _ | .threadSlot _ | .forkSlot _
  | .allocKernelStack _ _ | .allocUserStack _ _ | .sigQueue _ _ | .exitKernelStack
  | .exitUserStack => True

/-- The thread to which a signal goes. -/
def State.target (cfg : Config P T) (s : State P W) (pid : Dword) : ThreadIdx T :=
  match cfg.processi.find? fun p => (s.processi p).pid = pid with
  | some processo => (s.processi processo).threads 0
  | none => none

/-- Only a suspended thread is continued. -/
def ProperCont (s : State P W) : ThreadIdx T → Prop
  | some tid => s.stage tid = .suspended
  | none => True

/-- A step of the running thread. -/
def ProperBy (cfg : Config P T) (s : State P W) : Act S B T → Option T → Prop
  | .signal pid segnale, some _ => segnale = signalCont → ProperCont s (s.target cfg pid)
  | .proceed _, some t => ProperPc s t (s.pc t)
  | .P _, some _ | .boolP _, some _ | .nonBlockP _, some _ | .nonBlockBoolP _, some _
  | .V _, some _ | .boolV _, some _ | .schedule, some _ | .createProcess _, some _
  | .fork, some _ | .createThread, some _ | .exitThread, some _ => True
  | .P _, none | .boolP _, none | .nonBlockP _, none | .nonBlockBoolP _, none
  | .V _, none | .boolV _, none | .schedule, none | .createProcess _, none
  | .fork, none | .createThread, none | .exitThread, none | .signal _ _, none
  | .proceed _, none => False

/-- The steps that leave each thread at its place. -/
def Proper (cfg : Config P T) (s : State P W) (act : Act S B T) : Prop :=
  ProperBy cfg s act s.sems.sched.threadInEsecuzione

instance (s : State P W) (tid : T) : Decidable (Gone s tid) :=
  inferInstanceAs (Decidable (_ = _ ∨ _ = _))

instance (s : State P W) (t : T) : ∀ pc, Decidable (ProperPc s t pc)
  | .addThread _ => inferInstanceAs (Decidable (_ ≠ _))
  | .destroyMutex tid => inferInstanceAs (Decidable (_ ∧ _ → Gone s tid))
  | .destroyKernelStack tid _ => inferInstanceAs (Decidable (_ → Gone s tid))
  | .destroyUserStack tid _ => inferInstanceAs (Decidable (Gone s tid))
  | .exitMutex => inferInstanceAs (Decidable (_ ∨ _ → _ < _))
  | .user | .processSlot _ | .newProcess _ _ | .threadSlot _ | .forkSlot _
  | .allocKernelStack _ _ | .allocUserStack _ _ | .sigQueue _ _ | .exitKernelStack
  | .exitUserStack => inferInstanceAs (Decidable True)

instance (s : State P W) : ∀ tid, Decidable (ProperCont s tid)
  | some _ => inferInstanceAs (Decidable (_ = _))
  | none => inferInstanceAs (Decidable True)

instance (cfg : Config P T) (s : State P W) : ∀ act tid, Decidable (ProperBy cfg s act tid)
  | .signal _ _, some _ => inferInstanceAs (Decidable (_ → ProperCont s _))
  | .proceed _, some t => inferInstanceAs (Decidable (ProperPc s t _))
  | .P _, some _ | .boolP _, some _ | .nonBlockP _, some _ | .nonBlockBoolP _, some _
  | .V _, some _ | .boolV _, some _ | .schedule, some _ | .createProcess _, some _
  | .fork, some _ | .createThread, some _ | .exitThread, some _ =>
    inferInstanceAs (Decidable True)
  | .P _, none | .boolP _, none | .nonBlockP _, none | .nonBlockBoolP _, none
  | .V _, none | .boolV _, none | .schedule, none | .createProcess _, none
  | .fork, none | .createThread, none | .exitThread, none | .signal _ _, none
  | .proceed _, none => inferInstanceAs (Decidable False)

instance (cfg : Config P T) (s : State P W) (act : Act S B T) : Decidable (Proper cfg s act) :=
  inferInstanceAs (Decidable (ProperBy cfg s act s.sems.sched.threadInEsecuzione))

/-! ### Parts of the calls -/

/-- The running thread and where the others stand. -/
def SameCalls (s s' : State P W) : Prop :=
  s'.sems.sched.threadInEsecuzione = s.sems.sched.threadInEsecuzione ∧ s'.pc = s.pc

omit [DecidableEq T] in
theorem released_same {l : Lock P B} (hok : s.released l = some s') : SameCalls s s' := by
  obtain ⟨sems, rfl, hrun, -⟩ := released_ok hok
  exact ⟨hrun, rfl⟩

/-- A free slot is taken for a new thread. -/
theorem Kept.getFreeThreadSlot (h : Kept s) (hok : s.getFreeThreadSlot cfg = some (tid, s')) :
    Kept s' ∧ SameCalls s s' ∧ s'.stage tid = .making ∧ ∀ t', (s'.pc t').making ≠ some tid := by
  simp only [State.getFreeThreadSlot, Option.bind_eq_bind, Option.bind_eq_some_iff,
    Option.some.injEq, Prod.mk.injEq] at hok
  obtain ⟨_, hfind, s₁, hreleased, rfl, rfl⟩ := hok
  obtain ⟨waiting, ready, hinv⟩ := h
  rename_i tid
  have hinactive : s.sems.sched.active tid = false := by simpa using List.find?_some hfind
  have hfree : s.stage tid = .free := by
    by_contra hne
    exact absurd ((hinv.active tid).mpr hne) (by simp [hinactive])
  have hmaking : ∀ t', (s.pc t').making ≠ some tid := fun t' ht' => by
    have hstage := hinv.making t' tid ht'
    rw [hfree] at hstage
    cases hstage
  have hnot := mt (hinv.released tid).mpr (by simp [hfree])
  have htaken : Kept ((s.setActive tid true).setStage tid .making) :=
    ⟨waiting, ready, hinv.restage _ _
      (semaphores_sched hinv.semaphores (hinv.semaphores.placed.activate tid)) rfl
      (fun _ _ => Iff.rfl) (iff_of_false nofun hnot) hmaking⟩
  have hstage : s₁.stage tid = .making := by
    obtain ⟨sems, rfl, -, -⟩ := released_ok hreleased
    simp [State.setStage]
  have hsame := released_same hreleased
  refine ⟨htaken.released hreleased, hsame, hstage, ?_⟩
  rw [hsame.2]
  exact hmaking

/-- A thread that is nowhere, and that no call makes, becomes ready. -/
theorem Kept.added (h : Kept s) (hstage : s.stage tid ≠ .released)
    (hmaking : ∀ t', (s.pc t').making ≠ some tid) (hok : s.added (some tid) = some s') :
    Kept s' := by
  simp only [State.added, Option.bind_eq_bind, Option.bind_eq_some_iff, Option.some.injEq] at hok
  obtain ⟨sched, hsched, rfl⟩ := hok
  obtain ⟨_, ⟨rfl⟩, hactive, hroom, rfl⟩ := Sched.addThreadToCodaPronti_eq_some hsched
  obtain ⟨waiting, ready, hinv⟩ := h
  have hnot := mt (hinv.released tid).mpr hstage
  have hplaced := hinv.semaphores.placed.add hactive (fun hrun => hnot (.inl hrun))
    (fun sem hwaits => hnot (.inr ⟨sem, hwaits⟩)) hroom
  have hput : ∀ k, Somewhere { s.sems.sched with
      codaPronti := s.sems.sched.codaPronti.put (some tid) } waiting (ready ++ [tid]) k ↔
        Somewhere s.sems.sched waiting ready k ∨ k = tid := fun k => by
    simp only [Somewhere, Semaphore.runnable_put, List.mem_append, List.mem_singleton]
    tauto
  refine ⟨waiting, ready ++ [tid], hinv.restage _ _ (semaphores_sched hinv.semaphores hplaced) ?_
    (fun k hk => ?_) (iff_of_true rfl ((hput tid).mpr (.inr rfl))) hmaking⟩
  · exact (Function.update_eq_self_iff.mpr hactive.symm).symm
  · exact (hput k).trans (or_iff_left hk)

/-- A thread is taken out of the ready ones, if it is there. -/
theorem Kept.removed (h : Kept s) (hok : s.removed cfg tid = some s') :
    Kept s' ∧ SameCalls s s' := by
  obtain ⟨waiting, ready, hinv⟩ := h
  have hplaced := hinv.semaphores.placed
  obtain ⟨codaPronti, hremove, hready⟩ := hplaced.codaPronti.removeThread cfg.kernelThread tid
  simp only [State.removed, hremove, Option.bind_eq_bind, Option.bind_some,
    Option.some.injEq] at hok
  have hsems := semaphores_sched hinv.semaphores (placed_remove hplaced hready)
  split at hok
  · next hmem =>
    rw [decide_eq_true_eq] at hmem
    subst hok
    have hstage : s.stage tid = .released :=
      (hinv.released tid).mpr (.inl (List.mem_append_right _ hmem))
    have hactive : s.sems.sched.active tid = true :=
      hplaced.runnableActive tid (List.mem_append_right _ hmem)
    have hnodup := List.nodup_append.mp hplaced.nodup
    refine ⟨⟨waiting, ready.erase tid, hinv.restage _ _ hsems ?_ (fun k hk => ?_)
      (iff_of_false nofun ?_) (fun t' ht' => ?_)⟩, rfl, rfl⟩
    · exact (Function.update_eq_self_iff.mpr hactive.symm).symm
    · simp only [Somewhere, Sched.runnable, State.setSched, State.setStage, List.mem_append,
        List.mem_erase_of_ne hk]
    · rintro (hrun | ⟨sem, hwaits⟩)
      · rcases List.mem_append.mp hrun with hrun | herase
        · exact hnodup.2.2 tid hrun tid hmem rfl
        · exact hnodup.2.1.not_mem_erase herase
      · exact hplaced.asleep sem tid hwaits (List.mem_append_right _ hmem)
    · have hmaking := hinv.making t' tid ht'
      rw [hstage] at hmaking
      cases hmaking
  · next hmem =>
    rw [decide_eq_true_eq] at hmem
    subst hok
    rw [List.erase_of_not_mem hmem] at hsems
    exact ⟨⟨waiting, ready, hsems, hinv.active, hinv.released, hinv.making, hinv.once,
      hinv.left⟩, rfl, rfl⟩

/-! ### Destroying threads -/

theorem Kept.destroyed (h : Kept s) (hgone : Gone s tid) : Kept (s.destroyed t tid) := by
  obtain ⟨waiting, ready, hinv⟩ := h
  have hstage : s.stage tid ≠ .released ∧ s.stage tid ≠ .making := by
    rcases hgone with hgone | hgone <;> rw [hgone] <;> exact ⟨nofun, nofun⟩
  have hnot := mt (hinv.released tid).mpr hstage.1
  have hcleared : Kept ((s.setActive tid false).setStage tid .free) :=
    ⟨waiting, ready, hinv.restage _ _
      (semaphores_sched hinv.semaphores (placed_deactivate hinv.semaphores.placed hnot)) rfl
      (fun _ _ => Iff.rfl) (iff_of_false nofun hnot)
      fun t' ht' => hstage.2 (hinv.making t' tid ht')⟩
  exact hcleared.goto (mayGo_none rfl rfl)

theorem Kept.destroyUser (h : Kept s) (hrun : s.sems.sched.threadInEsecuzione = some t)
    (hgone : s.userStack tid = false → Gone s tid) (hok : s.destroyUser t tid = some s') :
    Kept s' := by
  rw [State.destroyUser] at hok
  split at hok
  · exact h.acquired hrun (mayGo_none rfl rfl) hok
  · next hstack =>
    obtain rfl := Option.some.inj hok
    exact h.destroyed (hgone (by simpa using hstack))

theorem clearThread_eq (processo : P) :
    ∃ processi, s.clearThread processo t = { s with processi := processi } := by
  rw [State.clearThread]
  split
  · exact ⟨_, rfl⟩
  · exact ⟨s.processi, rfl⟩

theorem Kept.destroyLocked (h : Kept s) (hrun : s.sems.sched.threadInEsecuzione = some t)
    (hgone : s.kernelStack t = false ∧ s.userStack tid = false → Gone s tid)
    (hok : s.destroyLocked cfg t tid = some s') : Kept s' := by
  simp only [State.destroyLocked, Option.bind_eq_bind, Option.bind_eq_some_iff] at hok
  obtain ⟨processo, -, s₁, hreleased, hok⟩ := hok
  obtain ⟨processi, hclear⟩ := clearThread_eq (s := s) (t := t) processo
  rw [hclear] at hreleased
  obtain ⟨sems, rfl, hsame, hkeeps⟩ := released_ok hreleased
  have h₁ : Kept { s with processi := processi, sems := sems } := h.keeps hkeeps
  split at hok
  · exact h₁.acquired (hsame.trans hrun) (mayGo_none rfl rfl) hok
  · next hstack =>
    exact h₁.destroyUser (hsame.trans hrun) (fun huser => hgone ⟨by simpa using hstack, huser⟩) hok

theorem Kept.destroyThread (h : Kept s) (hrun : s.sems.sched.threadInEsecuzione = some t)
    (hok : s.destroyThread cfg t tid = some s') : Kept s' := by
  rw [State.destroyThread] at hok
  split at hok
  · cases hok
  · simp only [Option.bind_eq_bind, Option.bind_eq_some_iff] at hok
    obtain ⟨s₁, hremoved, hok⟩ := hok
    obtain ⟨h₁, hrun₁, -⟩ := h.removed hremoved
    split at hok
    · cases hok
    · simp only [Option.bind_eq_some_iff] at hok
      obtain ⟨processo, -, hok⟩ := hok
      exact h₁.acquired (hrun₁.trans hrun) (mayGo_none rfl rfl) hok

/-! ### Leaving -/

/-- The semaphores after a `Bool_P` that is granted at once. -/
def granted (sems : Semaphore.State W) (l : Lock P B) : Semaphore.State W :=
  { sems with
    status := Function.update sems.status (.inr l) 0
    trace := sems.trace ++ [.granted (.inr l) sems.sched.threadInEsecuzione] }

/-- And after a `Bool_V` behind it. -/
def passed (sems : Semaphore.State W) (l : Lock P B) : Semaphore.State W :=
  { granted sems l with
    status := Function.update (granted sems l).status (.inr l) 1
    trace := (granted sems l).trace ++ [.raised (.inr l)] }

section
variable {sems : Semaphore.State W} {l : Lock P B}

theorem boolP_eq (hpos : 0 < sems.status (.inr l)) : sems.boolP l = some (granted sems l) := by
  rw [Semaphore.State.boolP, Semaphore.State.acquire, if_pos hpos, granted]

omit [DecidableEq T] in
theorem boolV_granted (hempty : W.isEmpty sems.queues (.inr l)) :
    (granted sems l).boolV l = some (passed sems l) := if_pos hempty

theorem keeps_passed (hrun : sems.sched.threadInEsecuzione = some t)
    (hpos : 0 < sems.status (.inr l)) : Keeps sems (passed sems l) := by
  intro waiting ready h
  have hempty := h.positiveEmpty _ hpos
  obtain ⟨hactive₁, waiting₁, ready₁, h₁, hsame₁⟩ :=
    keeps_acquire (.inr l) hrun (boolP_eq hpos) _ _ h
  obtain ⟨hactive₂, waiting₂, ready₂, h₂, hsame₂⟩ :=
    (keeps_release (.inr l) (boolV_granted hempty)).2 _ _ h₁
  exact ⟨hactive₂.trans hactive₁, waiting₂, ready₂, h₂, fun k => (hsame₂ k).trans (hsame₁ k)⟩

end

/-- The running thread is destroyed, and nothing else is changed. -/
structure Leaving (s : State P W) (t : T) : Prop where
  kept : Kept ((s.setActive t true).setStage t .released)
  running : s.sems.sched.threadInEsecuzione = some t
  inactive : s.sems.sched.active t = false
  stage : s.stage t = .free

theorem Kept.leaving (h : Kept s) (hrun : s.sems.sched.threadInEsecuzione = some t) :
    Leaving ((s.setActive t false).setStage t .free) t := by
  have hstage := h.running_released hrun
  have hactive : s.sems.sched.active t = true := by
    obtain ⟨waiting, ready, hinv⟩ := h
    exact (hinv.active t).mpr (by simp [hstage])
  have hback : ((((s.setActive t false).setStage t .free).setActive t true).setStage t .released) =
      s := by
    simp only [State.setActive, State.setSched, State.setStage, Function.update_idem]
    rw [Function.update_eq_self_iff.mpr hactive.symm, Function.update_eq_self_iff.mpr hstage.symm]
  refine ⟨hback.symm ▸ h, hrun, ?_, ?_⟩
  · simp [State.setActive, State.setSched, State.setStage]
  · simp [State.setStage]

theorem Leaving.linearFree (h : Leaving s t) {processo : P} {rest : Pc P T}
    {next : State P W → Option (State P W)}
    (hpos : 0 < s.sems.status (.inr (.memSem processo))) :
    s.linearFree t processo rest next =
        next { s with sems := passed s.sems (.memSem processo) } ∧
      Leaving { s with sems := passed s.sems (.memSem processo) } t := by
  have hempty : W.isEmpty s.sems.queues (.inr (.memSem processo)) := by
    obtain ⟨waiting, ready, hinv⟩ := h.kept
    exact hinv.semaphores.positiveEmpty _ hpos
  constructor
  · rw [State.linearFree, if_pos hpos, boolP_eq hpos]
    simp only [Option.bind_eq_bind, Option.bind_some, State.released, boolV_granted hempty]
  · exact ⟨h.kept.keeps (keeps_passed h.running hpos), h.running, h.inactive, h.stage⟩

/-- The thread gives up the processor. -/
theorem Leaving.exitEnd (h : Leaving s t) (hok : s.exitEnd t = some s') : Kept s' := by
  simp only [State.exitEnd, Option.bind_eq_bind, Option.bind_eq_some_iff] at hok
  obtain ⟨sched, hsched, hok⟩ := hok
  split at hok
  · cases hok
  · obtain rfl := Option.some.inj hok
    obtain ⟨waiting, ready, hinv⟩ := h.kept
    obtain ⟨hleft, hsome⟩ := placed_leave hinv.semaphores.placed h.running
    have hnot := fun ht => ((hsome t).mp ht).2 rfl
    have hback : Function.update (Function.update s.sems.sched.active t true) t false =
        s.sems.sched.active := by
      rw [Function.update_idem]
      exact Function.update_eq_self_iff.mpr h.inactive.symm
    have hplaced : Placed { s.sems.sched with threadInEsecuzione := none } waiting ready := by
      simpa only [State.setStage, State.setActive, State.setSched, hback] using
        placed_deactivate hleft hnot
    obtain ⟨-, ready', hscheduled, hsame⟩ := hplaced.schedule hsched
    have hsomewhere : ∀ k, Somewhere sched waiting ready' k ↔
        Somewhere s.sems.sched waiting ready k ∧ k ≠ t := fun k =>
      (or_congr_left (hsame k)).trans (hsome k)
    have hdone := hinv.restage t .free
      (semaphores_sched hinv.semaphores hscheduled) ?_ (fun k hk => ?_)
      (iff_of_false nofun fun ht => ((hsomewhere t).mp ht).2 rfl) (fun t' ht' => ?_)
    · have hstage : Function.update ((s.setActive t true).setStage t .released).stage t .free =
          s.stage := by
        rw [State.setStage, Function.update_idem]
        exact Function.update_eq_self_iff.mpr h.stage.symm
      rw [hstage] at hdone
      exact Kept.goto (s := s.setSched sched) ⟨waiting, ready', hdone⟩ (mayGo_none rfl rfl)
    · exact (hplaced.schedule_active hsched).trans hback.symm
    · exact (hsomewhere k).trans (and_iff_left hk)
    · have hmaking := hinv.making t' t ht'
      simp [State.setStage] at hmaking

/-- The stacks of the thread are freed, while nobody else has `Mem_Sem`. -/
theorem Leaving.exitUser (h : Leaving s t)
    (hpos : s.userStack t = true → 0 < s.sems.status (.inr (.memSem (s.task t))))
    (hok : s.exitUser t = some s') : Kept s' := by
  rw [State.exitUser] at hok
  split at hok
  · next hstack =>
    obtain ⟨hnext, hleaving⟩ := h.linearFree (hpos hstack)
    rw [hnext] at hok
    have hfreed : Leaving (State.setUserStack
        { s with sems := passed s.sems (.memSem (s.task t)) } t false) t :=
      ⟨hleaving.kept, hleaving.running, hleaving.inactive, hleaving.stage⟩
    exact hfreed.exitEnd hok
  · exact h.exitEnd hok

theorem Leaving.exitKernel (h : Leaving s t)
    (hpos : s.kernelStack t = true ∨ s.userStack t = true →
      0 < s.sems.status (.inr (.memSem (s.task t))))
    (hok : s.exitKernel t = some s') : Kept s' := by
  rw [State.exitKernel] at hok
  split at hok
  · next hstack =>
    obtain ⟨hnext, hleaving⟩ := h.linearFree (hpos (.inl hstack))
    rw [hnext] at hok
    have hfreed : Leaving (State.setKernelStack
        { s with sems := passed s.sems (.memSem (s.task t)) } t false) t :=
      ⟨hleaving.kept, hleaving.running, hleaving.inactive, hleaving.stage⟩
    -- `Mem_Sem` is free again
    refine hfreed.exitUser (fun _ => ?_) hok
    have hone : (passed s.sems (.memSem (s.task t))).status (.inr (.memSem (s.task t))) = 1 :=
      Function.update_self ..
    exact hone ▸ (by decide : (0 : Dword) < 1)
  · exact h.exitUser (fun huser => hpos (.inr huser)) hok

theorem removed_eq (hok : s.removed cfg tid = some s') : ∃ sched stage,
    s' = { s with sems := { s.sems with sched := sched }, stage := stage } := by
  simp only [State.removed, Option.bind_eq_bind, Option.bind_eq_some_iff,
    Option.some.injEq] at hok
  obtain ⟨⟨found, sched⟩, -, rfl⟩ := hok
  cases found
  · exact ⟨sched, s.stage, rfl⟩
  · exact ⟨sched, _, rfl⟩

omit [DecidableEq T] in
/-- A `Bool_V` changes one semaphore. -/
theorem boolV_status {sems sems' : Semaphore.State W} {l l' : Lock P B} (hl : l' ≠ l)
    (hok : sems.boolV l = some sems') : sems'.status (.inr l') = sems.status (.inr l') := by
  have hne : (.inr l' : S ⊕ Lock P B) ≠ .inr l := fun heq => hl (Sum.inr.inj heq)
  rw [Semaphore.State.boolV, Semaphore.State.release] at hok
  split at hok
  · obtain rfl := Option.some.inj hok
    exact Function.update_of_ne hne ..
  · simp only [Option.bind_eq_bind, Option.bind_eq_some_iff, Option.some.injEq] at hok
    obtain ⟨sched, -, rfl⟩ := hok
    rfl

theorem Kept.exitLocked (h : Kept s) (hrun : s.sems.sched.threadInEsecuzione = some t)
    (hpos : s.kernelStack t = true ∨ s.userStack t = true →
      0 < s.sems.status (.inr (.memSem (s.task t))))
    (hok : s.exitLocked cfg t = some s') : Kept s' := by
  simp only [State.exitLocked, Option.bind_eq_bind, Option.bind_eq_some_iff] at hok
  obtain ⟨jj, -, s₁, hreleased, s₂, hremoved, hok⟩ := hok
  have h₁ : Kept s₁ := Kept.released (s := s.setThread _ jj none) h hreleased
  obtain ⟨hrun₁, -⟩ := released_same hreleased
  obtain ⟨h₂, hrun₂, -⟩ := h₁.removed hremoved
  simp only [State.released, Option.bind_eq_bind, Option.bind_eq_some_iff,
    Option.some.injEq] at hreleased
  obtain ⟨sems, hsems, rfl⟩ := hreleased
  obtain ⟨sched, stage, rfl⟩ := removed_eq hremoved
  have hne : (.memSem (s.task t) : Lock P B) ≠ .mutex (s.task t) := by rintro ⟨⟩
  have hstatus := boolV_status hne hsems
  have hleaving := h₂.leaving (hrun₂.trans (hrun₁.trans hrun))
  refine hleaving.exitKernel (fun hstack => ?_) hok
  have hfree := hpos hstack
  exact hstatus.symm ▸ hfree

/-! ### Making threads -/

/-- Nobody else begins to make a thread when one returns from its call. -/
theorem making_goto_user {u : T} (h : ∀ t' ≠ u, (s.pc t').making ≠ some tid) (t' : T) :
    ((s.goto u .user).pc t').making ≠ some tid := by
  rw [State.goto, making_update]
  split
  · rintro ⟨⟩
  · exact h t' ‹_›

theorem Kept.created (h : Kept s) (hrun : s.sems.sched.threadInEsecuzione = some t)
    {first : Option P} (hmaking : s.stage tid = .making ∧ ∀ t' ≠ t, (s.pc t').making ≠ some tid)
    (hok : s.created t first tid = some s') : Kept s' := by
  cases first with
  | none =>
    refine h.acquired hrun ⟨fun k hk => ?_, rfl⟩ hok
    obtain rfl := Option.some.inj hk
    exact hmaking
  | some processo =>
    have hdone := h.goto (t := t) mayGo_user
    obtain ⟨waiting, ready, hinv⟩ := hdone
    have hnot := mt (hinv.released tid).mpr (by simp [State.goto, hmaking.1])
    have hactive : s.sems.sched.active tid = true := (hinv.active tid).mpr (by
      simp [State.goto, hmaking.1])
    refine Kept.released (s := ((s.setThread processo 0 (some tid)).setStage tid
      .suspended).goto t .user) ⟨waiting, ready, ?_⟩ hok
    refine hinv.restage _ _ hinv.semaphores ?_ (fun _ _ => Iff.rfl)
      (iff_of_false (by rintro ⟨⟩) hnot) ?_
    · exact (Function.update_eq_self_iff.mpr hactive.symm).symm
    · exact making_goto_user hmaking.2

theorem Kept.createUserStack (h : Kept s) (hrun : s.sems.sched.threadInEsecuzione = some t)
    {first : Option P} (hmaking : s.stage tid = .making ∧ ∀ t' ≠ t, (s.pc t').making ≠ some tid)
    (hok : s.createUserStack t first tid = some s') : Kept s' := by
  simp only [State.createUserStack] at hok
  split at hok
  · exact Kept.created (s := s.setUserStack tid false) h hrun hmaking hok
  · refine h.acquired hrun ⟨fun k hk => ?_, rfl⟩ hok
    obtain rfl := Option.some.inj hk
    exact hmaking

theorem Kept.setOwner (h : Kept s) (tid : T) (processo : P) : Kept (s.setOwner tid processo) :=
  Kept.goto (s := { s with
    task := Function.update s.task tid processo
    pid := Function.update s.pid tid (s.processi processo).pid }) h (mayGo_none rfl rfl)

theorem Kept.forkThread (h : Kept s) (hstage : s.stage tid = .making)
    (hmaking : ∀ t', (s.pc t').making ≠ some tid) {processo : P}
    (hok : s.forkThread t processo tid = some s') : Kept s' := by
  have hcopy : Kept (((s.setThread processo 0 (some tid)).setKernelStack tid
      (s.kernelStack t)).setUserStack tid (s.userStack t)) := h
  have hback := (hcopy.setOwner tid processo).goto (t := t)
    mayGo_user
  have hne : s.stage tid ≠ .released := by
    rw [hstage]
    exact nofun
  refine hback.added hne ?_ hok
  exact making_goto_user fun t' _ => making_goto_user (s := { s with
    task := Function.update s.task tid processo }) (fun t' _ => hmaking t') t'

theorem Kept.addThreadToProcess (h : Kept s) (hpc : (s.pc t).making = some tid)
    {front : ThreadIdx T} (hentry : entry (s.processi (s.task t)).threads none ≠ none)
    (hok : s.addThreadToProcess t tid front = some s') : Kept s' := by
  have hmay := h.still_making hpc
  simp only [State.addThreadToProcess] at hok
  split at hok
  · next jj _ =>
    simp only [Option.bind_eq_bind, Option.bind_eq_some_iff] at hok
    obtain ⟨s₁, hreleased, hok⟩ := hok
    obtain ⟨sems, rfl, -, hkeeps⟩ := released_ok hreleased
    have hput : Kept { s.setThread (s.task t) jj (some tid) with sems := sems } := h.keeps hkeeps
    have hne : s.stage tid ≠ .released := by
      rw [hmay.1]
      exact nofun
    exact (hput.goto (t := t) mayGo_user).added hne
      (making_goto_user hmay.2) hok
  · exact absurd ‹_› hentry

omit [DecidableEq T] in
theorem Kept.getFreeProcessSlot (h : Kept s) {processo : P}
    (hok : s.getFreeProcessSlot cfg = some (processo, s')) : Kept s' ∧ SameCalls s s' := by
  simp only [State.getFreeProcessSlot, Option.bind_eq_bind, Option.bind_eq_some_iff,
    Option.some.injEq, Prod.mk.injEq] at hok
  obtain ⟨processo, -, s₁, hreleased, -, rfl⟩ := hok
  obtain ⟨sems, rfl, hrun, hkeeps⟩ := released_ok hreleased
  exact ⟨h.keeps hkeeps, hrun, rfl⟩

/-! ### Steps -/

theorem Kept.signalk (h : Kept s) (hrun : s.sems.sched.threadInEsecuzione = some t)
    {segnale : Dword} {tid : ThreadIdx T} (hcont : segnale = signalCont → ProperCont s tid)
    (hok : s.signalk cfg t segnale tid = some s') : Kept s' := by
  cases tid with
  | none => cases hok
  | some tid =>
    simp only [State.signalk] at hok
    split at hok
    · exact h.destroyThread hrun hok
    · split at hok
      · next hsegnale =>
        have hstage : s.stage tid = .suspended := hcont hsegnale
        refine h.added (by rw [hstage]; exact nofun) (fun t' ht' => ?_) hok
        obtain ⟨waiting, ready, hinv⟩ := h
        have hmaking := hinv.making t' tid ht'
        rw [hstage] at hmaking
        cases hmaking
      · split at hok
        · exact (h.removed hok).1
        · exact h.acquired hrun (mayGo_none rfl rfl) hok

theorem Kept.signal (h : Kept s) (hrun : s.sems.sched.threadInEsecuzione = some t)
    {pid segnale : Dword} (hcont : segnale = signalCont → ProperCont s (s.target cfg pid))
    (hok : s.signal cfg t pid segnale = some s') : Kept s' := by
  rw [State.signal] at hok
  split at hok
  · obtain rfl := Option.some.inj hok
    exact h
  · next processo hfind =>
    split at hok
    · refine h.signalk hrun (fun hsegnale => ?_) hok
      have hproper := hcont hsegnale
      rwa [State.target, hfind] at hproper
    · obtain rfl := Option.some.inj hok
      exact h

omit [DecidableEq T] in
theorem Kept.queueSignal (h : Kept s) {processo : P} {segnale : Dword}
    (hok : s.queueSignal processo segnale = some s') : Kept s' := by
  rw [State.queueSignal] at hok
  split at hok
  · cases hok
  · exact Kept.released (s := s.setTask processo _) h hok

theorem Kept.proceed (h : Kept s) (hrun : s.sems.sched.threadInEsecuzione = some t)
    {front : ThreadIdx T} (hproper : ProperPc s t (s.pc t))
    (hok : s.proceed cfg t front (s.pc t) = some s') : Kept s' := by
  cases hpc : s.pc t with
  | user =>
    rw [hpc] at hok
    cases hok
  | processSlot level =>
    rw [hpc] at hok
    cases level with
    | none =>
      simp only [State.proceed, Option.bind_eq_bind, Option.bind_eq_some_iff] at hok
      obtain ⟨⟨processo, s₁⟩, hslot, hok⟩ := hok
      obtain ⟨h₁, hrun₁, -⟩ := h.getFreeProcessSlot hslot
      exact Kept.acquired (s := s₁.setTask processo _) h₁ (hrun₁.trans hrun)
        (mayGo_none rfl rfl) hok
    | some level =>
      simp only [State.proceed, Option.bind_eq_bind, Option.bind_eq_some_iff] at hok
      obtain ⟨⟨processo, s₁⟩, hslot, hok⟩ := hok
      obtain ⟨h₁, hrun₁, -⟩ := h.getFreeProcessSlot hslot
      exact h₁.acquired (hrun₁.trans hrun) (mayGo_none rfl rfl) hok
  | newProcess processo level =>
    rw [hpc] at hok
    exact Kept.acquired (s := s.setTask processo _) h hrun (mayGo_none rfl rfl) hok
  | threadSlot first =>
    rw [hpc] at hok
    simp only [State.proceed, Option.bind_eq_bind, Option.bind_eq_some_iff] at hok
    obtain ⟨⟨tid, s₁⟩, hslot, hok⟩ := hok
    obtain ⟨h₁, ⟨hrun₁, -⟩, hstage, hmaking⟩ := h.getFreeThreadSlot hslot
    refine (h₁.setOwner _ _).acquired (hrun₁.trans hrun) ⟨fun k hk => ?_, rfl⟩ hok
    obtain rfl := Option.some.inj hk
    exact ⟨hstage, fun t' _ => making_goto_user (s := { s₁ with
      task := Function.update s₁.task tid (s₁.task t) }) (fun t' _ => hmaking t') t'⟩
  | forkSlot processo =>
    rw [hpc] at hok
    simp only [State.proceed, Option.bind_eq_bind, Option.bind_eq_some_iff] at hok
    obtain ⟨⟨tid, s₁⟩, hslot, hok⟩ := hok
    obtain ⟨h₁, -, hstage, hmaking⟩ := h.getFreeThreadSlot hslot
    exact h₁.forkThread hstage hmaking hok
  | allocKernelStack first tid =>
    have hmaking := h.still_making (by rw [hpc]; rfl)
    rw [hpc] at hok
    simp only [State.proceed, Option.bind_eq_bind, Option.bind_eq_some_iff] at hok
    obtain ⟨s₁, hreleased, hok⟩ := hok
    obtain ⟨sems, rfl, hrun₁, hkeeps⟩ := released_ok hreleased
    exact Kept.createUserStack (s := State.setKernelStack { s with sems := sems } tid true)
      (h.keeps hkeeps) (hrun₁.trans hrun) hmaking hok
  | allocUserStack first tid =>
    have hmaking := h.still_making (by rw [hpc]; rfl)
    rw [hpc] at hok
    simp only [State.proceed, Option.bind_eq_bind, Option.bind_eq_some_iff] at hok
    obtain ⟨s₁, hreleased, hok⟩ := hok
    obtain ⟨sems, rfl, hrun₁, hkeeps⟩ := released_ok hreleased
    exact Kept.created (s := State.setUserStack { s with sems := sems } tid true)
      (h.keeps hkeeps) (hrun₁.trans hrun) hmaking hok
  | addThread tid =>
    rw [hpc] at hok hproper
    exact h.addThreadToProcess (by rw [hpc]; rfl) hproper hok
  | sigQueue processo segnale =>
    rw [hpc] at hok
    exact (h.goto (mayGo_none rfl rfl)).queueSignal hok
  | destroyMutex tid =>
    rw [hpc] at hok hproper
    exact h.destroyLocked hrun hproper hok
  | destroyKernelStack tid processo =>
    rw [hpc] at hok hproper
    simp only [State.proceed, Option.bind_eq_bind, Option.bind_eq_some_iff] at hok
    obtain ⟨s₁, hreleased, hok⟩ := hok
    obtain ⟨sems, rfl, hrun₁, hkeeps⟩ := released_ok hreleased
    exact Kept.destroyUser (s := State.setKernelStack { s with sems := sems } t false)
      (h.keeps hkeeps) (hrun₁.trans hrun) hproper hok
  | destroyUserStack tid processo =>
    rw [hpc] at hok hproper
    simp only [State.proceed, Option.bind_eq_bind, Option.bind_eq_some_iff,
      Option.some.injEq] at hok
    obtain ⟨s₁, hreleased, rfl⟩ := hok
    obtain ⟨sems, rfl, hrun₁, hkeeps⟩ := released_ok hreleased
    exact Kept.destroyed (s := State.setUserStack { s with sems := sems } t false)
      (h.keeps hkeeps) hproper
  | exitMutex =>
    rw [hpc] at hok hproper
    exact h.exitLocked hrun hproper hok
  | exitKernelStack =>
    obtain ⟨waiting, ready, hinv⟩ := h
    exact absurd (hinv.left t) (by rw [hpc]; exact nofun)
  | exitUserStack =>
    obtain ⟨waiting, ready, hinv⟩ := h
    exact absurd (hinv.left t) (by rw [hpc]; exact nofun)

variable {act : Act S B T}

theorem Kept.call (h : Kept s) (hrun : s.sems.sched.threadInEsecuzione = some t)
    (hproper : ProperBy cfg s act (some t)) (hok : s.call cfg t act = some s') : Kept s' := by
  cases act with
  | P sem =>
    simp only [State.call, Option.bind_eq_bind, Option.bind_eq_some_iff,
      Option.some.injEq] at hok
    obtain ⟨sems, hsems, rfl⟩ := hok
    exact h.keeps (keeps_acquire (.inl sem) hrun hsems)
  | boolP sem => exact h.acquired hrun (mayGo_none rfl rfl) hok
  | nonBlockP sem =>
    obtain rfl := Option.some.inj hok
    exact h.keeps (keeps_tryAcquire (.inl sem))
  | nonBlockBoolP sem =>
    obtain rfl := Option.some.inj hok
    exact h.keeps (keeps_tryAcquire (.inr (Lock.other sem)))
  | createProcess level => exact h.acquired hrun (mayGo_none rfl rfl) hok
  | fork => exact h.acquired hrun (mayGo_none rfl rfl) hok
  | createThread => exact h.acquired hrun (mayGo_none rfl rfl) hok
  | exitThread =>
    simp only [State.call] at hok
    split at hok
    · cases hok
    · exact h.acquired hrun (mayGo_none rfl rfl) hok
  | signal pid segnale => exact h.signal hrun hproper hok
  | V sem => cases hok
  | boolV sem => cases hok
  | schedule => cases hok
  | proceed front => cases hok

theorem Kept.exec (h : Kept s) (hproper : Proper cfg s act) (hok : exec cfg s act = some s') :
    Kept s' := by
  rw [Proper] at hproper
  unfold Threads.exec at hok
  split at hok
  · cases hok
  · next t hrun =>
    rw [hrun] at hproper
    split at hok
    · next sem =>
      simp only [Option.bind_eq_bind, Option.bind_eq_some_iff, Option.some.injEq] at hok
      obtain ⟨sems, hsems, rfl⟩ := hok
      exact h.keeps (keeps_release (.inl sem) hsems).2
    · exact h.released hok
    · simp only [Option.bind_eq_bind, Option.bind_eq_some_iff, Option.some.injEq] at hok
      obtain ⟨sched, hsched, rfl⟩ := hok
      exact h.keeps (keeps_schedule hsched)
    · exact h.proceed hrun hproper hok
    · split at hok
      · exact h.call hrun hproper hok
      · cases hok

theorem kept_boot (value : S ⊕ B → Dword) : Kept (boot cfg W value) := by
  have hrunnable : (boot cfg W value).sems.sched.runnable [] = [cfg.kernelThread] := by
    simp [boot, Semaphore.boot, Sched.runnable]
  refine ⟨fun _ => [], [], .boot _ _, fun t => ?_, fun t => ?_, by rintro _ _ ⟨⟩,
    by rintro _ _ _ ⟨⟩, fun _ => rfl⟩
  · by_cases ht : t = cfg.kernelThread
    · simp [boot, Semaphore.boot, ht]
    · simp [boot, Semaphore.boot, ht]
  · rw [Somewhere, hrunnable]
    by_cases ht : t = cfg.kernelThread
    · simp [boot, ht]
    · simp [boot, ht]

section
variable {S B P T : Type} [DecidableEq S] [DecidableEq B] [DecidableEq P] [DecidableEq T]

/-- While only suspended threads are continued and destroyed, tables have room for new
threads, and none blocks after its destruction, every thread is at its one place. -/
theorem threads_well_placed (cfg : Config P T) (build : Build (S ⊕ Lock P B) T)
    (value : S ⊕ B → Dword) {acts : List (Act S B T)} {s : State P build.queues}
    (h : Run (Guarded (Proper cfg) (Computes (exec cfg))) (boot cfg build.queues value) acts s) :
    WellPlaced s := by
  have hkept : Kept s := by
    refine h.invariant (I := Kept) ?_ (kept_boot value)
    rintro s act s' hs ⟨hproper, hstep⟩
    exact hs.exec hproper hstep
  exact hkept.wellPlaced

end

local instance instNeZeroSix : NeZero 6 := ⟨by decide⟩

local instance instNeZeroEight : NeZero 8 := ⟨by decide⟩

/-- Eight processes and six threads at most. -/
def few : Config (Fin 8) (Fin 6) where
  processi := List.finRange 8
  threads := List.finRange 6
  pidKernel := 0
  kernelThread := 0

def dynamic : Build (Unit ⊕ Lock (Fin 8) Unit) (Fin 6) := .dynamicSemaphore fun _ => none

/-- A process is created and started. -/
def launch (pid : Dword) : List (Act Unit Unit (Fin 6)) :=
  [.createProcess .superVisor, .proceed none, .proceed none, .proceed none, .proceed none,
    .signal pid signalCont]

/-- Thread 1, of process 5, launches process 6, whose thread 2 sleeps. -/
def asleep : List (Act Unit Unit (Fin 6)) :=
  launch 5 ++ [.schedule] ++ launch 6 ++ [.schedule, .schedule, .P ()]

/-- Thread 2 is woken, stopped and destroyed, and thread 1 exits. -/
def tidy : List (Act Unit Unit (Fin 6)) :=
  asleep ++ [.V (), .signal 6 signalStop, .signal 6 signalDestroy, .proceed none, .proceed none,
    .exitThread, .proceed none]

def reached (acts : List (Act Unit Unit (Fin 6))) : State (Fin 8) dynamic.queues :=
  (acts.foldlM (exec few) (boot few dynamic.queues fun _ => 0)).getD
    (boot few dynamic.queues fun _ => 0)

theorem threads_well_placed_tidy : WellPlaced (reached tidy) := by
  have hrun : Run (Guarded (Proper few) (Computes (exec few)))
      (boot few dynamic.queues fun _ => 0) tidy (reached tidy) := Run.of_foldlM_checked rfl
  exact threads_well_placed few dynamic (fun _ => 0) hrun

/-- Thread 1 destroys thread 2 while it sleeps. -/
def careless : List (Act Unit Unit (Fin 6)) :=
  asleep ++ [.signal 6 signalDestroy, .proceed none, .proceed none]

/-- The destroyed thread stays in the queue of the semaphore. -/
theorem destroyed_thread_asleep :
    Run (Computes (exec few)) (boot few dynamic.queues fun _ => 0) careless (reached careless) ∧
      ¬ WellPlaced (reached careless) := by
  refine ⟨Run.of_foldlM rfl, ?_⟩
  rintro ⟨waiting, ready, hplaced⟩
  have hlinks : Links.Waiting (reached careless).sems.queues waiting := hplaced.queues
  have hlinked := hlinks.linked (.inl ())
  have hhead : Links.headThread (reached careless).sems.queues (.inl ()) = some 2 := by
    decide +kernel
  rw [hhead] at hlinked
  obtain ⟨rest, hwaits, -⟩ := hlinked.eq_of_some
  have hinactive : ¬ (reached careless).sems.sched.active 2 := by decide +kernel
  refine hplaced.destroyed 2 hinactive (.waiting (.inl ())) ?_
  rw [In, hwaits]
  exact List.mem_cons_self

end OsdevArchive.Osso.Threads
