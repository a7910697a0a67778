import OsdevArchive.Osso.Semaphore

/-!
Every thread runs, is ready or sleeps on one semaphore, and at one place only; so the
queues hold who blocked and was not woken, in order. The units balance as long as no
`V` raises the largest status.
-/

namespace OsdevArchive.Osso.Semaphore

open OsdevArchive.Lib.Runs OsdevArchive.Lib.RingBuffer

/-! ### Where the threads are -/

section
variable {Sem T : Type} {sc sc' : Sched T} {waiting : Sem → List T} {ready : List T} {sem : Sem}
  {t : T} {rest : List T}

/-- Every thread that is active at most runs, is ready or sleeps. -/
structure Placed (sc : Sched T) (waiting : Sem → List T) (ready : List T) : Prop where
  codaPronti : sc.Ready ready
  nodup : (sc.runnable ready).Nodup
  apart : Apart waiting
  asleep : ∀ sem, ∀ t ∈ waiting sem, t ∉ sc.runnable ready
  runnableActive : ∀ t ∈ sc.runnable ready, sc.active t
  sleeperActive : ∀ sem, ∀ t ∈ waiting sem, sc.active t

theorem runnable_put {a : T → Bool} :
    Sched.runnable ⟨sc.codaPronti.put (some t), sc.threadInEsecuzione, a⟩ (ready ++ [t]) =
      sc.runnable ready ++ [t] := by
  simp [Sched.runnable]

theorem Placed.not_mem (h : Placed sc waiting ready) (ht : sc.threadInEsecuzione = some t)
    (sem : Sem) : t ∉ waiting sem := fun hmem =>
  h.asleep sem t hmem (by simp [Sched.runnable, ht])

theorem Placed.schedule_active [DecidableEq T] (h : Placed sc waiting ready)
    (hs : sc.scheduleNextThread = some sc') : sc'.active = sc.active :=
  (h.codaPronti.schedule h.nodup hs).1

theorem Placed.schedule [DecidableEq T] (h : Placed sc waiting ready)
    (hs : sc.scheduleNextThread = some sc') :
    (ready ≠ [] → sc'.threadInEsecuzione ≠ none) ∧ ∃ ready', Placed sc' waiting ready' ∧
      ∀ t, t ∈ sc'.runnable ready' ↔ t ∈ sc.runnable ready := by
  obtain ⟨hactive, hgoes, ready', hready, hperm⟩ := h.codaPronti.schedule h.nodup hs
  refine ⟨hgoes, ready', ?_, fun t => hperm.mem_iff⟩
  exact
    { codaPronti := hready
      nodup := hperm.nodup_iff.mpr h.nodup
      apart := h.apart
      asleep := fun sem t ht hmem => h.asleep sem t ht (hperm.mem_iff.mp hmem)
      runnableActive := fun t ht => hactive ▸ h.runnableActive t (hperm.mem_iff.mp ht)
      sleeperActive := fun sem t ht => hactive ▸ h.sleeperActive sem t ht }

/-- A thread becomes active. -/
theorem Placed.activate [DecidableEq T] (h : Placed sc waiting ready) (t : T) :
    Placed { sc with active := Function.update sc.active t true } waiting ready := by
  have hmono : ∀ t', sc.active t' → Function.update sc.active t true t' = true := by
    intro t' hactive
    by_cases ht : t' = t
    · rw [ht, Function.update_self]
    · rwa [Function.update_of_ne ht]
  exact
    { codaPronti := h.codaPronti
      nodup := h.nodup
      apart := h.apart
      asleep := h.asleep
      runnableActive := fun t' ht' => hmono t' (h.runnableActive t' ht')
      sleeperActive := fun sem t' ht' => hmono t' (h.sleeperActive sem t' ht') }

/-- A thread that is nowhere becomes ready. -/
theorem Placed.add (h : Placed sc waiting ready) (hactive : sc.active t)
    (hrun : t ∉ sc.runnable ready) (hwaits : ∀ sem, t ∉ waiting sem)
    (hroom : sc.codaPronti.head ≠ advance sc.codaPronti.tail) :
    Placed { sc with codaPronti := sc.codaPronti.put (some t) } waiting (ready ++ [t]) := by
  constructor
  · exact h.codaPronti.add hroom
  · rw [runnable_put]
    refine h.nodup.append (List.nodup_singleton t) ?_
    rwa [List.disjoint_singleton]
  · exact h.apart
  · intro sem t' ht' hmem
    rw [runnable_put, List.mem_append, List.mem_singleton] at hmem
    rcases hmem with hmem | rfl
    · exact h.asleep sem t' ht' hmem
    · exact hwaits sem ht'
  · intro t' hmem
    rw [runnable_put, List.mem_append, List.mem_singleton] at hmem
    rcases hmem with hmem | rfl
    · exact h.runnableActive t' hmem
    · exact hactive
  · exact h.sleeperActive

theorem Placed.create [DecidableEq T] (h : Placed sc waiting ready) (ht : ¬ sc.active t)
    (hroom : sc.codaPronti.head ≠ advance sc.codaPronti.tail) :
    Placed ⟨sc.codaPronti.put (some t), sc.threadInEsecuzione, Function.update sc.active t true⟩
      waiting (ready ++ [t]) :=
  (h.activate t).add (Function.update_self ..) (fun hmem => ht (h.runnableActive t hmem))
    (fun sem hmem => ht (h.sleeperActive sem t hmem)) hroom

variable [DecidableEq Sem]

/-- The running thread goes to sleep. -/
theorem Placed.sleep (h : Placed sc waiting ready) (sem : Sem)
    (ht : sc.threadInEsecuzione = some t) :
    Placed { sc with threadInEsecuzione := none }
      (Function.update waiting sem (waiting sem ++ [t])) ready := by
  have hrunnable : sc.runnable ready = t :: ready := by simp [Sched.runnable, ht]
  have hnodup := h.nodup
  rw [hrunnable, List.nodup_cons] at hnodup
  have hnone : Sched.runnable { sc with threadInEsecuzione := none } ready = ready := by
    simp [Sched.runnable]
  constructor
  · exact h.codaPronti
  · rw [hnone]
    exact hnodup.2
  · exact h.apart.enqueue (h.not_mem ht)
  · intro sem' t' ht' hmem
    rw [hnone] at hmem
    rw [mem_update_append] at ht'
    rcases ht' with ht' | ⟨-, rfl⟩
    · exact h.asleep sem' t' ht' (hrunnable ▸ List.mem_cons_of_mem t hmem)
    · exact hnodup.1 hmem
  · intro t' hmem
    rw [hnone] at hmem
    exact h.runnableActive t' (hrunnable ▸ List.mem_cons_of_mem t hmem)
  · intro sem' t' ht'
    rw [mem_update_append] at ht'
    rcases ht' with ht' | ⟨-, rfl⟩
    · exact h.sleeperActive sem' t' ht'
    · exact h.runnableActive t' (hrunnable ▸ List.mem_cons_self)

/-- The first thread of a queue is woken. -/
theorem Placed.wake (h : Placed sc waiting ready) (hw : waiting sem = t :: rest)
    (hroom : sc.codaPronti.head ≠ advance sc.codaPronti.tail) :
    Placed { sc with codaPronti := sc.codaPronti.put (some t) }
      (Function.update waiting sem rest) (ready ++ [t]) := by
  have hmem : t ∈ waiting sem := hw ▸ List.mem_cons_self
  have hleft : Placed sc (Function.update waiting sem rest) ready :=
    { codaPronti := h.codaPronti
      nodup := h.nodup
      apart := h.apart.dequeue hw
      asleep := fun sem' t' ht' => h.asleep sem' t' (mem_of_mem_update_tail hw ht')
      runnableActive := h.runnableActive
      sleeperActive := fun sem' t' ht' => h.sleeperActive sem' t' (mem_of_mem_update_tail hw ht') }
  exact hleft.add (h.sleeperActive sem t hmem) (h.asleep sem t hmem) (h.apart.not_mem_dequeue hw)
    hroom

end

/-! ### What a step can do -/

section
variable {S B T : Type} [DecidableEq S] [DecidableEq B] [DecidableEq T] {W : Queues (S ⊕ B) T}
  {s t : State W} {a : Act S B T} {sem : S ⊕ B} {waiting : S ⊕ B → List T} {ready : List T}

/-- What the `P` of a semaphore does to a positive status. -/
def lower : S ⊕ B → Dword → Dword
  | .inl _, status => status - 1
  | .inr _, _ => 0

/-- What the `V` of a semaphore does to the status when nobody sleeps. -/
def raise : S ⊕ B → Dword → Dword
  | .inl _, status => status + 1
  | .inr _, _ => 1

inductive Moves (s : State W) (a : Act S B T) : State W → Prop where
  | granted (sem : S ⊕ B) (tid : ThreadIdx T) (hpos : 0 < s.status sem) :
      Moves s a { s with
        status := Function.update s.status sem (lower sem (s.status sem))
        trace := s.trace ++ [.granted sem tid] }
  | blocked (sem : S ⊕ B) (r : T) (queues : W.Store) (sched : Sched T)
      (hrun : s.sched.threadInEsecuzione = some r) (hzero : ¬ 0 < s.status sem)
      (hqueues : W.enqueue s.queues sem (some r) = some queues)
      (hsched : { s.sched with threadInEsecuzione := none }.scheduleNextThread = some sched) :
      Moves s a { s with
        queues := queues, sched := sched, trace := s.trace ++ [.blocked sem (some r)] }
  | raised (sem : S ⊕ B) (hempty : W.isEmpty s.queues sem)
      (hact : ∀ c, sem = .inl c → a = .V c) :
      Moves s a { s with
        status := Function.update s.status sem (raise sem (s.status sem))
        trace := s.trace ++ [.raised sem] }
  | woken (sem : S ⊕ B) (sched : Sched T) (hsleeps : ¬ W.isEmpty s.queues sem)
      (hsched : s.sched.addThreadToCodaPronti (W.dequeue s.queues sem).1 = some sched) :
      Moves s a { s with
        queues := (W.dequeue s.queues sem).2, sched := sched
        trace := s.trace ++ [.woken sem (W.dequeue s.queues sem).1] }
  | refused : Moves s a s
  | scheduled (sched : Sched T) (hsched : s.sched.scheduleNextThread = some sched) :
      Moves s a { s with sched := sched }
  | created (t : T) (hfree : ¬ s.sched.active t)
      (hroom : s.sched.codaPronti.head ≠ advance s.sched.codaPronti.tail) :
      Moves s a { s with
        sched := ⟨s.sched.codaPronti.put (some t), s.sched.threadInEsecuzione,
          Function.update s.sched.active t true⟩ }

variable (sem) in
theorem moves_acquire (h : s.called (s.acquire (lower sem) sem) = some t) : Moves s a t := by
  rw [State.called] at h
  split at h
  · cases h
  · obtain ⟨r, hr⟩ := Option.ne_none_iff_exists'.mp ‹_›
    simp only [State.acquire] at h
    split at h
    · obtain rfl := Option.some.inj h
      exact .granted sem _ ‹_›
    · simp only [Option.bind_eq_bind, Option.bind_eq_some_iff, Option.some.injEq, hr] at h
      obtain ⟨queues, hqueues, sched, hsched, rfl⟩ := h
      exact .blocked sem r queues sched hr ‹_› hqueues hsched

variable (sem) in
theorem moves_tryAcquire (h : s.called (some (s.tryAcquire (lower sem) sem).2) = some t) :
    Moves s a t := by
  rw [State.called] at h
  split at h
  · cases h
  · simp only [State.tryAcquire] at h
    split at h <;> obtain rfl := Option.some.inj h
    · exact .granted sem _ ‹_›
    · exact .refused

variable (sem) in
theorem moves_release (hact : ∀ c, sem = .inl c → a = .V c)
    (h : s.release (raise sem) sem = some t) : Moves s a t := by
  rw [State.release] at h
  split at h
  · obtain rfl := Option.some.inj h
    exact .raised sem ‹_› hact
  · simp only [Option.bind_eq_bind, Option.bind_eq_some_iff, Option.some.injEq] at h
    obtain ⟨sched, hsched, rfl⟩ := h
    exact .woken sem sched ‹_› hsched

theorem exec_moves (h : exec s a = some t) : Moves s a t := by
  cases a with
  | P sem => exact moves_acquire (.inl sem) h
  | boolP sem => exact moves_acquire (.inr sem) h
  | nonBlockP sem => exact moves_tryAcquire (.inl sem) h
  | nonBlockBoolP sem => exact moves_tryAcquire (.inr sem) h
  | V sem =>
    apply moves_release (.inl sem) _ h
    rintro c ⟨⟩
    rfl
  | boolV sem => exact moves_release (.inr sem) (by simp) h
  | schedule =>
    simp only [exec, Option.bind_eq_bind, Option.bind_eq_some_iff, Option.some.injEq] at h
    obtain ⟨sched, hsched, rfl⟩ := h
    exact .scheduled sched hsched
  | create t =>
    simp only [exec] at h
    split at h
    · cases h
    · simp only [Option.bind_eq_bind, Option.bind_eq_some_iff, Option.some.injEq] at h
      obtain ⟨sched, hsched, rfl⟩ := h
      obtain ⟨t', ht', -, hroom, rfl⟩ := Sched.addThreadToCodaPronti_eq_some hsched
      obtain rfl := Option.some.inj ht'
      exact .created t ‹_› hroom

end

/-! ### The queues and the order of the grants -/

section
variable {S B T : Type} [DecidableEq S] [DecidableEq B] {W : Queues (S ⊕ B) T}
  {s t : State W} {waiting : S ⊕ B → List T} {ready : List T}

/-- The invariant of every run; `waiting` and `ready` are the threads in the queues. -/
structure Inv (s : State W) (waiting : S ⊕ B → List T) (ready : List T) : Prop where
  queues : W.Waiting s.queues waiting
  placed : Placed s.sched waiting ready
  positive : ∀ sem, 0 < s.status sem → waiting sem = []
  order : ∀ sem, s.sleepers sem = s.wakened sem ++ (waiting sem).map some

theorem Inv.positiveEmpty (h : Inv s waiting ready) (sem : S ⊕ B) : PositiveEmpty s sem :=
  fun hpos => (W.isEmpty_iff h.queues sem).mpr (h.positive sem hpos)

theorem Inv.grantedInOrder (h : Inv s waiting ready) (sem : S ⊕ B) : GrantedInOrder s sem :=
  ⟨_, (h.order sem).symm⟩

/-- Only where nobody sleeps is a status changed. -/
theorem Inv.positive_update (h : Inv s waiting ready) {sem : S ⊕ B} (hsem : waiting sem = [])
    (status : Dword) (sem' : S ⊕ B) (hpos : 0 < Function.update s.status sem status sem') :
    waiting sem' = [] := by
  by_cases heq : sem' = sem
  · exact heq ▸ hsem
  · rw [Function.update_of_ne heq] at hpos
    exact h.positive sem' hpos

theorem Inv.granted (h : Inv s waiting ready) {sem : S ⊕ B} (hpos : 0 < s.status sem)
    (status : Dword) (tid : ThreadIdx T) :
    Inv { s with
      status := Function.update s.status sem status
      trace := s.trace ++ [.granted sem tid] } waiting ready where
  queues := h.queues
  placed := h.placed
  positive := h.positive_update (h.positive sem hpos) status
  order sem' := by
    simpa [State.sleepers, State.wakened, List.filterMap_cons, Event.sleeper, Event.wakened]
      using h.order sem'

theorem Inv.raised (h : Inv s waiting ready) {sem : S ⊕ B} (hempty : W.isEmpty s.queues sem)
    (status : Dword) :
    Inv { s with
      status := Function.update s.status sem status
      trace := s.trace ++ [.raised sem] } waiting ready where
  queues := h.queues
  placed := h.placed
  positive := h.positive_update ((W.isEmpty_iff h.queues sem).mp hempty) status
  order sem' := by
    simpa [State.sleepers, State.wakened, List.filterMap_cons, Event.sleeper, Event.wakened]
      using h.order sem'

theorem Inv.woken (h : Inv s waiting ready) {sem : S ⊕ B} {sched : Sched T}
    (hsleeps : ¬ W.isEmpty s.queues sem)
    (hsched : s.sched.addThreadToCodaPronti (W.dequeue s.queues sem).1 = some sched) :
    ∃ first rest, waiting sem = first :: rest ∧
      (∀ k, k ∈ sched.runnable (ready ++ [first]) ↔ k ∈ s.sched.runnable ready ∨ k = first) ∧
      Inv { s with
        queues := (W.dequeue s.queues sem).2, sched := sched
        trace := s.trace ++ [.woken sem (W.dequeue s.queues sem).1] }
        (Function.update waiting sem rest) (ready ++ [first]) := by
  have hne : waiting sem ≠ [] := mt (W.isEmpty_iff h.queues sem).mpr hsleeps
  obtain ⟨first, rest, hw⟩ := List.exists_cons_of_ne_nil hne
  obtain ⟨hfirst, hqueues⟩ := W.waiting_dequeue h.queues h.placed.apart hw
  obtain ⟨first', hsome, -, hroom, rfl⟩ := Sched.addThreadToCodaPronti_eq_some hsched
  obtain rfl : first = first' := Option.some.inj (hfirst.symm.trans hsome)
  refine ⟨first, rest, hw, fun k => ?_, hqueues, h.placed.wake hw hroom, ?_, ?_⟩
  · rw [runnable_put, List.mem_append, List.mem_singleton]
  · intro sem' hpos
    have hsem : sem' ≠ sem := fun heq => hne (h.positive sem (heq ▸ hpos))
    rw [Function.update_of_ne hsem]
    exact h.positive sem' hpos
  · intro sem'
    have horder := h.order sem'
    by_cases hsem : sem' = sem
    · subst hsem
      simp only [State.sleepers, State.wakened, hw] at horder ⊢
      simp [Event.sleeper, Event.wakened, horder, hfirst]
    · simpa [State.sleepers, State.wakened, List.filterMap_cons, Event.sleeper, Event.wakened,
        hsem, Ne.symm hsem] using horder

variable [DecidableEq T]

theorem Inv.boot (value : S ⊕ B → Dword) (kernelThread : T) :
    Inv (boot W value kernelThread) (fun _ => []) [] where
  queues := W.waiting_init
  placed :=
    { codaPronti := .nil rfl
      nodup := List.nodup_singleton kernelThread
      apart := .nil
      asleep := by simp
      runnableActive := by simp [Sched.runnable, Semaphore.boot]
      sleeperActive := by simp }
  positive _ _ := rfl
  order _ := rfl

theorem Inv.blocked (h : Inv s waiting ready) {sem : S ⊕ B} {r : T} {queues : W.Store}
    {sched : Sched T} (hrun : s.sched.threadInEsecuzione = some r)
    (hzero : ¬ 0 < s.status sem) (hqueues : W.enqueue s.queues sem (some r) = some queues)
    (hsched : { s.sched with threadInEsecuzione := none }.scheduleNextThread = some sched) :
    (ready ≠ [] → sched.threadInEsecuzione ≠ none) ∧
      ∃ ready', (∀ k, k ∈ sched.runnable ready' ↔ k ∈ ready) ∧ Inv { s with
        queues := queues, sched := sched, trace := s.trace ++ [.blocked sem (some r)] }
        (Function.update waiting sem (waiting sem ++ [r])) ready' := by
  obtain ⟨hgoes, ready', hplaced, hsame⟩ := (h.placed.sleep _ hrun).schedule hsched
  have hready : ∀ k, k ∈ sched.runnable ready' ↔ k ∈ ready := by
    intro k
    rw [hsame, Sched.runnable, Option.toList_none, List.nil_append]
  refine ⟨hgoes, ready', hready, ?_, hplaced, ?_, ?_⟩
  · exact W.waiting_enqueue h.queues h.placed.apart (h.placed.not_mem hrun) hqueues
  · intro sem' hpos
    have hne : sem' ≠ sem := fun heq => hzero (heq ▸ hpos)
    rw [Function.update_of_ne hne]
    exact h.positive sem' hpos
  · intro sem'
    have horder := h.order sem'
    by_cases hsem : sem' = sem
    · subst hsem
      simp only [State.sleepers, State.wakened] at horder ⊢
      simp [Event.sleeper, Event.wakened, horder]
    · simpa [State.sleepers, State.wakened, List.filterMap_cons, Event.sleeper, Event.wakened,
        hsem, Ne.symm hsem] using horder

theorem Inv.schedule (h : Inv s waiting ready) (hs : exec s (.schedule : Act S B T) = some t) :
    t.status = s.status ∧ ∃ ready', Inv t waiting ready' ∧
      ∀ k ∈ s.sched.runnable ready, k ∈ t.sched.runnable ready' := by
  simp only [exec, Option.bind_eq_bind, Option.bind_eq_some_iff, Option.some.injEq] at hs
  obtain ⟨sched, hsched, rfl⟩ := hs
  obtain ⟨-, ready', hplaced, hsame⟩ := h.placed.schedule hsched
  exact ⟨rfl, ready', ⟨h.queues, hplaced, h.positive, h.order⟩, fun k hk => (hsame k).mpr hk⟩

theorem Inv.create (h : Inv s waiting ready) {new : T}
    (hs : exec s (.create new : Act S B T) = some t) :
    t.status = s.status ∧ ∃ ready', Inv t waiting ready' ∧
      ∀ k ∈ s.sched.runnable ready, k ∈ t.sched.runnable ready' := by
  simp only [exec] at hs
  split at hs
  · cases hs
  · simp only [Option.bind_eq_bind, Option.bind_eq_some_iff, Option.some.injEq] at hs
    obtain ⟨sched, hsched, rfl⟩ := hs
    obtain ⟨new', hnew, -, hroom, rfl⟩ := Sched.addThreadToCodaPronti_eq_some hsched
    obtain rfl := Option.some.inj hnew
    refine ⟨rfl, _, ⟨h.queues, h.placed.create ‹_› hroom, h.positive, h.order⟩, fun k hk => ?_⟩
    rw [runnable_put]
    exact List.mem_append_left _ hk

theorem Inv.step (h : Inv s waiting ready) {a : Act S B T} (hmoves : Moves s a t) :
    ∃ waiting' ready', Inv t waiting' ready' := by
  cases hmoves with
  | granted sem tid hpos => exact ⟨_, _, h.granted hpos _ tid⟩
  | blocked sem r queues sched hrun hzero hqueues hsched =>
    obtain ⟨-, ready', -, hinv⟩ := h.blocked hrun hzero hqueues hsched
    exact ⟨_, ready', hinv⟩
  | raised sem hempty => exact ⟨_, _, h.raised hempty _⟩
  | woken sem sched hsleeps hsched =>
    obtain ⟨first, rest, -, -, hinv⟩ := h.woken hsleeps hsched
    exact ⟨_, _, hinv⟩
  | refused => exact ⟨_, _, h⟩
  | scheduled sched hsched =>
    obtain ⟨-, ready', hplaced, -⟩ := h.placed.schedule hsched
    exact ⟨_, ready', h.queues, hplaced, h.positive, h.order⟩
  | created t hfree hroom =>
    exact ⟨_, _, h.queues, h.placed.create hfree hroom, h.positive, h.order⟩

theorem run_inv {value : S ⊕ B → Dword} {kernelThread : T} {acts : List (Act S B T)}
    (h : Run (Computes exec) (boot W value kernelThread) acts s) :
    ∃ waiting ready, Inv s waiting ready := by
  refine h.invariant (I := fun s => ∃ waiting ready, Inv s waiting ready) ?_
    ⟨_, _, .boot value kernelThread⟩
  rintro s a t ⟨waiting, ready, hs⟩ hstep
  exact hs.step (exec_moves hstep)

end

/-! ### Words that go up and down -/

theorem toNat_succ_le (v : Dword) : (v + 1).toNat ≤ v.toNat + 1 := by
  rw [BitVec.toNat_add]
  exact Nat.mod_le ..

theorem toNat_succ {v : Dword} (hv : v ≠ -1) : (v + 1).toNat = v.toNat + 1 := by
  have hne : v.toNat ≠ 2 ^ 32 - 1 := fun heq => hv (BitVec.eq_of_toNat_eq (by simpa using heq))
  have hlt := v.isLt
  rw [BitVec.toNat_add]
  exact Nat.mod_eq_of_lt (by simp; omega)

theorem toNat_pred {v : Dword} (hpos : 0 < v) : (v - 1).toNat + 1 = v.toNat := by
  have hlt : 0 < v.toNat := hpos
  have hle : (1 : Dword) ≤ v := BitVec.le_def.mpr hlt
  rw [BitVec.toNat_sub_of_le hle]
  exact Nat.sub_add_cancel hlt

/-! ### What the calls do to the threads and the units -/

section
variable {S B T : Type} [DecidableEq S] [DecidableEq B] {W : Queues (S ⊕ B) T}
  {s t : State W} {waiting waiting' : S ⊕ B → List T} {ready ready' : List T} {sem : S ⊕ B}

/-- By how much the sleepers of a semaphore outnumber its units. -/
def owed (s : State W) (waiting : S ⊕ B → List T) (c : S) : Int :=
  (waiting (.inl c)).length - (s.status (.inl c)).toNat

/-- Whether a semaphore is the counting semaphore `c`. -/
def isUnit (sem : S ⊕ B) (c : S) : Int := if sem = .inl c then 1 else 0

theorem owed_granted (hpos : 0 < s.status sem) (trace : List (Event S B T)) (c : S) :
    owed { s with
      status := Function.update s.status sem (lower sem (s.status sem)), trace := trace }
      waiting c = owed s waiting c + isUnit sem c := by
  by_cases hc : sem = .inl c
  · subst hc
    have hdown := toNat_pred hpos
    simp only [owed, isUnit, lower, Function.update_self, if_true]
    omega
  · simp [owed, isUnit, hc, Function.update_of_ne (Ne.symm hc)]

theorem owed_raised (hmax : ∀ c, sem = .inl c → s.status sem ≠ -1)
    (trace : List (Event S B T)) (c : S) :
    owed { s with
      status := Function.update s.status sem (raise sem (s.status sem)), trace := trace }
      waiting c = owed s waiting c - isUnit sem c := by
  by_cases hc : sem = .inl c
  · have hup := toNat_succ (hmax c hc)
    subst hc
    simp only [owed, isUnit, raise, Function.update_self, if_true]
    omega
  · simp [owed, isUnit, hc, Function.update_of_ne (Ne.symm hc)]

theorem owed_blocked (queues : W.Store) (sched : Sched T) (trace : List (Event S B T)) (r : T)
    (c : S) :
    owed { s with queues := queues, sched := sched, trace := trace }
      (Function.update waiting sem (waiting sem ++ [r])) c =
        owed s waiting c + isUnit sem c := by
  by_cases hc : sem = .inl c
  · subst hc
    simp only [owed, isUnit, Function.update_self, List.length_append, List.length_singleton,
      if_true]
    omega
  · simp [owed, isUnit, hc, Function.update_of_ne (Ne.symm hc)]

theorem owed_woken (queues : W.Store) (sched : Sched T) (trace : List (Event S B T)) {first : T}
    {rest : List T} (hw : waiting sem = first :: rest) (c : S) :
    owed { s with queues := queues, sched := sched, trace := trace }
      (Function.update waiting sem rest) c = owed s waiting c - isUnit sem c := by
  by_cases hc : sem = .inl c
  · subst hc
    simp only [owed, isUnit, Function.update_self, hw, List.length_cons, if_true]
    omega
  · simp [owed, isUnit, hc, Function.update_of_ne (Ne.symm hc)]

/-- A `V` owes a unit less, and nobody is put to sleep or stops being ready. -/
theorem Inv.release (h : Inv s waiting ready)
    (hmax : ∀ c, sem = .inl c → waiting sem = [] → s.status sem ≠ -1)
    (hs : s.release (raise sem) sem = some t) :
    ∃ waiting' ready', Inv t waiting' ready' ∧
      (∀ c, owed t waiting' c = owed s waiting c - isUnit sem c) ∧
      (∀ sem' k, k ∈ waiting' sem' → k ∈ waiting sem') ∧
      ∀ k ∈ s.sched.runnable ready, k ∈ t.sched.runnable ready' := by
  rw [State.release] at hs
  split at hs
  · obtain rfl := Option.some.inj hs
    have hempty := (W.isEmpty_iff h.queues sem).mp ‹_›
    exact ⟨waiting, ready, h.raised ‹_› _, owed_raised (fun c hc => hmax c hc hempty) _,
      fun _ _ hk => hk, fun _ hk => hk⟩
  · simp only [Option.bind_eq_bind, Option.bind_eq_some_iff, Option.some.injEq] at hs
    obtain ⟨sched, hsched, rfl⟩ := hs
    obtain ⟨first, rest, hw, hready, hinv⟩ := h.woken ‹_› hsched
    exact ⟨_, _, hinv, owed_woken _ _ _ hw, fun _ _ hk => mem_of_mem_update_tail hw hk,
      fun k hk => (hready k).mpr (.inl hk)⟩

variable [DecidableEq T] {r : T}

/-- A `P` of thread `r`, granted or not: it owes a unit more, and nobody else is put to
sleep or stops being ready. -/
theorem Inv.acquire (h : Inv s waiting ready) (hrun : s.sched.threadInEsecuzione = some r)
    (hs : s.acquire (lower sem) sem = some t) :
    ∃ waiting' ready', Inv t waiting' ready' ∧
      (∀ c, owed t waiting' c = owed s waiting c + isUnit sem c) ∧
      (∀ sem' k, k ∈ waiting' sem' → k ∈ waiting sem' ∨ (k = r ∧ sem' = sem)) ∧
      ∀ k ∈ s.sched.runnable ready, k ≠ r →
        k ∈ t.sched.runnable ready' ∧ t.sched.threadInEsecuzione ≠ none := by
  simp only [State.acquire] at hs
  split at hs
  · obtain rfl := Option.some.inj hs
    refine ⟨waiting, ready, h.granted ‹_› _ _, owed_granted ‹_› _,
      fun sem' k hk => .inl hk, fun k hk _ => ⟨hk, ?_⟩⟩
    simp [hrun]
  · simp only [Option.bind_eq_bind, Option.bind_eq_some_iff, Option.some.injEq, hrun] at hs
    obtain ⟨queues, hqueues, sched, hsched, rfl⟩ := hs
    obtain ⟨hgoes, ready', hready, hinv⟩ := h.blocked hrun ‹_› hqueues hsched
    refine ⟨_, ready', hinv, owed_blocked _ _ _ r, fun sem' k hk => ?_, fun k hk hne => ?_⟩
    · rw [mem_update_append] at hk
      exact hk.imp_right fun hsem => ⟨hsem.2, hsem.1⟩
    · have hmem : k ∈ ready := by
        simpa [Sched.runnable, hrun, hne] using hk
      exact ⟨(hready k).mpr hmem, hgoes (List.ne_nil_of_mem hmem)⟩

end

/-! ### The units -/

section
variable {S B T : Type} [DecidableEq S] [DecidableEq B] {W : Queues (S ⊕ B) T}
  {s t : State W} {c : S}

/-- The units that are left or were granted. -/
def kept (s : State W) (c : S) : Nat := (s.status (.inl c)).toNat + s.grants (.inl c)

theorem kept_granted {sem : S ⊕ B} {tid : ThreadIdx T} (hpos : 0 < s.status sem) :
    kept { s with
      status := Function.update s.status sem (lower sem (s.status sem))
      trace := s.trace ++ [.granted sem tid] } c = kept s c := by
  by_cases hc : sem = .inl c
  · subst hc
    have hdown := toNat_pred hpos
    simp only [kept, State.grants, lower, Function.update_self, List.countP_append,
      List.countP_singleton, Event.isGrant, decide_true, if_true]
    omega
  · simp [kept, State.grants, Event.isGrant, hc, Ne.symm hc]

/-- A `V` of the semaphore that finds nobody asleep. -/
theorem kept_raised (s : State W) (c : S) :
    kept { s with
      status := Function.update s.status (.inl c) (raise (.inl c : S ⊕ B) (s.status (.inl c)))
      trace := s.trace ++ [.raised (.inl c)] } c =
      (s.status (.inl c) + 1).toNat + s.grants (.inl c) := by
  simp [kept, State.grants, Event.isGrant, raise]

variable [DecidableEq T] {a : Act S B T}

/-- Units are lost at most, and only by a `V` that raises the largest status. -/
theorem moves_units (h : Moves s a t) (c : S) :
    kept t c + s.vs (.inl c) ≤ kept s c + t.vs (.inl c) ∧
      (NoWrap s a → kept t c + s.vs (.inl c) = kept s c + t.vs (.inl c)) := by
  cases h with
  | granted sem tid hpos =>
    rw [kept_granted hpos]
    simp [State.vs, Event.isV]
  | blocked sem r queues sched => simp [kept, State.vs, State.grants, Event.isV, Event.isGrant]
  | raised sem hempty hact =>
    by_cases hc : sem = .inl c
    · subst hc
      rw [kept_raised]
      simp only [kept, State.vs, List.countP_append, List.countP_singleton, Event.isV,
        decide_true, if_true]
      have hle := toNat_succ_le (s.status (.inl c))
      refine ⟨by omega, fun hok => ?_⟩
      rw [hact c rfl] at hok
      rw [toNat_succ fun hmax => hok ⟨hempty, hmax⟩]
      omega
    · simp [kept, State.vs, State.grants, Event.isV, Event.isGrant, hc, Ne.symm hc]
  | woken sem sched =>
    by_cases hc : sem = .inl c
    · simp [kept, State.vs, State.grants, Event.isV, Event.isGrant, hc]
      omega
    · simp [kept, State.vs, State.grants, Event.isV, Event.isGrant, hc]
  | refused => simp
  | scheduled sched => simp [kept, State.vs, State.grants]
  | created t => simp [kept, State.vs, State.grants]

theorem wrap_units (h : exec s (.V c : Act S B T) = some t)
    (hempty : W.isEmpty s.queues (.inl c)) (hmax : s.status (.inl c) = -1) :
    kept t c + s.vs (.inl c) < kept s c + t.vs (.inl c) := by
  have hV : s.release (raise (.inl c : S ⊕ B)) (.inl c) = some t := h
  rw [State.release, if_pos hempty] at hV
  obtain rfl := Option.some.inj hV
  rw [kept_raised, hmax]
  simp [kept, State.vs, Event.isV, hmax]
  omega

/-- The units that were put in. -/
def units (value : S ⊕ B → Dword) (s : State W) (c : S) : Nat :=
  (value (.inl c)).toNat + s.vs (.inl c)

variable {value : S ⊕ B → Dword} {kernelThread : T} {acts : List (Act S B T)}

theorem run_kept_le (h : Run (Computes exec) (boot W value kernelThread) acts s) (c : S) :
    kept s c ≤ units value s c := by
  refine h.invariant (I := fun s => kept s c ≤ units value s c) ?_ (Nat.le_refl _)
  intro s a t hs hstep
  have hunits := (moves_units (exec_moves hstep) c).1
  unfold units at hs ⊢
  omega

/-- In every run the units balance as long as no `V` raises the largest status, and
never again afterwards. -/
theorem run_kept_iff (h : Run (Computes exec) (boot W value kernelThread) acts s) :
    (∀ c, kept s c = units value s c) ↔
      Run (Guarded NoWrap (Computes exec)) (boot W value kernelThread) acts s := by
  have hsound (s : State W) (hs : ∀ c, kept s c = units value s c) :
      ¬ ∃ c, kept s c < units value s c := fun ⟨c, hc⟩ => absurd (hs c) hc.ne
  have hstep (s : State W) (a : Act S B T) (t : State W) (hs : ∀ c, kept s c = units value s c)
      (hok : NoWrap s a) (hstep : Computes exec s a t) (c : S) :
      kept t c = units value t c := by
    have hunits := (moves_units (exec_moves hstep) c).2 hok
    have hbalance := hs c
    unfold units at hbalance ⊢
    omega
  have hbreak (s : State W) (a : Act S B T) (t : State W) (hs : ∀ c, kept s c = units value s c)
      (hok : ¬ NoWrap s a) (hstep : Computes exec s a t) : ∃ c, kept t c < units value t c := by
    cases a with
    | V c =>
      obtain ⟨hempty, hmax⟩ := not_not.mp hok
      have hunits := wrap_units hstep hempty hmax
      have hbalance := hs c
      refine ⟨c, ?_⟩
      unfold units at hbalance ⊢
      omega
    | _ => exact absurd trivial hok
  have hkeep (s : State W) (a : Act S B T) (t : State W) (hs : ∃ c, kept s c < units value s c)
      (hstep : Computes exec s a t) : ∃ c, kept t c < units value t c := by
    obtain ⟨c, hc⟩ := hs
    have hunits := (moves_units (exec_moves hstep) c).1
    refine ⟨c, ?_⟩
    unfold units at hc ⊢
    omega
  have hiff := h.undamaged_iff_guarded hsound hstep hbreak hkeep fun c => rfl
  rw [← hiff]
  simp only [not_exists, not_lt]
  exact forall_congr' fun c => ⟨fun heq => heq.ge, fun hge => le_antisymm (run_kept_le h c) hge⟩

/-- What the semaphores are for. -/
structure Sound (value : S ⊕ B → Dword) (s : State W) : Prop where
  positiveEmpty : ∀ sem, PositiveEmpty s sem
  balanced : ∀ c, Balanced value s c
  grantedInOrder : ∀ sem, GrantedInOrder s sem

end

section
variable {S B T : Type} [DecidableEq S] [DecidableEq B] [DecidableEq T]

/-- With either kind of queues, the semaphores are sound in the runs in which no `V`
raises the largest status, and in no others. -/
theorem semaphores_sound_iff (build : Build (S ⊕ B) T) (value : S ⊕ B → Dword)
    (kernelThread : T) {acts : List (Act S B T)} {s : State build.queues}
    (h : Run (Computes exec) (boot build.queues value kernelThread) acts s) :
    Sound value s ↔
      Run (Guarded NoWrap (Computes exec)) (boot build.queues value kernelThread) acts s := by
  rw [← run_kept_iff h]
  constructor
  · exact fun hsound c => hsound.balanced c
  · intro hkept
    obtain ⟨waiting, ready, hinv⟩ := run_inv h
    exact ⟨hinv.positiveEmpty, hkept, hinv.grantedInOrder⟩

end

/-- `DYNAMIC_SEMAPHORE`, with one semaphore of each type. -/
def dynamic : Build (Unit ⊕ Unit) (Fin 3) := .dynamicSemaphore fun _ => none

/-- Thread 1 takes the unit, thread 2 and then thread 1 block, and of three `V` the
first two wake them. -/
def contention : List (Act Unit Unit (Fin 3)) :=
  [.create 1, .create 2, .schedule, .P (), .schedule, .P (), .schedule, .P (),
    .V (), .V (), .V ()]

def contended : State dynamic.queues :=
  (contention.foldlM exec (boot dynamic.queues (fun _ => 1) 0)).getD
    (boot dynamic.queues (fun _ => 1) 0)

theorem semaphores_sound_contended : Sound (fun _ => 1) contended := by
  have hrun : Run (Computes exec) (boot dynamic.queues (fun _ => 1) 0) contention contended :=
    Run.of_foldlM rfl
  exact (semaphores_sound_iff dynamic (fun _ => 1) 0 hrun).mpr (Run.of_foldlM_checked rfl)

/-- A semaphore with the largest initial value loses its units at the first `V`. -/
theorem units_lost : ¬ ∀ acts (s : State dynamic.queues),
    Run (Computes exec) (boot dynamic.queues (fun _ => -1) 0) acts s → Sound (fun _ => -1) s := by
  intro hall
  have hsound := hall [.V ()] _ (Run.of_foldlM rfl)
  have hbalanced : 0 = 2 ^ 32 := hsound.balanced ()
  exact absurd hbalanced (by decide)

end OsdevArchive.Osso.Semaphore
