import OsdevArchive.Osso.SemaphoreRuns

/-!
The two kinds of queues side by side. Where a thread goes to sleep the ring may be full,
the links never are; apart from that, whatever the queues look like inside, the same
calls lead to the same status, the same sleepers and the same grants.
-/

namespace OsdevArchive.Osso.Semaphore

open OsdevArchive.Lib.Runs OsdevArchive.Lib.RingBuffer

section
variable {S B T : Type} [DecidableEq S] [DecidableEq B] {W W' : Queues (S ⊕ B) T}

/-- How many threads sleep on a semaphore: those that blocked and were not woken. -/
def State.waiters (s : State W) (sem : S ⊕ B) : Nat :=
  (s.sleepers sem).length - (s.wakened sem).length

/-- A step after which each semaphore has fewer sleepers than a ring has cells. -/
def FewWaiters [DecidableEq T] (s : State W) (a : Act S B T) (t : State W) : Prop :=
  exec s a = some t ∧ ∀ sem, t.waiters sem < semMaxProcesses

/-- Two systems at the same point: the same status and threads, the same sleepers in the same
order, the same events so far (what each `P` did and whom each `V` granted), and the same
answers of the calls that do not block. -/
structure Lockstep (s : State W) (t : State W') : Prop where
  status : s.status = t.status
  sched : s.sched = t.sched
  waiting : ∃ waiting, W.Waiting s.queues waiting ∧ W'.Waiting t.queues waiting
  trace : s.trace = t.trace
  nonBlockP : ∀ sem, (s.nonBlockP sem).1 = (t.nonBlockP sem).1
  nonBlockBoolP : ∀ sem, (s.nonBlockBoolP sem).1 = (t.nonBlockBoolP sem).1

/-! ### What the events say about the queues -/

/-- All but the queues. -/
structure Same (s : State W) (t : State W') : Prop where
  status : s.status = t.status
  sched : s.sched = t.sched
  trace : s.trace = t.trace

variable {s s' : State W} {t t' : State W'} {waiting waiting' : S ⊕ B → List T}
  {ready ready' : List T} {sem : S ⊕ B}

theorem Inv.waiters_eq (h : Inv s waiting ready) (sem : S ⊕ B) :
    s.waiters sem = (waiting sem).length := by
  rw [State.waiters, h.order sem, List.length_append, List.length_map, Nat.add_sub_cancel_left]

/-- The sleepers are known from the events. -/
theorem Same.waiting_eq (h : Same s t) (hs : Inv s waiting ready) (ht : Inv t waiting' ready') :
    waiting = waiting' := by
  funext sem
  have horder := ht.order sem
  have hsleepers : t.sleepers sem = s.sleepers sem := by
    rw [State.sleepers, State.sleepers, h.trace]
  have hwakened : t.wakened sem = s.wakened sem := by
    rw [State.wakened, State.wakened, h.trace]
  rw [hsleepers, hwakened, hs.order sem] at horder
  have hmap := List.append_cancel_left horder
  exact (List.map_injective_iff.mpr (Option.some_injective T)) hmap

theorem Same.waiters_eq (h : Same s t) (sem : S ⊕ B) : s.waiters sem = t.waiters sem := by
  unfold State.waiters State.sleepers State.wakened
  rw [h.trace]

theorem Same.lockstep (h : Same s t) (hs : Inv s waiting ready) (ht : Inv t waiting' ready') :
    Lockstep s t where
  status := h.status
  sched := h.sched
  waiting := by
    obtain rfl := h.waiting_eq hs ht
    exact ⟨waiting, hs.queues, ht.queues⟩
  trace := h.trace
  nonBlockP sem := by
    unfold State.nonBlockP State.tryAcquire
    rw [h.status]
    split <;> rfl
  nonBlockBoolP sem := by
    unfold State.nonBlockBoolP State.tryAcquire
    rw [h.status]
    split <;> rfl

/-! ### The same call in both -/

/-- A `P` that blocks makes one more sleeper. -/
theorem Inv.waiters_blocked (h : Inv s waiting ready) {queues : W.Store} {sched : Sched T}
    (tid : ThreadIdx T) :
    State.waiters { s with
      queues := queues, sched := sched, trace := s.trace ++ [.blocked sem tid] } sem =
      s.waiters sem + 1 := by
  have horder := congrArg List.length (h.order sem)
  rw [List.length_append] at horder
  unfold State.waiters
  unfold State.sleepers State.wakened at horder ⊢
  simp only [List.filterMap_append, List.length_append, List.filterMap_cons, List.filterMap_nil,
    Event.sleeper, Event.wakened, if_true, List.length_singleton, List.length_nil]
  omega

theorem Same.acquire [DecidableEq T] (h : Same s t) (hs : Inv s waiting ready)
    {down : Dword → Dword} (hacquire : s.acquire down sem = some s')
    (hroom : s'.waiters sem = s.waiters sem + 1 →
      ∀ tid, ∃ queues, W'.enqueue t.queues sem tid = some queues) :
    ∃ t', t.acquire down sem = some t' ∧ Same s' t' := by
  unfold State.acquire at hacquire ⊢
  dsimp only at hacquire ⊢
  rw [← h.status, ← h.sched]
  split at hacquire
  · rename_i hpos
    obtain rfl := Option.some.inj hacquire
    rw [if_pos hpos]
    exact ⟨_, rfl, rfl, rfl, by rw [h.trace]⟩
  · rename_i hzero
    simp only [Option.bind_eq_bind, Option.bind_eq_some_iff, Option.some.injEq] at hacquire
    obtain ⟨queues, -, sched, hsched, rfl⟩ := hacquire
    obtain ⟨queues', hqueues'⟩ := hroom (hs.waiters_blocked _) s.sched.threadInEsecuzione
    rw [if_neg hzero, hqueues', hsched]
    exact ⟨_, rfl, rfl, rfl, by rw [h.trace]⟩

theorem Same.tryAcquire (h : Same s t) (down : Dword → Dword) (sem : S ⊕ B) :
    Same (s.tryAcquire down sem).2 (t.tryAcquire down sem).2 := by
  unfold State.tryAcquire
  rw [← h.status, ← h.sched, ← h.trace]
  split
  · exact ⟨rfl, rfl, rfl⟩
  · exact h

theorem Same.release [DecidableEq T] (h : Same s t) (hs : Inv s waiting ready)
    (ht : Inv t waiting' ready') (up : Dword → Dword) (sem : S ⊕ B)
    (hrelease : s.release up sem = some s') :
    ∃ t', t.release up sem = some t' ∧ Same s' t' := by
  obtain rfl := h.waiting_eq hs ht
  have hempty : W'.isEmpty t.queues sem ↔ W.isEmpty s.queues sem := by
    rw [W.isEmpty_iff hs.queues, W'.isEmpty_iff ht.queues]
  unfold State.release at hrelease ⊢
  rw [← h.status, ← h.sched, ← h.trace]
  split at hrelease
  · rename_i hnone
    obtain rfl := Option.some.inj hrelease
    rw [if_pos (hempty.mpr hnone)]
    exact ⟨_, rfl, rfl, rfl, rfl⟩
  · rename_i hsome
    have hne : waiting sem ≠ [] := mt (W.isEmpty_iff hs.queues sem).mpr hsome
    obtain ⟨first, rest, hw⟩ := List.exists_cons_of_ne_nil hne
    have hfirst := (W.waiting_dequeue hs.queues hs.placed.apart hw).1
    have hfirst' := (W'.waiting_dequeue ht.queues ht.placed.apart hw).1
    simp only [Option.bind_eq_bind, Option.bind_eq_some_iff, Option.some.injEq, hfirst]
      at hrelease
    obtain ⟨sched, hsched, rfl⟩ := hrelease
    rw [if_neg (mt hempty.mp hsome)]
    simp only [Option.bind_eq_bind, hfirst', hsched]
    exact ⟨_, rfl, rfl, rfl, rfl⟩

theorem Same.called (h : Same s t) {next : Option (State W)} {next' : Option (State W')}
    (hcalled : s.called next = some s')
    (hnext : next = some s' → ∃ t', next' = some t' ∧ Same s' t') :
    ∃ t', t.called next' = some t' ∧ Same s' t' := by
  unfold State.called at hcalled ⊢
  rw [← h.sched]
  split at hcalled
  · cases hcalled
  · rename_i hrun
    rw [if_neg hrun]
    exact hnext hcalled

variable [DecidableEq T]

/-- A step of one system is matched by the other, unless a thread goes to sleep where there
is no room for it. -/
theorem Same.exec (h : Same s t) (hs : Inv s waiting ready) (ht : Inv t waiting' ready')
    {a : Act S B T} (hexec : exec s a = some s')
    (hroom : ∀ sem, s'.waiters sem = s.waiters sem + 1 →
      ∀ tid, ∃ queues, W'.enqueue t.queues sem tid = some queues) :
    ∃ t', exec t a = some t' ∧ Same s' t' := by
  cases a with
  | P sem => exact h.called hexec fun hnext => h.acquire hs hnext (hroom (.inl sem))
  | boolP sem => exact h.called hexec fun hnext => h.acquire hs hnext (hroom (.inr sem))
  | nonBlockP sem =>
    apply h.called hexec
    rintro ⟨⟩
    exact ⟨_, rfl, h.tryAcquire ..⟩
  | nonBlockBoolP sem =>
    apply h.called hexec
    rintro ⟨⟩
    exact ⟨_, rfl, h.tryAcquire ..⟩
  | V sem => exact h.release hs ht (· + 1) (.inl sem) hexec
  | boolV sem => exact h.release hs ht (fun _ => 1) (.inr sem) hexec
  | schedule =>
    simp only [Semaphore.exec, Option.bind_eq_bind, Option.bind_eq_some_iff,
      Option.some.injEq] at hexec ⊢
    obtain ⟨sched, hsched, rfl⟩ := hexec
    rw [← h.sched]
    exact ⟨_, ⟨sched, hsched, rfl⟩, h.status, rfl, h.trace⟩
  | create k =>
    unfold Semaphore.exec at hexec ⊢
    dsimp only at hexec ⊢
    rw [← h.sched]
    split at hexec
    · cases hexec
    · rename_i hfree
      rw [if_neg hfree]
      simp only [Option.bind_eq_bind, Option.bind_eq_some_iff, Option.some.injEq] at hexec ⊢
      obtain ⟨sched, hsched, rfl⟩ := hexec
      exact ⟨_, ⟨sched, hsched, rfl⟩, h.status, rfl, h.trace⟩

end

/-! ### The two kinds of queues -/

section
variable {S B T : Type} [DecidableEq S] [DecidableEq B] [DecidableEq T]

/-- The systems with the two kinds of queues. -/
abbrev RingState (old : S ⊕ B → Fin semMaxProcesses → ThreadIdx T) :=
  State (S := S) (B := B) (ringQueues old)

abbrev LinkState (S B : Type) [DecidableEq S] [DecidableEq B] (old : ThreadIdx T → ThreadIdx T) :=
  State (S := S) (B := B) (linkedQueues old)

/-- Both at the same point of a run. -/
structure Together (old : S ⊕ B → Fin semMaxProcesses → ThreadIdx T)
    (old' : ThreadIdx T → ThreadIdx T) (s : RingState old) (t : LinkState S B old') : Prop where
  same : Same s t
  ring : ∃ waiting ready, Inv s waiting ready
  links : ∃ waiting ready, Inv t waiting ready

variable {old : S ⊕ B → Fin semMaxProcesses → ThreadIdx T} {old' : ThreadIdx T → ThreadIdx T}
  {s s' : RingState old} {t t' : LinkState S B old'} {a : Act S B T}

/-- A ring never holds more. -/
theorem Together.few (h : Together old old' s t) (sem : S ⊕ B) :
    t.waiters sem < semMaxProcesses := by
  obtain ⟨waiting, ready, hs⟩ := h.ring
  have hroom := (hs.queues sem).room
  rw [List.length_map] at hroom
  rw [← h.same.waiters_eq, hs.waiters_eq]
  exact hroom

theorem Together.exec_ring (h : Together old old' s t) (hexec : exec s a = some s') :
    ∃ t', FewWaiters t a t' ∧ Together old old' s' t' := by
  obtain ⟨waiting, ready, hs⟩ := h.ring
  obtain ⟨waiting', ready', ht⟩ := h.links
  obtain ⟨t', hexec', hsame⟩ := h.same.exec hs ht hexec fun _ _ _ => ⟨_, rfl⟩
  have hnext : Together old old' s' t' :=
    ⟨hsame, hs.step (exec_moves hexec), ht.step (exec_moves hexec')⟩
  exact ⟨t', ⟨hexec', hnext.few⟩, hnext⟩

theorem Together.exec_links (h : Together old old' s t) (hfew : FewWaiters t a t') :
    ∃ s', exec s a = some s' ∧ Together old old' s' t' := by
  obtain ⟨waiting, ready, hs⟩ := h.ring
  obtain ⟨waiting', ready', ht⟩ := h.links
  obtain ⟨hexec, hbound⟩ := hfew
  have hback : Same t s := ⟨h.same.status.symm, h.same.sched.symm, h.same.trace.symm⟩
  obtain ⟨s', hexec', hsame⟩ := hback.exec ht hs hexec (by
    intro sem hmore tid
    have hlength := hbound sem
    rw [hmore, ← h.same.waiters_eq, hs.waiters_eq] at hlength
    have hroom : ¬ (s.queues sem).head = advance (s.queues sem).tail := by
      intro hfull
      have hall := (hs.queues sem).full_iff.mp hfull
      rw [List.length_map] at hall
      omega
    exact ⟨_, if_neg hroom⟩)
  exact ⟨s', hexec', ⟨hsame.status.symm, hsame.sched.symm, hsame.trace.symm⟩,
    hs.step (exec_moves hexec'), ht.step (exec_moves hexec)⟩

theorem Together.boot (value : S ⊕ B → Dword) (kernelThread : T) :
    Together old old' (boot (ringQueues old) value kernelThread)
      (boot (linkedQueues old') value kernelThread) :=
  ⟨⟨rfl, rfl, rfl⟩, ⟨_, _, .boot value kernelThread⟩, ⟨_, _, .boot value kernelThread⟩⟩

theorem Together.lockstep (h : Together old old' s t) : Lockstep s t := by
  obtain ⟨waiting, ready, hs⟩ := h.ring
  obtain ⟨waiting', ready', ht⟩ := h.links
  exact h.same.lockstep hs ht

/-- The two builds are in lockstep: as long as fewer threads sleep on each semaphore than a ring
has cells, the ring follows the links, and the links always follow the ring. -/
theorem semaphores_lockstep (old : S ⊕ B → Fin semMaxProcesses → ThreadIdx T)
    (old' : ThreadIdx T → ThreadIdx T) (value : S ⊕ B → Dword) (kernelThread : T)
    (acts : List (Act S B T)) :
    (∀ t, Run FewWaiters (boot (linkedQueues old') value kernelThread) acts t →
      ∃ s, Run (Computes exec) (boot (ringQueues old) value kernelThread) acts s ∧
        Lockstep s t) ∧
    ∀ s, Run (Computes exec) (boot (ringQueues old) value kernelThread) acts s →
      ∃ t, Run FewWaiters (boot (linkedQueues old') value kernelThread) acts t ∧
        Lockstep s t := by
  have hstart : Together old old' (boot (ringQueues old) value kernelThread)
      (boot (linkedQueues old') value kernelThread) := .boot value kernelThread
  have hring : ∀ (t : LinkState S B old') (a : Act S B T) t' (s : RingState old),
      Together old old' s t → FewWaiters t a t' →
        ∃ s', Computes exec s a s' ∧ Together old old' s' t' :=
    fun _ _ _ _ h hstep => h.exec_links hstep
  have hlinks : ∀ (s : RingState old) (a : Act S B T) s' (t : LinkState S B old'),
      Together old old' s t → Computes exec s a s' →
        ∃ t', FewWaiters t a t' ∧ Together old old' s' t' :=
    fun _ _ _ _ h hstep => h.exec_ring hstep
  constructor
  · intro t hrun
    obtain ⟨s, hs, htogether⟩ := Run.simulates hring hrun hstart
    exact ⟨s, hs, htogether.lockstep⟩
  · intro s hrun
    obtain ⟨t, ht, htogether⟩ := Run.simulates hlinks hrun hstart
    exact ⟨t, ht, htogether.lockstep⟩

end

/-- The ring and the links, with three threads on one semaphore. -/
theorem lockstep_contended : ∃ (s : RingState fun _ _ => none)
    (t : LinkState Unit Unit fun _ => none),
    Run (Computes exec) (boot (ringQueues fun _ _ => none) (fun _ => 1) 0) contention s ∧
      Run FewWaiters (boot (linkedQueues fun _ => none) (fun _ => 1) 0) contention t ∧
        Lockstep s t := by
  obtain ⟨s, hs⟩ : ∃ s : RingState fun _ _ => none, contention.foldlM exec
      (boot (ringQueues fun _ _ => none) (fun _ => 1) 0) = some s := ⟨_, rfl⟩
  have hring := Run.of_foldlM hs
  obtain ⟨t, hlinks, hlockstep⟩ :=
    (semaphores_lockstep _ (fun _ => none) (fun _ => 1) 0 contention).2 s hring
  exact ⟨s, t, hring, hlinks, hlockstep⟩

end OsdevArchive.Osso.Semaphore
