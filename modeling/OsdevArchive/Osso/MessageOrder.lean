import OsdevArchive.Lib.Counting
import OsdevArchive.Osso.Messages
import OsdevArchive.Osso.SemaphoreRuns

/-!
The queues of messages keep their order. A call is engaged with a queue between its
`V` and the message that it queued, or between its `P` and the message that it takes.
The messages in a queue, together with what its semaphore owes, are as many as the calls
engaged with it; so a call that got its unit finds a message.
-/

namespace OsdevArchive.Osso.Messages

open OsdevArchive.Lib.Counting OsdevArchive.Lib.RingBuffer OsdevArchive.Lib.Runs
open OsdevArchive.Osso.Semaphore (owed isUnit)

variable {P T : Type} [DecidableEq P] {W : Queues (P ⊕ Lock P) T}
  {cfg : Config P T} {s s' : State P T W} {act : Act T}

/-- A call of a thread of this process, at this point, is engaged with the queue of `d`. -/
def engaged (d : P) : P × Pc P → Bool
  | (_, .sendMutex dest) | (_, .sendMessages dest) => decide (dest = d)
  | (processo, .recMsgSem) | (processo, .recTake) => decide (processo = d)
  | _ => false

/-- Where the threads stand. -/
def standing (cfg : Config P T) (pc : T → Pc P) (t : T) : P × Pc P := (cfg.task t, pc t)

/-- The invariant of the queues. -/
structure Inv [Fintype T] (cfg : Config P T) (s : State P T W) (waiting : P ⊕ Lock P → List T)
    (ready : List T) : Prop where
  sems : Semaphore.Inv s.sems waiting ready
  idle : cfg.kernelThread ∈ s.sems.sched.runnable ready
  idleUser : s.pc cfg.kernelThread = .user
  channel : ∀ d, s.sent d = s.received d ++ (s.msgqueue d).contents
  balance : ∀ d, ((s.msgqueue d).contents.length : Int) + owed s.sems waiting d =
    tally (engaged d) (standing cfg s.pc)
  asleep : ∀ d, ∀ t ∈ waiting (.inl d), s.pc t = .recMsgSem ∧ cfg.task t = d

variable [Fintype T] {waiting waiting' : P ⊕ Lock P → List T} {ready ready' : List T} {t : T}
  {goes : Pc P}

/-- A message can be taken by a call that got its unit. -/
theorem Inv.contents_ne_nil (h : Inv cfg s waiting ready)
    (hrun : s.sems.sched.threadInEsecuzione = some t) (hpc : s.pc t = .recTake) :
    (s.msgqueue (cfg.task t)).contents ≠ [] := by
  have hnodup : (t :: waiting (.inl (cfg.task t))).Nodup :=
    List.nodup_cons.mpr ⟨h.sems.placed.not_mem hrun _, h.sems.placed.apart.nodup _⟩
  have hcount := length_le_tally (p := engaged (cfg.task t)) (f := standing cfg s.pc) hnodup (by
    intro k hk
    rcases List.mem_cons.mp hk with rfl | hk
    · simp [standing, hpc, engaged]
    · obtain ⟨hpck, htask⟩ := h.asleep _ k hk
      simp [standing, hpck, htask, engaged])
  have hbalance := h.balance (cfg.task t)
  intro hempty
  rw [hempty] at hbalance
  simp only [owed, List.length_nil, List.length_cons] at hbalance hcount
  omega

/-- The status of `Messages` never comes near its largest value. -/
theorem Inv.status_ne_max (h : Inv cfg s waiting ready) (d : P) (hw : waiting (.inl d) = []) :
    s.sems.status (.inl d) ≠ -1 := by
  intro hmax
  have hbalance := h.balance d
  have hroom : (s.msgqueue d).contents.length < maxMessages :=
    (s.msgqueue d).contains_contents.room
  have hbound : maxMessages = 341 := rfl
  have hnat : (s.sems.status (.inl d)).toNat = 2 ^ 32 - 1 := by
    rw [hmax]
    rfl
  simp only [owed, hw, List.length_nil] at hbalance
  omega

/-- A state that differs from `s` in the pages and the queues at most. -/
structure Beside (s s₁ : State P T W) : Prop where
  sems : s₁.sems = s.sems
  pc : s₁.pc = s.pc
  channel : ∀ d, s₁.sent d = s₁.received d ++ (s₁.msgqueue d).contents

theorem Inv.beside (h : Inv cfg s waiting ready) (space : Space P) :
    Beside s { s with space := space } := ⟨rfl, rfl, h.channel⟩

variable [DecidableEq T]

omit [DecidableEq P] [Fintype T] in
theorem standing_update (t : T) (pc : T → Pc P) (goes : Pc P) :
    standing cfg (Function.update pc t goes) =
      Function.update (standing cfg pc) t (cfg.task t, goes) := by
  funext t'
  by_cases ht : t' = t
  · subst ht
    simp [standing]
  · simp [standing, ht]

theorem Inv.boot : ∃ ready, Inv cfg (boot cfg W) (fun _ => []) ready := by
  have hcontents : ∀ d, ((Messages.boot cfg W).msgqueue d).contents = [] := fun d =>
    (RingQueue.Contains.nil rfl).contents_eq
  refine ⟨[], .boot _ _, ?_, rfl, fun d => ?_, fun d => ?_, by simp⟩
  · simp [Messages.boot, Semaphore.boot, Sched.runnable]
  · rw [hcontents]
    rfl
  · rw [hcontents, tally_eq_zero fun t => rfl]
    rfl

/-- A step of thread `t` in which the semaphores move by themselves, the thread moves on,
and the balance of each queue is kept. -/
theorem Inv.moveOn (h : Inv cfg s waiting ready) (hkernel : t ≠ cfg.kernelThread)
    (hrun : ∀ sem, t ∉ waiting sem) (hsems : Semaphore.Inv s'.sems waiting' ready')
    (hready : cfg.kernelThread ∈ s'.sems.sched.runnable ready')
    (hpc : s'.pc = Function.update s.pc t goes)
    (hasleep : ∀ d, ∀ k ∈ waiting' (.inl d),
      k ∈ waiting (.inl d) ∨ (k = t ∧ goes = .recMsgSem ∧ cfg.task t = d))
    (hchannel : ∀ d, s'.sent d = s'.received d ++ (s'.msgqueue d).contents)
    (hbalance : ∀ d, ((s'.msgqueue d).contents.length : Int) + owed s'.sems waiting' d +
      (engaged d (cfg.task t, s.pc t)).toNat = (s.msgqueue d).contents.length +
        owed s.sems waiting d + (engaged d (cfg.task t, goes)).toNat) :
    Inv cfg s' waiting' ready' where
  sems := hsems
  idle := hready
  idleUser := by
    rw [hpc, Function.update_of_ne hkernel.symm]
    exact h.idleUser
  channel := hchannel
  balance d := by
    have hmove := tally_update (engaged d) (standing cfg s.pc) t (cfg.task t, goes)
    rw [← standing_update, ← hpc] at hmove
    have hold : standing cfg s.pc t = (cfg.task t, s.pc t) := rfl
    rw [hold] at hmove
    have hkept := hbalance d
    have hbefore := h.balance d
    omega
  asleep d k hk := by
    rcases hasleep d k hk with hk | ⟨rfl, rfl, hd⟩
    · have hne : k ≠ t := fun heq => hrun (.inl d) (heq ▸ hk)
      rw [hpc, Function.update_of_ne hne]
      exact h.asleep d k hk
    · rw [hpc, Function.update_self]
      exact ⟨rfl, hd⟩

/-- What a step may end in: a state with the invariant, or a panic for another reason. -/
def Fine (cfg : Config P T) : Except Panic (State P T W) → Prop
  | .ok s' => ∃ waiting ready, Inv cfg s' waiting ready
  | .error e => e ≠ .shouldNotHappen ∧ e ≠ .ungranted

theorem Inv.acquired (h : Inv cfg s waiting ready) (hkernel : t ≠ cfg.kernelThread)
    (hrun : s.sems.sched.threadInEsecuzione = some t) {s₁ : State P T W} (hs₁ : Beside s s₁)
    (sem : P ⊕ Lock P) (hjoin : ∀ d, sem = .inl d → goes = .recMsgSem ∧ cfg.task t = d)
    (hbalance : ∀ d, ((s₁.msgqueue d).contents.length : Int) + isUnit sem d +
      (engaged d (cfg.task t, s.pc t)).toNat = (s.msgqueue d).contents.length +
        (engaged d (cfg.task t, goes)).toNat) :
    Fine cfg (s₁.acquired t goes (s.sems.acquire (Semaphore.lower sem) sem)) := by
  cases hsems : s.sems.acquire (Semaphore.lower sem) sem with
  | none => exact ⟨Panic.noConfusion, Panic.noConfusion⟩
  | some sems =>
    obtain ⟨waiting', ready', hinv, howed, hsleep, hready⟩ := h.sems.acquire hrun hsems
    obtain ⟨hidle, hgoes⟩ := hready _ h.idle hkernel.symm
    rw [State.acquired, if_neg hgoes]
    refine ⟨waiting', ready', h.moveOn hkernel (h.sems.placed.not_mem hrun) hinv hidle
      (by rw [hs₁.pc]) ?_ hs₁.channel ?_⟩
    · intro d k hk
      exact (hsleep _ k hk).imp_right fun ⟨hk, hsem⟩ => ⟨hk, hjoin d hsem.symm⟩
    · intro d
      have hkept := hbalance d
      simp only [howed d]
      omega

theorem Inv.released (h : Inv cfg s waiting ready) (hkernel : t ≠ cfg.kernelThread)
    (hrun : s.sems.sched.threadInEsecuzione = some t) {s₁ : State P T W} (hs₁ : Beside s s₁)
    (sem : P ⊕ Lock P)
    (hmax : ∀ d, sem = .inl d → waiting sem = [] → s.sems.status sem ≠ -1)
    (hbalance : ∀ d, ((s₁.msgqueue d).contents.length : Int) +
      (engaged d (cfg.task t, s.pc t)).toNat = (s.msgqueue d).contents.length +
        isUnit sem d + (engaged d (cfg.task t, goes)).toNat) :
    Fine cfg (s₁.released t goes (s.sems.release (Semaphore.raise sem) sem)) := by
  cases hsems : s.sems.release (Semaphore.raise sem) sem with
  | none => exact ⟨Panic.noConfusion, Panic.noConfusion⟩
  | some sems =>
    obtain ⟨waiting', ready', hinv, howed, hsleep, hready⟩ := h.sems.release hmax hsems
    refine ⟨waiting', ready', h.moveOn hkernel (h.sems.placed.not_mem hrun) hinv
      (hready _ h.idle) (by rw [hs₁.pc]) ?_ hs₁.channel ?_⟩
    · exact fun d k hk => .inl (hsleep _ k hk)
    · intro d
      have hkept := hbalance d
      simp only [howed d]
      omega

/-! ### One step -/

/-- A lock changes nothing about the units. -/
theorem isUnit_lock (l : Lock P) (d : P) : isUnit (.inr l) d = 0 := by simp [isUnit]

theorem map_error {m : Space P} {processo : P} {page : Nat} {e : Panic}
    (h : m.map processo page = .error e) : e = .memoryFinished := by
  simp only [Space.map, Space.withTable] at h
  split at h
  · cases h
  · split at h
    · exact (Except.error.inj h).symm
    · cases h

section
variable (h : Inv cfg s waiting ready) (hkernel : t ≠ cfg.kernelThread)
  (hrun : s.sems.sched.threadInEsecuzione = some t)
include h hkernel hrun

/-- A call that takes a lock, while it is engaged with the same queues. -/
theorem Inv.locks {s₁ : State P T W} (hs₁ : Beside s s₁) (hqueue : s₁.msgqueue = s.msgqueue)
    (l : Lock P) (hsame : ∀ d, engaged d (cfg.task t, goes) = engaged d (cfg.task t, s.pc t)) :
    Fine cfg (s₁.acquired t goes (s.sems.boolP l)) := by
  refine h.acquired hkernel hrun hs₁ (.inr l) (by simp) fun d => ?_
  rw [hqueue, hsame, isUnit_lock]
  omega

/-- A call that gives a lock back, while it is engaged with the same queues. -/
theorem Inv.unlocks {s₁ : State P T W} (hs₁ : Beside s s₁) (hqueue : s₁.msgqueue = s.msgqueue)
    (l : Lock P) (hsame : ∀ d, engaged d (cfg.task t, goes) = engaged d (cfg.task t, s.pc t)) :
    Fine cfg (s₁.released t goes (s.sems.boolV l)) := by
  refine h.released hkernel hrun hs₁ (.inr l) (by simp) fun d => ?_
  rw [hqueue, hsame, isUnit_lock]
  omega

/-- `sendmsg` queues its message. -/
theorem Inv.queues {dest : P} {header : MsgHeader} (hpc : s.pc t = .sendQueue dest header)
    (hroom : (s.msgqueue dest).head ≠ advance (s.msgqueue dest).tail) (l : Lock P) :
    Fine cfg ((s.queueMsg dest header).released t (.sendMutex dest) (s.sems.boolV l)) := by
  have hput := ((s.msgqueue dest).contains_contents.put hroom (a := header)).contents_eq
  have hs₁ : Beside s (s.queueMsg dest header) := by
    refine ⟨rfl, rfl, fun d => ?_⟩
    by_cases hd : d = dest
    · subst hd
      simp only [State.queueMsg, Function.update_self, hput, h.channel d, List.append_assoc]
    · simpa only [State.queueMsg, Function.update_of_ne hd] using h.channel d
  refine h.released hkernel hrun hs₁ (.inr l) (by simp) fun d => ?_
  rw [hpc, isUnit_lock, State.queueMsg]
  by_cases hd : d = dest
  · subst hd
    simp [hput, engaged]
  · simp [hd, Ne.symm hd, engaged]

/-- `recmsg` takes the first message. -/
theorem Inv.takes (hpc : s.pc t = .recTake) (l : Lock P) {header : MsgHeader}
    (hheader : header = (s.msgqueue (cfg.task t)).cells (s.msgqueue (cfg.task t)).head) :
    Fine cfg ((s.takeMsg (cfg.task t) header).released t (.recMemSem header.paginaFisica)
      (s.sems.boolV l)) := by
  obtain ⟨first, rest, hqueue⟩ := List.exists_cons_of_ne_nil (h.contents_ne_nil hrun hpc)
  have hcontains := (s.msgqueue (cfg.task t)).contains_contents
  rw [hqueue] at hcontains
  have htake := hcontains.take.contents_eq
  rw [hcontains.head_eq] at hheader
  subst hheader
  have hs₁ : Beside s (s.takeMsg (cfg.task t) header) := by
    refine ⟨rfl, rfl, fun d => ?_⟩
    by_cases hd : d = cfg.task t
    · subst hd
      simp only [State.takeMsg, Function.update_self, htake, h.channel, hqueue,
        List.append_assoc, List.singleton_append]
    · simpa only [State.takeMsg, Function.update_of_ne hd] using h.channel d
  refine h.released hkernel hrun hs₁ (.inr l) (by simp) fun d => ?_
  rw [hpc, isUnit_lock, State.takeMsg]
  by_cases hd : d = cfg.task t
  · subst hd
    simp [htake, hqueue, engaged]
  · simp [hd, Ne.symm hd, engaged]

/-- A mapped page, and then the lock given back. -/
theorem Inv.maps (page : Nat) (l : Lock P)
    (hsame : ∀ d, engaged d (cfg.task t, .user) = engaged d (cfg.task t, s.pc t)) :
    Fine cfg (do
      let space ← s.space.map (cfg.task t) page
      { s with space := space }.released t .user (s.sems.boolV l)) := by
  cases hmap : s.space.map (cfg.task t) page with
  | error e =>
    obtain rfl := map_error hmap
    exact ⟨Panic.noConfusion, Panic.noConfusion⟩
  | ok space => exact h.unlocks hkernel hrun (h.beside space) rfl l hsame

theorem Inv.proceed : Fine cfg (s.proceed t cfg (s.pc t)) := by
  cases hpc : s.pc t with
  | user => exact ⟨Panic.noConfusion, Panic.noConfusion⟩
  | bmsgMap page => exact h.maps hkernel hrun page _ fun d => by rw [hpc]; rfl
  | recMap page => exact h.maps hkernel hrun page _ fun d => by rw [hpc]; rfl
  | sendFind destinatario dimensione msgAddr =>
    rw [State.proceed]
    split
    · exact h.unlocks hkernel hrun (h.beside s.space) rfl _ fun d => by rw [hpc]; rfl
    · split
      · exact h.locks hkernel hrun (h.beside s.space) rfl _ fun d => by rw [hpc]; rfl
      · exact h.unlocks hkernel hrun (h.beside s.space) rfl _ fun d => by rw [hpc]; rfl
  | sendUnmap dest dimensione msgAddr =>
    exact h.unlocks hkernel hrun (h.beside (s.space.unmap (cfg.task t) msgAddr)) rfl _
      fun d => by rw [hpc]; rfl
  | sendMsgSem dest header =>
    exact h.locks hkernel hrun (h.beside s.space) rfl _ fun d => by rw [hpc]; rfl
  | sendQueue dest header =>
    rw [State.proceed]
    split
    · exact ⟨Panic.noConfusion, Panic.noConfusion⟩
    · exact h.queues hkernel hrun hpc ‹_› _
  | sendMutex dest =>
    exact h.unlocks hkernel hrun (h.beside s.space) rfl _ fun d => by rw [hpc]; rfl
  | sendMessages dest =>
    refine h.released hkernel hrun (h.beside s.space) (.inl dest) ?_ fun d => ?_
    · rintro d ⟨⟩ hw
      exact h.status_ne_max dest hw
    · rw [hpc]
      by_cases hd : dest = d
      · simp [isUnit, engaged, hd]
      · simp [isUnit, engaged, hd]
  | recMsgSem => exact h.locks hkernel hrun (h.beside s.space) rfl _ fun d => by rw [hpc]; rfl
  | recTake =>
    have hne : (s.msgqueue (cfg.task t)).tail ≠ (s.msgqueue (cfg.task t)).head := fun heq =>
      h.contents_ne_nil hrun hpc ((RingQueue.contains_contents _).eq_nil_iff.mp heq.symm)
    rw [State.proceed, if_neg hne]
    exact h.takes hkernel hrun hpc _ rfl
  | recMemSem physical =>
    exact h.locks hkernel hrun (h.beside s.space) rfl _ fun d => by rw [hpc]; rfl

theorem Inv.getbmsg (hpc : s.pc t = .user) (processo : P) :
    Fine cfg (s.getbmsg t processo) := by
  rw [State.getbmsg]
  split
  · next i mem hget =>
    exact h.locks hkernel hrun (h.beside { s.space with mem := mem }) rfl _
      fun d => by rw [hpc]; rfl
  · exact ⟨Panic.noConfusion, Panic.noConfusion⟩

/-- A call of `P` by `recmsg`. -/
theorem Inv.waits (hpc : s.pc t = .user) :
    Fine cfg (s.acquired t .recMsgSem (s.sems.P (cfg.task t))) := by
  refine h.acquired hkernel hrun (h.beside s.space) (.inl (cfg.task t)) ?_ fun d => ?_
  · rintro d ⟨⟩
    exact ⟨rfl, rfl⟩
  · rw [hpc]
    by_cases hd : cfg.task t = d
    · simp [isUnit, engaged, hd]
    · simp [isUnit, engaged, hd]

theorem Inv.recmsg (hpc : s.pc t = .user) (flags : Dword) :
    Fine cfg (s.recmsg t (cfg.task t) flags) := by
  have hwaits := h.waits hkernel hrun hpc
  rw [State.recmsg]
  split
  · -- `Non_Block_P` does what `P` does where that would not block
    by_cases hpos : 0 < s.sems.status (.inl (cfg.task t))
    · have hgo : s.sems.P (cfg.task t) = some (s.sems.nonBlockP (cfg.task t)).2 := by
        simp only [Semaphore.State.P, Semaphore.State.acquire, Semaphore.State.nonBlockP,
          Semaphore.State.tryAcquire, if_pos hpos]
      have hcode : (s.sems.nonBlockP (cfg.task t)).1 = .success := by
        simp only [Semaphore.State.nonBlockP, Semaphore.State.tryAcquire, if_pos hpos]
      have hthread : (s.sems.nonBlockP (cfg.task t)).2.sched.threadInEsecuzione ≠ none := by
        simp only [Semaphore.State.nonBlockP, Semaphore.State.tryAcquire, if_pos hpos, hrun]
        exact Option.some_ne_none t
      rw [hgo, State.acquired, if_neg hthread] at hwaits
      simpa [hcode] using hwaits
    · have hcode : (s.sems.nonBlockP (cfg.task t)).1 = .shouldBlock := by
        simp only [Semaphore.State.nonBlockP, Semaphore.State.tryAcquire, if_neg hpos]
      simp only [hcode, if_true]
      exact ⟨waiting, ready, h⟩
  · exact hwaits

theorem Inv.call (hpc : s.pc t = .user) : Fine cfg (s.call t cfg act) := by
  cases act with
  | getbmsg => exact h.getbmsg hkernel hrun hpc _
  | freemsg msg =>
    exact ⟨waiting, ready, h.sems, h.idle, h.idleUser, h.channel, h.balance, h.asleep⟩
  | sendmsg destinatario dimensione msgAddr =>
    exact h.locks hkernel hrun (h.beside s.space) rfl _ fun d => by rw [hpc]; rfl
  | recmsg flags => exact h.recmsg hkernel hrun hpc flags
  | proceed => exact ⟨Panic.noConfusion, Panic.noConfusion⟩
  | schedule => exact ⟨Panic.noConfusion, Panic.noConfusion⟩
  | create t => exact ⟨Panic.noConfusion, Panic.noConfusion⟩

end

theorem Inv.systemStep (h : Inv cfg s waiting ready) {act : Semaphore.Act P (Lock P) T}
    (hact : act = .schedule ∨ ∃ t, act = .create t) : Fine cfg (s.systemStep act) := by
  rw [State.systemStep]
  split
  · exact ⟨Panic.noConfusion, Panic.noConfusion⟩
  · next sems hsems =>
    obtain ⟨hstatus, ready', hinv, hready⟩ : sems.status = s.sems.status ∧
        ∃ ready', Semaphore.Inv sems waiting ready' ∧
          ∀ k ∈ s.sems.sched.runnable ready, k ∈ sems.sched.runnable ready' := by
      rcases hact with rfl | ⟨t, rfl⟩
      · exact h.sems.schedule hsems
      · exact h.sems.create hsems
    refine ⟨waiting, ready', hinv, hready _ h.idle, h.idleUser, h.channel, fun d => ?_, h.asleep⟩
    have hbalance := h.balance d
    simp only [owed] at hbalance ⊢
    rwa [hstatus]

theorem Inv.exec (h : Inv cfg s waiting ready) : Fine cfg (exec cfg s act) := by
  unfold Messages.exec
  split
  · exact h.systemStep (.inl rfl)
  · exact h.systemStep (.inr ⟨_, rfl⟩)
  · exact ⟨Panic.noConfusion, Panic.noConfusion⟩
  · next t hrun =>
    by_cases hkernel : t = cfg.kernelThread
    · rw [hkernel, h.idleUser]
      exact ⟨Panic.noConfusion, Panic.noConfusion⟩
    · exact h.proceed hkernel hrun
  · next t hrun =>
    split
    · split
      · exact ⟨Panic.noConfusion, Panic.noConfusion⟩
      · exact h.call ‹_› hrun ‹_›
    · exact ⟨Panic.noConfusion, Panic.noConfusion⟩

theorem run_inv {acts : List (Act T)} (h : Run (Computes (next cfg)) (boot cfg W) acts s) :
    ∃ waiting ready, Inv cfg s waiting ready := by
  refine h.invariant (I := fun s => ∃ waiting ready, Inv cfg s waiting ready) ?_ ⟨_, Inv.boot⟩
  rintro s act t ⟨waiting, ready, hs⟩ hstep
  have hfine : Fine cfg (exec cfg s act) := hs.exec
  unfold Computes next at hstep
  cases hexec : exec cfg s act with
  | error e =>
    rw [hexec] at hstep
    cases hstep
  | ok t' =>
    rw [hexec] at hstep hfine
    obtain rfl := Option.some.inj hstep
    exact hfine

section
variable {P T : Type} [DecidableEq P] [DecidableEq T] [Fintype T]

end

local instance instNeZeroTwo : NeZero 2 := ⟨by decide⟩

local instance instNeZeroThree : NeZero 3 := ⟨by decide⟩

/-- Two processes with the identifiers 7 and 8 and a thread each, and 15 free pages. -/
def pair : Config (Fin 2) (Fin 3) where
  processi := [0, 1]
  pid p := if p = 0 then 7 else 8
  active _ := true
  task t := if t = 2 then 1 else 0
  kernelThread := 0
  space :=
    { kernelDirs := 2
      present := fun _ _ => false
      tables := fun _ _ => ⟨0, false⟩
      lastUsedPage := fun _ => 0x8000000
      pagine := 0x101
      mem := Memory.meminit 0x110000 fun _ => .freepage }
  boundary := by decide
  above := by decide

def dynamic : Build (Fin 2 ⊕ Lock (Fin 2)) (Fin 3) := .dynamicSemaphore fun _ => none

/-- Thread 2 waits for a message, thread 1 sends one, and thread 2 takes it. -/
def exchange : List (Act (Fin 3)) :=
  [.create 2, .create 1, .schedule, .recmsg 0, .getbmsg, .proceed,
    .sendmsg 8 12 0x8001000, .proceed, .proceed, .proceed, .proceed, .proceed, .proceed,
    .schedule, .schedule, .proceed, .proceed, .proceed, .proceed]

end OsdevArchive.Osso.Messages
