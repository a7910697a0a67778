import OsdevArchive.Cheapos.Kill
import OsdevArchive.Lib.Sweep

/-!
The semaphores of cheapos (`semaphoro.c`) and the tasks that wait for them (`scheduler.c`). Who
holds a semaphore and who came when is recorded beside the state of the kernel.
-/

namespace OsdevArchive.Cheapos.Semaphoro

open OsdevArchive.Lib.Runs OsdevArchive.Lib.Sweep Tasks

/-- `ROSSO` and `VERDE`. -/
inductive Colore where
  | rosso
  | verde
  deriving DecidableEq

/-- A `kwait_table_element_t`: `wsemaphoro` with its semaphore, or another function. -/
inductive KwaitElement where
  | wsemaphoro (sem : BitVec 32)
  | altra
  deriving DecidableEq

/-- `wsemaphoro`. -/
def wsemaphoro (sem : BitVec 32) (semafori : BitVec 32 → Colore) : Bool × (BitVec 32 → Colore) :=
  if semafori sem = .rosso then (false, semafori)
  else (true, Function.update semafori sem .rosso)

section check

variable {ω : Type*} (func : Int → ω → Bool × ω)

/-- The loop of `kwait_check`, with what the functions of the tasks change. -/
def kwaitLoop : Nat → State → ω → State × ω
  | 0, s, w => (s, w)
  | n + 1, s, w =>
    let (pid, qwait) := s.qwait.pop
    let (vera, w) := func pid w
    if vera then kwaitLoop n { s with qwait := qwait, qready := s.qready.ins pid } w
    else kwaitLoop n { s with qwait := qwait.ins pid } w

def kwaitCheck (s : State) (w : ω) : State × ω := kwaitLoop func s.qwait.elements s w

end check

/-- The kernel with its semaphores; `presi` are the tasks that have passed a semaphore and have
not set it to green since, `arrivi` those that wait for it, in the order in which they came. -/
structure Sistema where
  tasks : State
  kwaitTable : Int → KwaitElement
  semafori : BitVec 32 → Colore
  presi : BitVec 32 → List Int
  arrivi : BitVec 32 → List Int

namespace Sistema

variable (s : Sistema)

/-- The semaphore that a task of `Qwait` waits for. -/
def vuole (pid : Int) : Option (BitVec 32) :=
  match s.kwaitTable pid with
  | .wsemaphoro sem => some sem
  | .altra => none

/-- The function of a task, with what the others answer. -/
def func (altre : Int → Bool) (pid : Int) (semafori : BitVec 32 → Colore) :
    Bool × (BitVec 32 → Colore) :=
  match s.kwaitTable pid with
  | .wsemaphoro sem => wsemaphoro sem semafori
  | .altra => (altre pid, semafori)

/-- The tasks that `kwait_check` moves to `Qready`. -/
def svegliati (altre : Int → Bool) : List Int :=
  (Semaphoro.kwaitCheck (s.func altre) s.tasks s.semafori).1.qready.pids.drop
    s.tasks.qready.pids.length

/-- Those of some tasks that wait for the semaphore. -/
def perSem (sem : BitVec 32) (pids : List Int) : List Int :=
  pids.filter fun pid => decide (s.vuole pid = some sem)

def kwaitCheck (altre : Int → Bool) : Sistema :=
  let r := Semaphoro.kwaitCheck (s.func altre) s.tasks s.semafori
  { s with
    tasks := r.1
    semafori := r.2
    presi := fun sem => s.presi sem ++ s.perSem sem (s.svegliati altre)
    arrivi := fun sem => (s.arrivi sem).filter fun pid => decide (pid ∉ s.svegliati altre) }

def kwait (kmode : Bool) (e : KwaitElement) : Option Sistema :=
  (s.tasks.kwaitHandler kmode).map fun tasks =>
    { s with
      tasks := tasks
      kwaitTable := Function.update s.kwaitTable s.tasks.corrente e
      arrivi := fun sem =>
        if e = .wsemaphoro sem then s.arrivi sem ++ [s.tasks.corrente] else s.arrivi sem }

/-- `semaphoro_down` is made in kernel mode. -/
def semaphoroDown (sem : BitVec 32) : Option Sistema := s.kwait true (.wsemaphoro sem)

def semaphoroUp (sem : BitVec 32) : Sistema :=
  { s with
    semafori := Function.update s.semafori sem .verde
    presi := Function.update s.presi sem ((s.presi sem).erase s.tasks.corrente) }

/-- After any other call, tasks that are gone hold nothing and wait for nothing. -/
def esegue (tasks : State) : Sistema :=
  { s with
    tasks := tasks
    presi := fun sem => (s.presi sem).filter fun pid => decide (pid ∈ tasks.vivi)
    arrivi := fun sem => (s.arrivi sem).filter fun pid => decide (pid ∈ tasks.qwait.pids) }

end Sistema

inductive Call where
  | kwaitCheck (altre : Int → Bool)
  | kwait (kmode : Bool) (e : KwaitElement)
  | semaphoroDown (sem : BitVec 32)
  | semaphoroUp (sem : BitVec 32)
  | altra (c : Tasks.Call)

/-- The calls that are not made by way of the table of functions. -/
def Estranea : Tasks.Call → Prop
  | .kwaitCheck _ => False
  | .kwait _ => False
  | _ => True

instance decidableEstranea : DecidablePred Estranea
  | .kwaitCheck _ => isFalse id
  | .kwait _ => isFalse id
  | .avvio => isTrue trivial
  | .scheduler => isTrue trivial
  | .fork _ => isTrue trivial
  | .exec _ _ => isTrue trivial
  | .exit => isTrue trivial
  | .kill _ => isTrue trivial
  | .gomount _ => isTrue trivial
  | .goumount _ => isTrue trivial

/-- A step. A semaphore is set to green by a task that has passed it, as in `floppy_rw`. -/
def step (s : Sistema) : Call → Option Sistema
  | .kwaitCheck altre => some (s.kwaitCheck altre)
  | .kwait kmode e => s.kwait kmode e
  | .semaphoroDown sem => s.semaphoroDown sem
  | .semaphoroUp sem => if s.tasks.corrente ∈ s.presi sem then some (s.semaphoroUp sem) else none
  | .altra c => if Estranea c then (Tasks.step s.tasks c).map s.esegue else none

/-- The kernel after `scheduler_init`. -/
def avvio (colori : BitVec 32 → Colore) : Sistema where
  tasks := schedulerInit
  kwaitTable _ := .altra
  semafori := colori
  presi _ := []
  arrivi _ := []

/-! ### The check of the waiting tasks -/

section check

variable {ω : Type*} {s : State}

/-- The loop sweeps through the tasks that were in the queue at its start. -/
theorem kwaitLoop_sweep (func : Int → ω → Bool × ω) (w : ω) {front behind : List Int}
    (hpids : s.qwait.pids = front ++ behind)
    (hroom : s.qready.pids.length + s.qwait.pids.length ≤ maxTaskNum) :
    ∃ qready qwait, kwaitLoop func front.length s w =
        ({ s with qready := qready, qwait := qwait }, (sweep func front w).world) ∧
      qready.pids = s.qready.pids ++ (sweep func front w).passed ∧
      qwait.pids = behind ++ (sweep func front w).kept := by
  induction front generalizing s behind w with
  | nil =>
    refine ⟨s.qready, s.qwait, rfl, (List.append_nil _).symm, ?_⟩
    rw [hpids]
    exact (List.append_nil behind).symm
  | cons pid front ih =>
    obtain ⟨c, hpop, hrest, hback, hlength⟩ := Pidcoda.pop_ins hpids (by omega)
    have hfewer : c.pids.length + 1 = s.qwait.pids.length := by
      rw [hrest, hpids]
      rfl
    cases hvera : (func pid w).1 with
    | true =>
      have hins : (s.qready.ins pid).pids = s.qready.pids ++ [pid] := Pidcoda.pids_ins (by omega)
      obtain ⟨qready, qwait, hloop, hready, hwait⟩ :=
        ih (s := { s with qwait := c, qready := s.qready.ins pid }) (func pid w).2 hrest
          (by simp only [hins, List.length_append, List.length_singleton]; omega)
      rw [sweep_cons_true hvera]
      refine ⟨qready, qwait, ?_, ?_, hwait⟩
      · rw [List.length_cons, kwaitLoop, hpop]
        simp only [hvera, if_true]
        exact hloop
      · rw [hready, hins, List.append_assoc, List.singleton_append]
    | false =>
      obtain ⟨qready, qwait, hloop, hready, hwait⟩ :=
        ih (s := { s with qwait := c.ins pid }) (func pid w).2 hback (by rwa [hlength])
      rw [sweep_cons_false hvera]
      refine ⟨qready, qwait, ?_, hready, ?_⟩
      · rw [List.length_cons, kwaitLoop, hpop]
        simp only [hvera, Bool.false_eq_true, if_false]
        exact hloop
      · rw [hwait, List.append_assoc, List.singleton_append]

theorem kwaitCheck_sweep (func : Int → ω → Bool × ω) (w : ω)
    (hroom : s.qready.pids.length + s.qwait.pids.length ≤ maxTaskNum) :
    ∃ qready qwait, kwaitCheck func s w =
        ({ s with qready := qready, qwait := qwait }, (sweep func s.qwait.pids w).world) ∧
      qready.pids = s.qready.pids ++ (sweep func s.qwait.pids w).passed ∧
      qwait.pids = (sweep func s.qwait.pids w).kept := by
  have hall := kwaitLoop_sweep func w (List.append_nil s.qwait.pids).symm hroom
  rwa [← Pidcoda.elements_eq] at hall

/-- It is the check of the process table with the answers that the functions have given. -/
theorem kwaitLoop_oracle (func : Int → ω → Bool × ω) (w : ω) {front behind : List Int}
    (oracle : Int → Bool) (hpids : s.qwait.pids = front ++ behind) (hnodup : front.Nodup)
    (horacle : ∀ q ∈ front, oracle q = decide (q ∈ (sweep func front w).passed))
    (hroom : s.qwait.pids.length ≤ maxTaskNum) :
    (kwaitLoop func front.length s w).1 = s.kwaitLoop oracle front.length := by
  induction front generalizing s behind w with
  | nil => rfl
  | cons pid front ih =>
    obtain ⟨c, hpop, hrest, hback, hlength⟩ := Pidcoda.pop_ins hpids hroom
    obtain ⟨hnot, hnodup⟩ := List.nodup_cons.mp hnodup
    have hfirst := horacle pid List.mem_cons_self
    rw [List.length_cons, kwaitLoop, State.kwaitLoop, hpop]
    cases hvera : (func pid w).1 with
    | true =>
      rw [sweep_cons_true hvera] at horacle hfirst
      rw [decide_eq_true List.mem_cons_self] at hfirst
      simp only [hfirst, hvera, if_true]
      apply ih (s := { s with qwait := c, qready := s.qready.ins pid }) (func pid w).2 hrest hnodup
      · intro q hq
        have hne : q ≠ pid := fun heq => hnot (heq ▸ hq)
        rw [horacle q (List.mem_cons_of_mem _ hq)]
        simp [hne]
      · rw [hpids, List.cons_append, List.length_cons, ← hrest] at hroom
        exact Nat.le_of_succ_le hroom
    | false =>
      rw [sweep_cons_false hvera] at horacle hfirst
      have hwaits : pid ∉ (sweep func front (func pid w).2).passed := fun hmem =>
        hnot ((sweep_passed_sublist func front _).subset hmem)
      rw [decide_eq_false hwaits] at hfirst
      simp only [hfirst, hvera, Bool.false_eq_true, if_false]
      apply ih (s := { s with qwait := c.ins pid }) (func pid w).2 hback hnodup
      · exact fun q hq => horacle q (List.mem_cons_of_mem _ hq)
      · rwa [hlength]

/-- What is expected of `kwait_check`: each function is called once, in the order of the queue,
those that hold make their tasks ready in that order, and the others wait in that order. -/
def Controlla (s : State) : Prop :=
  ∀ (ω : Type) (func : Int → ω → Bool × ω) (w : ω),
    (kwaitCheck func s w).1.qready.pids = s.qready.pids ++ (sweep func s.qwait.pids w).passed ∧
      (kwaitCheck func s w).1.qwait.pids = (sweep func s.qwait.pids w).kept ∧
      (kwaitCheck func s w).2 = (sweep func s.qwait.pids w).world ∧
      (kwaitCheck (recorded func) s (w, [])).2.2 = s.qwait.pids

theorem controlla (hroom : s.qready.pids.length + s.qwait.pids.length ≤ maxTaskNum) :
    Controlla s := by
  intro ω func w
  obtain ⟨qready, qwait, hcheck, hready, hwait⟩ := kwaitCheck_sweep func w hroom
  obtain ⟨_, _, hlogged, -⟩ := kwaitCheck_sweep (recorded func) (w, []) hroom
  rw [hcheck, hlogged]
  exact ⟨hready, hwait, rfl, sweep_recorded func s.qwait.pids [] w⟩

end check

/-! ### The queues -/

variable {s t : State} {pid : Int}

theorem prossimo_qwait (h : s.prossimo = some t) : t.qwait = s.qwait := by
  simp only [State.prossimo, Option.ite_none_left_eq_some, Option.some.injEq] at h
  obtain ⟨-, -, rfl⟩ := h
  rfl

theorem goproc_qwait (s : State) (mem : Bool) : (s.goproc mem).qwait = s.qwait := by
  unfold State.goproc
  split
  · rfl
  · simp only
    split <;> rfl

/-- Of the other calls only `syscall_kill` touches the queue of the waiting tasks. -/
theorem step_qwait {c : Tasks.Call} (hc : Estranea c) (hstep : Tasks.step s c = some t) :
    t.qwait = s.qwait ∨ ∃ pid, c = .kill pid ∧ t = s.syscallKill pid := by
  cases c with
  | avvio =>
    simp only [Tasks.step, State.avvio, Option.ite_none_right_eq_some] at hstep
    have hqwait := prossimo_qwait hstep.2
    exact .inl hqwait
  | scheduler =>
    simp only [Tasks.step, State.scheduler, Option.ite_none_left_eq_some] at hstep
    have hstep := hstep.2
    split at hstep
    · have hqwait := prossimo_qwait hstep
      exact .inl hqwait
    · have hqwait := prossimo_qwait hstep
      exact .inl hqwait
  | kwaitCheck func => exact hc.elim
  | kwait kmode => exact hc.elim
  | fork mem =>
    obtain rfl := Option.some.inj hstep
    refine .inl ?_
    unfold State.syscallFork
    split
    · rfl
    · simp only
      split <;> rfl
  | exec aperto mem =>
    obtain rfl := Option.some.inj hstep
    refine .inl ?_
    unfold State.syscallExec
    split
    · rfl
    · split
      · rfl
      · split <;> rfl
  | exit =>
    simp only [Tasks.step, State.syscallExit, Option.ite_none_left_eq_some] at hstep
    have hqwait := prossimo_qwait hstep.2
    exact .inl hqwait
  | kill pid => exact .inr ⟨pid, rfl, (Option.some.inj hstep).symm⟩
  | gomount mem =>
    obtain rfl := Option.some.inj hstep
    exact .inl (goproc_qwait s mem)
  | goumount mem =>
    obtain rfl := Option.some.inj hstep
    exact .inl (goproc_qwait s mem)

/-- `syscall_kill` leaves the waiting tasks as they are, or takes one of them out and moves those
in front of it behind the others. -/
theorem syscallKill_qwait (h : Sound s) (pid : Int) :
    (s.syscallKill pid).qwait.pids = s.qwait.pids ∨
      2 ≤ pid ∧ ∃ before after, s.qwait.pids = before ++ pid :: after ∧
        (s.syscallKill pid).qwait.pids = after ++ before := by
  unfold State.syscallKill
  split
  · exact .inl rfl
  · rename_i hkillable
    cases State.killLoop pid s.qready.elements s.qready with
    | mk qready killed =>
      cases killed with
      | true => exact .inl rfl
      | false =>
        by_cases hmem : pid ∈ s.qwait.pids
        · obtain ⟨before, after, hpids, hnot⟩ := List.eq_append_cons_of_mem hmem
          have hlong : before.length < s.qwait.elements := by
            rw [Pidcoda.elements_eq, hpids, List.length_append, List.length_cons]
            omega
          obtain ⟨c, hloop, hc⟩ := Kill.killLoop_found hlong hpids hnot h.room.2.1
          refine .inr ⟨by omega, before, after, hpids, ?_⟩
          simp only [hloop, Bool.false_eq_true, if_false, if_true]
          exact hc
        · obtain ⟨c, hloop, hc⟩ :=
            Kill.killLoop_missing (List.append_nil s.qwait.pids).symm hmem h.room.2.1
          rw [← Pidcoda.elements_eq] at hloop
          refine .inl ?_
          simp only [hloop, Bool.false_eq_true, if_false]
          exact hc

/-! ### Who holds a semaphore and who waits -/

/-- The queues are in order, and a semaphore is held by one task, or by none when it is green. -/
structure Inv (s : Sistema) : Prop where
  sound : Sound s.tasks
  uno : ∀ sem, (s.presi sem).length ≤ 1
  verde : ∀ sem, s.semafori sem = .verde → s.presi sem = []

/-- The tasks that wait for a semaphore stand in the queue in the order in which they came. -/
def InOrdine (s : Sistema) : Prop := ∀ sem, s.perSem sem s.tasks.qwait.pids = s.arrivi sem

/-- A waiting task is not killed from between two tasks that wait for the same semaphore. -/
def NonScambia (s : Sistema) : Call → Prop
  | .altra (.kill pid) => 2 ≤ pid → ∀ before after, s.tasks.qwait.pids = before ++ pid :: after →
      ∀ sem, s.perSem sem before = [] ∨ s.perSem sem after = []
  | _ => True

section system

variable {s t : Sistema} {sem : BitVec 32} {altre : Int → Bool}

theorem func_eq_claim (s : Sistema) (altre : Int → Bool) :
    s.func altre = claim Colore.rosso s.vuole altre := by
  funext pid semafori
  unfold Sistema.func claim Sistema.vuole
  cases s.kwaitTable pid <;> rfl

/-- The tasks that are moved are those that pass in a sweep through the queue. -/
theorem kwaitCheck_spec (h : Sound s.tasks) (altre : Int → Bool) :
    let r := sweep (s.func altre) s.tasks.qwait.pids s.semafori
    s.svegliati altre = r.passed ∧ (s.kwaitCheck altre).semafori = r.world ∧
      ∃ qready qwait, (s.kwaitCheck altre).tasks =
          { s.tasks with qready := qready, qwait := qwait } ∧
        qready.pids = s.tasks.qready.pids ++ r.passed ∧ qwait.pids = r.kept := by
  obtain ⟨qready, qwait, hcheck, hready, hwait⟩ :=
    kwaitCheck_sweep (s.func altre) s.semafori h.room_check
  refine ⟨?_, ?_, qready, qwait, ?_, hready, hwait⟩
  · rw [Sistema.svegliati, hcheck]
    simp only
    rw [hready, List.drop_left]
  · rw [Sistema.kwaitCheck, hcheck]
  · rw [Sistema.kwaitCheck, hcheck]

theorem nodup_qwait (h : Sound s.tasks) : s.tasks.qwait.pids.Nodup :=
  (List.nodup_append.mp h.nodup_queues).2.1

/-- For the process table, the check is one with what the functions have answered. -/
theorem kwaitCheck_tasks (h : Sound s.tasks) (altre : Int → Bool) :
    (s.kwaitCheck altre).tasks =
      s.tasks.kwaitCheck fun pid => decide (pid ∈ s.svegliati altre) := by
  have hroom : s.tasks.qwait.pids.length ≤ maxTaskNum := Nat.le_of_lt h.room.2.1
  have hloop := kwaitLoop_oracle (s.func altre) s.semafori
    (fun pid => decide (pid ∈ s.svegliati altre)) (List.append_nil s.tasks.qwait.pids).symm
    (nodup_qwait h) (fun q _ => by rw [(kwaitCheck_spec h altre).1]) hroom
  rwa [← Pidcoda.elements_eq] at hloop

/-- Of the tasks that wait for a semaphore, the first in the queue passes if it is green. -/
theorem perSem_svegliati (h : Sound s.tasks) (altre : Int → Bool) (sem : BitVec 32) :
    s.perSem sem (s.svegliati altre) = (if s.semafori sem = .rosso then []
      else (s.perSem sem s.tasks.qwait.pids).take 1) ∧
    (s.kwaitCheck altre).semafori sem =
      if s.perSem sem s.tasks.qwait.pids = [] then s.semafori sem else .rosso := by
  obtain ⟨hpassed, hworld, -⟩ := kwaitCheck_spec h altre
  rw [hpassed, hworld, func_eq_claim]
  exact sweep_claim s.tasks.qwait.pids s.semafori sem

/-! ### What each call keeps -/

theorem kwaitCheck_inv (h : Inv s) (altre : Int → Bool) : Inv (s.kwaitCheck altre) := by
  have hpresi : ∀ sem, (s.kwaitCheck altre).presi sem =
      s.presi sem ++ s.perSem sem (s.svegliati altre) := fun _ => rfl
  have hgreen : ∀ sem, s.semafori sem ≠ .rosso → s.presi sem = [] := by
    intro sem hne
    apply h.verde
    cases hcolore : s.semafori sem with
    | rosso => exact absurd hcolore hne
    | verde => rfl
  refine ⟨?_, fun sem => ?_, fun sem hsem => ?_⟩
  · rw [kwaitCheck_tasks h.sound]
    exact h.sound.passo (kwaitCheck_passo h.sound _)
  · rw [hpresi, (perSem_svegliati h.sound altre sem).1]
    split
    · rw [List.append_nil]
      exact h.uno sem
    · rename_i hne
      rw [hgreen sem hne, List.nil_append, List.length_take]
      exact Nat.min_le_left _ _
  · obtain ⟨hwoken, hcolore⟩ := perSem_svegliati h.sound altre sem
    rw [hsem] at hcolore
    split at hcolore
    · rename_i hnone
      rw [hpresi, hwoken, if_neg (by rw [← hcolore]; exact Colore.noConfusion), hnone,
        h.verde sem hcolore.symm]
      rfl
    · cases hcolore

theorem kwait_inv (h : Inv s) {kmode : Bool} {e : KwaitElement} (hstep : s.kwait kmode e = some t) :
    Inv t := by
  obtain ⟨tasks, htasks, rfl⟩ := Option.map_eq_some_iff.mp hstep
  exact ⟨h.sound.passo (kwait_passo h.sound htasks), h.uno, h.verde⟩

theorem semaphoroUp_presi_self (s : Sistema) (sem : BitVec 32) :
    (s.semaphoroUp sem).presi sem = (s.presi sem).erase s.tasks.corrente :=
  Function.update_self ..

theorem semaphoroUp_ne {sem' : BitVec 32} (s : Sistema) (h : sem' ≠ sem) :
    (s.semaphoroUp sem).presi sem' = s.presi sem' ∧
      (s.semaphoroUp sem).semafori sem' = s.semafori sem' :=
  ⟨Function.update_of_ne h .., Function.update_of_ne h ..⟩

theorem semaphoroUp_inv (h : Inv s) (hin : s.tasks.corrente ∈ s.presi sem) :
    Inv (s.semaphoroUp sem) := by
  have hnone : (s.semaphoroUp sem).presi sem = [] := by
    apply List.length_eq_zero_iff.mp
    rw [semaphoroUp_presi_self, List.length_erase_of_mem hin]
    have huno := h.uno sem
    omega
  refine ⟨h.sound, fun sem' => ?_, fun sem' hsem' => ?_⟩
  · by_cases hsame : sem' = sem
    · rw [hsame, hnone]
      exact Nat.zero_le 1
    · rw [(semaphoroUp_ne s hsame).1]
      exact h.uno sem'
  · by_cases hsame : sem' = sem
    · rw [hsame, hnone]
    · rw [(semaphoroUp_ne s hsame).2] at hsem'
      rw [(semaphoroUp_ne s hsame).1]
      exact h.verde sem' hsem'

theorem esegue_presi (s : Sistema) (tasks : State) (sem : BitVec 32) :
    (s.esegue tasks).presi sem = (s.presi sem).filter fun pid => decide (pid ∈ tasks.vivi) :=
  rfl

theorem esegue_inv (h : Inv s) {tasks : State} (hsound : Sound tasks) : Inv (s.esegue tasks) where
  sound := hsound
  uno sem := (List.length_filter_le _ _).trans (h.uno sem)
  verde sem hsem := by
    rw [esegue_presi, h.verde sem hsem]
    rfl

theorem step_inv (h : Inv s) {c : Call} (hstep : step s c = some t) : Inv t := by
  cases c with
  | kwaitCheck altre =>
    obtain rfl := Option.some.inj hstep
    exact kwaitCheck_inv h altre
  | kwait kmode e => exact kwait_inv h hstep
  | semaphoroDown sem => exact kwait_inv h hstep
  | semaphoroUp sem =>
    obtain ⟨hin, rfl⟩ := Option.ite_some_none_eq_some.mp hstep
    exact semaphoroUp_inv h hin
  | altra c =>
    obtain ⟨-, hstep⟩ := Option.ite_none_right_eq_some.mp hstep
    obtain ⟨tasks, htasks, rfl⟩ := Option.map_eq_some_iff.mp hstep
    obtain ⟨persi, hpasso, -⟩ := step_passo h.sound htasks
    exact esegue_inv h (h.sound.passo hpasso)

/-! ### In which order they wait -/

theorem mem_of_perSem {pids : List Int} {pid : Int} (h : pid ∈ s.perSem sem pids) : pid ∈ pids :=
  (List.mem_filter.mp h).1

theorem kwaitCheck_inOrdine (h : Sound s.tasks) (hordine : InOrdine s) (altre : Int → Bool) :
    InOrdine (s.kwaitCheck altre) := by
  intro sem
  obtain ⟨hpassed, -, qready, qwait, htasks, -, hwait⟩ := kwaitCheck_spec h altre
  have hkept : qwait.pids =
      s.tasks.qwait.pids.filter fun pid => decide (pid ∉ s.svegliati altre) := by
    rw [hwait, sweep_kept_eq (nodup_qwait h), hpassed]
  have harrivi : (s.kwaitCheck altre).arrivi sem =
      (s.arrivi sem).filter fun pid => decide (pid ∉ s.svegliati altre) :=
    rfl
  have hper : ∀ pids, (s.kwaitCheck altre).perSem sem pids = s.perSem sem pids := fun _ => rfl
  rw [harrivi, ← hordine sem, hper, htasks]
  simp only
  rw [hkept, Sistema.perSem, Sistema.perSem, List.filter_comm]

theorem perSem_append (s : Sistema) (sem : BitVec 32) (pids pids' : List Int) :
    s.perSem sem (pids ++ pids') = s.perSem sem pids ++ s.perSem sem pids' :=
  List.filter_append ..

/-- What a task does that begins to wait. -/
theorem kwait_spec (h : Sound s.tasks) {kmode : Bool} {e : KwaitElement}
    (hstep : s.kwait kmode e = some t) :
    s.tasks.corrente ∉ s.tasks.qwait.pids ∧
      t.tasks.qwait.pids = s.tasks.qwait.pids ++ [s.tasks.corrente] ∧
      t.kwaitTable = Function.update s.kwaitTable s.tasks.corrente e ∧
      ∀ sem, t.arrivi sem =
        if e = .wsemaphoro sem then s.arrivi sem ++ [s.tasks.corrente] else s.arrivi sem := by
  obtain ⟨tasks, htasks, rfl⟩ := Option.map_eq_some_iff.mp hstep
  simp only [State.kwaitHandler, Option.ite_none_left_eq_some] at htasks
  obtain ⟨hpos, -, htasks⟩ := htasks
  have hqwait : tasks.qwait = s.tasks.qwait.ins s.tasks.corrente := prossimo_qwait htasks
  refine ⟨fun hmem => ?_, ?_, rfl, fun _ => rfl⟩
  · have hall := h.nodup
    rw [State.posti, State.vivi, attuale_of_ne (by omega), List.append_assoc,
      List.append_assoc] at hall
    exact (List.nodup_cons.mp hall).1 (by simp [hmem])
  · simp only
    rw [hqwait, Pidcoda.pids_ins h.room.2.1]

theorem kwait_inOrdine (h : Sound s.tasks) (hordine : InOrdine s) {kmode : Bool} {e : KwaitElement}
    (hstep : s.kwait kmode e = some t) : InOrdine t := by
  intro sem
  obtain ⟨hnot, hpids, htable, harrivi⟩ := kwait_spec h hstep
  have hfront : t.perSem sem s.tasks.qwait.pids = s.perSem sem s.tasks.qwait.pids := by
    apply List.filter_congr
    intro pid hpid
    have hne : pid ≠ s.tasks.corrente := fun heq => hnot (heq ▸ hpid)
    rw [Sistema.vuole, Sistema.vuole, htable, Function.update_of_ne hne]
  have hnew : t.vuole s.tasks.corrente = some sem ↔ e = .wsemaphoro sem := by
    rw [Sistema.vuole, htable, Function.update_self]
    cases e with
    | wsemaphoro sem' => simp
    | altra => simp
  rw [hpids, perSem_append, hfront, hordine sem, harrivi sem]
  by_cases he : e = .wsemaphoro sem
  · have hpos : t.perSem sem [s.tasks.corrente] = [s.tasks.corrente] :=
      List.filter_cons_of_pos (decide_eq_true (hnew.mpr he))
    rw [if_pos he, hpos]
  · have hneg : t.perSem sem [s.tasks.corrente] = [] :=
      List.filter_cons_of_neg (by simpa using fun hv => he (hnew.mp hv))
    rw [if_neg he, hneg, List.append_nil]

theorem esegue_inOrdine (h : Sound s.tasks) (hordine : InOrdine s) {c : Tasks.Call} {tasks : State}
    (hok : NonScambia s (.altra c)) (hc : Estranea c) (hstep : Tasks.step s.tasks c = some tasks) :
    InOrdine (s.esegue tasks) := by
  intro sem
  have hper : ∀ pids, (s.esegue tasks).perSem sem pids = s.perSem sem pids := fun _ => rfl
  have harrivi : (s.esegue tasks).arrivi sem =
      (s.perSem sem s.tasks.qwait.pids).filter fun pid => decide (pid ∈ tasks.qwait.pids) := by
    rw [hordine sem]
    rfl
  have htasks : (s.esegue tasks).tasks = tasks := rfl
  rw [harrivi, hper, htasks]
  have hsame : tasks.qwait.pids = s.tasks.qwait.pids → s.perSem sem tasks.qwait.pids =
      (s.perSem sem s.tasks.qwait.pids).filter fun pid => decide (pid ∈ tasks.qwait.pids) := by
    intro heq
    rw [heq, List.filter_eq_self.mpr fun pid hpid => decide_eq_true (mem_of_perSem hpid)]
  rcases step_qwait hc hstep with hqwait | ⟨pid, rfl, rfl⟩
  · exact hsame (by rw [hqwait])
  · rcases syscallKill_qwait h pid with hqwait | ⟨hpid, before, after, hpids, hqwait⟩
    · exact hsame hqwait
    · have hnodup := nodup_qwait h
      rw [hpids] at hnodup
      obtain ⟨-, hafter, hdisjoint⟩ := List.nodup_append.mp hnodup
      have hnot : pid ∉ after ++ before := by
        rw [List.mem_append]
        rintro (hmem | hmem)
        · exact (List.nodup_cons.mp hafter).1 hmem
        · exact hdisjoint pid hmem pid List.mem_cons_self rfl
      -- what is left of the queue without the victim, in the order before the call
      have hleft : (before ++ pid :: after).filter (fun q => decide (q ∈ after ++ before)) =
          before ++ after := by
        rw [List.filter_append, List.filter_cons_of_neg (by simpa using hnot)]
        congr 1
        · exact List.filter_eq_self.mpr fun q hq => decide_eq_true (List.mem_append_right _ hq)
        · exact List.filter_eq_self.mpr fun q hq => decide_eq_true (List.mem_append_left _ hq)
      rw [hqwait, hpids, Sistema.perSem, Sistema.perSem, List.filter_comm, hleft]
      change s.perSem sem (after ++ before) = s.perSem sem (before ++ after)
      rw [perSem_append, perSem_append]
      rcases hok hpid before after hpids sem with hnone | hnone
      · rw [hnone, List.append_nil, List.nil_append]
      · rw [hnone, List.append_nil, List.nil_append]

theorem step_inOrdine (h : Sound s.tasks) (hordine : InOrdine s) {c : Call} (hok : NonScambia s c)
    (hstep : step s c = some t) : InOrdine t := by
  cases c with
  | kwaitCheck altre =>
    obtain rfl := Option.some.inj hstep
    exact kwaitCheck_inOrdine h hordine altre
  | kwait kmode e => exact kwait_inOrdine h hordine hstep
  | semaphoroDown sem => exact kwait_inOrdine h hordine hstep
  | semaphoroUp sem =>
    obtain ⟨-, rfl⟩ := Option.ite_some_none_eq_some.mp hstep
    exact hordine
  | altra c =>
    obtain ⟨hc, hstep⟩ := Option.ite_none_right_eq_some.mp hstep
    obtain ⟨tasks, htasks, rfl⟩ := Option.map_eq_some_iff.mp hstep
    exact esegue_inOrdine h hordine hok hc htasks

end system

/-! ### Runs -/

/-- A semaphore that is green goes to the task that has waited for it for the longest time, and
to no other. -/
def ConcedeInOrdine (s : Sistema) : Prop :=
  ∀ altre sem, s.perSem sem (s.svegliati altre) =
    if s.semafori sem = .rosso then [] else (s.arrivi sem).take 1

/-- What a step does to the process table is nothing or a step of it. -/
theorem step_tasks {s t : Sistema} (h : Sound s.tasks) {c : Call} (hstep : step s c = some t) :
    t.tasks = s.tasks ∨ ∃ c', Tasks.step s.tasks c' = some t.tasks := by
  cases c with
  | kwaitCheck altre =>
    obtain rfl := Option.some.inj hstep
    exact .inr ⟨.kwaitCheck _, congrArg some (kwaitCheck_tasks h altre).symm⟩
  | kwait kmode e =>
    obtain ⟨tasks, htasks, rfl⟩ := Option.map_eq_some_iff.mp hstep
    exact .inr ⟨.kwait kmode, htasks⟩
  | semaphoroDown sem =>
    obtain ⟨tasks, htasks, rfl⟩ := Option.map_eq_some_iff.mp hstep
    exact .inr ⟨.kwait true, htasks⟩
  | semaphoroUp sem =>
    obtain ⟨-, rfl⟩ := Option.ite_some_none_eq_some.mp hstep
    exact .inl rfl
  | altra c =>
    obtain ⟨-, hstep⟩ := Option.ite_none_right_eq_some.mp hstep
    obtain ⟨tasks, htasks, rfl⟩ := Option.map_eq_some_iff.mp hstep
    exact .inr ⟨c, htasks⟩

/-- The queues go through a run of the process table. -/
theorem tasks_run {colori : BitVec 32 → Colore} {calls : List Call} {s : Sistema}
    (h : Run (Computes step) (avvio colori) calls s) :
    ∃ calls', Run (Computes Tasks.step) schedulerInit calls' s.tasks := by
  apply h.invariant (I := fun s => ∃ calls', Run (Computes Tasks.step) schedulerInit calls' s.tasks)
  · rintro s c t ⟨calls', hrun⟩ hstep
    rcases step_tasks (Sound.of_run hrun) hstep with hsame | ⟨c', hc'⟩
    · exact ⟨calls', hsame ▸ hrun⟩
    · exact ⟨calls' ++ [c'], hrun.append (.single hc')⟩
  · exact ⟨[], .nil _⟩

theorem avvio_inv (colori : BitVec 32 → Colore) : Inv (avvio colori) where
  sound := schedulerInit_sound
  uno _ := Nat.zero_le 1
  verde _ _ := rfl

theorem avvio_inOrdine (colori : BitVec 32 → Colore) : InOrdine (avvio colori) := by
  intro sem
  have hnone : (avvio colori).tasks.qwait.pids = [] := Pidcoda.pids_init
  rw [hnone]
  rfl

/-- In every run `kwait_check` does what is expected and no semaphore is held by two tasks; in
those in which no task is killed from between two that wait for one semaphore, each semaphore is
granted in waiting order. -/
theorem semaphori_run {colori : BitVec 32 → Colore} {calls : List Call} {s : Sistema}
    (h : Run (Computes step) (avvio colori) calls s) :
    Controlla s.tasks ∧ (∀ sem, (s.presi sem).length ≤ 1) ∧
      (Run (Guarded NonScambia (Computes step)) (avvio colori) calls s → ConcedeInOrdine s) := by
  have hinv : Inv s :=
    h.invariant (I := Inv) (fun _ _ _ hs hstep => step_inv hs hstep) (avvio_inv colori)
  have hkeep : ∀ s c t, Inv s ∧ InOrdine s → NonScambia s c → Computes step s c t →
      Inv t ∧ InOrdine t := fun _ _ _ hs hok hstep =>
    ⟨step_inv hs.1 hstep, step_inOrdine hs.1.sound hs.2 hok hstep⟩
  refine ⟨controlla hinv.sound.room_check, hinv.uno, fun hguarded altre sem => ?_⟩
  obtain ⟨-, hordine⟩ := hguarded.guarded_invariant hkeep ⟨avvio_inv colori, avvio_inOrdine colori⟩
  rw [(perSem_svegliati hinv.sound altre sem).1, hordine sem]

/-- A task takes a semaphore, and another one is made to wait for it. -/
theorem semaphori_run_two : ∃ s,
    Run (Guarded NonScambia (Computes step)) (avvio fun _ => .verde)
      [.altra .avvio, .altra (.fork true), .semaphoroDown 0, .kwaitCheck fun _ => false,
        .semaphoroDown 0] s ∧
      Controlla s.tasks ∧ (∀ sem, (s.presi sem).length ≤ 1) ∧ ConcedeInOrdine s := by
  have hsome : ([.altra .avvio, .altra (.fork true), .semaphoroDown 0,
      .kwaitCheck fun _ => false, .semaphoroDown 0].foldlM step
        (avvio fun _ => .verde)).isSome := by
    decide +kernel
  obtain ⟨s, hs⟩ := Option.isSome_iff_exists.mp hsome
  have hrun := Run.of_foldlM hs
  have hguarded : Run (Guarded NonScambia (Computes step)) _ _ s :=
    hrun.labelled.mono fun s c t hstep => by
      refine ⟨?_, hstep.2⟩
      have hc := hstep.1
      simp only [List.mem_cons, List.not_mem_nil, or_false] at hc
      rcases hc with rfl | rfl | rfl | rfl | rfl <;> trivial
  obtain ⟨hcheck, huno, hordine⟩ := semaphori_run hrun
  exact ⟨s, hguarded, hcheck, huno, hordine hguarded⟩

/-- Task 1 takes a semaphore, 2 and 4 wait for it and 3 waits for something else, and 5 kills 3. -/
def tolto : List Call :=
  [.altra .avvio,
    .altra (.fork true), .altra (.fork true), .altra (.fork true), .altra (.fork true),
    .semaphoroDown 0, .kwaitCheck fun _ => false, .semaphoroDown 0,
    .kwait true .altra, .semaphoroDown 0, .altra (.kill 3), .altra .scheduler,
    .semaphoroUp 0]

/-- Then the semaphore goes to 4, although 2 has waited longer. -/
theorem tolto_overtakes : ∃ s, Run (Computes step) (avvio fun _ => .verde) tolto s ∧
    ¬ ConcedeInOrdine s := by
  have hcheck : (tolto.foldlM step (avvio fun _ => .verde)).map (fun s =>
      decide (s.perSem 0 (s.svegliati fun _ => false) = [4] ∧ s.semafori 0 = .verde ∧
        s.arrivi 0 = [2, 4])) = some true := by
    decide +kernel
  obtain ⟨s, hs, hdecide⟩ := Option.map_eq_some_iff.mp hcheck
  obtain ⟨hwoken, hgreen, harrivi⟩ := of_decide_eq_true hdecide
  refine ⟨s, Run.of_foldlM hs, fun h => ?_⟩
  have hfirst := h (fun _ => false) 0
  rw [hwoken, hgreen, harrivi] at hfirst
  exact absurd hfirst (by decide)

end OsdevArchive.Cheapos.Semaphoro
