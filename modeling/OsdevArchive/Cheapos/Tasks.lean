import OsdevArchive.Cheapos.Coda
import OsdevArchive.Lib.Runs
import Mathlib.Data.List.Nodup
import Mathlib.Data.List.Perm.Subperm

/-!
The process table of cheapos (`scheduler.c`, `syscall_task.c`, the mount processes of
`fs_fat12.c`). A step is what one call does to the queues, with interrupts off; whether an
allocation or the opening of a file succeeds and what the functions of `kwait` answer are
part of its label. `none` stands for `asm("hlt")`, and for calls by the idle task, which
makes none.
-/

namespace OsdevArchive.Cheapos.Tasks

open OsdevArchive.Lib.Runs

/-- The `pid` fields of `task_lista`, `task_corrente_pid` and the queues. -/
structure State where
  lista : Int → Int
  corrente : Int
  qready : Pidcoda
  qnotask : Pidcoda
  qwait : Pidcoda

/-- The pids of the tasks that can be made. -/
def pidValidi : List Int := (List.range' 1 (maxTaskNum - 1)).map Int.ofNat

/-- `scheduler_init`. -/
def schedulerInit : State where
  lista pid := if pid = 0 then 0 else -1
  corrente := 0
  qready := .init
  qnotask := pidValidi.foldl Pidcoda.ins .init
  qwait := .init

namespace State

variable (s : State)

/-- `task_getcorrente(&task_lista[task.pid])`. -/
def salva : State := { s with lista := Function.update s.lista s.corrente s.corrente }

/-- A new task is entered in `task_lista` and is ready. -/
def nuovo (pid : Int) : State :=
  { s with lista := Function.update s.lista pid pid, qready := s.qready.ins pid }

/-- The next ready task becomes the current one, or the idle task. -/
def prossimo : Option State :=
  let (pid, qready) := s.qready.pop
  if pid = 0 then none
  else
    let pid := if pid = -1 then 0 else pid
    if pid < 0 then none else some { s with qready := qready, corrente := s.lista pid }

/-- The end of `main`, which makes the first task. -/
def avvio : Option State :=
  if s.corrente = 0 ∧ s.qnotask.elements ≠ 0 then
    let (pid, qnotask) := s.qnotask.pop
    ({ s with qnotask := qnotask }.nuovo pid).prossimo
  else none

def scheduler : Option State :=
  if s.corrente < 0 then none
  else if s.corrente ≠ 0 then
    prossimo { s.salva with qready := s.qready.ins s.corrente }
  else s.salva.prossimo

/-- The loop of `kwait_check`. -/
def kwaitLoop (func : Int → Bool) : Nat → State → State
  | 0, s => s
  | n + 1, s =>
    let (pid, qwait) := s.qwait.pop
    if func pid then kwaitLoop func n { s with qwait := qwait, qready := s.qready.ins pid }
    else kwaitLoop func n { s with qwait := qwait.ins pid }

def kwaitCheck (func : Int → Bool) : State := kwaitLoop func s.qwait.elements s

def kwaitHandler (kmode : Bool) : Option State :=
  if s.corrente ≤ 0 then none
  else if kmode = false then none
  else prossimo { s.salva with qwait := s.qwait.ins s.corrente }

def syscallFork (mem : Bool) : State :=
  if s.qnotask.elements = 0 then s
  else
    let (pidfiglio, qnotask) := s.qnotask.pop
    if mem = false then { s with qnotask := qnotask.ins pidfiglio }
    else { s with qnotask := qnotask }.nuovo pidfiglio

def syscallExec (aperto mem : Bool) : State :=
  if aperto = false then s
  else if mem = false then s
  else if s.qnotask.elements = 0 then s
  else
    let (pid, qnotask) := s.qnotask.pop
    { s with qnotask := qnotask }.nuovo pid

def syscallExit : Option State :=
  if s.corrente = 0 then none
  else prossimo { s with qnotask := s.qnotask.ins s.corrente }

/-- A loop of `syscall_kill`: the queue without the pid, and whether it was there. -/
def killLoop (pid : Int) : Nat → Pidcoda → Pidcoda × Bool
  | 0, c => (c, false)
  | n + 1, c =>
    let (pidopt, c) := c.pop
    if pidopt = pid then (c, true) else killLoop pid n (c.ins pidopt)

def syscallKill (pid : Int) : State :=
  if s.corrente = pid ∨ pid < 2 then s
  else
    let (qready, killed) := killLoop pid s.qready.elements s.qready
    if killed then { s with qready := qready, qnotask := s.qnotask.ins pid }
    else
      let (qwait, killed) := killLoop pid s.qwait.elements s.qwait
      if killed then { s with qready := qready, qwait := qwait, qnotask := s.qnotask.ins pid }
      else { s with qready := qready, qwait := qwait }

/-- `fat12_gomount` and `fat12_goumount`, which differ in the code of the new task. -/
def goproc (mem : Bool) : State :=
  if s.qnotask.elements = 0 then s
  else
    let (pid, qnotask) := s.qnotask.pop
    if mem = false then { s with qnotask := qnotask }
    else { s with qnotask := qnotask }.nuovo pid

def fat12Gomount (mem : Bool) : State := s.goproc mem

def fat12Goumount (mem : Bool) : State := s.goproc mem

end State

inductive Call where
  | avvio
  | scheduler
  | kwaitCheck (func : Int → Bool)
  | kwait (kmode : Bool)
  | fork (mem : Bool)
  | exec (aperto mem : Bool)
  | exit
  | kill (pid : Int)
  | gomount (mem : Bool)
  | goumount (mem : Bool)

def step (s : State) : Call → Option State
  | .avvio => s.avvio
  | .scheduler => s.scheduler
  | .kwaitCheck func => some (s.kwaitCheck func)
  | .kwait kmode => s.kwaitHandler kmode
  | .fork mem => some (s.syscallFork mem)
  | .exec aperto mem => some (s.syscallExec aperto mem)
  | .exit => s.syscallExit
  | .kill pid => some (s.syscallKill pid)
  | .gomount mem => some (s.fat12Gomount mem)
  | .goumount mem => some (s.fat12Goumount mem)

/-! ### Where the pids are -/

/-- The current task, unless it is the idle one. -/
def State.attuale (s : State) : List Int := if s.corrente = 0 then [] else [s.corrente]

/-- The tasks that run or will run. -/
def State.vivi (s : State) : List Int := s.attuale ++ s.qready.pids ++ s.qwait.pids

def State.posti (s : State) : List Int := s.vivi ++ s.qnotask.pids

/-- Each pid is in exactly one place, once, and pid 0 is in no queue. -/
structure Partition (s : State) : Prop where
  una : ∀ pid : Int, 1 ≤ pid → pid < maxTaskNum →
    (if s.corrente = pid then 1 else 0) + s.qready.pids.count pid + s.qwait.pids.count pid +
      s.qnotask.pids.count pid = 1
  zero : (0 : Int) ∉ s.qready.pids ∧ 0 ∉ s.qwait.pids ∧ 0 ∉ s.qnotask.pids

/-- No pid is in two places, and the tasks that run know their pids. -/
structure Sound (s : State) : Prop where
  nodup : s.posti.Nodup
  validi : ∀ pid ∈ s.posti, pid ∈ pidValidi
  lista : ∀ pid ∈ s.vivi, s.lista pid = pid
  idle : s.lista 0 = 0

/-- What a step does with the pids: those that are lost go nowhere. -/
structure Passo (s t : State) (persi : List Int) : Prop where
  posti : (persi ++ t.posti).Perm s.posti
  lista : ∀ pid ∈ t.vivi, t.lista pid = pid
  idle : t.lista 0 = 0

/-- A mount process is not started while there are pids and no memory. -/
def NonPerde (s : State) : Call → Prop
  | .gomount mem => mem = true ∨ s.qnotask.elements = 0
  | .goumount mem => mem = true ∨ s.qnotask.elements = 0
  | _ => True

variable {s t : State} {pid : Int} {persi : List Int}

theorem mem_pidValidi : pid ∈ pidValidi ↔ 1 ≤ pid ∧ pid < maxTaskNum := by
  simp only [pidValidi, List.mem_map, List.mem_range'_1, maxTaskNum]
  constructor
  · rintro ⟨n, hn, rfl⟩
    simp only [Int.ofNat_eq_natCast]
    omega
  · intro h
    exact ⟨pid.toNat, by omega, Int.toNat_of_nonneg (by omega)⟩

theorem count_attuale (hpid : pid ≠ 0) :
    s.attuale.count pid = if s.corrente = pid then 1 else 0 := by
  unfold State.attuale
  split
  · rename_i hzero
    rw [if_neg (by rw [hzero]; exact hpid.symm), List.count_nil]
  · rw [List.count_singleton, beq_eq_decide]
    simp

theorem Sound.length_le (h : Sound s) : s.posti.length ≤ maxTaskNum - 1 := by
  have hle := (List.subperm_of_subset h.nodup h.validi).length_le
  rwa [pidValidi, List.length_map, List.length_range'] at hle

theorem length_posti (s : State) : s.posti.length =
    s.attuale.length + s.qready.pids.length + s.qwait.pids.length + s.qnotask.pids.length := by
  simp only [State.posti, State.vivi, List.length_append]

theorem Sound.valid (h : Sound s) (hpid : pid ∈ s.posti) : 1 ≤ pid :=
  (mem_pidValidi.mp (h.validi pid hpid)).1

theorem Sound.passo (h : Sound s) (hp : Passo s t persi) : Sound t where
  nodup := (List.nodup_append.mp (hp.posti.nodup_iff.mpr h.nodup)).2.1
  validi pid hpid := h.validi pid (hp.posti.mem_iff.mp (List.mem_append_right _ hpid))
  lista := hp.lista
  idle := hp.idle

theorem Passo.length (h : Passo s t persi) : persi.length + t.posti.length = s.posti.length := by
  rw [← h.posti.length_eq, List.length_append]

theorem Sound.refl (h : Sound s) : Passo s s [] := ⟨.refl _, h.lista, h.idle⟩

/-- The pids of a state without its current task. -/
theorem prossimo_spec (hready : ∀ pid ∈ s.qready.pids, 1 ≤ pid ∧ s.lista pid = pid)
    (hidle : s.lista 0 = 0) :
    ∃ t, s.prossimo = some t ∧ t.attuale ++ t.qready.pids = s.qready.pids ∧
      t.qwait = s.qwait ∧ t.qnotask = s.qnotask ∧ t.lista = s.lista := by
  unfold State.prossimo
  cases hpids : s.qready.pids with
  | nil =>
    rw [Pidcoda.pop_nil hpids]
    exact ⟨_, rfl, by simp [State.attuale, hidle, hpids], rfl, rfl, rfl⟩
  | cons pid rest =>
    obtain ⟨qready, hpop, hrest⟩ := Pidcoda.pop_cons hpids
    obtain ⟨hpos, hlista⟩ := hready pid (by rw [hpids]; exact List.mem_cons_self)
    have hne : pid ≠ 0 ∧ pid ≠ -1 ∧ ¬ pid < 0 := by omega
    rw [hpop]
    simp only [if_neg hne.1, if_neg hne.2.1, if_neg hne.2.2]
    refine ⟨_, rfl, ?_, rfl, rfl, rfl⟩
    simp only [State.attuale, hlista, if_neg hne.1, hrest, List.singleton_append]

/-- The calls that end with a switch: all pids are in the queues when it is made. -/
theorem prossimo_passo (h : Sound s) {u : State}
    (hposti : (u.qready.pids ++ u.qwait.pids ++ u.qnotask.pids).Perm s.posti)
    (hlista : ∀ pid ∈ u.qready.pids ++ u.qwait.pids, u.lista pid = pid) (hidle : u.lista 0 = 0) :
    ∃ t, u.prossimo = some t ∧ Passo s t [] := by
  have hready : ∀ pid ∈ u.qready.pids, 1 ≤ pid ∧ u.lista pid = pid := by
    intro pid hpid
    refine ⟨h.valid (hposti.mem_iff.mp ?_), hlista pid (List.mem_append_left _ hpid)⟩
    exact List.mem_append_left _ (List.mem_append_left _ hpid)
  obtain ⟨t, ht, hall, hwait, hnotask, hsame⟩ := prossimo_spec hready hidle
  refine ⟨t, ht, ?_, ?_, ?_⟩
  · rwa [List.nil_append, State.posti, State.vivi, hall, hwait, hnotask]
  · rwa [State.vivi, hall, hwait, hsame]
  · rw [hsame]
    exact hidle

theorem Sound.salva_eq (h : Sound s) : s.salva = s := by
  have hself : s.lista s.corrente = s.corrente := by
    by_cases hzero : s.corrente = 0
    · rw [hzero]
      exact h.idle
    · apply h.lista
      rw [State.vivi, State.attuale, if_neg hzero]
      exact List.mem_append_left _ (List.mem_append_left _ (List.mem_singleton.mpr rfl))
  have hupdate := Function.update_eq_self s.corrente s.lista
  rw [hself] at hupdate
  rw [State.salva, hupdate]

theorem attuale_of_ne (h : s.corrente ≠ 0) : s.attuale = [s.corrente] := if_neg h

theorem Sound.corrente_pos (h : Sound s) (hne : s.corrente ≠ 0) : 0 < s.corrente := by
  have hmem : s.corrente ∈ s.posti := by
    rw [State.posti, State.vivi, attuale_of_ne hne]
    simp
  have hvalid := h.valid hmem
  omega

/-- There is room for another pid in each queue. -/
theorem Sound.room (h : Sound s) : s.qready.pids.length < maxTaskNum ∧
    s.qwait.pids.length < maxTaskNum ∧ s.qnotask.pids.length < maxTaskNum := by
  have hle := h.length_le
  have hlength := length_posti s
  unfold maxTaskNum at *
  omega

/-- All waiting tasks have room among the ready ones. -/
theorem Sound.room_check (h : Sound s) :
    s.qready.pids.length + s.qwait.pids.length ≤ maxTaskNum := by
  have hle := h.length_le
  have hlength := length_posti s
  omega

/-- A task waits once. -/
theorem Sound.nodup_queues (h : Sound s) : (s.qready.pids ++ s.qwait.pids).Nodup := by
  have hall := h.nodup
  rw [State.posti, State.vivi, List.append_assoc, List.append_assoc] at hall
  have hqueues := (List.nodup_append.mp hall).2.1
  rw [← List.append_assoc] at hqueues
  exact (List.nodup_append.mp hqueues).1

theorem nuovo_passo (h : Sound s) {c : Pidcoda} {rest : List Int}
    (hpids : s.qnotask.pids = pid :: rest) (hc : c.pids = rest) :
    Passo s ({ s with qnotask := c }.nuovo pid) [] := by
  have hpos : 1 ≤ pid := h.valid (by simp [State.posti, hpids])
  have hready : (s.qready.ins pid).pids = s.qready.pids ++ [pid] := Pidcoda.pids_ins h.room.1
  have hvivi : ({ s with qnotask := c }.nuovo pid).vivi =
      s.attuale ++ (s.qready.pids ++ [pid]) ++ s.qwait.pids := by
    rw [← hready]
    rfl
  have hlista : ({ s with qnotask := c }.nuovo pid).lista = Function.update s.lista pid pid := rfl
  refine ⟨?_, ?_, ?_⟩
  · have hposti : ({ s with qnotask := c }.nuovo pid).posti =
        s.attuale ++ (s.qready.pids ++ [pid]) ++ s.qwait.pids ++ rest := by
      rw [State.posti, hvivi, ← hc]
      rfl
    rw [hposti, List.nil_append, State.posti, State.vivi, hpids, List.perm_iff_count]
    intro q
    simp only [List.count_append, List.count_cons, List.count_nil]
    omega
  · intro q hq
    rw [hlista]
    by_cases hqp : q = pid
    · rw [hqp, Function.update_self]
    · rw [Function.update_of_ne hqp]
      apply h.lista
      rw [hvivi] at hq
      simpa [State.vivi, hqp] using hq
  · rw [hlista, Function.update_of_ne (by omega)]
    exact h.idle

theorem scheduler_passo (h : Sound s) : ∃ t, s.scheduler = some t ∧ Passo s t [] := by
  unfold State.scheduler
  rw [h.salva_eq]
  by_cases hzero : s.corrente = 0
  · rw [if_neg (by omega), if_neg (by simpa using hzero)]
    apply prossimo_passo h
    · simp [State.posti, State.vivi, State.attuale, hzero]
    · intro q hq
      exact h.lista q (by simpa [State.vivi, State.attuale, hzero] using hq)
    · exact h.idle
  · have hpos := h.corrente_pos hzero
    have hready : (s.qready.ins s.corrente).pids = s.qready.pids ++ [s.corrente] :=
      Pidcoda.pids_ins h.room.1
    rw [if_neg (by omega), if_pos hzero]
    apply prossimo_passo h
    · rw [List.perm_iff_count]
      intro q
      simp only [State.posti, State.vivi, attuale_of_ne hzero, hready, List.count_append]
      omega
    · intro q hq
      apply h.lista q
      simp only [hready, State.vivi, attuale_of_ne hzero, List.mem_append] at hq ⊢
      tauto
    · exact h.idle

theorem kwait_passo (h : Sound s) {kmode : Bool} (hstep : s.kwaitHandler kmode = some t) :
    Passo s t [] := by
  unfold State.kwaitHandler at hstep
  split at hstep
  · cases hstep
  · rename_i hpos
    split at hstep
    · cases hstep
    · have hne : s.corrente ≠ 0 := by omega
      have hwait : (s.qwait.ins s.corrente).pids = s.qwait.pids ++ [s.corrente] :=
        Pidcoda.pids_ins h.room.2.1
      rw [h.salva_eq] at hstep
      obtain ⟨t', ht', hpasso⟩ := prossimo_passo h
        (u := { s with qwait := s.qwait.ins s.corrente })
        (by
          rw [List.perm_iff_count]
          intro q
          simp only [State.posti, State.vivi, attuale_of_ne hne, hwait, List.count_append]
          omega)
        (by
          intro q hq
          apply h.lista q
          simp only [hwait, State.vivi, attuale_of_ne hne, List.mem_append] at hq ⊢
          tauto)
        h.idle
      obtain rfl := Option.some.inj (ht'.symm.trans hstep)
      exact hpasso

theorem exit_passo (h : Sound s) (hstep : s.syscallExit = some t) : Passo s t [] := by
  unfold State.syscallExit at hstep
  split at hstep
  · cases hstep
  · rename_i hne
    have hnotask : (s.qnotask.ins s.corrente).pids = s.qnotask.pids ++ [s.corrente] :=
      Pidcoda.pids_ins h.room.2.2
    obtain ⟨t', ht', hpasso⟩ := prossimo_passo h
      (u := { s with qnotask := s.qnotask.ins s.corrente })
      (by
        rw [List.perm_iff_count]
        intro q
        simp only [State.posti, State.vivi, attuale_of_ne hne, hnotask, List.count_append]
        omega)
      (by
        intro q hq
        apply h.lista q
        rw [State.vivi, List.append_assoc]
        exact List.mem_append_right _ hq)
      h.idle
    obtain rfl := Option.some.inj (ht'.symm.trans hstep)
    exact hpasso

theorem pop_of_elements {c : Pidcoda} (h : c.elements ≠ 0) :
    ∃ pid rest c', c.pids = pid :: rest ∧ c.pop = (pid, c') ∧ c'.pids = rest := by
  cases hpids : c.pids with
  | nil => exact absurd (by rw [Pidcoda.elements_eq, hpids]; rfl) h
  | cons pid rest =>
    obtain ⟨c', hpop, hrest⟩ := Pidcoda.pop_cons hpids
    exact ⟨pid, rest, c', rfl, hpop, hrest⟩

theorem avvio_passo (h : Sound s) (hstep : s.avvio = some t) : Passo s t [] := by
  unfold State.avvio at hstep
  split at hstep
  · rename_i hstart
    obtain ⟨pid, rest, c, hpids, hpop, hrest⟩ := pop_of_elements hstart.2
    rw [hpop] at hstep
    have hnuovo := nuovo_passo h hpids hrest
    have hattuale : ({ s with qnotask := c }.nuovo pid).attuale = [] := if_pos hstart.1
    obtain ⟨t', ht', hpasso⟩ := prossimo_passo h (u := { s with qnotask := c }.nuovo pid)
      (by simpa [State.posti, State.vivi, hattuale] using hnuovo.posti)
      (by simpa [State.vivi, hattuale] using hnuovo.lista)
      hnuovo.idle
    obtain rfl := Option.some.inj (ht'.symm.trans hstep)
    exact hpasso
  · cases hstep

theorem fork_passo (h : Sound s) (mem : Bool) : Passo s (s.syscallFork mem) [] := by
  unfold State.syscallFork
  split
  · exact h.refl
  · rename_i hne
    obtain ⟨pid, rest, c, hpids, hpop, hrest⟩ := pop_of_elements hne
    rw [hpop]
    simp only
    split
    · have hroom := h.room.2.2
      rw [hpids, List.length_cons, ← hrest] at hroom
      have hback : (c.ins pid).pids = rest ++ [pid] := by
        rw [Pidcoda.pids_ins (by omega), hrest]
      refine ⟨?_, h.lista, h.idle⟩
      have hposti : { s with qnotask := c.ins pid }.posti = s.vivi ++ (rest ++ [pid]) := by
        rw [← hback]
        rfl
      rw [List.nil_append, hposti, State.posti, hpids]
      exact (List.perm_append_singleton pid rest).append_left _
    · exact nuovo_passo h hpids hrest

theorem exec_passo (h : Sound s) (aperto mem : Bool) : Passo s (s.syscallExec aperto mem) [] := by
  unfold State.syscallExec
  split
  · exact h.refl
  · split
    · exact h.refl
    · split
      · exact h.refl
      · rename_i hne
        obtain ⟨pid, rest, c, hpids, hpop, hrest⟩ := pop_of_elements hne
        rw [hpop]
        exact nuovo_passo h hpids hrest

/-- A mount process that gets no memory takes its pid away. -/
theorem goproc_passo (h : Sound s) (mem : Bool) :
    ∃ persi, Passo s (s.goproc mem) persi ∧
      (persi = [] ↔ mem = true ∨ s.qnotask.elements = 0) := by
  unfold State.goproc
  split
  · rename_i hzero
    exact ⟨[], h.refl, by simp [hzero]⟩
  · rename_i hne
    obtain ⟨pid, rest, c, hpids, hpop, hrest⟩ := pop_of_elements hne
    rw [hpop]
    cases mem with
    | true => exact ⟨[], nuovo_passo h hpids hrest, by simp⟩
    | false =>
      refine ⟨[pid], ⟨?_, h.lista, h.idle⟩, by simp [hne]⟩
      have hposti : { s with qnotask := c }.posti = s.vivi ++ rest := by
        rw [← hrest]
        rfl
      simp only [if_pos, hposti]
      rw [State.posti, hpids, List.singleton_append]
      exact List.perm_middle.symm

/-- The loop of `kwait_check` moves pids from one queue to the other or to its end. -/
theorem kwaitLoop_spec (func : Int → Bool) {n : Nat} (hn : n ≤ s.qwait.pids.length)
    (hroom : s.qready.pids.length + s.qwait.pids.length < maxTaskNum) :
    (s.kwaitLoop func n).lista = s.lista ∧ (s.kwaitLoop func n).corrente = s.corrente ∧
      (s.kwaitLoop func n).qnotask = s.qnotask ∧
      ((s.kwaitLoop func n).qready.pids ++ (s.kwaitLoop func n).qwait.pids).Perm
        (s.qready.pids ++ s.qwait.pids) := by
  induction n generalizing s with
  | zero => exact ⟨rfl, rfl, rfl, .refl _⟩
  | succ n ih =>
    cases hpids : s.qwait.pids with
    | nil => simp [hpids] at hn
    | cons pid rest =>
      obtain ⟨c, hpop, hrest⟩ := Pidcoda.pop_cons hpids
      rw [hpids, List.length_cons] at hn hroom
      rw [State.kwaitLoop, hpop]
      simp only
      split
      · have hready : (s.qready.ins pid).pids = s.qready.pids ++ [pid] :=
          Pidcoda.pids_ins (by omega)
        obtain ⟨hlista, hcorrente, hnotask, hperm⟩ :=
          ih (s := { s with qwait := c, qready := s.qready.ins pid })
            (by simp only [hrest]; omega)
            (by simp only [hready, hrest, List.length_append, List.length_singleton]; omega)
        refine ⟨hlista, hcorrente, hnotask, hperm.trans ?_⟩
        simp only [hready, hrest, List.append_assoc, List.singleton_append]
        exact .refl _
      · have hback : (c.ins pid).pids = rest ++ [pid] := by
          rw [Pidcoda.pids_ins (by rw [hrest]; omega), hrest]
        obtain ⟨hlista, hcorrente, hnotask, hperm⟩ :=
          ih (s := { s with qwait := c.ins pid })
            (by simp only [hback, List.length_append, List.length_singleton]; omega)
            (by simp only [hback, List.length_append, List.length_singleton]; omega)
        refine ⟨hlista, hcorrente, hnotask, hperm.trans ?_⟩
        simp only [hback]
        exact (List.perm_append_singleton pid rest).append_left _

theorem kwaitCheck_passo (h : Sound s) (func : Int → Bool) : Passo s (s.kwaitCheck func) [] := by
  have hle := h.length_le
  have hlength := length_posti s
  obtain ⟨hlista, hcorrente, hnotask, hperm⟩ := kwaitLoop_spec (s := s) func
    (n := s.qwait.elements) (Nat.le_of_eq (Pidcoda.elements_eq _))
    (by unfold maxTaskNum at *; omega)
  have hattuale : (s.kwaitCheck func).attuale = s.attuale := by
    rw [State.attuale, State.kwaitCheck, hcorrente, State.attuale]
  have hvivi : (s.kwaitCheck func).vivi.Perm s.vivi := by
    rw [State.vivi, State.vivi, hattuale, List.append_assoc, List.append_assoc]
    exact hperm.append_left _
  refine ⟨?_, ?_, ?_⟩
  · rw [List.nil_append, State.posti, State.posti, State.kwaitCheck, hnotask]
    exact hvivi.append_right _
  · intro pid hpid
    rw [State.kwaitCheck, hlista]
    exact h.lista pid (hvivi.mem_iff.mp hpid)
  · rw [State.kwaitCheck, hlista]
    exact h.idle

/-- A loop of `syscall_kill` takes the pid out, if it is there. -/
theorem killLoop_spec (pid : Int) {n : Nat} {c : Pidcoda} (hn : n ≤ c.pids.length)
    (hroom : c.pids.length < maxTaskNum) :
    ((if (State.killLoop pid n c).2 then [pid] else []) ++ (State.killLoop pid n c).1.pids).Perm
      c.pids := by
  induction n generalizing c with
  | zero => exact .refl _
  | succ n ih =>
    cases hpids : c.pids with
    | nil => simp [hpids] at hn
    | cons q rest =>
      obtain ⟨c', hpop, hrest⟩ := Pidcoda.pop_cons hpids
      rw [hpids, List.length_cons] at hn hroom
      rw [State.killLoop, hpop]
      simp only
      split
      · rename_i hq
        rw [hq, if_pos rfl, hrest]
        exact .refl _
      · have hback : (c'.ins q).pids = rest ++ [q] := by
          rw [Pidcoda.pids_ins (by rw [hrest]; omega), hrest]
        have hperm := ih (c := c'.ins q)
          (by simp only [hback, List.length_append, List.length_singleton]; omega)
          (by simp only [hback, List.length_append, List.length_singleton]; omega)
        rw [hback] at hperm
        exact hperm.trans (List.perm_append_singleton q rest)

/-- Other queues with the same pids make a step that loses none. -/
theorem Sound.rearranged (h : Sound s) (qready qnotask qwait : Pidcoda)
    (hvivi : ∀ pid ∈ qready.pids ++ qwait.pids, pid ∈ s.qready.pids ++ s.qwait.pids)
    (hposti : (qready.pids ++ qwait.pids ++ qnotask.pids).Perm
      (s.qready.pids ++ s.qwait.pids ++ s.qnotask.pids)) :
    Passo s { s with qready := qready, qwait := qwait, qnotask := qnotask } [] where
  posti := by
    have hall := hposti.append_left s.attuale
    simpa [State.posti, State.vivi, State.attuale] using hall
  lista pid hpid := by
    apply h.lista
    simp only [State.vivi, List.append_assoc, List.mem_append] at hpid ⊢
    refine hpid.imp_right fun hqueue => ?_
    exact List.mem_append.mp (hvivi pid (List.mem_append.mpr hqueue))
  idle := h.idle

theorem kill_passo (h : Sound s) (pid : Int) : Passo s (s.syscallKill pid) [] := by
  unfold State.syscallKill
  split
  · exact h.refl
  · have hroom := h.room
    have hnotask : (s.qnotask.ins pid).pids = s.qnotask.pids ++ [pid] :=
      Pidcoda.pids_ins hroom.2.2
    have hready := killLoop_spec pid (Nat.le_of_eq (Pidcoda.elements_eq s.qready)) hroom.1
    have hwait := killLoop_spec pid (Nat.le_of_eq (Pidcoda.elements_eq s.qwait)) hroom.2.1
    cases hk : State.killLoop pid s.qready.elements s.qready with
    | mk qready killed =>
      rw [hk] at hready
      cases killed with
      | true =>
        have hready : (pid :: qready.pids).Perm s.qready.pids := hready
        refine h.rearranged _ _ s.qwait ?_ ?_
        · intro q hq
          rw [List.mem_append] at hq ⊢
          exact hq.imp_left fun hmem => hready.mem_iff.mp (List.mem_cons_of_mem _ hmem)
        · rw [List.perm_iff_count]
          intro q
          have hcount := hready.count_eq q
          simp only [hnotask, List.count_append, List.count_cons, List.count_nil] at hcount ⊢
          omega
      | false =>
        have hready : qready.pids.Perm s.qready.pids := hready
        cases hk' : State.killLoop pid s.qwait.elements s.qwait with
        | mk qwait killed =>
          rw [hk'] at hwait
          cases killed with
          | true =>
            have hwait : (pid :: qwait.pids).Perm s.qwait.pids := hwait
            refine h.rearranged _ _ _ ?_ ?_
            · intro q hq
              rw [List.mem_append] at hq ⊢
              exact hq.imp hready.mem_iff.mp
                fun hmem => hwait.mem_iff.mp (List.mem_cons_of_mem _ hmem)
            · rw [List.perm_iff_count]
              intro q
              have hcount := hready.count_eq q
              have hcount' := hwait.count_eq q
              simp only [hnotask, List.count_append, List.count_cons, List.count_nil]
                at hcount' ⊢
              omega
          | false =>
            have hwait : qwait.pids.Perm s.qwait.pids := hwait
            have hvivi := hready.append hwait
            exact h.rearranged _ s.qnotask _ (fun q => hvivi.mem_iff.mp)
              (hvivi.append_right _)

/-- What each call does with the pids. -/
theorem step_passo (h : Sound s) {c : Call} (hstep : step s c = some t) :
    ∃ persi, Passo s t persi ∧ (persi = [] ↔ NonPerde s c) := by
  cases c with
  | avvio => exact ⟨[], avvio_passo h hstep, by simp [NonPerde]⟩
  | scheduler =>
    obtain ⟨t', ht', hpasso⟩ := scheduler_passo h
    obtain rfl := Option.some.inj (ht'.symm.trans hstep)
    exact ⟨[], hpasso, by simp [NonPerde]⟩
  | kwaitCheck func =>
    obtain rfl := Option.some.inj hstep
    exact ⟨[], kwaitCheck_passo h func, by simp [NonPerde]⟩
  | kwait kmode => exact ⟨[], kwait_passo h hstep, by simp [NonPerde]⟩
  | fork mem =>
    obtain rfl := Option.some.inj hstep
    exact ⟨[], fork_passo h mem, by simp [NonPerde]⟩
  | exec aperto mem =>
    obtain rfl := Option.some.inj hstep
    exact ⟨[], exec_passo h aperto mem, by simp [NonPerde]⟩
  | exit => exact ⟨[], exit_passo h hstep, by simp [NonPerde]⟩
  | kill pid =>
    obtain rfl := Option.some.inj hstep
    exact ⟨[], kill_passo h pid, by simp [NonPerde]⟩
  | gomount mem =>
    obtain rfl := Option.some.inj hstep
    exact goproc_passo h mem
  | goumount mem =>
    obtain rfl := Option.some.inj hstep
    exact goproc_passo h mem

/-! ### Runs -/

theorem nodup_pidValidi : pidValidi.Nodup :=
  (List.nodup_range' (h := Nat.one_pos)).map fun _ _ h => Int.ofNat.inj h

theorem length_pidValidi : pidValidi.length = maxTaskNum - 1 := by
  rw [pidValidi, List.length_map, List.length_range']

/-- How often a pid stands in the four places. -/
theorem count_posti (hpid : pid ≠ 0) : s.posti.count pid =
    (if s.corrente = pid then 1 else 0) + s.qready.pids.count pid + s.qwait.pids.count pid +
      s.qnotask.pids.count pid := by
  rw [State.posti, State.vivi, List.count_append, List.count_append, List.count_append,
    count_attuale hpid]

theorem Sound.partition_iff (h : Sound s) :
    Partition s ↔ s.posti.length = maxTaskNum - 1 := by
  constructor
  · intro hpartition
    have hall : pidValidi ⊆ s.posti := by
      intro pid hpid
      obtain ⟨hlow, hhigh⟩ := mem_pidValidi.mp hpid
      apply List.count_pos_iff.mp
      rw [count_posti (by omega), hpartition.una pid hlow hhigh]
      exact Nat.one_pos
    have hle := (List.subperm_of_subset nodup_pidValidi hall).length_le
    rw [length_pidValidi] at hle
    exact Nat.le_antisymm h.length_le hle
  · intro hlength
    have hsub := List.subperm_of_subset h.nodup h.validi
    have hperm : s.posti.Perm pidValidi :=
      hsub.perm_of_length_le (Nat.le_of_eq (by rw [length_pidValidi, hlength]))
    have hzero : (0 : Int) ∉ s.posti := fun hmem => absurd (h.valid hmem) (by decide)
    refine ⟨fun pid hlow hhigh => ?_, ?_⟩
    · rw [← count_posti (by omega), hperm.count_eq]
      exact List.count_eq_one_of_mem nodup_pidValidi (mem_pidValidi.mpr ⟨hlow, hhigh⟩)
    · simp only [State.posti, State.vivi, List.mem_append, not_or] at hzero
      exact ⟨hzero.1.1.2, hzero.1.2, hzero.2⟩

theorem schedulerInit_posti : schedulerInit.posti = pidValidi := by
  have hnotask : schedulerInit.qnotask.pids = pidValidi := by
    have hqueue : schedulerInit.qnotask = pidValidi.foldl Pidcoda.ins .init := by
      rw [schedulerInit]
    have hroom : Pidcoda.init.pids.length + pidValidi.length ≤ maxTaskNum := by
      rw [Pidcoda.pids_init, length_pidValidi]
      decide
    rw [hqueue, Pidcoda.pids_foldl_ins hroom, Pidcoda.pids_init, List.nil_append]
  have hready : schedulerInit.qready.pids = [] := Pidcoda.pids_init
  have hwait : schedulerInit.qwait.pids = [] := Pidcoda.pids_init
  rw [State.posti, State.vivi, hready, hwait, hnotask]
  rfl

theorem schedulerInit_sound : Sound schedulerInit where
  nodup := by
    rw [schedulerInit_posti]
    exact nodup_pidValidi
  validi pid hpid := by rwa [schedulerInit_posti] at hpid
  lista pid hpid := by
    have hvivi : schedulerInit.vivi = [] := by
      have hready : schedulerInit.qready.pids = [] := Pidcoda.pids_init
      have hwait : schedulerInit.qwait.pids = [] := Pidcoda.pids_init
      rw [State.vivi, hready, hwait]
      rfl
    rw [hvivi] at hpid
    cases hpid
  idle := rfl

theorem Sound.of_run {calls : List Call} (h : Run (Computes step) schedulerInit calls s) :
    Sound s :=
  h.invariant (I := Sound) (fun _ _ _ hs hstep =>
    (step_passo hs hstep).elim fun _ hp => hs.passo hp.1) schedulerInit_sound

/-- Some pid is in no place. -/
def Lost (s : State) : Prop := Sound s ∧ s.posti.length < maxTaskNum - 1

/-- The pids stay divided up between the current task and the queues exactly in the runs
in which no mount process is started without memory. -/
theorem partition_iff_nonPerde {calls : List Call}
    (h : Run (Computes step) schedulerInit calls s) :
    Partition s ↔ Run (Guarded NonPerde (Computes step)) schedulerInit calls s := by
  have hsound := Sound.of_run h
  have hstart : Sound schedulerInit ∧ schedulerInit.posti.length = maxTaskNum - 1 :=
    ⟨schedulerInit_sound, by rw [schedulerInit_posti, length_pidValidi]⟩
  have hnone : ∀ s : State, Sound s ∧ s.posti.length = maxTaskNum - 1 → ¬ Lost s :=
    fun s hs hbad => Nat.ne_of_lt hbad.2 hs.2
  rw [← Run.undamaged_iff_guarded hnone ?_ ?_ ?_ h hstart, hsound.partition_iff]
  · have hle := hsound.length_le
    rw [Lost, and_iff_right hsound]
    omega
  · rintro s c t ⟨hs, hfull⟩ hok hstep
    obtain ⟨persi, hpasso, hnone⟩ := step_passo hs hstep
    refine ⟨hs.passo hpasso, ?_⟩
    have hlength := hpasso.length
    rw [hnone.mpr hok, List.length_nil, Nat.zero_add] at hlength
    rw [hlength, hfull]
  · rintro s c t ⟨hs, hfull⟩ hok hstep
    obtain ⟨persi, hpasso, hnone⟩ := step_passo hs hstep
    refine ⟨hs.passo hpasso, ?_⟩
    have hlength := hpasso.length
    have hpos : 0 < persi.length := List.length_pos_iff.mpr (mt hnone.mp hok)
    omega
  · rintro s c t ⟨hs, hless⟩ hstep
    obtain ⟨persi, hpasso, -⟩ := step_passo hs hstep
    have hlength := hpasso.length
    exact ⟨hs.passo hpasso, by omega⟩

instance instDecidableNonPerde : DecidableRel NonPerde
  | s, .gomount mem => inferInstanceAs (Decidable (mem = true ∨ s.qnotask.elements = 0))
  | s, .goumount mem => inferInstanceAs (Decidable (mem = true ∨ s.qnotask.elements = 0))
  | _, .avvio => isTrue trivial
  | _, .scheduler => isTrue trivial
  | _, .kwaitCheck _ => isTrue trivial
  | _, .kwait _ => isTrue trivial
  | _, .fork _ => isTrue trivial
  | _, .exec _ _ => isTrue trivial
  | _, .exit => isTrue trivial
  | _, .kill _ => isTrue trivial

/-- A floppy is to be mounted while there is no memory: the pid is lost. -/
theorem gomount_loses : ∃ s, Run (Computes step) schedulerInit [.avvio, .gomount false] s ∧
    ¬ Partition s := by
  have hcount : ([.avvio, .gomount false].foldlM step schedulerInit).map (fun s =>
      (if s.corrente = 2 then 1 else 0) + s.qready.pids.count 2 + s.qwait.pids.count 2 +
        s.qnotask.pids.count 2) = some 0 := by
    decide +kernel
  obtain ⟨s, hs, hzero⟩ := Option.map_eq_some_iff.mp hcount
  refine ⟨s, Run.of_foldlM hs, fun h => ?_⟩
  have hone := h.una 2 (by decide) (by decide)
  omega

/-- A run with the calls that move pids. -/
theorem partition_of_run : ∃ s,
    Run (Computes step) schedulerInit [.avvio, .fork true, .kwait true, .gomount true, .scheduler,
      .kwaitCheck fun _ => true, .kill 2] s ∧ Partition s := by
  have hsome : ([.avvio, .fork true, .kwait true, .gomount true, .scheduler,
      .kwaitCheck fun _ => true, .kill 2].foldlM (checked NonPerde step) schedulerInit).isSome := by
    decide +kernel
  obtain ⟨s, hs⟩ := Option.isSome_iff_exists.mp hsome
  have hrun := Run.of_foldlM_checked hs
  exact ⟨s, hrun.of_guarded, (partition_iff_nonPerde hrun.of_guarded).mpr hrun⟩

end OsdevArchive.Cheapos.Tasks
