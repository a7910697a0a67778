import OsdevArchive.Cheapos.FileTable
import OsdevArchive.Cheapos.Mem
import OsdevArchive.Cheapos.Tasks

/-!
What `syscall_kill` of cheapos does to the whole system: the queues, the memory of the task
and its open files. The search through a queue moves the tasks in front of the victim behind
the others, and stops there.
-/

namespace OsdevArchive.Cheapos.Kill

open OsdevArchive.Lib.Runs Tasks

/-- The queues with what else there is of a task: `mem.base` in `task_lista` and
`task_exitcode_lista`; the memory and the table of open files. -/
structure Sistema where
  tasks : Tasks.State
  base : Int → Mem.MemT
  exitcode : Int → Int
  mem : Mem.Tables
  file : FileTable.State

namespace Sistema

variable (s : Sistema)

/-- What is done when the pid is found, with the queues in which it was looked for. -/
def uccidi (pid : Int) (qready qwait : Pidcoda) : Sistema :=
  { s with
    mem := (s.mem.memFree (s.base pid)).2
    exitcode := Function.update s.exitcode pid (-1)
    file := s.file.pidcloseall pid
    tasks := { s.tasks with qready := qready, qwait := qwait, qnotask := s.tasks.qnotask.ins pid } }

def syscallKill (pid : Int) : Bool × Sistema :=
  if s.tasks.corrente = pid ∨ pid < 2 then (false, s)
  else
    let (qready, killed) := State.killLoop pid s.tasks.qready.elements s.tasks.qready
    if killed then (true, s.uccidi pid qready s.tasks.qwait)
    else
      let (qwait, killed) := State.killLoop pid s.tasks.qwait.elements s.tasks.qwait
      if killed then (true, s.uccidi pid qready qwait)
      else (false, { s with tasks := { s.tasks with qready := qready, qwait := qwait } })

/-- The tasks that wait, for their turn or for something else. -/
def inCoda : List Int := s.tasks.qready.pids ++ s.tasks.qwait.pids

end Sistema

/-- The region at an address has moved from the used ones to the free ones. -/
def Liberata (base : Mem.MemT) (s t : Mem.Tables) : Prop :=
  ∃ i j, (s.used i).flag = true ∧ (s.used i).base = base ∧ (t.used i).flag = false ∧
    t.free j = s.used i

/-- A task is gone, and the others are where they were. -/
structure Uccisa (s t : Sistema) (pid : Int) : Prop where
  qready : t.tasks.qready.pids = s.tasks.qready.pids.erase pid
  qwait : t.tasks.qwait.pids = s.tasks.qwait.pids.erase pid
  qnotask : t.tasks.qnotask.pids = s.tasks.qnotask.pids ++ [pid]
  mem : Liberata (s.base pid) s.mem t.mem

/-- The same tasks in the same order, and the rest of the system. -/
structure Immutata (s t : Sistema) : Prop where
  qready : t.tasks.qready.pids = s.tasks.qready.pids
  qwait : t.tasks.qwait.pids = s.tasks.qwait.pids
  resto : t = { s with
    tasks := { s.tasks with qready := t.tasks.qready, qwait := t.tasks.qwait } }

/-- What is expected of `syscall_kill`. -/
def KillCorretta (s : Sistema) (pid : Int) : Prop :=
  if pid ∈ s.inCoda then (s.syscallKill pid).1 = true ∧ Uccisa s (s.syscallKill pid).2 pid
  else (s.syscallKill pid).1 = false ∧ Immutata s (s.syscallKill pid).2

/-- The first or the last of a queue. -/
def AlBordo (pid : Int) (pids : List Int) : Prop :=
  pids.head? = some pid ∨ pids.getLast? = some pid

/-- `mem_free` finds the block of a task, and a free entry to put it in. -/
def Liberabile (base : Mem.MemT) (s : Mem.Tables) : Prop :=
  (∃ i, (s.used i).flag = true ∧ (s.used i).base = base) ∧ ∃ j, (s.free j).flag = false

variable {s : Sistema} {pid : Int} {c : Pidcoda} {base : Mem.MemT} {m : Mem.Tables}

theorem liberata_iff : Liberata base m (m.memFree base).2 ↔ Liberabile base m := by
  rcases Mem.memFree_cases m base with ⟨hnone, hrefused⟩ | ⟨j, i, hj, hbase, hi, hgiven⟩
  · rw [hrefused]
    refine iff_of_false ?_ ?_
    · rintro ⟨j, -, hflag, -, hnot, -⟩
      exact absurd hflag (Bool.eq_false_iff.mp hnot)
    · rintro ⟨⟨j, hflag, hbase⟩, i, hfree⟩
      rcases hnone with hunused | hfull
      · exact hunused j hflag hbase
      · exact absurd (hfull i) (Bool.eq_false_iff.mp hfree)
  · rw [hgiven]
    refine iff_of_true ⟨j, i, hj, hbase, ?_, ?_⟩ ⟨⟨j, hj, hbase⟩, i, hi⟩
    · simp only [Mem.Tables.give, Function.update_self]
    · simp only [Mem.Tables.give, Function.update_self]

/-! ### Where the others go -/

/-- The tasks in front of the victim end up behind the others. -/
theorem killLoop_found {before after : List Int} {n : Nat} (hn : before.length < n)
    (hpids : c.pids = before ++ pid :: after) (hnot : pid ∉ before)
    (hroom : c.pids.length < maxTaskNum) :
    ∃ c', State.killLoop pid n c = (c', true) ∧ c'.pids = after ++ before := by
  induction before generalizing c n after with
  | nil =>
    obtain ⟨n, rfl⟩ := Nat.exists_eq_succ_of_ne_zero (Nat.ne_of_gt hn)
    obtain ⟨c', hpop, hrest⟩ := Pidcoda.pop_cons hpids
    refine ⟨c', ?_, by rw [hrest, List.append_nil]⟩
    rw [State.killLoop, hpop]
    exact if_pos rfl
  | cons q before ih =>
    obtain ⟨n, rfl⟩ := Nat.exists_eq_succ_of_ne_zero (Nat.ne_zero_of_lt hn)
    obtain ⟨c', hpop, -, hback, hlength⟩ := Pidcoda.pop_ins hpids (Nat.le_of_lt hroom)
    obtain ⟨hne, hnot⟩ := not_or.mp (mt List.mem_cons.mpr hnot)
    rw [List.cons_append] at hback
    obtain ⟨d, hloop, hd⟩ := ih (c := c'.ins q) (Nat.lt_of_succ_lt_succ hn) hback hnot
      (by rwa [hlength])
    refine ⟨d, ?_, by rw [hd, List.append_assoc, List.singleton_append]⟩
    rw [State.killLoop, hpop]
    simp only [if_neg (Ne.symm hne), hloop]

/-- A search for a pid that is not there goes round the queue. -/
theorem killLoop_missing {front behind : List Int} (hpids : c.pids = front ++ behind)
    (hnot : pid ∉ front) (hroom : c.pids.length < maxTaskNum) :
    ∃ c', State.killLoop pid front.length c = (c', false) ∧ c'.pids = behind ++ front := by
  induction front generalizing c behind with
  | nil => exact ⟨c, rfl, by rw [hpids, List.append_nil]; rfl⟩
  | cons q front ih =>
    obtain ⟨c', hpop, -, hback, hlength⟩ := Pidcoda.pop_ins hpids (Nat.le_of_lt hroom)
    obtain ⟨hne, hnot⟩ := not_or.mp (mt List.mem_cons.mpr hnot)
    obtain ⟨d, hloop, hd⟩ := ih (c := c'.ins q) hback hnot (by rwa [hlength])
    refine ⟨d, ?_, by rw [hd, List.append_assoc, List.singleton_append]⟩
    rw [List.length_cons, State.killLoop, hpop]
    simp only [if_neg (Ne.symm hne), hloop]

/-- A queue in two parts, the other way round, is the same one only if a part is empty. -/
theorem append_swap_iff {before after : List Int} (h : (before ++ pid :: after).Nodup) :
    after ++ before = before ++ after ↔ AlBordo pid (before ++ pid :: after) := by
  obtain ⟨-, hafter, hdisjoint⟩ := List.nodup_append.mp h
  rw [AlBordo, List.getLast?_append_of_ne_nil _ (List.cons_ne_nil pid after)]
  constructor
  · intro heq
    cases before with
    | nil => exact .inl rfl
    | cons q before =>
      cases after with
      | nil => exact .inr rfl
      | cons r after =>
        obtain rfl : r = q := by simpa using congrArg List.head? heq
        exact absurd rfl (hdisjoint r List.mem_cons_self r (by simp))
  · rintro (hhead | hlast)
    · cases before with
      | nil => exact List.append_nil after
      | cons q before =>
        obtain rfl : q = pid := by simpa using hhead
        exact absurd rfl (hdisjoint q List.mem_cons_self q List.mem_cons_self)
    · cases after with
      | nil => exact (List.append_nil before).symm
      | cons r after =>
        have hmem : pid ∈ r :: after := by
          rw [List.getLast?_cons_cons] at hlast
          exact List.mem_of_getLast? hlast
        exact absurd hmem (List.nodup_cons.mp hafter).1

/-- A whole search through a queue. -/
theorem killLoop_all (pid : Int) (hroom : c.pids.length < maxTaskNum) (hnodup : c.pids.Nodup) :
    ∃ c', State.killLoop pid c.elements c = (c', decide (pid ∈ c.pids)) ∧
      (c'.pids = c.pids.erase pid ↔ pid ∈ c.pids → AlBordo pid c.pids) := by
  by_cases hmem : pid ∈ c.pids
  · obtain ⟨before, after, hpids, hnot⟩ := List.eq_append_cons_of_mem hmem
    have hlong : before.length < c.elements := by
      rw [Pidcoda.elements_eq, hpids, List.length_append, List.length_cons]
      omega
    obtain ⟨c', hloop, hc'⟩ := killLoop_found hlong hpids hnot hroom
    refine ⟨c', by rw [hloop, decide_eq_true hmem], ?_⟩
    rw [forall_prop_of_true hmem, hc', hpids, List.erase_append_right _ hnot, List.erase_cons_head]
    exact append_swap_iff (hpids ▸ hnodup)
  · have hsplit : c.pids = c.pids ++ [] := (List.append_nil _).symm
    obtain ⟨c', hloop, hc'⟩ := killLoop_missing hsplit hmem hroom
    refine ⟨c', by rw [Pidcoda.elements_eq, hloop, decide_eq_false hmem], ?_⟩
    rw [List.erase_of_not_mem hmem, hc', List.nil_append]
    exact iff_of_true rfl fun h => absurd h hmem

/-! ### The whole call -/

theorem syscallKill_tasks (s : Sistema) (pid : Int) :
    (s.syscallKill pid).2.tasks = s.tasks.syscallKill pid := by
  unfold Sistema.syscallKill State.syscallKill
  split
  · rfl
  · cases State.killLoop pid s.tasks.qready.elements s.tasks.qready with
    | mk qready killed =>
      cases killed with
      | true => rfl
      | false =>
        cases State.killLoop pid s.tasks.qwait.elements s.tasks.qwait with
        | mk qwait killed => cases killed <;> rfl

/-- What `syscall_kill` needs in order to do what is expected of it. -/
def Uccidibile (s : Sistema) (pid : Int) : Prop :=
  pid ∈ s.inCoda →
    (AlBordo pid s.tasks.qready.pids ∨ AlBordo pid s.tasks.qwait.pids) ∧
      Liberabile (s.base pid) s.mem

theorem uccisa_uccidi_iff {qready qwait : Pidcoda} (h : s.tasks.qnotask.pids.length < maxTaskNum) :
    Uccisa s (s.uccidi pid qready qwait) pid ↔
      (qready.pids = s.tasks.qready.pids.erase pid ∧ qwait.pids = s.tasks.qwait.pids.erase pid) ∧
        Liberabile (s.base pid) s.mem := by
  constructor
  · intro hall
    exact ⟨⟨hall.qready, hall.qwait⟩, liberata_iff.mp hall.mem⟩
  · rintro ⟨⟨hready, hwait⟩, hmem⟩
    exact ⟨hready, hwait, Pidcoda.pids_ins h, liberata_iff.mpr hmem⟩

theorem not_alBordo {pids : List Int} (h : pid ∉ pids) : ¬ AlBordo pid pids := by
  rintro (hhead | hlast)
  · exact h (List.mem_of_head? hhead)
  · exact h (List.mem_of_getLast? hlast)

/-- In every state of the queues that can be reached, `syscall_kill` does what is expected
exactly when the task is at an end of its queue and its block can be freed, or is in no
queue. -/
theorem killCorretta_iff {calls : List Call}
    (hrun : Run (Computes step) schedulerInit calls s.tasks)
    (hpid : 2 ≤ pid) (hne : pid ≠ s.tasks.corrente) :
    KillCorretta s pid ↔ Uccidibile s pid := by
  have hsound := Sound.of_run hrun
  obtain ⟨hready, hwait, hnotask⟩ := hsound.room
  obtain ⟨hnodupReady, hnodupWait, hdisjoint⟩ := List.nodup_append.mp hsound.nodup_queues
  obtain ⟨c, hloop, hc⟩ := killLoop_all pid hready hnodupReady
  obtain ⟨d, hloop', hd⟩ := killLoop_all pid hwait hnodupWait
  have hkillable : ¬ (s.tasks.corrente = pid ∨ pid < 2) := by omega
  rw [KillCorretta, Uccidibile, Sistema.syscallKill, if_neg hkillable, hloop]
  by_cases hinReady : pid ∈ s.tasks.qready.pids
  · have hnotWait : pid ∉ s.tasks.qwait.pids := fun h => hdisjoint pid hinReady pid h rfl
    have hin : pid ∈ s.inCoda := List.mem_append_left _ hinReady
    rw [forall_prop_of_true hinReady] at hc
    rw [if_pos hin, forall_prop_of_true hin, decide_eq_true hinReady]
    simp only [if_true, true_and]
    rw [uccisa_uccidi_iff hnotask, hc, List.erase_of_not_mem hnotWait, and_iff_left rfl,
      or_iff_left (not_alBordo hnotWait)]
  · have hcsame : c.pids = s.tasks.qready.pids.erase pid := hc.mpr fun h => absurd h hinReady
    rw [decide_eq_false hinReady, hloop']
    by_cases hinWait : pid ∈ s.tasks.qwait.pids
    · have hin : pid ∈ s.inCoda := List.mem_append_right _ hinWait
      rw [forall_prop_of_true hinWait] at hd
      rw [if_pos hin, forall_prop_of_true hin, decide_eq_true hinWait]
      simp only [if_true, true_and, Bool.false_eq_true, if_false]
      rw [uccisa_uccidi_iff hnotask, hd, and_iff_right hcsame, or_iff_right (not_alBordo hinReady)]
    · have hdsame : d.pids = s.tasks.qwait.pids.erase pid := hd.mpr fun h => absurd h hinWait
      have hout : pid ∉ s.inCoda := fun h => (List.mem_append.mp h).elim hinReady hinWait
      rw [List.erase_of_not_mem hinReady] at hcsame
      rw [List.erase_of_not_mem hinWait] at hdsame
      rw [if_neg hout, decide_eq_false hinWait]
      simp only [if_false, Bool.false_eq_true, true_and]
      exact iff_of_true ⟨hcsame, hdsame, rfl⟩ fun h => absurd h hout

/-- Three tasks that are made one after the other wait for their turns. -/
theorem three_ready : ∃ t, Run (Computes step) schedulerInit
    [.avvio, .fork true, .fork true, .fork true] t ∧
      t.corrente = 1 ∧ t.qready.pids = [2, 3, 4] ∧ t.qwait.pids = [] := by
  have hcheck : ([.avvio, .fork true, .fork true, .fork true].foldlM step schedulerInit).map
      (fun t => decide (t.corrente = 1 ∧ t.qready.pids = [2, 3, 4] ∧ t.qwait.pids = [])) =
        some true := by
    decide +kernel
  obtain ⟨t, ht, hqueues⟩ := Option.map_eq_some_iff.mp hcheck
  exact ⟨t, Run.of_foldlM ht, of_decide_eq_true hqueues⟩

/-- The one in the middle is killed, and the others change places. -/
theorem kill_swaps : ∃ t, Run (Computes step) schedulerInit
    [.avvio, .fork true, .fork true, .fork true] t ∧
      ∀ s : Sistema, s.tasks = t → ¬ KillCorretta s 3 := by
  obtain ⟨t, hrun, hcorrente, hready, hwait⟩ := three_ready
  refine ⟨t, hrun, ?_⟩
  rintro s rfl
  have hroom := (Sound.of_run hrun).room.1
  have hpids : s.tasks.qready.pids = [2] ++ 3 :: [4] := hready
  obtain ⟨c, hloop, hc⟩ := killLoop_found (n := 3) (by decide) hpids (by decide) hroom
  have hin : (3 : Int) ∈ s.inCoda := by
    rw [Sistema.inCoda, hready, hwait]
    decide
  have helements : s.tasks.qready.elements = 3 := by
    rw [Pidcoda.elements_eq, hready]
    rfl
  rw [KillCorretta, if_pos hin, Sistema.syscallKill, hcorrente, helements, hloop]
  rintro ⟨-, hall⟩
  have hswapped : c.pids = [2, 3, 4].erase 3 := hready ▸ hall.qready
  rw [hc] at hswapped
  exact absurd hswapped (by decide)

/-- The first one is killed, and its block is freed. -/
theorem kill_first : ∃ s : Sistema, KillCorretta s 2 ∧ 2 ∈ s.inCoda := by
  obtain ⟨t, hrun, hcorrente, hready, hwait⟩ := three_ready
  let s : Sistema :=
    { tasks := t
      base := fun _ => 57344
      exitcode := fun _ => 0
      mem := ((Mem.memInit 4).memAlloc 1000).2
      file := FileTable.filesystemInit }
  have hfirst : AlBordo 2 s.tasks.qready.pids := by
    rw [hready]
    exact .inl rfl
  have hblock : Liberabile 57344 ((Mem.memInit 4).memAlloc 1000).2 := by
    unfold Liberabile
    decide +kernel
  have hne : (2 : Int) ≠ s.tasks.corrente := by
    rw [hcorrente]
    decide
  refine ⟨s, (killCorretta_iff hrun (by decide) hne).mpr fun _ => ⟨.inl hfirst, hblock⟩, ?_⟩
  rw [Sistema.inCoda, hready]
  exact List.mem_append_left _ List.mem_cons_self

end OsdevArchive.Cheapos.Kill
