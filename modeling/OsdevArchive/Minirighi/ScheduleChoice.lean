import OsdevArchive.Lib.Runs
import OsdevArchive.Lib.Searches
import OsdevArchive.Minirighi.Task
import Mathlib.Algebra.Order.Group.Int
import Mathlib.Algebra.GroupWithZero.Nat
import Mathlib.Data.Int.ConditionallyCompleteOrder
import Mathlib.Order.ConditionallyCompleteLattice.Basic

/-!
What `schedule` does to the dynamic priorities. Its loop looks for the first task with the
smallest counter and ages the ready tasks in the same walk; since every ready task is linked
once, each counter is compared before it is lowered. The walk lowers no counter that has come
down to `HIGH_PRIORITY << 1`. A counter below that floor is the one that `do_refresh_queues`
gives to a woken task.
-/

namespace OsdevArchive.Minirighi.Task

open OsdevArchive.Lib.FirstLeast OsdevArchive.Lib.Runs OsdevArchive.Minirighi.RefreshQueues

/-- `HIGH_PRIORITY << 1`, where the aging ends. -/
def agingFloor : Int := highPriority * 2

variable {P T S W : Type*} [DecidableEq T] {idleTask kpagd : T}
  {k k' : Kernel P T S W} {value : P → T} {start : T → Int}

/-- An entry whose task can be chosen. -/
def Eligible (value : P → T) (start : T → Int) (e : P) : Prop := start (value e) < intMax

/-- What the loop has made of the counters `start` when it has been through `done`. -/
structure Choosing (idleTask : T) (value : P → T) (start : T → Int) (done : List P)
    (c : Kernel.Choice T) : Prop where
  counter : ∀ t, c.counter t =
    if t ∈ done.map value ∧ agingFloor < start t then start t - 1 else start t
  choice : (∀ e ∈ done, ¬Eligible value start e) ∧ c.currTask = idleTask ∧
      c.minCounter = intMax ∨
    ∃ pre e post, done = pre ++ e :: post ∧
      IsFirstLeast (Eligible value start) (fun e => start (value e)) pre e post ∧
      c.currTask = value e ∧ c.minCounter = start (value e)

theorem Choosing.init : Choosing idleTask value start [] ⟨idleTask, intMax, start⟩ where
  counter t := by simp
  choice := Or.inl ⟨fun e he => absurd he List.not_mem_nil, rfl, rfl⟩

theorem Choosing.min_le {done : List P} {c : Kernel.Choice T}
    (h : Choosing idleTask value start done c) : c.minCounter ≤ intMax := by
  rcases h.choice with ⟨-, -, hmin⟩ | ⟨pre, e, post, -, hleast, -, hmin⟩
  · exact hmin.le
  · rw [hmin]
    exact le_of_lt hleast.admissible

theorem visit_counter (c : Kernel.Choice T) (e : P) : (c.visit value e).counter =
    if agingFloor < c.counter (value e) then
      Function.update c.counter (value e) (c.counter (value e) - 1) else c.counter := by
  unfold Kernel.Choice.visit agingFloor
  dsimp only
  split <;> split <;> rfl

/-- One visit of a task that was not visited before. -/
theorem Choosing.visit {done : List P} {c : Kernel.Choice T} {e : P}
    (h : Choosing idleTask value start done c) (hnew : value e ∉ done.map value) :
    Choosing idleTask value start (done ++ [e]) (c.visit value e) := by
  have hcounter : c.counter (value e) = start (value e) := by
    rw [h.counter, if_neg fun hmem => hnew hmem.1]
  have hchoice : (∀ d ∈ done ++ [e], ¬Eligible value start d) ∧
        (c.visit value e).currTask = idleTask ∧ (c.visit value e).minCounter = intMax ∨
      ∃ pre d post, done ++ [e] = pre ++ d :: post ∧
        IsFirstLeast (Eligible value start) (fun e => start (value e)) pre d post ∧
        (c.visit value e).currTask = value d ∧
        (c.visit value e).minCounter = start (value d) := by
    by_cases hless : c.counter (value e) < c.minCounter
    · have hcurr : (c.visit value e).currTask = value e ∧
          (c.visit value e).minCounter = start (value e) := by
        unfold Kernel.Choice.visit
        simp only [hless, if_true]
        split <;> exact ⟨rfl, hcounter⟩
      have hok : Eligible value start e := by
        rw [hcounter] at hless
        exact lt_of_lt_of_le hless h.min_le
      rcases h.choice with ⟨hnone, -, -⟩ | ⟨pre, d, post, rfl, hleast, -, hmin⟩
      · exact Or.inr ⟨done, e, [], rfl, .first hnone hok, hcurr⟩
      · rw [hcounter, hmin] at hless
        exact Or.inr ⟨pre ++ d :: post, e, [], rfl, hleast.give hok hless, hcurr⟩
    · have hcurr : (c.visit value e).currTask = c.currTask ∧
          (c.visit value e).minCounter = c.minCounter := by
        unfold Kernel.Choice.visit
        simp only [hless, if_false]
        split <;> exact ⟨rfl, rfl⟩
      rw [hcurr.1, hcurr.2]
      rw [hcounter] at hless
      rcases h.choice with ⟨hnone, hidle, hmin⟩ | ⟨pre, d, post, rfl, hleast, htask, hmin⟩
      · refine Or.inl ⟨?_, hidle, hmin⟩
        intro d hd
        rcases List.mem_append.mp hd with hd | hd
        · exact hnone d hd
        · rw [hmin] at hless
          exact List.mem_singleton.mp hd ▸ hless
      · rw [hmin] at hless
        exact Or.inr ⟨pre, d, post ++ [e], by simp, hleast.keep fun _ => not_lt.mp hless,
          htask, hmin⟩
  refine ⟨?_, hchoice⟩
  intro t
  rw [visit_counter, hcounter, List.map_append, List.map_singleton]
  simp only [List.mem_append, List.mem_singleton]
  by_cases ht : t = value e
  · subst ht
    by_cases hfloor : agingFloor < start (value e)
    · simp [hfloor]
    · simp [hfloor, hcounter]
  · by_cases hfloor : agingFloor < start (value e)
    · simp [hfloor, ht, h.counter]
    · simp [hfloor, ht, h.counter]

theorem Choosing.foldl {L done : List P} {c : Kernel.Choice T}
    (h : Choosing idleTask value start done c) (hnodup : ((done ++ L).map value).Nodup) :
    Choosing idleTask value start (done ++ L) (L.foldl (Kernel.Choice.visit value) c) := by
  induction L generalizing done c with
  | nil => simpa using h
  | cons e L ih =>
    have hnew : value e ∉ done.map value := by
      rw [List.map_append, List.map_cons] at hnodup
      intro hmem
      exact (List.nodup_append.mp hnodup).2.2 _ hmem _ List.mem_cons_self rfl
    have hrest := ih (h.visit hnew) (by simpa using hnodup)
    simpa using hrest

/-! ## `schedule` -/

/-- What `schedule` does when it finds the tasks of `ready` in its queue with the counters
`start`. -/
structure Scheduled (idleTask : T) (value : P → T) (start : T → Int) (ready : List P)
    (k' : Kernel P T S W) : Prop where
  /-- The first of the ready tasks with the smallest counter runs next, if there is one below
  `INT_MAX`. -/
  chosen : (∀ e ∈ ready, ¬Eligible value start e) ∧ k'.currTask = idleTask ∨
    ∃ pre e post, ready = pre ++ e :: post ∧
      IsFirstLeast (Eligible value start) (fun e => start (value e)) pre e post ∧
      k'.currTask = value e
  /-- The ready tasks above the floor age by one. -/
  aged : ∀ t, k'.counter t =
    if t ∈ ready.map value ∧ agingFloor < start t then start t - 1 else start t
  /-- No counter is lowered below the floor. -/
  floor : ∀ t, agingFloor ≤ start t → agingFloor ≤ k'.counter t
  /-- A ready task is overtaken by tasks only whose counters are at or below its own. -/
  overtaken : ∀ e ∈ ready, Eligible value start e → start k'.currTask ≤ start (value e)

variable [DecidableEq P]

theorem schedule_spec (hcreating : k.creating = none)
    (hnodup : (((k.refreshed kpagd).queue .ready).map k.value).Nodup) :
    Scheduled idleTask k.value (k.startCounter kpagd) ((k.refreshed kpagd).queue .ready)
      (k.schedule idleTask kpagd) := by
  have hloop : Choosing idleTask k.value (k.startCounter kpagd) ([] ++ _) _ :=
    Choosing.init.foldl hnodup
  rw [List.nil_append] at hloop
  unfold Kernel.schedule
  rw [hcreating, Option.isSome_none, if_neg Bool.false_ne_true]
  constructor
  · rcases hloop.choice with ⟨hnone, hidle, -⟩ | ⟨pre, e, post, hsplit, hleast, hcurr, -⟩
    · exact Or.inl ⟨hnone, hidle⟩
    · exact Or.inr ⟨pre, e, post, hsplit, hleast, hcurr⟩
  · exact hloop.counter
  · intro t ht
    change agingFloor ≤ Kernel.Choice.counter _ t
    rw [hloop.counter]
    split
    · omega
    · exact ht
  · intro e he hok
    change k.startCounter kpagd (Kernel.Choice.currTask _) ≤ _
    rcases hloop.choice with ⟨hnone, -, -⟩ | ⟨pre, d, post, hsplit, hleast, hcurr, -⟩
    · exact absurd hok (hnone e he)
    · rw [hcurr]
      exact hleast.le (hsplit ▸ he) hok

/-! ## The counters over a run -/

/-- A counter of a task of this priority: at or above the floor, or that of a woken task. -/
def Aged (priority counter : Int) : Prop :=
  agingFloor ≤ counter ∨ counter = agingFloor + priority

/-- The counters of all tasks but those of real-time priority. -/
def Kernel.Aged (k : Kernel P T S W) : Prop :=
  ∀ t, highPriority ≤ k.priority t → Task.Aged (k.priority t) (k.counter t)

theorem pass_counter (priority : T → Int) (source dest : TaskState) (L : List P)
    (a : Lists P T) (t : T) :
    (L.foldl (Lists.visit kpagd priority value source dest) a).counter t = a.counter t ∨
      (L.foldl (Lists.visit kpagd priority value source dest) a).counter t =
        agingFloor + priority t := by
  induction L generalizing a with
  | nil => exact Or.inl rfl
  | cons e L ih =>
    rw [List.foldl_cons]
    have hvisit : (a.visit kpagd priority value source dest e).counter t = a.counter t ∨
        (a.visit kpagd priority value source dest e).counter t = agingFloor + priority t := by
      unfold Lists.visit
      dsimp only
      split
      · by_cases ht : t = value e
        · subst ht
          exact Or.inr (Function.update_self _ _ _)
        · exact Or.inl (Function.update_of_ne ht _ _)
      · exact Or.inl rfl
    rcases ih (a.visit kpagd priority value source dest e) with hrest | hrest
    · rw [hrest]
      exact hvisit
    · exact Or.inr hrest

/-- A refresh gives to a woken task its counter, and leaves the others. -/
theorem refreshed_counter (t : T) : (k.refreshed kpagd).counter t = k.counter t ∨
    (k.refreshed kpagd).counter t = agingFloor + k.priority t := by
  unfold Kernel.refreshed
  split
  · rcases pass_counter k.priority .wait .ready
      ((k.toLists.pass kpagd k.priority k.value .ready .wait).queue .wait)
      (k.toLists.pass kpagd k.priority k.value .ready .wait) t with hsecond | hsecond
    · rcases pass_counter k.priority .ready .wait
        (k.toLists.queue .ready) k.toLists t with hfirst | hfirst
      · exact Or.inl (hsecond.trans hfirst)
      · exact Or.inr (hsecond.trans hfirst)
    · exact Or.inr hsecond
  · exact Or.inl rfl

omit [DecidableEq P] in
theorem Aged.of_foldl {priority : Int} {t : T} (L : List P) {c : Kernel.Choice T}
    (h : Aged priority (c.counter t)) :
    Aged priority ((L.foldl (Kernel.Choice.visit value) c).counter t) := by
  induction L generalizing c with
  | nil => exact h
  | cons e L ih =>
    apply ih
    rw [visit_counter]
    split
    · next hless =>
      by_cases ht : t = value e
      · subst ht
        rw [Function.update_self]
        exact Or.inl (by omega)
      · rwa [Function.update_of_ne ht]
    · exact h

theorem Kernel.Aged.schedule (h : k.Aged) : (k.schedule idleTask kpagd).Aged := by
  unfold Kernel.schedule
  split
  · exact h
  · intro t ht
    apply Aged.of_foldl
    change Task.Aged (k.priority t) (k.startCounter kpagd t)
    unfold Kernel.startCounter
    by_cases hcurr : t = k.currTask
    · subst hcurr
      rw [Function.update_self]
      refine Or.inl ?_
      unfold highPriority at ht
      unfold agingFloor highPriority
      exact le_trans (by decide) ht
    · rw [Function.update_of_ne hcurr]
      rcases (refreshed_counter t : (k.refreshed kpagd).counter t = _ ∨ _) with hsame | hwoken
      · rw [hsame]
        exact h t ht
      · exact Or.inr hwoken

/-- The counters and the priorities are as they were. -/
def SameCounters (k k' : Kernel P T S W) : Prop :=
  k'.counter = k.counter ∧ k'.priority = k.priority

omit [DecidableEq P] [DecidableEq T] in
theorem SameCounters.trans {k'' : Kernel P T S W} (h : SameCounters k k')
    (h' : SameCounters k' k'') : SameCounters k k'' :=
  ⟨h'.1.trans h.1, h'.2.trans h.2⟩

omit [DecidableEq P] [DecidableEq T] in
theorem Kernel.Aged.of_same (h : k.Aged) (hsame : SameCounters k k') : k'.Aged := by
  intro t ht
  rw [hsame.2] at ht ⊢
  rw [hsame.1]
  exact h t ht

omit [DecidableEq P] in
theorem SameCounters.orphan (r : Kernel P T S W × Bool) (e : P) :
    SameCounters r.1 (Kernel.orphan r e).1 := by
  unfold Kernel.orphan
  dsimp only
  split
  · exact ⟨rfl, rfl⟩
  · split
    · split <;> exact ⟨rfl, rfl⟩
    · exact ⟨rfl, rfl⟩

omit [DecidableEq P] in
theorem SameCounters.foldl_orphan (L : List P) (r : Kernel P T S W × Bool) :
    SameCounters r.1 (L.foldl Kernel.orphan r).1 := by
  induction L generalizing r with
  | nil => exact ⟨rfl, rfl⟩
  | cons e L ih => exact (SameCounters.orphan r e).trans (ih _)

omit [DecidableEq P] in
theorem SameCounters.sweepLoop (fuel : Nat) (k : Kernel P T S W) :
    SameCounters k (Kernel.sweepLoop fuel k) := by
  induction fuel generalizing k with
  | zero => exact ⟨rfl, rfl⟩
  | succ fuel ih =>
    have hsweep : SameCounters k k.sweep.1 := .foldl_orphan k.searched (k, false)
    rw [Kernel.sweepLoop]
    split
    · exact hsweep.trans (ih _)
    · exact hsweep

omit [DecidableEq P] in
theorem SameCounters.strikePid (k : Kernel P T S W) (pid : Int) :
    SameCounters k (k.strikePid pid) := by
  unfold Kernel.strikePid
  split
  · exact ⟨rfl, rfl⟩
  · unfold Kernel.strike
    dsimp only
    split <;> exact ⟨rfl, rfl⟩

omit [DecidableEq T] in
theorem SameCounters.addQueue (k : Kernel P T S W) (st : TaskState) (t : T) (e : Option P) :
    SameCounters k (k.addQueue st t e) := by
  cases e <;> exact ⟨rfl, rfl⟩

omit [DecidableEq P] in
theorem SameCounters.wakeupQueue [DecidableEq W] (k : Kernel P T S W) (w : W) :
    SameCounters k (k.wakeupQueue idleTask w) := by
  have hfold : ∀ (pids : List Int) (k : Kernel P T S W),
      SameCounters k (pids.foldl (Kernel.wakeupPid idleTask) k) := by
    intro pids
    induction pids with
    | nil => exact fun k => ⟨rfl, rfl⟩
    | cons pid pids ih =>
      intro k
      have hfirst : SameCounters k (k.wakeupPid idleTask pid) := by
        unfold Kernel.wakeupPid
        split <;> exact ⟨rfl, rfl⟩
      exact hfirst.trans (ih _)
  exact hfold _ k

theorem Kernel.Aged.createEnd (h : k.Aged) (t : T) (isThread : Bool) (e : Option P) :
    ((k.remZombie t).createEnd t isThread e).Aged := by
  intro u hu
  change highPriority ≤ Function.update k.priority t highPriority u at hu
  change Task.Aged (Function.update k.priority t highPriority u)
    (Function.update k.counter t highPriority u)
  by_cases hut : u = t
  · subst hut
    rw [Function.update_self, Function.update_self]
    exact Or.inl (by decide)
  · rw [Function.update_of_ne hut] at hu ⊢
    rw [Function.update_of_ne hut]
    exact h u hu

variable [DecidableEq S] [DecidableEq W]

/-- One action: only `schedule` and the end of a creation write counters. -/
theorem Kernel.Aged.step {act : Act P T S W} (h : k.Aged)
    (hstep : k.step idleTask kpagd act = some k') : k'.Aged := by
  cases Kernel.moves_of_step idleTask kpagd hstep with
  | schedule => exact h.schedule
  | addWaitQueue w noMem =>
    unfold Kernel.addWaitQueue
    split <;> exact h
  | wakeupQueue w => exact h.of_same (.wakeupQueue k w)
  | createBegin t e => exact h.of_same (.addQueue k .zombie t e)
  | createEnd t isThread e => exact h.createEnd t isThread e
  | kill pid => exact h.of_same ((SameCounters.strikePid k pid).trans (.sweepLoop _ _))
  | sleep | wakeup | semaphore | createFail | pickZombie | freeZombie => exact h

/-- In every run that starts with no counter below the floor, a counter below it is that of a
woken task; and whenever `schedule` runs with every ready task linked once, it resets the counter
of the running task, chooses the first of the smallest ones and ages the ready tasks. -/
theorem schedule_over_runs (idleTask kpagd : T) (k₀ k : Kernel P T S W) (acts : List (Act P T S W))
    (hstart : ∀ t, highPriority ≤ k₀.priority t → agingFloor ≤ k₀.counter t)
    (hrun : Run (Computes (Kernel.step idleTask kpagd)) k₀ acts k) :
    (∀ t, highPriority ≤ k.priority t →
      agingFloor ≤ k.counter t ∨ k.counter t = agingFloor + k.priority t) ∧
    (k.creating = none → (((k.refreshed kpagd).queue .ready).map k.value).Nodup →
      k.startCounter kpagd = Function.update (k.refreshed kpagd).counter k.currTask
          (k.priority k.currTask) ∧
        Scheduled idleTask k.value (k.startCounter kpagd) ((k.refreshed kpagd).queue .ready)
          (k.schedule idleTask kpagd)) := by
  have haged : k.Aged := hrun.invariant (I := Kernel.Aged)
    (fun _ _ _ h hstep => h.step hstep) fun t ht => Or.inl (hstart t ht)
  exact ⟨haged, fun hcreating hnodup => ⟨rfl, schedule_spec hcreating hnodup⟩⟩

local instance instNeZeroTwo : NeZero 2 := ⟨Nat.succ_ne_zero 1⟩

/-- The idle task `0` runs; task `1` is in the wait queue and was woken. -/
def waking : Kernel (Fin 2) (Fin 2) Unit Unit where
  queue st := if st = .ready then [0] else if st = .wait then [1] else []
  tasks := ⟨fun _ => .ready, true⟩
  counter _ := highPriority
  value e := e
  allocated _ := true
  father _ := none
  isThread _ := false
  pid t := t + 1
  priority _ := highPriority
  lastPid := 2
  currTask := 0
  creating := none
  exiting := false
  picked := none
  semaphore _ := Semaphore.St.initMutex ⟨fun _ => .ready, false⟩
  waitQueue _ := []

/-- The woken task is scheduled first. -/
theorem waking_scheduled : (waking.schedule 0 0).currTask = 1 ∧
    Scheduled 0 waking.value (waking.startCounter 0) ((waking.refreshed 0).queue .ready)
      (waking.schedule 0 0) := by
  have hspec := schedule_over_runs 0 0 waking waking []
    (fun _ _ => (by decide : agingFloor ≤ highPriority)) (.nil _)
  exact ⟨by decide, (hspec.2 rfl (by decide)).2⟩

/-- A task of the highest priority for non-real-time tasks falls below the floor when it is
woken. -/
theorem woken_below_floor : highPriority ≤ waking.priority 1 ∧ agingFloor ≤ waking.counter 1 ∧
    (waking.schedule 0 0).counter 1 < agingFloor := by
  decide

end OsdevArchive.Minirighi.Task
