import OsdevArchive.Minirighi.Queue
import OsdevArchive.Minirighi.Sched

/-!
`do_refresh_queues` of `kernel/sched.c`, on the linked queues, and its
refinement to two passes over lists. Each pass visits the entries that its queue
had at the start; a zombie among them makes the killing daemon `kpagd` ready,
whether or not the daemon's own entry is still to be visited.
-/

namespace OsdevArchive.Minirighi.RefreshQueues

open OsdevArchive.Minirighi.Queue

/-- `HIGH_PRIORITY`. -/
def highPriority : Int := -16

/-- The run queues: the entries in memory, the three heads, the task states with
`refresh_queues_flag`, and the dynamic priorities. -/
structure RunQueues (P T : Type*) where
  mem : Memory P T
  readyQueue : Option P
  waitQueue : Option P
  zombieQueue : Option P
  tasks : Tasks T
  counter : T → Int

section

variable {P T : Type*} [DecidableEq P] [DecidableEq T] (kpagd : T) (priority : T → Int)

/-- The loop body over the ready queue. -/
def readyBody (s : RunQueues P T) (t : P) : RunQueues P T :=
  let p := (s.mem t).value
  if s.tasks.state p = .wait then
    let r := queueMoveEntry s.mem s.waitQueue s.readyQueue t
    { s with mem := r.1, waitQueue := r.2.1, readyQueue := r.2.2 }
  else if s.tasks.state p = .zombie then
    let r := queueMoveEntry s.mem s.zombieQueue s.readyQueue t
    { s with
      mem := r.1, zombieQueue := r.2.1, readyQueue := r.2.2
      tasks := s.tasks.wakeupTask kpagd }
  else s

/-- The loop body over the wait queue. -/
def waitBody (s : RunQueues P T) (t : P) : RunQueues P T :=
  let p := (s.mem t).value
  if s.tasks.state p = .ready then
    let r := queueMoveEntry s.mem s.readyQueue s.waitQueue t
    { s with
      mem := r.1, readyQueue := r.2.1, waitQueue := r.2.2
      counter := Function.update s.counter p (highPriority * 2 + priority p) }
  else if s.tasks.state p = .zombie then
    let r := queueMoveEntry s.mem s.zombieQueue s.waitQueue t
    { s with
      mem := r.1, zombieQueue := r.2.1, waitQueue := r.2.2
      tasks := s.tasks.wakeupTask kpagd }
  else s

/-- `do_refresh_queues`; `none` stands for a queue that is not a circle. -/
def doRefreshQueues [Fintype P] (s : RunQueues P T) : Option (RunQueues P T) :=
  (queueForEachSafe RunQueues.mem (readyBody kpagd) s.readyQueue s).bind fun s =>
    (queueForEachSafe RunQueues.mem (waitBody kpagd priority) s.waitQueue s).map fun s =>
      { s with tasks := { s.tasks with refreshQueues := false } }

end

/-! ## Passes over lists -/

/-- The queues as lists. `queue st` is the queue of the tasks in state `st`. -/
structure Lists (P T : Type*) where
  queue : TaskState → List P
  tasks : Tasks T
  counter : T → Int

section

variable {P T : Type*} [DecidableEq P] [DecidableEq T] (kpagd : T) (priority : T → Int)
  (value : P → T)

/-- The queues after `e` moved from the queue of `source` to the end of the queue
of `dest`. -/
def Lists.moved (a : Lists P T) (source dest : TaskState) (e : P) : TaskState → List P :=
  Function.update (Function.update a.queue source ((a.queue source).erase e)) dest
    (a.queue dest ++ [e])

/-- Where a pass from `source` to `dest` takes an entry whose task is in state
`st`. -/
def goal (source dest st : TaskState) : TaskState :=
  if st = dest then dest else if st = .zombie then .zombie else source

/-- The visit of `e` in a pass from `source` to `dest`. -/
def Lists.visit (source dest : TaskState) (a : Lists P T) (e : P) : Lists P T :=
  let p := value e
  let g := goal source dest (a.tasks.state p)
  { queue := if g = source then a.queue else a.moved source g e
    tasks := if g = .zombie then a.tasks.wakeupTask kpagd else a.tasks
    counter :=
      if g = .ready ∧ source ≠ .ready then
        Function.update a.counter p (highPriority * 2 + priority p)
      else a.counter }

/-- A pass over the queue of `source`. -/
def Lists.pass (source dest : TaskState) (a : Lists P T) : Lists P T :=
  (a.queue source).foldl (Lists.visit kpagd priority value source dest) a

/-- Both passes. -/
def Lists.refresh (a : Lists P T) : Lists P T :=
  let a := a.pass kpagd priority value .ready .wait
  let a := a.pass kpagd priority value .wait .ready
  { a with tasks := { a.tasks with refreshQueues := false } }

/-- The entries of the three queues. -/
def Lists.entries (a : Lists P T) : List P :=
  a.queue .ready ++ a.queue .wait ++ a.queue .zombie

end

variable {P T : Type*} [DecidableEq P] {kpagd : T} {priority : T → Int}
  {value : P → T} {s s' : RunQueues P T} {a b : Lists P T} {e p : P}
  {source dest st : TaskState} {es pre post : List P}

/-- The linked queues are the lists of `a`, and share no entry. -/
structure Represents (value : P → T) (s : RunQueues P T) (a : Lists P T) : Prop where
  ready : IsQueue s.mem s.readyQueue (a.queue .ready)
  wait : IsQueue s.mem s.waitQueue (a.queue .wait)
  zombie : IsQueue s.mem s.zombieQueue (a.queue .zombie)
  nodup : a.entries.Nodup
  value : ∀ p, (s.mem p).value = value p
  tasks : s.tasks = a.tasks
  counter : s.counter = a.counter

/-! ## The refinement -/

/-- A pass goes over the ready or the wait queue. -/
structure IsPass (source dest : TaskState) : Prop where
  fromRunnable : source = .ready ∨ source = .wait
  toRunnable : dest = .ready ∨ dest = .wait
  ne : source ≠ dest

theorem goal_cases (source dest st : TaskState) :
    goal source dest st = source ∨ goal source dest st = dest ∨
      goal source dest st = .zombie := by
  unfold goal
  split
  · exact Or.inr (Or.inl rfl)
  · split
    · exact Or.inr (Or.inr rfl)
    · exact Or.inl rfl

theorem IsPass.goal_eq_zombie (hp : IsPass source dest) :
    goal source dest st = .zombie ↔ st = .zombie := by
  obtain ⟨rfl | rfl, rfl | rfl, hne⟩ := hp <;> cases st <;> simp [goal] at hne ⊢

/-- The number of times an entry is listed in the queues. -/
def times (queue : TaskState → List P) (x : P) : Nat :=
  (queue .ready).count x + (queue .wait).count x + (queue .zombie).count x

theorem count_entries (a : Lists P T) (x : P) : a.entries.count x = times a.queue x := by
  simp [Lists.entries, times, Nat.add_assoc]

theorem count_moved (hne : source ≠ dest) (he : e ∈ a.queue source) (x : P) :
    (a.moved source dest e st).count x + (if st = source then [e].count x else 0) =
      (a.queue st).count x + (if st = dest then [e].count x else 0) := by
  have herase : ((a.queue source).erase e).count x + [e].count x = (a.queue source).count x := by
    have h := (List.perm_cons_erase he).count_eq x
    simp only [List.count_cons, List.count_nil] at h ⊢
    omega
  unfold Lists.moved
  by_cases hd : st = dest
  · have hs : st ≠ source := fun h => hne (h.symm.trans hd)
    simp [hd, hne.symm]
  · by_cases hs : st = source
    · simp [hs, hne, herase]
    · simp [hd, hs]

theorem times_moved (hne : source ≠ dest) (hs : source ≠ .new) (hd : dest ≠ .new)
    (he : e ∈ a.queue source) (x : P) : times (a.moved source dest e) x = times a.queue x := by
  have hcount (st : TaskState) :
      (a.moved source dest e st).count x + (if st = source then [e].count x else 0) =
        (a.queue st).count x + (if st = dest then [e].count x else 0) :=
    count_moved hne he x
  have hr := hcount .ready
  have hw := hcount .wait
  have hz := hcount .zombie
  unfold times
  cases source <;> cases dest <;> simp_all <;> omega

variable [DecidableEq T]

theorem visit_entries_perm (hp : IsPass source dest) (he : e ∈ a.queue source) :
    (a.visit kpagd priority value source dest e).entries.Perm a.entries := by
  rw [List.perm_iff_count]
  intro x
  rw [count_entries, count_entries]
  simp only [Lists.visit]
  split
  · rfl
  · rename_i hgoal
    refine times_moved (Ne.symm hgoal) ?_ ?_ he x
    · rcases hp.fromRunnable with rfl | rfl <;> simp
    · rcases goal_cases source dest (a.tasks.state (value e)) with h | h | h
      · exact absurd h hgoal
      · rw [h]
        rcases hp.toRunnable with rfl | rfl <;> simp
      · rw [h]
        simp

omit [DecidableEq P] [DecidableEq T] in
theorem Represents.disjoint (hr : Represents value s a) :
    (a.queue .ready).Disjoint (a.queue .wait) ∧ (a.queue .ready).Disjoint (a.queue .zombie) ∧
      (a.queue .wait).Disjoint (a.queue .zombie) := by
  have hnodup := hr.nodup
  unfold Lists.entries at hnodup
  have hzombie := List.disjoint_of_nodup_append hnodup
  have hready := List.disjoint_of_nodup_append hnodup.of_append_left
  rw [List.disjoint_append_left] at hzombie
  exact ⟨hready, hzombie.1, hzombie.2⟩

/-- The body of the first loop is a visit of the first pass. -/
theorem Represents.readyBody (hr : Represents value s a) (he : e ∈ a.queue .ready) :
    Represents value (readyBody kpagd s e)
      (a.visit kpagd priority value .ready .wait e) := by
  have hp : IsPass .ready .wait := ⟨Or.inl rfl, Or.inr rfl, by simp⟩
  have hperm : (a.visit kpagd priority value .ready .wait e).entries.Perm a.entries :=
    visit_entries_perm hp he
  have hnodup := hperm.nodup_iff.mpr hr.nodup
  obtain ⟨hrw, hrz, hwz⟩ := hr.disjoint
  have hv := hr.value e
  cases hst : a.tasks.state (value e) with
  | wait =>
      obtain ⟨hready, hwait, hframe, hvalue⟩ := queueMoveEntry_spec hr.ready hr.wait he hrw
      have hbody : RefreshQueues.readyBody kpagd s e = { s with
          mem := (queueMoveEntry s.mem s.waitQueue s.readyQueue e).1
          waitQueue := (queueMoveEntry s.mem s.waitQueue s.readyQueue e).2.1
          readyQueue := (queueMoveEntry s.mem s.waitQueue s.readyQueue e).2.2 } := by
        simp [RefreshQueues.readyBody, hv, hr.tasks, hst]
      rw [hbody]
      refine ⟨?_, ?_, ?_, hnodup, fun p => (hvalue p).trans (hr.value p), ?_, ?_⟩
      · simpa [Lists.visit, goal, hst, Lists.moved, Function.update] using hready
      · simpa [Lists.visit, goal, hst, Lists.moved, Function.update] using hwait
      · simpa [Lists.visit, goal, hst, Lists.moved, Function.update] using
          hr.zombie.congr fun p hp => hframe p (fun h => hrz h hp) fun h => hwz h hp
      · simpa [Lists.visit, goal, hst] using hr.tasks
      · simpa [Lists.visit, goal, hst] using hr.counter
  | zombie =>
      obtain ⟨hready, hzombie, hframe, hvalue⟩ := queueMoveEntry_spec hr.ready hr.zombie he hrz
      have hbody : RefreshQueues.readyBody kpagd s e = { s with
          mem := (queueMoveEntry s.mem s.zombieQueue s.readyQueue e).1
          zombieQueue := (queueMoveEntry s.mem s.zombieQueue s.readyQueue e).2.1
          readyQueue := (queueMoveEntry s.mem s.zombieQueue s.readyQueue e).2.2
          tasks := s.tasks.wakeupTask kpagd } := by
        simp [RefreshQueues.readyBody, hv, hr.tasks, hst]
      rw [hbody]
      refine ⟨?_, ?_, ?_, hnodup, fun p => (hvalue p).trans (hr.value p), ?_, ?_⟩
      · simpa [Lists.visit, goal, hst, Lists.moved, Function.update] using hready
      · simpa [Lists.visit, goal, hst, Lists.moved, Function.update] using
          hr.wait.congr fun p hp => hframe p (fun h => hrw h hp) fun h => hwz hp h
      · simpa [Lists.visit, goal, hst, Lists.moved, Function.update] using hzombie
      · simpa [Lists.visit, goal, hst] using congrArg (Tasks.wakeupTask · kpagd) hr.tasks
      · simpa [Lists.visit, goal, hst] using hr.counter
  | _ =>
      have hbody : RefreshQueues.readyBody kpagd s e = s := by
        simp [RefreshQueues.readyBody, hv, hr.tasks, hst]
      have hvisit : a.visit kpagd priority value .ready .wait e = a := by
        simp [Lists.visit, goal, hst]
      rw [hbody, hvisit]
      exact hr

/-- The body of the second loop is a visit of the second pass. -/
theorem Represents.waitBody (hr : Represents value s a) (he : e ∈ a.queue .wait) :
    Represents value (waitBody kpagd priority s e)
      (a.visit kpagd priority value .wait .ready e) := by
  have hp : IsPass .wait .ready := ⟨Or.inr rfl, Or.inl rfl, by simp⟩
  have hperm : (a.visit kpagd priority value .wait .ready e).entries.Perm a.entries :=
    visit_entries_perm hp he
  have hnodup := hperm.nodup_iff.mpr hr.nodup
  obtain ⟨hrw, hrz, hwz⟩ := hr.disjoint
  have hv := hr.value e
  cases hst : a.tasks.state (value e) with
  | ready =>
      obtain ⟨hwait, hready, hframe, hvalue⟩ :=
        queueMoveEntry_spec hr.wait hr.ready he hrw.symm
      have hbody : RefreshQueues.waitBody kpagd priority s e = { s with
          mem := (queueMoveEntry s.mem s.readyQueue s.waitQueue e).1
          readyQueue := (queueMoveEntry s.mem s.readyQueue s.waitQueue e).2.1
          waitQueue := (queueMoveEntry s.mem s.readyQueue s.waitQueue e).2.2
          counter := Function.update s.counter (value e)
            (highPriority * 2 + priority (value e)) } := by
        simp [RefreshQueues.waitBody, hv, hr.tasks, hst]
      rw [hbody]
      refine ⟨?_, ?_, ?_, hnodup, fun p => (hvalue p).trans (hr.value p), ?_, ?_⟩
      · simpa [Lists.visit, goal, hst, Lists.moved, Function.update] using hready
      · simpa [Lists.visit, goal, hst, Lists.moved, Function.update] using hwait
      · simpa [Lists.visit, goal, hst, Lists.moved, Function.update] using
          hr.zombie.congr fun p hp => hframe p (fun h => hwz h hp) fun h => hrz h hp
      · simpa [Lists.visit, goal, hst] using hr.tasks
      · simp [Lists.visit, goal, hst, hr.counter]
  | zombie =>
      obtain ⟨hwait, hzombie, hframe, hvalue⟩ := queueMoveEntry_spec hr.wait hr.zombie he hwz
      have hbody : RefreshQueues.waitBody kpagd priority s e = { s with
          mem := (queueMoveEntry s.mem s.zombieQueue s.waitQueue e).1
          zombieQueue := (queueMoveEntry s.mem s.zombieQueue s.waitQueue e).2.1
          waitQueue := (queueMoveEntry s.mem s.zombieQueue s.waitQueue e).2.2
          tasks := s.tasks.wakeupTask kpagd } := by
        simp [RefreshQueues.waitBody, hv, hr.tasks, hst]
      rw [hbody]
      refine ⟨?_, ?_, ?_, hnodup, fun p => (hvalue p).trans (hr.value p), ?_, ?_⟩
      · simpa [Lists.visit, goal, hst, Lists.moved, Function.update] using
          hr.ready.congr fun p hp => hframe p (fun h => hrw hp h) fun h => hrz hp h
      · simpa [Lists.visit, goal, hst, Lists.moved, Function.update] using hwait
      · simpa [Lists.visit, goal, hst, Lists.moved, Function.update] using hzombie
      · simpa [Lists.visit, goal, hst] using congrArg (Tasks.wakeupTask · kpagd) hr.tasks
      · simpa [Lists.visit, goal, hst] using hr.counter
  | _ =>
      have hbody : RefreshQueues.waitBody kpagd priority s e = s := by
        simp [RefreshQueues.waitBody, hv, hr.tasks, hst]
      have hvisit : a.visit kpagd priority value .wait .ready e = a := by
        simp [Lists.visit, goal, hst]
      rw [hbody, hvisit]
      exact hr

theorem visit_source (a : Lists P T) (e : P) :
    (a.visit kpagd priority value source dest e).queue source = a.queue source ∨
      (a.visit kpagd priority value source dest e).queue source = (a.queue source).erase e := by
  simp only [Lists.visit]
  split
  · exact Or.inl rfl
  · rename_i hgoal
    right
    rw [Lists.moved, Function.update_of_ne (Ne.symm hgoal), Function.update_self]

/-- `do_refresh_queues` ends, and is the two passes over the lists. -/
theorem doRefreshQueues_spec [Fintype P] (kpagd : T) (priority : T → Int)
    (hr : Represents value s a) :
    ∃ s', doRefreshQueues kpagd priority s = some s' ∧
      Represents value s' (a.refresh kpagd priority value) ∧
      s'.tasks.refreshQueues = false := by
  have hfirst : ∃ s₁, queueForEachSafe RunQueues.mem (readyBody kpagd) s.readyQueue s = some s₁ ∧
      Represents value s₁
        ((a.queue .ready).foldl (Lists.visit kpagd priority value .ready .wait) a) :=
    queueForEachSafe_spec RunQueues.readyQueue (fun a : Lists P T => a.queue .ready)
      (readyBody kpagd) (Lists.visit kpagd priority value .ready .wait) (Represents value)
      (fun _ _ h => h.ready) (fun _ _ _ h he => h.readyBody he) visit_source hr
  obtain ⟨s₁, hready, hr₁⟩ := hfirst
  have hsecond : ∃ s₂,
      queueForEachSafe RunQueues.mem (waitBody kpagd priority) s₁.waitQueue s₁ = some s₂ ∧
        Represents value s₂ (((a.pass kpagd priority value .ready .wait).queue .wait).foldl
          (Lists.visit kpagd priority value .wait .ready)
          (a.pass kpagd priority value .ready .wait)) :=
    queueForEachSafe_spec RunQueues.waitQueue (fun a : Lists P T => a.queue .wait)
      (waitBody kpagd priority) (Lists.visit kpagd priority value .wait .ready)
      (Represents value) (fun _ _ h => h.wait) (fun _ _ _ h he => h.waitBody he)
      visit_source hr₁
  obtain ⟨s₂, hwait, hr₂⟩ := hsecond
  refine ⟨{ s₂ with tasks := { s₂.tasks with refreshQueues := false } }, ?_, ?_, rfl⟩
  · rw [doRefreshQueues, hready, Option.bind_some, hwait]
    rfl
  · refine ⟨hr₂.ready, hr₂.wait, hr₂.zombie, hr₂.nodup, hr₂.value, ?_, hr₂.counter⟩
    rw [hr₂.tasks]
    rfl

end OsdevArchive.Minirighi.RefreshQueues
