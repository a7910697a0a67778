import OsdevArchive.Minirighi.Task

/-!
`kill` kills: it only ever makes zombies, apart from the father it wakes, and its
loop `found:` ends with no child of a dead father left in the ready and the wait
queue.
-/

namespace OsdevArchive.Minirighi.Task

open OsdevArchive.Minirighi.RefreshQueues

variable {P T S W : Type*}

/-- A zombie that is not yet freed. -/
def Kernel.Dead (k : Kernel P T S W) (t : T) : Prop :=
  k.allocated t = true ∧ k.tasks.state t = .zombie

variable {t u : T} {k k' : Kernel P T S W}

/-- Everything but the task states, the semaphores and the wait queues is as it
was. -/
structure SameTasks (k k' : Kernel P T S W) : Prop where
  queue : k'.queue = k.queue
  value : k'.value = k.value
  allocated : k'.allocated = k.allocated
  currTask : k'.currTask = k.currTask
  creating : k'.creating = k.creating

/-- From `k` to `k'` tasks have died, and every write has asked for a refresh. -/
structure Culled (k k' : Kernel P T S W) : Prop where
  same : SameTasks k k'
  stays : ∀ u, k.Dead u → k'.Dead u
  flag : k'.tasks = k.tasks ∨ k'.tasks.refreshQueues = true

theorem Culled.refl (k : Kernel P T S W) : Culled k k :=
  ⟨⟨rfl, rfl, rfl, rfl, rfl⟩, fun _ h => h, Or.inl rfl⟩

theorem Culled.trans {k'' : Kernel P T S W} (h : Culled k k') (h' : Culled k' k'') :
    Culled k k'' := by
  refine ⟨⟨h'.same.queue.trans h.same.queue, h'.same.value.trans h.same.value,
    h'.same.allocated.trans h.same.allocated, h'.same.currTask.trans h.same.currTask,
    h'.same.creating.trans h.same.creating⟩, fun u hu => h'.stays u (h.stays u hu), ?_⟩
  rcases h'.flag with heq | hflag
  · exact heq ▸ h.flag
  · exact Or.inr hflag

variable [DecidableEq T]

theorem Culled.strike {p : T} (hf : ∀ f ∈ k.father p, f ≠ p ∧ ¬k.Dead f) :
    Culled k (k.strike p) := by
  have hdead (u : T) (hu : k.Dead u) : (k.tasks.setTaskState p .zombie).state u = .zombie := by
    by_cases hup : u = p
    · simp [hup]
    · simpa [hup] using hu.2
  unfold Kernel.strike
  cases hfather : k.father p with
  | none => exact ⟨⟨rfl, rfl, rfl, rfl, rfl⟩, fun u hu => ⟨hu.1, hdead u hu⟩, Or.inr rfl⟩
  | some f =>
      obtain ⟨hne, halive⟩ := hf f hfather
      refine ⟨⟨rfl, rfl, rfl, rfl, rfl⟩, fun u hu => ⟨hu.1, ?_⟩,
        Or.inr (Tasks.wakeupTask_refreshQueues rfl)⟩
      have huf : u ≠ f := fun heq => halive (heq ▸ hu)
      simpa [huf] using hdead u hu

theorem Culled.orphan (r : Kernel P T S W × Bool) (e : P) :
    Culled r.1 (Kernel.orphan r e).1 := by
  unfold Kernel.orphan
  dsimp only
  split
  · exact .refl _
  · split
    · split
      · refine ⟨⟨rfl, rfl, rfl, rfl, rfl⟩, fun u hu => ⟨hu.1, ?_⟩, Or.inr rfl⟩
        by_cases hup : u = r.1.value e
        · simp [hup]
        · simpa [hup] using hu.2
      · exact ⟨⟨rfl, rfl, rfl, rfl, rfl⟩, fun _ hu => hu, Or.inl rfl⟩
    · exact .refl _

theorem Culled.foldl_orphan (L : List P) (r : Kernel P T S W × Bool) :
    Culled r.1 (L.foldl Kernel.orphan r).1 := by
  induction L generalizing r with
  | nil => exact .refl _
  | cons e L ih => exact (Culled.orphan r e).trans (ih _)

theorem Culled.sweepLoop (fuel : Nat) (k : Kernel P T S W) :
    Culled k (Kernel.sweepLoop fuel k) := by
  induction fuel generalizing k with
  | zero => exact .refl k
  | succ fuel ih =>
      have hsweep : Culled k k.sweep.1 := Culled.foldl_orphan k.searched (k, false)
      simp only [Kernel.sweepLoop]
      split
      · exact hsweep.trans (ih _)
      · exact hsweep

theorem Culled.cull {pid : Int} (hok : ∀ p ∈ k.find pid, ∀ f ∈ k.father p, f ≠ p ∧ ¬k.Dead f) :
    Culled k (k.cull pid) := by
  refine Culled.trans ?_ (.sweepLoop _ _)
  unfold Kernel.strikePid
  split
  · exact .refl k
  · exact .strike (hok _ ‹_›)

/-! ## The closure -/

/-- No task that `kill` searches has a dead father. -/
def Kernel.Closed (k : Kernel P T S W) : Prop :=
  ∀ e ∈ k.searched, ∀ f ∈ k.father (k.value e), k.tasks.state f ≠ .zombie

/-- How many of the searched entries have a father. -/
def Kernel.children (k : Kernel P T S W) : Nat :=
  k.searched.countP fun e => (k.father (k.value e)).isSome

/-- One visit: either nothing is to be done, or a father is forgotten. -/
theorem orphan_cases (r : Kernel P T S W × Bool) (e : P) :
    (Kernel.orphan r e = r ∧
        ∀ f ∈ r.1.father (r.1.value e), r.1.tasks.state f ≠ .zombie) ∨
      ((r.1.father (r.1.value e)).isSome = true ∧
        (Kernel.orphan r e).1.father = Function.update r.1.father (r.1.value e) none ∧
        ((Kernel.orphan r e).2 = true ∨
          (Kernel.orphan r e).2 = r.2 ∧ (Kernel.orphan r e).1.tasks = r.1.tasks)) := by
  unfold Kernel.orphan
  dsimp only
  cases hfather : r.1.father (r.1.value e) with
  | none => exact Or.inl ⟨rfl, by simp⟩
  | some f =>
      dsimp only
      by_cases hf : r.1.tasks.state f = .zombie
      · rw [if_pos hf]
        right
        split
        · exact ⟨rfl, rfl, Or.inl rfl⟩
        · exact ⟨rfl, rfl, Or.inr ⟨rfl, rfl⟩⟩
      · rw [if_neg hf]
        exact Or.inl ⟨rfl, fun g hg => Option.some.inj hg ▸ hf⟩

theorem orphan_value (r : Kernel P T S W × Bool) (e : P) :
    (Kernel.orphan r e).1.value = r.1.value :=
  (Culled.orphan r e).same.value

theorem orphan_father (r : Kernel P T S W × Bool) (e : P) (t : T) :
    (Kernel.orphan r e).1.father t = r.1.father t ∨ (Kernel.orphan r e).1.father t = none := by
  rcases orphan_cases r e with ⟨heq, -⟩ | ⟨-, hfather, -⟩
  · exact Or.inl (by rw [heq])
  · rw [hfather]
    by_cases ht : t = r.1.value e
    · exact Or.inr (by simp [ht])
    · exact Or.inl (by simp [ht])

theorem orphan_flag {r : Kernel P T S W × Bool} (e : P) (h : r.2 = true) :
    (Kernel.orphan r e).2 = true := by
  rcases orphan_cases r e with ⟨heq, -⟩ | ⟨-, -, hflag | ⟨hflag, -⟩⟩
  · rw [heq, h]
  · exact hflag
  · rw [hflag, h]

theorem foldl_orphan_father (L : List P) (r : Kernel P T S W × Bool) (t : T) :
    (L.foldl Kernel.orphan r).1.father t = r.1.father t ∨
      (L.foldl Kernel.orphan r).1.father t = none := by
  induction L generalizing r with
  | nil => exact Or.inl rfl
  | cons e L ih =>
      rcases ih (Kernel.orphan r e) with h | h
      · exact (orphan_father r e t).imp h.trans h.trans
      · exact Or.inr h

theorem foldl_orphan_flag (L : List P) {r : Kernel P T S W × Bool} (h : r.2 = true) :
    (L.foldl Kernel.orphan r).2 = true := by
  induction L generalizing r with
  | nil => exact h
  | cons e L ih => exact ih (orphan_flag e h)

/-- A walk that asks for another one has forgotten a father. -/
theorem foldl_orphan_progress (L : List P) {r : Kernel P T S W × Bool} (h : r.2 = false)
    (h' : (L.foldl Kernel.orphan r).2 = true) :
    ∃ e ∈ L, (r.1.father (r.1.value e)).isSome = true ∧
      (L.foldl Kernel.orphan r).1.father (r.1.value e) = none := by
  induction L generalizing r with
  | nil => exact absurd h' (by simp [h])
  | cons e L ih =>
      cases hflag : (Kernel.orphan r e).2 with
      | true =>
          rcases orphan_cases r e with ⟨heq, -⟩ | ⟨hsome, hfather, -⟩
          · rw [heq, h] at hflag
            cases hflag
          · refine ⟨e, List.mem_cons_self, hsome, ?_⟩
            rcases foldl_orphan_father L (Kernel.orphan r e) (r.1.value e) with hlast | hlast
            · exact hlast.trans (by simp [hfather])
            · exact hlast
      | false =>
          obtain ⟨e', he', hsome, hnone⟩ := ih hflag h'
          rw [orphan_value] at hsome hnone
          refine ⟨e', List.mem_cons_of_mem e he', ?_, hnone⟩
          rcases orphan_father r e (r.1.value e') with heq | heq
          · exact heq ▸ hsome
          · simp [heq] at hsome

/-- A walk that asks for no other one has written no state, and leaves no listed task
with a dead father. -/
theorem foldl_orphan_closed (L : List P) {r : Kernel P T S W × Bool}
    (h : (L.foldl Kernel.orphan r).2 = false) :
    (L.foldl Kernel.orphan r).1.tasks = r.1.tasks ∧
      ∀ e ∈ L, ∀ f ∈ (L.foldl Kernel.orphan r).1.father (r.1.value e),
        r.1.tasks.state f ≠ .zombie := by
  induction L generalizing r with
  | nil => simp
  | cons e L ih =>
      obtain ⟨htasks, hrest⟩ := ih h
      rw [orphan_value] at hrest
      have hflag : (Kernel.orphan r e).2 = false := by
        by_contra hne
        have htrue := foldl_orphan_flag L (Bool.not_eq_false _ ▸ hne)
        exact absurd h (by rw [List.foldl_cons, htrue]; simp)
      have hfirst : (Kernel.orphan r e).1.tasks = r.1.tasks ∧
          ∀ f ∈ (Kernel.orphan r e).1.father (r.1.value e), r.1.tasks.state f ≠ .zombie := by
        rcases orphan_cases r e with ⟨heq, hf⟩ | ⟨-, hfather, hset | ⟨-, hsame⟩⟩
        · rw [heq]
          exact ⟨rfl, hf⟩
        · rw [hflag] at hset
          cases hset
        · exact ⟨hsame, by simp [hfather]⟩
      refine ⟨htasks.trans hfirst.1, fun e' he' f hf => ?_⟩
      rcases List.mem_cons.mp he' with rfl | he'
      · rcases foldl_orphan_father L (Kernel.orphan r e') (r.1.value e') with hlast | hlast
        · exact hfirst.2 f (hlast ▸ hf)
        · rw [List.foldl_cons, hlast] at hf
          cases hf
      · rw [← hfirst.1]
        exact hrest e' he' f hf

omit [DecidableEq T] in
theorem searched_of_culled (h : Culled k k') : k'.searched = k.searched := by
  simp only [Kernel.searched, h.same.queue]

/-- A walk that asks for another one leaves fewer children behind. -/
theorem children_sweep (h : k.sweep.2 = true) : k.sweep.1.children < k.children := by
  have hsame : Culled k k.sweep.1 := Culled.foldl_orphan k.searched (k, false)
  obtain ⟨e, he, hsome, hnone⟩ := foldl_orphan_progress k.searched (r := (k, false)) rfl h
  have hle (e : P) (hs : (k.sweep.1.father (k.value e)).isSome = true) :
      (k.father (k.value e)).isSome = true := by
    rcases foldl_orphan_father k.searched (k, false) (k.value e) with heq | heq
    · exact heq ▸ hs
    · rw [Kernel.sweep, heq] at hs
      cases hs
  unfold Kernel.children
  rw [searched_of_culled hsame, hsame.same.value]
  obtain ⟨pre, post, hsplit⟩ := List.append_of_mem he
  have hpre : pre.countP (fun e => (k.sweep.1.father (k.value e)).isSome) ≤
      pre.countP fun e => (k.father (k.value e)).isSome :=
    List.countP_mono_left fun e _ => hle e
  have hpost : post.countP (fun e => (k.sweep.1.father (k.value e)).isSome) ≤
      post.countP fun e => (k.father (k.value e)).isSome :=
    List.countP_mono_left fun e _ => hle e
  have hnone' : (k.sweep.1.father (k.value e)).isSome = false := by
    rw [Kernel.sweep, hnone]
    rfl
  simp only [hsplit, List.countP_append, List.countP_cons, hsome, hnone', if_true]
  simp only [Bool.false_eq_true, if_false]
  omega

/-- The loop ends before its fuel does, and leaves no child of a dead father. -/
theorem sweepLoop_closed {fuel : Nat} (h : k.children < fuel) :
    (Kernel.sweepLoop fuel k).Closed := by
  induction fuel generalizing k with
  | zero => exact absurd h (Nat.not_lt_zero _)
  | succ fuel ih =>
      simp only [Kernel.sweepLoop]
      split
      · rename_i hflag
        exact ih (by have := children_sweep hflag; omega)
      · rename_i hflag
        have hsame : Culled k k.sweep.1 := Culled.foldl_orphan k.searched (k, false)
        obtain ⟨htasks, hclosed⟩ := foldl_orphan_closed k.searched (r := (k, false))
          (by simpa [Kernel.sweep] using hflag)
        intro e he f hf
        rw [searched_of_culled hsame] at he
        rw [hsame.same.value] at hf
        rw [Kernel.sweep, htasks]
        exact hclosed e he f hf

/-- There are rounds enough behind the first strike: each one orphans a child. -/
theorem children_strikePid_lt (k : Kernel P T S W) (pid : Int) :
    (k.strikePid pid).children < k.searched.length + 1 := by
  have hsame : (k.strikePid pid).searched = k.searched := by
    unfold Kernel.strikePid
    split
    · rfl
    · unfold Kernel.strike
      dsimp only
      split <;> rfl
  rw [← hsame]
  exact Nat.lt_succ_of_le List.countP_le_length

end OsdevArchive.Minirighi.Task
