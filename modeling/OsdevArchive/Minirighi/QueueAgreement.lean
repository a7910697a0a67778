import Mathlib.Tactic.FinCases
import OsdevArchive.Minirighi.RefreshQueues

/-!
When the run queues agree with the task states after `do_refresh_queues`. All
tasks but the killing daemon keep their state during the refresh, and their
entries end where the state demands unless they started in the zombie queue,
which is not visited. The daemon is made ready at the first zombie found, so its
own entry is misplaced exactly when it was visited before that, or is not
visited at all.
-/

namespace OsdevArchive.Minirighi.RefreshQueues

open OsdevArchive.Minirighi.Queue

variable {P T : Type*} [DecidableEq P] [DecidableEq T] {kpagd : T} {priority : T → Int}
  {value : P → T} {a b : Lists P T} {e p : P} {source dest st : TaskState}
  {L pre post : List P}

/-- Each task is linked in exactly one queue, the one its state demands, and the
refresh has neither lost nor duplicated an entry. -/
structure Agrees (value : P → T) (before after : Lists P T) : Prop where
  conserved : after.entries.Perm before.entries
  once : (after.entries.map value).Nodup
  placed : ∀ p ∈ after.entries, ∀ st ≠ .new, after.tasks.state (value p) = st →
    p ∈ after.queue st

/-- The entry belongs to a zombie. -/
abbrev Lists.IsZombie (value : P → T) (a : Lists P T) (e : P) : Prop :=
  a.tasks.state (value e) = .zombie

/-- The entries that a refresh may visit, in their order. -/
def Lists.visited (a : Lists P T) : List P := a.queue .ready ++ a.queue .wait

/-- A zombie is visited before `p`. -/
def Lists.ZombieBefore (value : P → T) (a : Lists P T) (p : P) : Prop :=
  ∃ e ∈ a.visited.takeWhile (· ≠ p), a.IsZombie value e

/-- The condition under which a refresh brings queues and states to agree. -/
structure Settles (kpagd : T) (value : P → T) (a : Lists P T) : Prop where
  /-- Nobody in the zombie queue is ready or waiting. -/
  dead : ∀ p ∈ a.queue .zombie,
    a.tasks.state (value p) ≠ .ready ∧ a.tasks.state (value p) ≠ .wait
  /-- The daemon is not in the zombie queue when a zombie is found. -/
  alive : (∃ e ∈ a.visited, a.IsZombie value e) → ∀ p ∈ a.queue .zombie, value p ≠ kpagd
  /-- In the ready queue, the daemon is not the first zombie. -/
  inReady : ∀ p ∈ a.queue .ready, value p = kpagd → a.tasks.state kpagd = .zombie →
    a.ZombieBefore value p
  /-- In the wait queue, the daemon is ready, or the first zombie stands before
  it. -/
  inWait : ∀ p ∈ a.queue .wait, value p = kpagd → (∃ e ∈ a.visited, a.IsZombie value e) →
    a.tasks.state kpagd ≠ .ready → a.ZombieBefore value p

/-! ## One pass -/

/-- A pass over the entries `L`. -/
def walk (kpagd : T) (priority : T → Int) (value : P → T) (source dest : TaskState)
    (L : List P) (a : Lists P T) : Lists P T :=
  L.foldl (Lists.visit kpagd priority value source dest) a

theorem visit_state_ne {u : T} (hu : u ≠ kpagd) :
    (a.visit kpagd priority value source dest e).tasks.state u = a.tasks.state u := by
  simp only [Lists.visit]
  split <;> simp [hu]

theorem visit_state_kpagd (hp : IsPass source dest) :
    (a.visit kpagd priority value source dest e).tasks.state kpagd =
      if a.IsZombie value e then .ready else a.tasks.state kpagd := by
  simp only [Lists.visit, hp.goal_eq_zombie]
  split <;> simp [*]

theorem visit_mem_of_ne (hne : p ≠ e) :
    p ∈ (a.visit kpagd priority value source dest e).queue st ↔ p ∈ a.queue st := by
  simp only [Lists.visit]
  split
  · rfl
  · unfold Lists.moved
    by_cases hg : st = goal source dest (a.tasks.state (value e))
    · rw [← hg, Function.update_self, List.mem_append, List.mem_singleton]
      simp [hne]
    · rw [Function.update_of_ne hg]
      by_cases hs : st = source
      · rw [hs, Function.update_self, List.mem_erase_of_ne hne]
      · rw [Function.update_of_ne hs]

theorem visit_mem_goal (hmem : p ∈ a.queue source) :
    p ∈ (a.visit kpagd priority value source dest p).queue
      (goal source dest (a.tasks.state (value p))) := by
  simp only [Lists.visit]
  split
  · rename_i hgoal
    rwa [hgoal]
  · simp [Lists.moved]

theorem walk_append : walk kpagd priority value source dest (pre ++ post) a =
    walk kpagd priority value source dest post
      (walk kpagd priority value source dest pre a) := List.foldl_append

theorem walk_state_ne {u : T} (hu : u ≠ kpagd) :
    (walk kpagd priority value source dest L a).tasks.state u = a.tasks.state u := by
  induction L generalizing a with
  | nil => rfl
  | cons e L ih => exact ih.trans (visit_state_ne hu)

/-- The daemon is ready after a pass that met a zombie. -/
theorem walk_state_kpagd (hp : IsPass source dest) :
    (walk kpagd priority value source dest L a).tasks.state kpagd =
      if ∃ e ∈ L, a.IsZombie value e then .ready else a.tasks.state kpagd := by
  induction L generalizing a with
  | nil => simp [walk]
  | cons e L ih =>
      have hstep : walk kpagd priority value source dest (e :: L) a =
          walk kpagd priority value source dest L
            (a.visit kpagd priority value source dest e) := rfl
      rw [hstep, ih, visit_state_kpagd hp]
      by_cases he : a.IsZombie value e
      · have hsome : ∃ f ∈ e :: L, a.IsZombie value f := ⟨e, List.mem_cons_self, he⟩
        rw [if_pos he, if_pos hsome, ite_self]
      · have hsame (f : P) : (a.visit kpagd priority value source dest e).IsZombie value f ↔
            a.IsZombie value f := by
          by_cases hf : value f = kpagd
          · simp only [Lists.IsZombie, hf, visit_state_kpagd hp, if_neg he]
          · simp only [Lists.IsZombie, visit_state_ne hf]
        rw [if_neg he]
        simp only [hsame, List.mem_cons, exists_eq_or_imp, he, false_or]

theorem walk_mem_of_notMem (hL : p ∉ L) :
    p ∈ (walk kpagd priority value source dest L a).queue st ↔ p ∈ a.queue st := by
  induction L generalizing a with
  | nil => rfl
  | cons e L ih =>
      obtain ⟨hne, htail⟩ := not_or.mp (List.mem_cons.not.mp hL)
      exact (ih htail).trans (visit_mem_of_ne hne)

/-- An entry is moved by its state at the moment of its visit. -/
theorem walk_mem_goal (hL : (pre ++ p :: post).Nodup) (hmem : p ∈ a.queue source) :
    p ∈ (walk kpagd priority value source dest (pre ++ p :: post) a).queue
      (goal source dest
        ((walk kpagd priority value source dest pre a).tasks.state (value p))) := by
  have hpre : p ∉ pre := fun h => List.disjoint_of_nodup_append hL h (by simp)
  have hpost : p ∉ post := (List.nodup_cons.mp hL.of_append_right).1
  rw [walk_append]
  change p ∈ (walk kpagd priority value source dest post (Lists.visit kpagd priority value
    source dest (walk kpagd priority value source dest pre a) p)).queue _
  rw [walk_mem_of_notMem hpost]
  exact visit_mem_goal ((walk_mem_of_notMem hpre).mpr hmem)

theorem walk_entries_perm (hp : IsPass source dest) (hL : L.Nodup)
    (hsub : ∀ e ∈ L, e ∈ a.queue source) :
    (walk kpagd priority value source dest L a).entries.Perm a.entries := by
  induction L generalizing a with
  | nil => exact List.Perm.refl _
  | cons e L ih =>
      obtain ⟨hnot, htail⟩ := List.nodup_cons.mp hL
      have hrest : ∀ f ∈ L, f ∈ (a.visit kpagd priority value source dest e).queue source := by
        intro f hf
        have hne : f ≠ e := fun heq => hnot (heq ▸ hf)
        exact (visit_mem_of_ne hne).mpr (hsub f (by simp [hf]))
      exact (ih htail hrest).trans (visit_entries_perm hp (hsub e (by simp)))

/-- The first pass appends to the wait queue. -/
theorem walk_wait_prefix :
    ∃ moved, (walk kpagd priority value .ready .wait L a).queue .wait =
      a.queue .wait ++ moved ∧ ∀ e ∈ moved, e ∈ L := by
  induction L generalizing a with
  | nil => exact ⟨[], by simp [walk], by simp⟩
  | cons e L ih =>
      obtain ⟨moved, heq, hmoved⟩ := ih (a := a.visit kpagd priority value .ready .wait e)
      have hstep : walk kpagd priority value .ready .wait (e :: L) a =
          walk kpagd priority value .ready .wait L
            (a.visit kpagd priority value .ready .wait e) := rfl
      rw [hstep, heq]
      cases hst : a.tasks.state (value e) with
      | wait =>
          refine ⟨e :: moved, ?_, by simpa using fun f hf => Or.inr (hmoved f hf)⟩
          simp [Lists.visit, goal, hst, Lists.moved, Function.update]
      | _ =>
          refine ⟨moved, ?_, fun f hf => by simp [hmoved f hf]⟩
          simp [Lists.visit, goal, hst, Lists.moved, Function.update]

/-! ## Both passes -/

section

variable (kpagd : T) (priority : T → Int) (value : P → T) (a : Lists P T)

/-- The state between the passes. -/
def halfway : Lists P T := a.pass kpagd priority value .ready .wait

end

theorem isPass_ready : IsPass .ready .wait := ⟨Or.inl rfl, Or.inr rfl, by simp⟩

theorem isPass_wait : IsPass .wait .ready := ⟨Or.inr rfl, Or.inl rfl, by simp⟩

theorem halfway_eq : halfway kpagd priority value a =
    walk kpagd priority value .ready .wait (a.queue .ready) a := rfl

theorem refresh_queue : (a.refresh kpagd priority value).queue =
    (walk kpagd priority value .wait .ready ((halfway kpagd priority value a).queue .wait)
      (halfway kpagd priority value a)).queue := rfl

theorem refresh_state : (a.refresh kpagd priority value).tasks.state =
    (walk kpagd priority value .wait .ready ((halfway kpagd priority value a).queue .wait)
      (halfway kpagd priority value a)).tasks.state := rfl

/-- No entry is listed twice. -/
structure Distinct (a : Lists P T) : Prop where
  ready : (a.queue .ready).Nodup
  wait : (a.queue .wait).Nodup
  readyWait : ∀ p ∈ a.queue .ready, p ∉ a.queue .wait
  readyZombie : ∀ p ∈ a.queue .ready, p ∉ a.queue .zombie
  waitZombie : ∀ p ∈ a.queue .wait, p ∉ a.queue .zombie

omit [DecidableEq P] [DecidableEq T] in
theorem distinct_of_nodup (h : a.entries.Nodup) : Distinct a := by
  unfold Lists.entries at h
  have hzombie := List.disjoint_of_nodup_append h
  have hready := List.disjoint_of_nodup_append h.of_append_left
  exact ⟨h.of_append_left.of_append_left, h.of_append_left.of_append_right,
    fun p hp hq => hready hp hq, fun p hp hq => hzombie (List.mem_append_left _ hp) hq,
    fun p hp hq => hzombie (List.mem_append_right _ hp) hq⟩

theorem halfway_entries_perm (h : a.entries.Nodup) :
    (halfway kpagd priority value a).entries.Perm a.entries :=
  walk_entries_perm isPass_ready (distinct_of_nodup h).ready fun _ he => he

/-- A refresh neither loses nor duplicates an entry. -/
theorem refresh_entries_perm (h : a.entries.Nodup) :
    (a.refresh kpagd priority value).entries.Perm a.entries := by
  have hhalf : (halfway kpagd priority value a).entries.Perm a.entries :=
    halfway_entries_perm h
  have hd := distinct_of_nodup (hhalf.nodup_iff.mpr h)
  exact (walk_entries_perm isPass_wait hd.wait fun _ he => he).trans hhalf

/-! ## The states after a refresh -/

theorem halfway_wait_prefix (kpagd : T) (priority : T → Int) (value : P → T) (a : Lists P T) :
    ∃ moved, (halfway kpagd priority value a).queue .wait = a.queue .wait ++ moved ∧
      ∀ e ∈ moved, e ∈ a.queue .ready :=
  walk_wait_prefix

theorem mem_halfway_wait (h : p ∈ (halfway kpagd priority value a).queue .wait) :
    p ∈ a.visited := by
  obtain ⟨moved, heq, hmoved⟩ := halfway_wait_prefix kpagd priority value a
  rw [heq] at h
  rcases List.mem_append.mp h with hw | hm
  · exact List.mem_append_right _ hw
  · exact List.mem_append_left _ (hmoved p hm)

theorem halfway_isZombie (hnone : ¬∃ e ∈ a.queue .ready, a.IsZombie value e) :
    (halfway kpagd priority value a).IsZombie value p ↔ a.IsZombie value p := by
  by_cases hp : value p = kpagd
  · simp only [Lists.IsZombie, hp, halfway_eq, walk_state_kpagd isPass_ready, if_neg hnone]
  · simp only [Lists.IsZombie, halfway_eq, walk_state_ne hp]

theorem isZombie_of_halfway (h : (halfway kpagd priority value a).IsZombie value p) :
    a.IsZombie value p := by
  by_cases hsome : ∃ e ∈ a.queue .ready, a.IsZombie value e
  · by_cases hp : value p = kpagd
    · simp [Lists.IsZombie, hp, halfway_eq, walk_state_kpagd isPass_ready, hsome] at h
    · simpa only [Lists.IsZombie, halfway_eq, walk_state_ne hp] using h
  · exact (halfway_isZombie hsome).mp h

/-- The daemon's state after a part of the second walk: the zombies of the first walk count,
too. -/
theorem second_state_kpagd (L : List P) :
    (walk kpagd priority value .wait .ready L
      (halfway kpagd priority value a)).tasks.state kpagd =
      if ∃ e ∈ a.queue .ready ++ L, a.IsZombie value e then .ready
      else a.tasks.state kpagd := by
  rw [walk_state_kpagd isPass_wait, halfway_eq, walk_state_kpagd isPass_ready, ← halfway_eq]
  by_cases hready : ∃ e ∈ a.queue .ready, a.IsZombie value e
  · have hex : ∃ e ∈ a.queue .ready ++ L, a.IsZombie value e := by
      obtain ⟨e, he, hz⟩ := hready
      exact ⟨e, List.mem_append_left _ he, hz⟩
    rw [if_pos hready, ite_self, if_pos hex]
  · have hiff : (∃ e ∈ L, (halfway kpagd priority value a).IsZombie value e) ↔
        ∃ e ∈ a.queue .ready ++ L, a.IsZombie value e := by
      constructor
      · rintro ⟨e, he, hz⟩
        exact ⟨e, List.mem_append_right _ he, isZombie_of_halfway hz⟩
      · rintro ⟨e, he, hz⟩
        rcases List.mem_append.mp he with hr | hL
        · exact absurd ⟨e, hr, hz⟩ hready
        · exact ⟨e, hL, (halfway_isZombie hready).mpr hz⟩
    simp only [hiff, if_neg hready]

omit [DecidableEq P] [DecidableEq T] in
/-- A second walk that takes the wait queue first visits all entries. -/
theorem exists_zombie_iff {L : List P} (hwait : ∀ e ∈ a.queue .wait, e ∈ L)
    (hL : ∀ e ∈ L, e ∈ a.visited) :
    (∃ e ∈ a.queue .ready ++ L, a.IsZombie value e) ↔ ∃ e ∈ a.visited, a.IsZombie value e := by
  constructor
  · rintro ⟨e, he, hz⟩
    rcases List.mem_append.mp he with hr | he
    · exact ⟨e, List.mem_append_left _ hr, hz⟩
    · exact ⟨e, hL e he, hz⟩
  · rintro ⟨e, he, hz⟩
    rcases List.mem_append.mp he with hr | hw
    · exact ⟨e, List.mem_append_left _ hr, hz⟩
    · exact ⟨e, List.mem_append_right _ (hwait e hw), hz⟩

/-- Only the daemon changes its state, and it does so when a zombie is visited. -/
theorem refresh_state_eq (u : T) : (a.refresh kpagd priority value).tasks.state u =
    if u = kpagd ∧ ∃ e ∈ a.visited, a.IsZombie value e then .ready
    else a.tasks.state u := by
  by_cases hu : u = kpagd
  · subst hu
    obtain ⟨moved, heq, -⟩ := halfway_wait_prefix u priority value a
    have hall : ∀ e ∈ a.queue .wait, e ∈ (halfway u priority value a).queue .wait := by
      intro e he
      rw [heq]
      exact List.mem_append_left _ he
    rw [refresh_state, second_state_kpagd]
    simp only [exists_zombie_iff hall fun e => mem_halfway_wait, true_and]
  · rw [refresh_state, walk_state_ne hu, halfway_eq, walk_state_ne hu]
    simp [hu]

/-! ## Where the entries end -/

/-- The entry is in the queue that the state of its task demands. -/
def Lists.Placed (value : P → T) (b : Lists P T) (p : P) : Prop :=
  ∀ st ≠ .new, b.tasks.state (value p) = st → p ∈ b.queue st

omit [DecidableEq P] [DecidableEq T] in
theorem Distinct.notMem (hd : Distinct b) {st' : TaskState} (h : p ∈ b.queue st)
    (hst : st ≠ .new) (hst' : st' ≠ .new) (hne : st ≠ st') : p ∉ b.queue st' := by
  intro h'
  cases st <;> cases st' <;> simp at hst hst' hne
  · exact hd.readyWait p h h'
  · exact hd.readyZombie p h h'
  · exact hd.readyWait p h' h
  · exact hd.waitZombie p h h'
  · exact hd.readyZombie p h' h
  · exact hd.waitZombie p h' h

omit [DecidableEq P] [DecidableEq T] in
theorem placed_iff_of_mem (hd : Distinct b) (h : p ∈ b.queue st) (hst : st ≠ .new) :
    b.Placed value p ↔ b.tasks.state (value p) = .new ∨ b.tasks.state (value p) = st := by
  constructor
  · intro hp
    by_cases hnew : b.tasks.state (value p) = .new
    · exact Or.inl hnew
    · right
      by_contra hne
      exact hd.notMem h hst hnew (Ne.symm hne) (hp _ hnew rfl)
  · rintro (hnew | heq) st' hst' hst''
    · exact absurd (hst''.symm.trans hnew) hst'
    · rw [← hst'', heq]
      exact h

omit [DecidableEq P] [DecidableEq T] in
/-- An entry is placed that was visited with the state its task has. -/
theorem placed_of_goal (hp : p ∈ b.queue (goal .wait .ready st))
    (hst : b.tasks.state (value p) = st) : b.Placed value p := by
  intro st' hnew heq
  obtain rfl : st = st' := hst.symm.trans heq
  cases st with
  | new => exact absurd rfl hnew
  | _ => exact hp

section

variable (h : a.entries.Nodup)

include h

theorem distinct_halfway : Distinct (halfway kpagd priority value a) :=
  distinct_of_nodup ((halfway_entries_perm h).nodup_iff.mpr h)

theorem distinct_refresh : Distinct (a.refresh kpagd priority value) :=
  distinct_of_nodup ((refresh_entries_perm h).nodup_iff.mpr h)

/-- The second pass leaves alone what is not in the wait queue. -/
theorem refresh_mem_of_halfway (hp : p ∈ (halfway kpagd priority value a).queue st)
    (hst : st ≠ .new) (hwait : st ≠ .wait) :
    p ∈ (a.refresh kpagd priority value).queue st := by
  rw [refresh_queue]
  exact (walk_mem_of_notMem ((distinct_halfway h).notMem hp hst (by simp) hwait)).mpr hp

/-- An entry of the ready queue is visited first with the state of that moment. -/
theorem halfway_mem_goal (hR : a.queue .ready = pre ++ p :: post) :
    p ∈ (halfway kpagd priority value a).queue (goal .ready .wait
      ((walk kpagd priority value .ready .wait pre a).tasks.state (value p))) := by
  have hnodup := (distinct_of_nodup h).ready
  rw [hR] at hnodup
  rw [halfway_eq, hR]
  exact walk_mem_goal hnodup (by simp [hR])

theorem refresh_mem_goal
    (hW : (halfway kpagd priority value a).queue .wait = pre ++ p :: post) :
    p ∈ (a.refresh kpagd priority value).queue (goal .wait .ready
      ((walk kpagd priority value .wait .ready pre
        (halfway kpagd priority value a)).tasks.state (value p))) := by
  have hd : Distinct (halfway kpagd priority value a) := distinct_halfway h
  have hnodup := hd.wait
  rw [hW] at hnodup
  rw [refresh_queue, hW]
  exact walk_mem_goal hnodup (by simp [hW])

theorem halfway_wait_of_mem (hp : p ∈ a.queue .wait) :
    p ∈ (halfway kpagd priority value a).queue .wait := by
  have hnot : p ∉ a.queue .ready := fun hr => (distinct_of_nodup h).readyWait p hr hp
  exact (walk_mem_of_notMem hnot).mpr hp

/-- The entries of all tasks but the daemon are sorted out. -/
theorem placed_other (hp : p ∈ a.visited) (hk : value p ≠ kpagd) :
    (a.refresh kpagd priority value).Placed value p := by
  have hstate : (a.refresh kpagd priority value).tasks.state (value p) =
      a.tasks.state (value p) := by
    rw [refresh_state_eq, if_neg fun h => hk h.1]
  have hsecond : p ∈ (halfway kpagd priority value a).queue .wait →
      p ∈ (a.refresh kpagd priority value).queue
        (goal .wait .ready (a.tasks.state (value p))) := by
    intro hw
    obtain ⟨pre, post, hsplit⟩ := List.append_of_mem hw
    have hgoal := refresh_mem_goal h hsplit
    rwa [walk_state_ne hk, halfway_eq, walk_state_ne hk] at hgoal
  intro st hst hst'
  rw [hstate] at hst'
  rcases List.mem_append.mp hp with hr | hw
  · obtain ⟨pre, post, hsplit⟩ := List.append_of_mem hr
    have hfirst : p ∈ (halfway kpagd priority value a).queue (goal .ready .wait
        ((walk kpagd priority value .ready .wait pre a).tasks.state (value p))) :=
      halfway_mem_goal h hsplit
    rw [walk_state_ne hk, hst'] at hfirst
    rw [hst'] at hsecond
    cases st with
    | new => exact absurd rfl hst
    | ready => exact refresh_mem_of_halfway h hfirst (by simp) (by simp)
    | wait => exact hsecond hfirst
    | zombie => exact refresh_mem_of_halfway h hfirst (by simp) (by simp)
  · have hlast := hsecond (halfway_wait_of_mem h hw)
    rw [hst'] at hlast
    cases st with
    | new => exact absurd rfl hst
    | _ => exact hlast

theorem refresh_mem_zombie (hp : p ∈ a.queue .zombie) :
    p ∈ (a.refresh kpagd priority value).queue .zombie := by
  have hnot : p ∉ a.queue .ready := fun hr => (distinct_of_nodup h).readyZombie p hr hp
  have hhalf : p ∈ (halfway kpagd priority value a).queue .zombie :=
    (walk_mem_of_notMem hnot).mpr hp
  exact refresh_mem_of_halfway h hhalf (by simp) (by simp)

theorem refresh_ready_alive (hp : p ∈ (a.refresh kpagd priority value).queue .ready) :
    ¬(a.refresh kpagd priority value).IsZombie value p := by
  intro hz
  have hd : Distinct (a.refresh kpagd priority value) := distinct_refresh h
  have hperm : (a.refresh kpagd priority value).entries.Perm a.entries := refresh_entries_perm h
  have hmem : p ∈ a.entries := hperm.mem_iff.mp (by simp [Lists.entries, hp])
  rcases List.mem_append.mp hmem with hv | hq
  · by_cases hk : value p = kpagd
    · simp only [Lists.IsZombie, refresh_state_eq] at hz
      split at hz
      · cases hz
      · rename_i hnone
        exact hnone ⟨hk, p, hv, hz⟩
    · exact hd.readyZombie p hp (placed_other h hv hk .zombie (by simp) hz)
  · exact hd.readyZombie p hp (refresh_mem_zombie h hq)

/-- The zombie queue is not visited. -/
theorem placed_zombie_iff (hp : p ∈ a.queue .zombie) :
    (a.refresh kpagd priority value).Placed value p ↔
      (a.tasks.state (value p) ≠ .ready ∧ a.tasks.state (value p) ≠ .wait) ∧
        ((∃ e ∈ a.visited, a.IsZombie value e) → value p ≠ kpagd) := by
  rw [placed_iff_of_mem (distinct_refresh h) (refresh_mem_zombie h hp) (by simp),
    refresh_state_eq]
  by_cases hk : value p = kpagd ∧ ∃ e ∈ a.visited, a.IsZombie value e
  · rw [if_pos hk]
    simp [hk]
  · rw [if_neg hk]
    cases hst : a.tasks.state (value p) <;> simp at hk ⊢ <;> tauto

end

omit [DecidableEq T] in
theorem zombieBefore_iff {rest : List P} (hv : a.visited = pre ++ p :: rest) (hp : p ∉ pre) :
    a.ZombieBefore value p ↔ ∃ e ∈ pre, a.IsZombie value e := by
  have htake : a.visited.takeWhile (· ≠ p) = pre := by
    have hne : ∀ e ∈ pre, decide (e ≠ p) = true := fun e he =>
      decide_eq_true fun heq : e = p => hp (heq ▸ he)
    rw [hv, List.takeWhile_append_of_pos hne]
    simp
  rw [Lists.ZombieBefore, htake]

/-- The daemon is ready after a refresh that has met a zombie. -/
theorem refresh_state_kpagd (hk : value p = kpagd) :
    (a.refresh kpagd priority value).tasks.state (value p) =
      if ∃ e ∈ a.visited, a.IsZombie value e then .ready else a.tasks.state kpagd := by
  rw [refresh_state_eq, hk]
  simp only [true_and]

section

variable (h : a.entries.Nodup)

include h

/-- The entry of a waiting daemon is visited again, behind all entries of the wait queue. -/
theorem placed_of_revisit (hp : p ∈ a.queue .ready) (hk : value p = kpagd)
    (hst : a.tasks.state kpagd = .wait)
    (hw : p ∈ (halfway kpagd priority value a).queue .wait) :
    (a.refresh kpagd priority value).Placed value p := by
  obtain ⟨moved, heq, -⟩ := halfway_wait_prefix kpagd priority value a
  rw [heq] at hw
  obtain ⟨m₁, m₂, hm⟩ := List.append_of_mem
    ((List.mem_append.mp hw).resolve_left ((distinct_of_nodup h).readyWait p hp))
  rw [hm, ← List.append_assoc] at heq
  have hlast := refresh_mem_goal h heq
  have hmoved : ∀ e ∈ a.queue .wait ++ m₁, e ∈ a.visited := by
    intro e he
    have hhalf : e ∈ (halfway kpagd priority value a).queue .wait := by
      rw [heq]
      exact List.mem_append_left _ he
    exact mem_halfway_wait hhalf
  rw [hk, second_state_kpagd, hst] at hlast
  simp only [exists_zombie_iff (fun e he => List.mem_append_left m₁ he) hmoved] at hlast
  have hfinal : (a.refresh kpagd priority value).tasks.state (value p) =
      if ∃ e ∈ a.visited, a.IsZombie value e then .ready else a.tasks.state kpagd :=
    refresh_state_kpagd hk
  rw [hst] at hfinal
  exact placed_of_goal hlast hfinal

/-- In the ready queue, the daemon's entry is misplaced when it is the first
zombie itself. -/
theorem placed_ready_iff (hp : p ∈ a.queue .ready) (hk : value p = kpagd) :
    (a.refresh kpagd priority value).Placed value p ↔
      (a.tasks.state kpagd = .zombie → a.ZombieBefore value p) := by
  have hd := distinct_of_nodup h
  have hd' : Distinct (a.refresh kpagd priority value) := distinct_refresh h
  have hvisited : p ∈ a.visited := List.mem_append_left _ hp
  obtain ⟨pre, post, hR⟩ := List.append_of_mem hp
  have hnot : p ∉ pre := by
    have hnodup := hd.ready
    rw [hR] at hnodup
    exact fun hpre => List.disjoint_of_nodup_append hnodup hpre (by simp)
  have hv : a.visited = pre ++ p :: (post ++ a.queue .wait) := by simp [Lists.visited, hR]
  rw [zombieBefore_iff hv hnot]
  have hfirst : p ∈ (halfway kpagd priority value a).queue (goal .ready .wait
      ((walk kpagd priority value .ready .wait pre a).tasks.state (value p))) :=
    halfway_mem_goal h hR
  rw [hk, walk_state_kpagd isPass_ready] at hfirst
  have hfinal : (a.refresh kpagd priority value).tasks.state (value p) =
      if ∃ e ∈ a.visited, a.IsZombie value e then .ready else a.tasks.state kpagd :=
    refresh_state_kpagd hk
  by_cases hbefore : ∃ e ∈ pre, a.IsZombie value e
  · have hex : ∃ e ∈ a.visited, a.IsZombie value e := by
      obtain ⟨e, he, hz⟩ := hbefore
      exact ⟨e, by simp [hv, he], hz⟩
    rw [if_pos hbefore] at hfirst
    rw [if_pos hex] at hfinal
    have hready : p ∈ (a.refresh kpagd priority value).queue .ready :=
      refresh_mem_of_halfway h hfirst (by simp) (by simp)
    rw [placed_iff_of_mem hd' hready (by simp), hfinal]
    simp [hbefore]
  rw [if_neg hbefore] at hfirst
  cases hst : a.tasks.state kpagd with
  | zombie =>
      have hex : ∃ e ∈ a.visited, a.IsZombie value e :=
        ⟨p, hvisited, (congrArg a.tasks.state hk).trans hst⟩
      rw [hst] at hfirst
      have hzombie : p ∈ (a.refresh kpagd priority value).queue .zombie :=
        refresh_mem_of_halfway h hfirst (by simp) (by simp)
      rw [if_pos hex] at hfinal
      rw [placed_iff_of_mem hd' hzombie (by simp), hfinal]
      simp [hbefore]
  | wait =>
      rw [hst] at hfirst
      exact iff_of_true (placed_of_revisit h hp hk hst hfirst) (by simp)
  | _ =>
      rw [hst] at hfirst
      have hready : p ∈ (a.refresh kpagd priority value).queue .ready :=
        refresh_mem_of_halfway h hfirst (by simp) (by simp)
      rw [placed_iff_of_mem hd' hready (by simp), hfinal, hst]
      split <;> simp

/-- In the wait queue, the daemon's entry is misplaced when it is visited, and
not found ready, before the first zombie. -/
theorem placed_wait_iff (hp : p ∈ a.queue .wait) (hk : value p = kpagd) :
    (a.refresh kpagd priority value).Placed value p ↔
      ((∃ e ∈ a.visited, a.IsZombie value e) → a.tasks.state kpagd ≠ .ready →
        a.ZombieBefore value p) := by
  have hd := distinct_of_nodup h
  have hd' : Distinct (a.refresh kpagd priority value) := distinct_refresh h
  obtain ⟨pre, post, hW⟩ := List.append_of_mem hp
  have hnot : p ∉ a.queue .ready ++ pre := by
    have hnodup := hd.wait
    rw [hW] at hnodup
    intro hmem
    rcases List.mem_append.mp hmem with hr | hpre
    · exact hd.readyWait p hr hp
    · exact List.disjoint_of_nodup_append hnodup hpre (by simp)
  have hv : a.visited = (a.queue .ready ++ pre) ++ p :: post := by simp [Lists.visited, hW]
  rw [zombieBefore_iff hv hnot]
  obtain ⟨moved, heq, -⟩ := halfway_wait_prefix kpagd priority value a
  rw [hW, List.append_assoc, List.cons_append] at heq
  have hlast := refresh_mem_goal h heq
  -- The daemon's state at the visit of its entry.
  rw [hk, second_state_kpagd] at hlast
  have hfinal : (a.refresh kpagd priority value).tasks.state (value p) =
      if ∃ e ∈ a.visited, a.IsZombie value e then .ready else a.tasks.state kpagd :=
    refresh_state_kpagd hk
  by_cases hbefore : ∃ e ∈ a.queue .ready ++ pre, a.IsZombie value e
  · have hex : ∃ e ∈ a.visited, a.IsZombie value e := by
      obtain ⟨e, he, hz⟩ := hbefore
      exact ⟨e, by rw [hv]; exact List.mem_append_left _ he, hz⟩
    rw [if_pos hbefore] at hlast
    rw [if_pos hex] at hfinal
    exact iff_of_true (placed_of_goal hlast hfinal) fun _ _ => hbefore
  rw [if_neg hbefore] at hlast
  by_cases hex : ∃ e ∈ a.visited, a.IsZombie value e
  · rw [if_pos hex] at hfinal
    cases hst : a.tasks.state kpagd with
    | ready =>
        rw [hst] at hlast
        exact iff_of_true (placed_of_goal hlast hfinal) fun _ hne => absurd rfl hne
    | zombie =>
        rw [hst] at hlast
        have hzombie : p ∈ (a.refresh kpagd priority value).queue .zombie := hlast
        rw [placed_iff_of_mem hd' hzombie (by simp), hfinal]
        exact iff_of_false (by simp) fun himp => hbefore (himp hex (by simp))
    | _ =>
        rw [hst] at hlast
        have hwait : p ∈ (a.refresh kpagd priority value).queue .wait := hlast
        rw [placed_iff_of_mem hd' hwait (by simp), hfinal]
        exact iff_of_false (by simp) fun himp => hbefore (himp hex (by simp))
  · rw [if_neg hex] at hfinal
    exact iff_of_true (placed_of_goal hlast hfinal) fun h => absurd h hex

/-- After a refresh every entry is placed exactly when the queues settle. -/
theorem placed_refresh_iff :
    (∀ p ∈ a.entries, (a.refresh kpagd priority value).Placed value p) ↔
      Settles kpagd value a := by
  have hmem : ∀ p, p ∈ a.entries ↔ p ∈ a.queue .ready ∨ p ∈ a.queue .wait ∨
      p ∈ a.queue .zombie := by
    intro p
    simp [Lists.entries]
  constructor
  · intro hall
    refine ⟨?_, ?_, ?_, ?_⟩
    · intro p hp
      exact ((placed_zombie_iff h hp).mp (hall p ((hmem p).mpr (Or.inr (Or.inr hp))))).1
    · intro hex p hp
      exact ((placed_zombie_iff h hp).mp (hall p ((hmem p).mpr (Or.inr (Or.inr hp))))).2 hex
    · intro p hp hk
      exact (placed_ready_iff h hp hk).mp (hall p ((hmem p).mpr (Or.inl hp)))
    · intro p hp hk
      exact (placed_wait_iff h hp hk).mp (hall p ((hmem p).mpr (Or.inr (Or.inl hp))))
  · intro hs p hp
    rcases (hmem p).mp hp with hr | hw | hz
    · by_cases hk : value p = kpagd
      · exact (placed_ready_iff h hr hk).mpr (hs.inReady p hr hk)
      · exact placed_other h (List.mem_append_left _ hr) hk
    · by_cases hk : value p = kpagd
      · exact (placed_wait_iff h hw hk).mpr (hs.inWait p hw hk)
      · exact placed_other h (List.mem_append_right _ hw) hk
    · exact (placed_zombie_iff h hz).mpr ⟨hs.dead p hz, fun hex => hs.alive hex p hz⟩

end

/-- `do_refresh_queues` ends and clears its flag on every content of the queues;
afterwards each task is in the one queue that its state demands if and only if
the queues settle. -/
theorem refresh_agrees_iff [Fintype P] (kpagd : T) (priority : T → Int) (value : P → T)
    (s : RunQueues P T) (a : Lists P T) (hr : Represents value s a)
    (honce : (a.entries.map value).Nodup) :
    ∃ s' b, doRefreshQueues kpagd priority s = some s' ∧ Represents value s' b ∧
      s'.tasks.refreshQueues = false ∧ (Agrees value a b ↔ Settles kpagd value a) := by
  obtain ⟨s', hsome, hr', hflag⟩ := doRefreshQueues_spec kpagd priority hr
  refine ⟨s', a.refresh kpagd priority value, hsome, hr', hflag, ?_⟩
  have hperm : (a.refresh kpagd priority value).entries.Perm a.entries :=
    refresh_entries_perm hr.nodup
  have hiff : (∀ p ∈ a.entries, (a.refresh kpagd priority value).Placed value p) ↔
      Settles kpagd value a := placed_refresh_iff hr.nodup
  rw [← hiff]
  constructor
  · intro hagrees p hp
    exact hagrees.placed p (hperm.mem_iff.mpr hp)
  · intro hall
    refine ⟨hperm, (hperm.map value).nodup_iff.mpr honce, fun p hp => ?_⟩
    exact hall p (hperm.mem_iff.mp hp)

/-! ## The killing daemon and one zombie in the wait queue -/

/-- Two entries in a circle; entry `0` is the daemon's. -/
def twoEntries : Memory (Fin 2) (Fin 2) := fun p => ⟨p, 1 - p, 1 - p⟩

/-- Task `0` waits, task `1` is a zombie. -/
def oneZombie : Tasks (Fin 2) := ⟨fun t => if t = 0 then .wait else .zombie, true⟩

/-- The wait queue of the two tasks, from the entry `first` on. -/
def waitFrom (first : Fin 2) : RunQueues (Fin 2) (Fin 2) :=
  ⟨twoEntries, none, some first, none, oneZombie, fun _ => 0⟩

def listsFrom (first : Fin 2) : Lists (Fin 2) (Fin 2) :=
  ⟨fun st => if st = .wait then [first, 1 - first] else [], oneZombie, fun _ => 0⟩

theorem represents_waitFrom (first : Fin 2) :
    Represents id (waitFrom first) (listsFrom first) where
  ready := isQueue_nil
  wait := by
    refine ⟨rfl, ?_, ?_⟩
    · fin_cases first <;> decide
    · fin_cases first <;>
        exact .cons_cons ⟨rfl, rfl⟩ (.cons_cons ⟨rfl, rfl⟩ (.singleton _))
  zombie := isQueue_nil
  nodup := by fin_cases first <;> decide
  value _ := rfl
  tasks := rfl
  counter := rfl

/-- With the zombie first, the daemon is found ready and all agree. -/
theorem refresh_agrees_zombie_first :
    ∃ s' b, doRefreshQueues 0 (fun _ => 0) (waitFrom 1) = some s' ∧ Represents id s' b ∧
      Agrees id (listsFrom 1) b := by
  obtain ⟨s', b, hsome, hr, -, hiff⟩ := refresh_agrees_iff 0 (fun _ => 0) id (waitFrom 1)
    (listsFrom 1) (represents_waitFrom 1) (by decide)
  refine ⟨s', b, hsome, hr, hiff.mpr ⟨?_, ?_, ?_, ?_⟩⟩
  · decide
  · intro _ p hp
    exact absurd hp (by decide +revert)
  · intro p hp
    exact absurd hp (by decide +revert)
  · intro p hp hk _ _
    exact ⟨1, by decide +revert, rfl⟩

/-- With the daemon first, it is made ready after its visit and stays in the wait
queue, while the request for another refresh is dropped. -/
theorem refresh_disagrees_daemon_first :
    ∃ s' b, doRefreshQueues 0 (fun _ => 0) (waitFrom 0) = some s' ∧ Represents id s' b ∧
      s'.tasks.refreshQueues = false ∧ ¬Agrees id (listsFrom 0) b := by
  obtain ⟨s', hsome, hr, hflag⟩ := doRefreshQueues_spec 0 (fun _ => 0) (represents_waitFrom 0)
  refine ⟨s', _, hsome, hr, hflag, fun hagrees => ?_⟩
  exact absurd (hagrees.placed 0 (by decide) .ready (by decide) (by decide)) (by decide)

end OsdevArchive.Minirighi.RefreshQueues
