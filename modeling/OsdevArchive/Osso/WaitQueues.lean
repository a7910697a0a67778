import OsdevArchive.Lib.LinkedList
import OsdevArchive.Osso.Scheduler

/-!
The queues of the threads that sleep on OSSO's semaphores (`kernel/semaphore.c`). The
kernel is built with one of two: without `DYNAMIC_SEMAPHORE` each semaphore has a ring
of its own, with it the threads are linked through the thread table. `Queues` is what
`P` and `V` use of either, with what these operations do to the lists of the sleepers.
-/

namespace OsdevArchive.Osso

open OsdevArchive.Lib.LinkedList OsdevArchive.Lib.RingBuffer

def semMaxProcesses : Nat := 30

instance : NeZero semMaxProcesses := ⟨by decide⟩

variable {Sem T : Type}

/-- Nobody sleeps at two places. -/
structure Apart (waiting : Sem → List T) : Prop where
  nodup : ∀ sem, (waiting sem).Nodup
  unique : ∀ sem sem' t, t ∈ waiting sem → t ∈ waiting sem' → sem = sem'

section
variable {waiting : Sem → List T} {sem : Sem} {t : T} {rest : List T}

theorem Apart.nil : Apart fun _ : Sem => ([] : List T) where
  nodup _ := List.nodup_nil
  unique sem sem' t h := by simp at h

variable [DecidableEq Sem]

theorem mem_update_append {sem' : Sem} {t' : T} :
    t' ∈ Function.update waiting sem (waiting sem ++ [t]) sem' ↔
      t' ∈ waiting sem' ∨ (sem' = sem ∧ t' = t) := by
  by_cases hsem : sem' = sem
  · subst hsem
    simp
  · simp [hsem]

theorem Apart.enqueue (h : Apart waiting) (ht : ∀ sem, t ∉ waiting sem) :
    Apart (Function.update waiting sem (waiting sem ++ [t])) where
  nodup sem' := by
    by_cases hsem : sem' = sem
    · subst hsem
      rw [Function.update_self]
      exact (h.nodup sem').append (List.nodup_singleton t) (by simpa using ht sem')
    · rw [Function.update_of_ne hsem]
      exact h.nodup sem'
  unique sem₁ sem₂ t' h₁ h₂ := by
    rw [mem_update_append] at h₁ h₂
    rcases h₁ with h₁ | ⟨rfl, rfl⟩
    · rcases h₂ with h₂ | ⟨rfl, rfl⟩
      · exact h.unique sem₁ sem₂ t' h₁ h₂
      · exact absurd h₁ (ht sem₁)
    · rcases h₂ with h₂ | ⟨rfl, -⟩
      · exact absurd h₂ (ht sem₂)
      · rfl

theorem mem_of_mem_update_tail (hw : waiting sem = t :: rest) {sem' : Sem} {t' : T}
    (ht : t' ∈ Function.update waiting sem rest sem') : t' ∈ waiting sem' := by
  by_cases hsem : sem' = sem
  · subst hsem
    rw [Function.update_self] at ht
    exact hw ▸ List.mem_cons_of_mem t ht
  · rwa [Function.update_of_ne hsem] at ht

theorem Apart.dequeue (h : Apart waiting) (hw : waiting sem = t :: rest) :
    Apart (Function.update waiting sem rest) where
  nodup sem' := by
    by_cases hsem : sem' = sem
    · subst hsem
      rw [Function.update_self]
      exact (List.nodup_cons.mp (hw ▸ h.nodup sem')).2
    · rw [Function.update_of_ne hsem]
      exact h.nodup sem'
  unique sem₁ sem₂ t' h₁ h₂ :=
    h.unique sem₁ sem₂ t' (mem_of_mem_update_tail hw h₁) (mem_of_mem_update_tail hw h₂)

/-- The thread that is woken sleeps nowhere any more. -/
theorem Apart.not_mem_dequeue (h : Apart waiting) (hw : waiting sem = t :: rest) (sem' : Sem) :
    t ∉ Function.update waiting sem rest sem' := by
  intro ht
  have hmem : t ∈ waiting sem := hw ▸ List.mem_cons_self
  obtain rfl := h.unique sem' sem t (mem_of_mem_update_tail hw ht) hmem
  rw [Function.update_self] at ht
  exact (List.nodup_cons.mp (hw ▸ h.nodup sem')).1 ht

end

/-- The queues of the semaphores. `Waiting` says which threads sleep on which semaphore,
the first that came first. -/
structure Queues (Sem T : Type) [DecidableEq Sem] where
  Store : Type
  init : Store
  isEmpty : Store → Sem → Bool
  enqueue : Store → Sem → ThreadIdx T → Option Store
  dequeue : Store → Sem → ThreadIdx T × Store
  Waiting : Store → (Sem → List T) → Prop
  waiting_init : Waiting init fun _ => []
  isEmpty_iff : ∀ {q waiting}, Waiting q waiting → ∀ sem, isEmpty q sem ↔ waiting sem = []
  waiting_enqueue : ∀ {q waiting}, Waiting q waiting → Apart waiting →
    ∀ {sem t q'}, (∀ sem, t ∉ waiting sem) → enqueue q sem (some t) = some q' →
    Waiting q' (Function.update waiting sem (waiting sem ++ [t]))
  waiting_dequeue : ∀ {q waiting}, Waiting q waiting → Apart waiting →
    ∀ {sem t rest}, waiting sem = t :: rest → (dequeue q sem).1 = some t ∧
    Waiting (dequeue q sem).2 (Function.update waiting sem rest)

variable [DecidableEq Sem]

/-! ### A ring for each semaphore -/

/-- `Processi`, `head` and `tail` of the semaphores. -/
abbrev Rings (Sem T : Type) := Sem → RingQueue semMaxProcesses (ThreadIdx T)

namespace Rings

/-- A full ring is a panic. -/
def enqueue (q : Rings Sem T) (sem : Sem) (tid : ThreadIdx T) : Option (Rings Sem T) :=
  if (q sem).head = advance (q sem).tail then none
  else some (Function.update q sem ((q sem).put tid))

def dequeue (q : Rings Sem T) (sem : Sem) : ThreadIdx T × Rings Sem T :=
  ((q sem).cells (q sem).head, Function.update q sem (q sem).take)

def Waiting (q : Rings Sem T) (waiting : Sem → List T) : Prop :=
  ∀ sem, (q sem).Contains ((waiting sem).map some)

variable {q q' : Rings Sem T} {waiting : Sem → List T} {sem : Sem} {t : T} {rest : List T}

omit [DecidableEq Sem] in
theorem Waiting.isEmpty_iff (h : Waiting q waiting) (sem : Sem) :
    (q sem).head = (q sem).tail ↔ waiting sem = [] := by
  rw [(h sem).eq_nil_iff, List.map_eq_nil_iff]

/-- What becomes of one ring decides for all of them. -/
theorem Waiting.update (h : Waiting q waiting) {r : RingQueue semMaxProcesses (ThreadIdx T)}
    {ts : List T} (hr : r.Contains (ts.map some)) :
    Waiting (Function.update q sem r) (Function.update waiting sem ts) := by
  intro sem'
  by_cases hsem : sem' = sem
  · subst hsem
    rwa [Function.update_self, Function.update_self]
  · rw [Function.update_of_ne hsem, Function.update_of_ne hsem]
    exact h sem'

theorem Waiting.enqueue (h : Waiting q waiting) (hq : q.enqueue sem (some t) = some q') :
    Waiting q' (Function.update waiting sem (waiting sem ++ [t])) := by
  rw [Rings.enqueue] at hq
  split at hq
  · cases hq
  · rename_i hroom
    obtain rfl := Option.some.inj hq
    apply h.update
    rw [List.map_append]
    exact (h sem).put hroom

theorem Waiting.dequeue (h : Waiting q waiting) (hw : waiting sem = t :: rest) :
    (q.dequeue sem).1 = some t ∧
      Waiting (q.dequeue sem).2 (Function.update waiting sem rest) := by
  have hring := h sem
  rw [hw, List.map_cons] at hring
  exact ⟨hring.head_eq, h.update hring.take⟩

end Rings

/-- The semaphores' queues without `DYNAMIC_SEMAPHORE`; `old` is what their memory held
before `Init_Semaphore`. -/
def ringQueues (old : Sem → Fin semMaxProcesses → ThreadIdx T) : Queues Sem T where
  Store := Rings Sem T
  init := fun sem => { cells := old sem, head := 0, tail := 0 }
  isEmpty := fun q sem => decide ((q sem).head = (q sem).tail)
  enqueue := Rings.enqueue
  dequeue := Rings.dequeue
  Waiting := Rings.Waiting
  waiting_init := fun _ => .nil rfl
  isEmpty_iff := fun h sem => by simpa using h.isEmpty_iff sem
  waiting_enqueue := fun h _ _ _ _ _ hq => h.enqueue hq
  waiting_dequeue := fun h _ _ _ _ hw => h.dequeue hw

/-! ### Links through the thread table -/

/-- `Head_Thread` and `Tail_Thread` of the semaphores, and the links
`next_thread_suspended_on_my_semaphore` of the threads. -/
structure Links (Sem T : Type) where
  headThread : Sem → ThreadIdx T
  tailThread : Sem → ThreadIdx T
  next : ThreadIdx T → ThreadIdx T

namespace Links

variable [DecidableEq T]

def enqueue (q : Links Sem T) (sem : Sem) (tid : ThreadIdx T) : Links Sem T :=
  if q.headThread sem = none then
    { headThread := Function.update q.headThread sem tid
      tailThread := Function.update q.tailThread sem tid
      next := Function.update q.next tid none }
  else
    { q with
      tailThread := Function.update q.tailThread sem tid
      next := Function.update (Function.update q.next (q.tailThread sem) tid) tid none }

def dequeue (q : Links Sem T) (sem : Sem) : ThreadIdx T × Links Sem T :=
  let first := q.headThread sem
  let t := q.next first
  (first,
    { headThread := Function.update q.headThread sem t
      tailThread := if t = none then Function.update q.tailThread sem none else q.tailThread
      next := Function.update q.next first none })

omit [DecidableEq Sem] [DecidableEq T] in
/-- The links lead from the head of each semaphore through its sleepers. -/
structure Waiting (q : Links Sem T) (waiting : Sem → List T) : Prop where
  linked : ∀ sem, Linked q.next (q.headThread sem) (waiting sem)
  last : ∀ sem, q.tailThread sem = (waiting sem).getLast?

variable {q : Links Sem T} {waiting : Sem → List T} {sem : Sem} {t : T} {rest : List T}

omit [DecidableEq Sem] [DecidableEq T] in
theorem Waiting.isEmpty_iff (h : Waiting q waiting) (sem : Sem) :
    q.headThread sem = none ↔ waiting sem = [] := by
  have hlinked := h.linked sem
  cases hw : waiting sem with
  | nil =>
    rw [hw] at hlinked
    exact iff_of_true hlinked rfl
  | cons t rest =>
    rw [hw, linked_cons] at hlinked
    simp [hlinked.1]

omit [DecidableEq T] in
/-- What becomes of one list decides, if the others keep their links. -/
theorem Waiting.update (h : Waiting q waiting) {headThread tailThread : ThreadIdx T}
    {next : ThreadIdx T → ThreadIdx T} {ts : List T} (hts : Linked next headThread ts)
    (hlast : tailThread = ts.getLast?)
    (hsame : ∀ sem' ≠ sem, ∀ t ∈ waiting sem', next (some t) = q.next (some t)) :
    Waiting ⟨Function.update q.headThread sem headThread,
      Function.update q.tailThread sem tailThread, next⟩ (Function.update waiting sem ts) where
  linked sem' := by
    by_cases hsem : sem' = sem
    · subst hsem
      simpa only [Function.update_self] using hts
    · simp only [Function.update_of_ne hsem]
      exact (h.linked sem').congr (hsame sem' hsem)
  last sem' := by
    by_cases hsem : sem' = sem
    · subst hsem
      simpa only [Function.update_self] using hlast
    · simp only [Function.update_of_ne hsem]
      exact h.last sem'

theorem Waiting.enqueue_first (h : Waiting q waiting) (hw : waiting sem = [])
    (ht : ∀ sem, t ∉ waiting sem) :
    Waiting (q.enqueue sem (some t)) (Function.update waiting sem (waiting sem ++ [t])) := by
  rw [Links.enqueue, if_pos ((h.isEmpty_iff sem).mpr hw), hw]
  refine h.update ⟨rfl, Function.update_self ..⟩ rfl ?_
  intro sem' _ t' ht'
  have hne : some t' ≠ some t := fun heq => ht sem' (Option.some.inj heq ▸ ht')
  exact Function.update_of_ne hne ..

theorem Waiting.enqueue_behind (h : Waiting q waiting) (hapart : Apart waiting)
    (hw : waiting sem ≠ []) (ht : ∀ sem, t ∉ waiting sem) :
    Waiting (q.enqueue sem (some t)) (Function.update waiting sem (waiting sem ++ [t])) := by
  obtain ⟨last, hlast⟩ : ∃ last, (waiting sem).getLast? = some last :=
    ⟨_, List.getLast?_eq_some_getLast hw⟩
  have htail : q.tailThread sem = some last := (h.last sem).trans hlast
  have hmem : last ∈ waiting sem := List.mem_of_getLast? hlast
  have hfresh : ∀ {sem' t'}, t' ∈ waiting sem' → some t' ≠ some t := fun hmem heq =>
    ht _ (Option.some.inj heq ▸ hmem)
  rw [Links.enqueue, if_neg (mt (h.isEmpty_iff sem).mp hw), htail]
  have hnext : ∀ {sem' t'}, t' ∈ waiting sem' → t' ≠ last →
      Function.update (Function.update q.next (some last) (some t)) (some t) none (some t') =
        q.next (some t') := by
    intro sem' t' ht' hne
    rw [Function.update_of_ne (hfresh ht'), Function.update_of_ne (by simpa using hne)]
  have hlast' : Linked (Function.update (Function.update q.next (some last) (some t)) (some t) none)
      (some t) [t] := ⟨rfl, Function.update_self ..⟩
  have hlinked := (h.linked sem).append hlast (fun t' => hnext) (by
    rw [Function.update_of_ne (hfresh hmem), Function.update_self]
    exact hlast')
  have hall := h.update hlinked (by simp : some t = (waiting sem ++ [t]).getLast?) (by
    intro sem' hsem t' ht'
    exact hnext ht' fun heq => hsem (hapart.unique sem' sem t' ht' (heq ▸ hmem)))
  rwa [Function.update_eq_self] at hall

theorem Waiting.dequeue (h : Waiting q waiting) (hapart : Apart waiting)
    (hw : waiting sem = t :: rest) :
    (q.dequeue sem).1 = some t ∧
      Waiting (q.dequeue sem).2 (Function.update waiting sem rest) := by
  obtain ⟨hhead, hrest⟩ : q.headThread sem = some t ∧ Linked q.next (q.next (some t)) rest := by
    simpa [hw, linked_cons] using h.linked sem
  have hlast : q.tailThread sem = (t :: rest).getLast? := hw ▸ h.last sem
  refine ⟨hhead, ?_⟩
  simp only [Links.dequeue, hhead]
  have htail : (if q.next (some t) = none then Function.update q.tailThread sem none
      else q.tailThread) = Function.update q.tailThread sem rest.getLast? := by
    cases rest with
    | nil => exact if_pos hrest
    | cons t' rest =>
      rw [if_neg (by simp [hrest.1]), ← List.getLast?_cons_cons (a := t), ← hlast,
        Function.update_eq_self]
  rw [htail]
  refine h.update (hrest.update (List.nodup_cons.mp (hw ▸ hapart.nodup sem)).1 none) rfl ?_
  intro sem' hsem t' ht'
  have hne : some t' ≠ some t := by
    intro heq
    obtain rfl := Option.some.inj heq
    exact hsem (hapart.unique sem' sem t' ht' (hw ▸ List.mem_cons_self))
  exact Function.update_of_ne hne ..

end Links

/-- The semaphores' queues with `DYNAMIC_SEMAPHORE`; `old` are the links before. -/
def linkedQueues [DecidableEq T] (old : ThreadIdx T → ThreadIdx T) : Queues Sem T where
  Store := Links Sem T
  init := { headThread := fun _ => none, tailThread := fun _ => none, next := old }
  isEmpty := fun q sem => decide (q.headThread sem = none)
  enqueue := fun q sem tid => some (q.enqueue sem tid)
  dequeue := Links.dequeue
  Waiting := Links.Waiting
  waiting_init := ⟨fun _ => linked_nil, fun _ => rfl⟩
  isEmpty_iff := fun h sem => by simpa using h.isEmpty_iff sem
  waiting_enqueue := by
    intro q waiting h hapart sem t q' ht hq
    obtain rfl := Option.some.inj hq
    by_cases hw : waiting sem = []
    · exact h.enqueue_first hw ht
    · exact h.enqueue_behind hapart hw ht
  waiting_dequeue := fun h hapart _ _ _ hw => h.dequeue hapart hw

/-- How the kernel is built, and what the memory of the queues held before. -/
inductive Build (Sem T : Type) where
  | ring (old : Sem → Fin semMaxProcesses → ThreadIdx T)
  | dynamicSemaphore (old : ThreadIdx T → ThreadIdx T)

def Build.queues [DecidableEq T] : Build Sem T → Queues Sem T
  | .ring old => ringQueues old
  | .dynamicSemaphore old => linkedQueues old

end OsdevArchive.Osso
