import Mathlib.Data.List.Perm.Basic
import OsdevArchive.Lib.RingBuffer

/-!
The scheduler of OSSO (`kernel/coda_pronti.c`, `kernel/scheduler.c`): the running thread
and the ring of the ready ones. A thread is ready because it was created or woken, or
because another one was scheduled in its place. A panic ends the run.
-/

namespace OsdevArchive.Osso

open OsdevArchive.Lib.RingBuffer

abbrev Dword := BitVec 32

/-- The length of `CodaPronti`. -/
def maxReferences : Nat := 50

instance : NeZero maxReferences := ⟨by decide⟩

/-- A `Thread_idx`; `none` is `THREAD_INVALID`. -/
abbrev ThreadIdx (T : Type) := Option T

/-- `CodaPronti`, `Thread_In_Esecuzione` and `Threads[..].active`. -/
structure Sched (T : Type) where
  codaPronti : RingQueue maxReferences (ThreadIdx T)
  threadInEsecuzione : ThreadIdx T
  active : T → Bool

namespace Sched

variable {T : Type}

/-- `Add_Thread_To_CodaPronti`, which panics for `THREAD_INVALID`, when the queue is full
and for a thread that is not active. -/
def addThreadToCodaPronti (sc : Sched T) : ThreadIdx T → Option (Sched T)
  | none => none
  | some t =>
      if sc.codaPronti.head = advance sc.codaPronti.tail then none
      else if sc.active t then some { sc with codaPronti := sc.codaPronti.put (some t) }
      else none

/-- `Get_Thread_From_CodaPronti`. -/
def getThreadFromCodaPronti (sc : Sched T) : ThreadIdx T × Sched T :=
  if sc.codaPronti.tail = sc.codaPronti.head then (none, sc)
  else (sc.codaPronti.cells sc.codaPronti.head, { sc with codaPronti := sc.codaPronti.take })

variable {sc sc' : Sched T} {ready ts : List T} {t : T} {tid : ThreadIdx T}

theorem addThreadToCodaPronti_eq_some (h : sc.addThreadToCodaPronti tid = some sc') :
    ∃ t, tid = some t ∧ sc.active t ∧ sc.codaPronti.head ≠ advance sc.codaPronti.tail ∧
      sc' = { sc with codaPronti := sc.codaPronti.put (some t) } := by
  cases tid with
  | none => cases h
  | some t =>
    simp only [addThreadToCodaPronti] at h
    split at h
    · cases h
    · split at h
      · exact ⟨t, rfl, ‹_›, ‹_›, (Option.some.inj h).symm⟩
      · cases h

/-- The queue holds the ready threads, the next one first. -/
def Ready (sc : Sched T) (ready : List T) : Prop := sc.codaPronti.Contains (ready.map some)

theorem Ready.add (h : sc.Ready ready) (hroom : sc.codaPronti.head ≠ advance sc.codaPronti.tail) :
    Ready { sc with codaPronti := sc.codaPronti.put (some t) } (ready ++ [t]) := by
  have hput := h.put hroom (a := some t)
  rwa [← List.map_singleton, ← List.map_append] at hput

theorem Ready.get_nil (h : sc.Ready []) : sc.getThreadFromCodaPronti = (none, sc) := by
  have hempty := h.eq_nil_iff.mpr rfl
  rw [getThreadFromCodaPronti, if_pos hempty.symm]

theorem Ready.get_cons (h : sc.Ready (t :: ready)) :
    sc.getThreadFromCodaPronti = (some t, { sc with codaPronti := sc.codaPronti.take }) ∧
      Ready { sc with codaPronti := sc.codaPronti.take } ready := by
  have hne : sc.codaPronti.tail ≠ sc.codaPronti.head := fun heq =>
    absurd (h.eq_nil_iff.mp heq.symm) (by simp)
  rw [getThreadFromCodaPronti, if_neg hne, RingQueue.Contains.head_eq h]
  exact ⟨rfl, RingQueue.Contains.take h⟩

/-- The threads that run or are ready. -/
def runnable (sc : Sched T) (ready : List T) : List T := sc.threadInEsecuzione.toList ++ ready

variable [DecidableEq T]

/-- `Remove_Thread_From_CodaPronti`, and whether the thread was there; the cell that
becomes free gets thread 0. -/
def removeThreadFromCodaPronti (sc : Sched T) (zero : T) : ThreadIdx T → Option (Bool × Sched T)
  | none => none
  | some t =>
    match sc.codaPronti.remove (some t) (some zero) with
    | some codaPronti => some (true, { sc with codaPronti := codaPronti })
    | none => some (false, sc)

theorem Ready.removeThread (h : sc.Ready ready) (zero t : T) :
    ∃ codaPronti, sc.removeThreadFromCodaPronti zero (some t) =
        some (decide (t ∈ ready), { sc with codaPronti := codaPronti }) ∧
      Ready { sc with codaPronti := codaPronti } (ready.erase t) := by
  rcases RingQueue.Contains.remove (a := some t) h (some zero) with
    ⟨hnot, hremove⟩ | ⟨codaPronti, hmem, hremove, hcontains⟩
  · have hready : t ∉ ready := fun ht => hnot (List.mem_map_of_mem ht)
    refine ⟨sc.codaPronti, ?_, ?_⟩
    · simp only [removeThreadFromCodaPronti, hremove, hready, decide_false]
    · rwa [List.erase_of_not_mem hready]
  · have hready : t ∈ ready := by simpa using hmem
    refine ⟨codaPronti, ?_, ?_⟩
    · simp only [removeThreadFromCodaPronti, hremove, hready, decide_true]
    · rw [Ready, @List.map_erase _ _ _ _ instBEqOfDecidableEq _ some fun _ _ => Option.some.inj]
      exact hcontains

/-- `Schedule_Next_Thread`: with nothing ready the running thread goes on. -/
def scheduleNextThread (sc : Sched T) : Option (Sched T) :=
  let (tid, sc) := sc.getThreadFromCodaPronti
  if tid = sc.threadInEsecuzione then some sc
  else if tid = none then some sc
  else if sc.threadInEsecuzione = none then some { sc with threadInEsecuzione := tid }
  else do
    let sc ← sc.addThreadToCodaPronti sc.threadInEsecuzione
    some { sc with threadInEsecuzione := tid }

/-- Scheduling starts the first of the ready threads and moves the running one behind
the others. -/
theorem Ready.schedule (h : sc.Ready ready) (hnodup : (sc.runnable ready).Nodup)
    (hs : sc.scheduleNextThread = some sc') :
    sc'.active = sc.active ∧ (ready ≠ [] → sc'.threadInEsecuzione ≠ none) ∧
      ∃ ready', sc'.Ready ready' ∧ (sc'.runnable ready').Perm (sc.runnable ready) := by
  cases ready with
  | nil =>
    rw [scheduleNextThread, h.get_nil] at hs
    simp only [ite_self, if_true] at hs
    obtain rfl := Option.some.inj hs
    exact ⟨rfl, fun hne => absurd rfl hne, [], h, .refl _⟩
  | cons t ready =>
    obtain ⟨hget, hrest⟩ := h.get_cons
    rw [scheduleNextThread, hget] at hs
    -- a ready thread does not run, so it is not dropped
    have hne : some t ≠ sc.threadInEsecuzione := by
      intro heq
      simp [runnable, ← heq] at hnodup
    simp only [if_neg hne, reduceCtorEq, if_false] at hs
    split at hs
    · rename_i hidle
      obtain rfl := Option.some.inj hs
      exact ⟨rfl, by simp, ready, hrest, by simp [runnable, hidle]⟩
    · simp only [Option.bind_eq_bind, Option.bind_eq_some_iff, Option.some.injEq] at hs
      obtain ⟨mid, hadd, rfl⟩ := hs
      obtain ⟨r, hr, -, hroom, rfl⟩ := addThreadToCodaPronti_eq_some hadd
      refine ⟨rfl, by simp, ready ++ [r], hrest.add hroom, ?_⟩
      simp only [runnable, hr, Option.toList_some, List.singleton_append]
      exact (List.Perm.cons t List.perm_append_comm).trans (List.Perm.swap ..)

end Sched

end OsdevArchive.Osso
