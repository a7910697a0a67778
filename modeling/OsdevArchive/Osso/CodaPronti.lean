import OsdevArchive.Lib.Runs
import OsdevArchive.Osso.Scheduler

/-!
The functions of `kernel/coda_pronti.c` in any order, with the status that they give a
thread and the interrupt flag that they save. Other code of the kernel runs between two
of them; it changes what it likes but the queue. The queue is compared with a list, whose
first thread is the next one to run.
-/

namespace OsdevArchive.Osso

open Lib.Runs Lib.RingBuffer

/-- The values of `process_status.h`. -/
inductive ProcessStatus
  | dead
  | zombie
  | run
  | ready
  | stopped
  | stopSem

namespace CodaPronti

structure State (T : Type) where
  sched : Sched T
  status : T → ProcessStatus
  /-- The flag that `cli` clears and `popfl` restores. -/
  interrupts : Bool

inductive Call (T : Type)
  | add (tid : ThreadIdx T)
  | get
  | remove (tid : ThreadIdx T)

/-- What a call returns: `E_SUCCESS`, `E_PID_NOT_FOUND` or a thread. -/
inductive Outcome (T : Type)
  | success
  | pidNotFound
  | thread (tid : ThreadIdx T)

variable {T : Type} [DecidableEq T]

namespace State

/-- `Add_Thread_To_CodaPronti` with the new status; a panic has no next state. -/
def add (s : State T) : ThreadIdx T → Option (Outcome T × State T)
  | none => none
  | some t => do
    let sched ← s.sched.addThreadToCodaPronti (some t)
    some (.success, { s with sched := sched, status := Function.update s.status t .ready })

/-- `Get_Thread_From_CodaPronti` with the new status. With nothing ready it returns before
the flags are restored. -/
def get (s : State T) : Outcome T × State T :=
  match s.sched.getThreadFromCodaPronti with
  | (none, sched) => (.thread none, { s with sched := sched, interrupts := false })
  | (some t, sched) =>
    (.thread (some t), { s with sched := sched, status := Function.update s.status t .stopped })

/-- `Remove_Thread_From_CodaPronti` with the new status. -/
def remove (s : State T) (zero : T) : ThreadIdx T → Option (Outcome T × State T)
  | none => none
  | some t => do
    let (found, sched) ← s.sched.removeThreadFromCodaPronti zero (some t)
    if found then
      some (.success, { s with sched := sched, status := Function.update s.status t .stopped })
    else some (.pidNotFound, s)

def perform (zero : T) (s : State T) : Call T → Option (Outcome T × State T)
  | .add tid => s.add tid
  | .get => some s.get
  | .remove tid => s.remove zero tid

end State

/-- A call with its outcome, or what the rest of the kernel does. -/
inductive Action (T : Type)
  | call (c : Call T) (outcome : Outcome T)
  | elsewhere (active : T → Bool)

/-- Code outside of the file keeps the ring as it is. -/
def Step (zero : T) (s : State T) : Action T → State T → Prop
  | .call c outcome, s' => s.perform zero c = some (outcome, s')
  | .elsewhere active, s' =>
      s'.sched.codaPronti = s.sched.codaPronti ∧ s'.sched.active = active

/-! ### The list -/

/-- The ready threads, the next one first, and the threads that may become ready. -/
structure Ideal (T : Type) where
  ready : List T
  active : T → Bool

/-- Adding appends, getting takes the first thread and removing deletes the first
occurrence. -/
def Ideal.perform (i : Ideal T) : Call T → Option (Outcome T × Ideal T)
  | .add none => none
  | .add (some t) =>
      if i.ready.length + 1 < maxReferences ∧ i.active t then
        some (.success, { i with ready := i.ready ++ [t] })
      else none
  | .get =>
      match i.ready with
      | [] => some (.thread none, i)
      | t :: ready => some (.thread (some t), { i with ready := ready })
  | .remove none => none
  | .remove (some t) =>
      if t ∈ i.ready then some (.success, { i with ready := i.ready.erase t })
      else some (.pidNotFound, i)

def Ideal.Step (i : Ideal T) : Action T → Ideal T → Prop
  | .call c outcome, i' => i.perform c = some (outcome, i')
  | .elsewhere active, i' => i' = { i with active := active }

/-- The ring holds the list. -/
structure Holds (s : State T) (i : Ideal T) : Prop where
  ready : s.sched.Ready i.ready
  active : s.sched.active = i.active

/-- Two calls panic together, or have the same outcome and leave a ring that holds the
list. -/
def Agree : Option (Outcome T × State T) → Option (Outcome T × Ideal T) → Prop
  | none, none => True
  | some (outcome, s), some (outcome', i) => outcome = outcome' ∧ Holds s i
  | _, _ => False

variable {zero : T} {s s' : State T} {i i' : Ideal T}

theorem Holds.add (h : Holds s i) (tid : ThreadIdx T) :
    Agree (s.add tid) (i.perform (.add tid)) := by
  cases tid with
  | none => trivial
  | some t =>
    have hfull := h.ready.full_iff
    have hroom := h.ready.room
    rw [List.length_map] at hfull hroom
    by_cases hok : i.ready.length + 1 < maxReferences ∧ i.active t
    · have hne : s.sched.codaPronti.head ≠ advance s.sched.codaPronti.tail := by
        intro heq
        exact absurd (hfull.mp heq) (Nat.ne_of_lt hok.1)
      have hadd : s.sched.addThreadToCodaPronti (some t) =
          some { s.sched with codaPronti := s.sched.codaPronti.put (some t) } := by
        have hactive : s.sched.active t = true := by rw [h.active, hok.2]
        rw [Sched.addThreadToCodaPronti, if_neg hne, if_pos hactive]
      rw [State.add, hadd, Ideal.perform, if_pos hok]
      exact ⟨rfl, h.ready.add hne, h.active⟩
    · have hpanic : s.sched.addThreadToCodaPronti (some t) = none := by
        rw [Sched.addThreadToCodaPronti]
        split
        · rfl
        · rename_i hne
          have hspace : i.ready.length + 1 < maxReferences :=
            Nat.lt_of_le_of_ne hroom (mt hfull.mpr hne)
          rw [if_neg fun hactive => hok ⟨hspace, h.active ▸ hactive⟩]
      rw [State.add, hpanic, Ideal.perform, if_neg hok]
      trivial

theorem Holds.get (h : Holds s i) : Agree (some s.get) (i.perform .get) := by
  obtain ⟨ready, active⟩ := i
  cases ready with
  | nil =>
    rw [State.get, h.ready.get_nil]
    exact ⟨rfl, h.ready, h.active⟩
  | cons t ready =>
    obtain ⟨hget, hrest⟩ := h.ready.get_cons
    rw [State.get, hget]
    exact ⟨rfl, hrest, h.active⟩

theorem Holds.remove (h : Holds s i) (tid : ThreadIdx T) :
    Agree (s.remove zero tid) (i.perform (.remove tid)) := by
  cases tid with
  | none => trivial
  | some t =>
    obtain ⟨codaPronti, hremove, hready⟩ := h.ready.removeThread zero t
    rw [State.remove, hremove]
    by_cases hmem : t ∈ i.ready
    · rw [Ideal.perform, if_pos hmem, decide_eq_true hmem]
      exact ⟨rfl, hready, h.active⟩
    · rw [Ideal.perform, if_neg hmem, decide_eq_false hmem]
      exact ⟨rfl, h⟩

theorem Holds.perform (h : Holds s i) (c : Call T) :
    Agree (s.perform zero c) (i.perform c) := by
  cases c with
  | add tid => exact h.add tid
  | get => exact h.get
  | remove tid => exact h.remove tid

omit [DecidableEq T] in
theorem Agree.of_some {outcome : Outcome T} {r : Option (Outcome T × Ideal T)}
    (h : Agree (some (outcome, s)) r) : ∃ i, r = some (outcome, i) ∧ Holds s i := by
  cases r with
  | none => exact h.elim
  | some p =>
    obtain ⟨rfl, hholds⟩ := h
    exact ⟨p.2, rfl, hholds⟩

theorem Holds.step {a : Action T} (h : Holds s i) (hstep : Step zero s a s') :
    ∃ i', i.Step a i' ∧ Holds s' i' := by
  cases a with
  | call c outcome =>
    have hagree : Agree (s.perform zero c) (i.perform c) := h.perform c
    rw [show s.perform zero c = some (outcome, s') from hstep] at hagree
    exact hagree.of_some
  | elsewhere active =>
    refine ⟨_, rfl, ?_, hstep.2⟩
    rw [Sched.Ready, hstep.1]
    exact h.ready

/-! ### No thread is lost or doubled -/

/-- The action puts the thread into the queue. -/
def Action.adds (t : T) : Action T → Bool
  | .call (.add tid) .success => tid = some t
  | _ => false

/-- The action takes the thread out of the queue. -/
def Action.takes (t : T) : Action T → Bool
  | .call .get (.thread tid) => tid = some t
  | .call (.remove tid) .success => tid = some t
  | _ => false

/-- What a call that does not panic does with the list. -/
theorem Ideal.perform_cases {c : Call T} {outcome : Outcome T}
    (h : i.perform c = some (outcome, i')) :
    (∃ t, c = .add (some t) ∧ outcome = .success ∧ i'.ready = i.ready ++ [t]) ∨
    (∃ t, c = .get ∧ outcome = .thread (some t) ∧ i.ready = t :: i'.ready) ∨
    (∃ t, c = .remove (some t) ∧ outcome = .success ∧ t ∈ i.ready ∧
      i'.ready = i.ready.erase t) ∨
    (∀ t, [Action.call c outcome].countP (·.adds t) = 0 ∧
      [Action.call c outcome].countP (·.takes t) = 0) ∧ i' = i := by
  cases c with
  | add tid =>
    cases tid with
    | none => cases h
    | some t =>
      rw [Ideal.perform] at h
      split at h
      · cases h
        exact .inl ⟨t, rfl, rfl, rfl⟩
      · cases h
  | get =>
    rw [Ideal.perform] at h
    split at h
    · cases h
      exact .inr (.inr (.inr ⟨fun t => ⟨rfl, by simp [Action.takes]⟩, rfl⟩))
    · rename_i t ready hready
      cases h
      exact .inr (.inl ⟨t, rfl, rfl, hready⟩)
  | remove tid =>
    cases tid with
    | none => cases h
    | some t =>
      rw [Ideal.perform] at h
      split at h
      · cases h
        exact .inr (.inr (.inl ⟨t, rfl, rfl, ‹_›, rfl⟩))
      · cases h
        exact .inr (.inr (.inr ⟨fun t => ⟨rfl, rfl⟩, rfl⟩))

theorem Ideal.Step.count {a : Action T} (h : i.Step a i') (t : T) :
    [a].countP (·.adds t) + i.ready.count t = [a].countP (·.takes t) + i'.ready.count t := by
  cases a with
  | elsewhere active =>
    obtain rfl := h
    rfl
  | call c outcome =>
    obtain ⟨x, rfl, rfl, hready⟩ | ⟨x, rfl, rfl, hready⟩ | ⟨x, rfl, rfl, hmem, hready⟩ |
      ⟨hcount, rfl⟩ := Ideal.perform_cases h
    · rw [hready]
      simp [Action.adds, Action.takes, List.countP_singleton, List.count_singleton, Nat.add_comm]
    · rw [hready]
      simp [Action.adds, Action.takes, List.countP_singleton, List.count_cons, Nat.add_comm]
    · rw [hready]
      have hperm := (List.perm_cons_erase hmem).count_eq t
      rw [hperm]
      simp [Action.adds, Action.takes, List.countP_singleton, List.count_cons, Nat.add_comm]
    · rw [(hcount t).1, (hcount t).2]

theorem count_of_run {actions : List (Action T)} (h : Run Ideal.Step i actions i') (t : T) :
    actions.countP (·.adds t) + i.ready.count t =
      actions.countP (·.takes t) + i'.ready.count t := by
  induction h with
  | nil => rfl
  | @cons i mid i' a actions hfirst _ ih =>
    have hstep := hfirst.count t
    rw [← List.singleton_append, List.countP_append, List.countP_append]
    omega

theorem ring_refines_list {actions : List (Action T)}
    (hempty : s.sched.codaPronti.head = s.sched.codaPronti.tail)
    (hrun : Run (Step zero) s actions s') :
    ∃ i, Run Ideal.Step ⟨[], s.sched.active⟩ actions i ∧ Holds s' i ∧
      (∀ c, Agree (s'.perform zero c) (i.perform c)) ∧
      ∀ t, actions.countP (·.adds t) = actions.countP (·.takes t) + i.ready.count t := by
  have hstart : Holds s ⟨[], s.sched.active⟩ := ⟨RingQueue.Contains.nil hempty, rfl⟩
  obtain ⟨i, hideal, hholds⟩ := hrun.simulates (fun _ _ _ _ h hstep => h.step hstep) hstart
  exact ⟨i, hideal, hholds, hholds.perform, count_of_run hideal⟩

/-- An empty queue whose indices stand before the last cell. -/
def nearEnd : State Nat where
  sched := ⟨⟨fun _ => none, Fin.ofNat _ 48, Fin.ofNat _ 48⟩, none, fun _ => true⟩
  status := fun _ => .stopped
  interrupts := true

/-- Three threads stand around the end of the array, and the second one leaves. -/
def aroundTheEnd : List (Action Nat) :=
  [.call (.add (some 7)) .success, .call (.add (some 4)) .success,
    .call (.add (some 9)) .success, .call (.remove (some 4)) .success,
    .call .get (.thread (some 7))]

theorem ring_refines_list_aroundTheEnd : ∃ s' i, Run (Step 0) nearEnd aroundTheEnd s' ∧
    Run Ideal.Step ⟨[], fun _ => true⟩ aroundTheEnd i ∧ s'.sched.Ready i.ready ∧
    i.ready.count 9 = 1 := by
  have hrun : Run (Step 0) nearEnd aroundTheEnd _ :=
    .cons rfl (.cons rfl (.cons rfl (.cons rfl (.cons rfl (.nil _)))))
  obtain ⟨i, hideal, hholds, -, hcount⟩ := ring_refines_list rfl hrun
  have hnine : 1 = 0 + i.ready.count 9 := hcount 9
  exact ⟨_, i, hrun, hideal, hholds.ready, by omega⟩

end CodaPronti

end OsdevArchive.Osso
