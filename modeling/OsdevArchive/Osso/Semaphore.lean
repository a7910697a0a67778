import OsdevArchive.Lib.Runs
import OsdevArchive.Osso.WaitQueues

/-!
The semaphores of OSSO (`kernel/semaphore.c`). A call runs with the interrupts disabled
until it returns or schedules another thread; interrupt handlers call `V` between any
two of them. Every call leaves an event behind, from which the units and the order of
the threads are counted.
-/

namespace OsdevArchive.Osso.Semaphore

open OsdevArchive.Lib.Runs OsdevArchive.Lib.RingBuffer

variable {S B T : Type} [DecidableEq S] [DecidableEq B] [DecidableEq T]

/-- What a call did. -/
inductive Event (S B T : Type) where
  /-- A `P` that took a unit at once. -/
  | granted (sem : S ⊕ B) (tid : ThreadIdx T)
  /-- A `P` that put its thread to sleep. -/
  | blocked (sem : S ⊕ B) (tid : ThreadIdx T)
  /-- A `V` that found nobody asleep. -/
  | raised (sem : S ⊕ B)
  /-- A `V` that granted the `P` of a thread that slept. -/
  | woken (sem : S ⊕ B) (tid : ThreadIdx T)

/-- The semaphores, of type `Semaphore` and `Bool_Semaphore`, and the threads. -/
structure State (W : Queues (S ⊕ B) T) where
  status : S ⊕ B → Dword
  queues : W.Store
  sched : Sched T
  trace : List (Event S B T)

/-- What the non-blocking calls return. -/
inductive Code where
  | success
  | shouldBlock
  deriving DecidableEq

namespace State

variable {W : Queues (S ⊕ B) T}

/-- The body of `P` and `Bool_P`; `down` is what it does to a positive status. -/
def acquire (down : Dword → Dword) (s : State W) (sem : S ⊕ B) : Option (State W) :=
  let tid := s.sched.threadInEsecuzione
  if 0 < s.status sem then
    some { s with
      status := Function.update s.status sem (down (s.status sem))
      trace := s.trace ++ [.granted sem tid] }
  else do
    let queues ← W.enqueue s.queues sem tid
    let sched ← { s.sched with threadInEsecuzione := none }.scheduleNextThread
    some { s with queues := queues, sched := sched, trace := s.trace ++ [.blocked sem tid] }

/-- The body of `Non_Block_P` and `Non_Block_Bool_P`. -/
def tryAcquire (down : Dword → Dword) (s : State W) (sem : S ⊕ B) : Code × State W :=
  if 0 < s.status sem then
    (.success, { s with
      status := Function.update s.status sem (down (s.status sem))
      trace := s.trace ++ [.granted sem s.sched.threadInEsecuzione] })
  else (.shouldBlock, s)

/-- The body of `V` and `Bool_V`; `up` is what it does to the status. -/
def release (up : Dword → Dword) (s : State W) (sem : S ⊕ B) : Option (State W) :=
  if W.isEmpty s.queues sem then
    some { s with
      status := Function.update s.status sem (up (s.status sem))
      trace := s.trace ++ [.raised sem] }
  else do
    let (tid, queues) := W.dequeue s.queues sem
    let sched ← s.sched.addThreadToCodaPronti tid
    some { s with queues := queues, sched := sched, trace := s.trace ++ [.woken sem tid] }

/-- `P`. -/
def P (s : State W) (sem : S) : Option (State W) := s.acquire (· - 1) (.inl sem)

def boolP (s : State W) (sem : B) : Option (State W) := s.acquire (fun _ => 0) (.inr sem)

def nonBlockP (s : State W) (sem : S) : Code × State W := s.tryAcquire (· - 1) (.inl sem)

def nonBlockBoolP (s : State W) (sem : B) : Code × State W :=
  s.tryAcquire (fun _ => 0) (.inr sem)

/-- `V`. -/
def V (s : State W) (sem : S) : Option (State W) := s.release (· + 1) (.inl sem)

def boolV (s : State W) (sem : B) : Option (State W) := s.release (fun _ => 1) (.inr sem)

end State

/-- The calls, of the running thread or of an interrupt handler, the timer interrupt and
the creation of a thread. -/
inductive Act (S B T : Type) where
  | P (sem : S)
  | boolP (sem : B)
  | nonBlockP (sem : S)
  | nonBlockBoolP (sem : B)
  | V (sem : S)
  | boolV (sem : B)
  | schedule
  | create (t : T)

variable {W : Queues (S ⊕ B) T}

/-- What a call does needs a thread that makes it. -/
def State.called (s : State W) (next : Option (State W)) : Option (State W) :=
  if s.sched.threadInEsecuzione = none then none else next

/-- One step; a panic has no next state. -/
def exec (s : State W) : Act S B T → Option (State W)
  | .P sem => s.called (s.P sem)
  | .boolP sem => s.called (s.boolP sem)
  | .nonBlockP sem => s.called (some (s.nonBlockP sem).2)
  | .nonBlockBoolP sem => s.called (some (s.nonBlockBoolP sem).2)
  | .V sem => s.V sem
  | .boolV sem => s.boolV sem
  | .schedule => do
      let sched ← s.sched.scheduleNextThread
      some { s with sched := sched }
  | .create t =>
      -- a slot of the thread table is taken only while it is free
      if s.sched.active t then none
      else do
        let sched ← { s.sched with active := Function.update s.sched.active t true }
          |>.addThreadToCodaPronti (some t)
        some { s with sched := sched }

/-- After `Init_Semaphore` and `Init_Bool_Semaphore` of all semaphores, with the kernel
thread running. -/
def boot (W : Queues (S ⊕ B) T) (value : S ⊕ B → Dword) (kernelThread : T) : State W where
  status := value
  queues := W.init
  sched :=
    { codaPronti := { cells := fun _ => none, head := 0, tail := 0 }
      threadInEsecuzione := some kernelThread
      active := fun t => decide (t = kernelThread) }
  trace := []

/-! ### What the events tell -/

namespace Event

def isGrant (sem : S ⊕ B) : Event S B T → Bool
  | granted sem' _ | woken sem' _ => decide (sem' = sem)
  | blocked _ _ | raised _ => false

def isV (sem : S ⊕ B) : Event S B T → Bool
  | raised sem' | woken sem' _ => decide (sem' = sem)
  | granted _ _ | blocked _ _ => false

def sleeper (sem : S ⊕ B) : Event S B T → Option (ThreadIdx T)
  | blocked sem' tid => if sem' = sem then some tid else none
  | granted _ _ | raised _ | woken _ _ => none

def wakened (sem : S ⊕ B) : Event S B T → Option (ThreadIdx T)
  | woken sem' tid => if sem' = sem then some tid else none
  | granted _ _ | blocked _ _ | raised _ => none

end Event

namespace State

variable (s : State W) (sem : S ⊕ B)

/-- How many `P` have been granted. -/
def grants : Nat := s.trace.countP (Event.isGrant sem)

/-- How many `V` there were. -/
def vs : Nat := s.trace.countP (Event.isV sem)

/-- The threads that blocked, in this order. -/
def sleepers : List (ThreadIdx T) := s.trace.filterMap (Event.sleeper sem)

/-- Those of them whose `P` has been granted, in the order of the grants. -/
def wakened : List (ThreadIdx T) := s.trace.filterMap (Event.wakened sem)

end State

/-- A positive status implies an empty queue. -/
def PositiveEmpty (s : State W) (sem : S ⊕ B) : Prop :=
  0 < s.status sem → W.isEmpty s.queues sem

/-- Blocked threads are granted in the order in which they blocked. -/
def GrantedInOrder (s : State W) (sem : S ⊕ B) : Prop := s.wakened sem <+: s.sleepers sem

/-- The status is the initial value plus the `V` minus the granted `P`. -/
def Balanced (value : S ⊕ B → Dword) (s : State W) (sem : S) : Prop :=
  (s.status (.inl sem)).toNat + s.grants (.inl sem) = (value (.inl sem)).toNat + s.vs (.inl sem)

/-- No `V` finds nobody asleep and the status at its largest value. -/
def NoWrap (s : State W) : Act S B T → Prop
  | .V sem => ¬ (W.isEmpty s.queues (.inl sem) ∧ s.status (.inl sem) = -1)
  | .P _ | .boolP _ | .nonBlockP _ | .nonBlockBoolP _ | .boolV _ | .schedule | .create _ => True

instance (s : State W) : ∀ a, Decidable (NoWrap s a)
  | .V _ => inferInstanceAs (Decidable (¬ (_ ∧ _)))
  | .P _ | .boolP _ | .nonBlockP _ | .nonBlockBoolP _ | .boolV _ | .schedule | .create _ =>
      inferInstanceAs (Decidable True)

end OsdevArchive.Osso.Semaphore
