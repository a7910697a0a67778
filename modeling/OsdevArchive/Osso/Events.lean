import Mathlib.Algebra.GroupWithZero.Nat
import Mathlib.Data.Fintype.Basic
import OsdevArchive.Lib.LinkedList

/-!
The events of OSSO (`kernel/events.c`). The public events are a table; the private ones
of all processes share an array, whose free elements are linked from `events_freelist`
and whose others are linked from the process that created them. Every call leaves a
trace of its semaphore operations. System calls run with the interrupts disabled, so
other threads run only where a call blocks.
-/

namespace OsdevArchive.Osso.Events

abbrev Dword := BitVec 32

/-- A C string. -/
abbrev EventName := List Char

def numPublicEvents : Nat := 16

def maxEventNumber : Nat := 100

def maxEventNameLength : Nat := 16

def eMaskTaken : BitVec 8 := 1

def eMaskExt : BitVec 8 := 2

def eMaskBool : BitVec 8 := 4

/-- The check of `setevent` takes every value for one of a `BOOL` event. -/
theorem or_eMaskBool_ne (perms : BitVec 8) : perms ||| eMaskBool ≠ 0 := by
  intro hzero
  have hbit := congrArg (fun b => b.getLsbD 2) hzero
  simp [eMaskBool] at hbit

def eMaskFix : BitVec 8 := 8

/-- What the calls return. -/
inductive Code where
  | success
  | eventExist
  | eventPubTaken
  | eventPubNottaken
  | eventNomore
  | eventNoperms
  | eventNotexist
  | eventWrongvals
  | notImplementedYet
  | pidNotFound
  deriving DecidableEq

/-- An element of `events`. -/
abbrev Slot := Fin maxEventNumber

instance : NeZero maxEventNumber := ⟨by decide⟩

/-- A pointer into `events`, or `NULL`. -/
abbrev Ptr := Option Slot

/-- `Event_struct` without its link and its semaphore. -/
structure EventStruct where
  event : EventName
  owner : Dword
  perms : BitVec 8
  handler : Dword
  timeout : Dword
  deriving DecidableEq

/-- `ATTRIBUTES`. -/
structure Attributes where
  permessi : BitVec 8
  valore : Dword
  handler : Dword
  timeout : Dword
  deriving DecidableEq

/-- The semaphores that protect the tables. -/
inductive Lock (P : Type) where
  | eventsSem
  | privEventsSem
  | processEventsSem (processo : P)
  deriving DecidableEq

/-- An event, as the owner of a semaphore. -/
inductive EventRef where
  | pub (i : Fin numPublicEvents)
  | priv (e : Slot)
  deriving DecidableEq

/-- `Bool_P` and `Bool_V` of a lock; `Init_Semaphore`, `P` and `V` of an event. -/
inductive SemOp (P : Type) where
  | p (lock : Lock P)
  | v (lock : Lock P)
  | eventInit (event : EventRef) (value : Dword)
  | eventP (event : EventRef)
  | eventV (event : EventRef)
  deriving DecidableEq

/-- The data of `events.c`, and what is used of the process table. The link of `NULL`
is the word that a write through a null pointer hits. -/
structure State (P : Type) where
  publicEvents : Fin numPublicEvents → EventStruct
  events : Slot → EventStruct
  next : Ptr → Ptr
  eventsFreelist : Ptr
  eventsList : P → Ptr
  pid : P → Dword
  processOf : Dword → Option P
  ops : List (SemOp P)

variable {P : Type}

/-- `sprintf(.., "INTERRUPT%d", i)`. -/
def interruptName (i : Nat) : EventName := "INTERRUPT".toList ++ (Nat.repr i).toList

/-- `init_Events`, before any process exists. -/
def initEvents (pid : P → Dword) (processOf : Dword → Option P) (unset : EventStruct)
    (low : Ptr) : State P where
  publicEvents i :=
    { event := interruptName i, owner := 0, handler := 0, timeout := 0
      perms := if i.val = 0 then eMaskFix ||| eMaskTaken else 0 }
  events _ := unset
  next
    | none => low
    | some e => if h : e.val + 1 < maxEventNumber then some ⟨e.val + 1, h⟩ else none
  eventsFreelist := some 0
  eventsList _ := none
  pid := pid
  processOf := processOf
  ops := []

namespace State

def boolP (s : State P) (lock : Lock P) : State P := { s with ops := s.ops ++ [.p lock] }

def boolV (s : State P) (lock : Lock P) : State P := { s with ops := s.ops ++ [.v lock] }

def initSemaphore (s : State P) (event : EventRef) (value : Dword) : State P :=
  { s with ops := s.ops ++ [.eventInit event value] }

def semP (s : State P) (event : EventRef) : State P := { s with ops := s.ops ++ [.eventP event] }

def semV (s : State P) (event : EventRef) : State P := { s with ops := s.ops ++ [.eventV event] }

def setPublic (s : State P) (i : Fin numPublicEvents) (e : EventStruct) : State P :=
  { s with publicEvents := Function.update s.publicEvents i e }

def setEvent (s : State P) (i : Slot) (e : EventStruct) : State P :=
  { s with events := Function.update s.events i e }

end State

section
variable (s : State P) (lock : Lock P) (event : EventRef) (value : Dword)

@[simp] theorem boolP_ops : (s.boolP lock).ops = s.ops ++ [.p lock] := rfl

@[simp] theorem boolV_ops : (s.boolV lock).ops = s.ops ++ [.v lock] := rfl

@[simp] theorem initSemaphore_ops :
    (s.initSemaphore event value).ops = s.ops ++ [.eventInit event value] := rfl

@[simp] theorem semP_ops : (s.semP event).ops = s.ops ++ [.eventP event] := rfl

@[simp] theorem semV_ops : (s.semV event).ops = s.ops ++ [.eventV event] := rfl

@[simp] theorem setPublic_ops (i : Fin numPublicEvents) (e : EventStruct) :
    (s.setPublic i e).ops = s.ops := rfl

@[simp] theorem setEvent_ops (i : Slot) (e : EventStruct) : (s.setEvent i e).ops = s.ops := rfl

end

/-- `!strncmp(a, b, MAX_EVENT_NAME_LENGTH)`. -/
def sameName (a b : EventName) : Bool :=
  a.take maxEventNameLength == b.take maxEventNameLength

/-! ### The searches -/

/-- `searchevent_pub`. -/
def searcheventPub (s : State P) (evento : EventName) : Option (Fin numPublicEvents) :=
  (List.finRange numPublicEvents).find? fun i => sameName evento (s.publicEvents i).event

/-- `searchevent_fix`: there are no fixed events. -/
def searcheventFix (_ : EventName) : Option EventStruct := none

/-- The loop that looks for an event from `cursore` on. `none`: it does not end. -/
def searchFrom (s : State P) (evento : EventName) : Nat → Ptr → Option Ptr
  | 0, _ => none
  | _ + 1, none => some none
  | fuel + 1, some e =>
    if sameName evento (s.events e).event then some (some e)
    else searchFrom s evento fuel (s.next (some e))

/-- Enough rounds to visit each element and to see the end. -/
def rounds : Nat := maxEventNumber + 1

/-- `searchevent_priv`, also the loop of `signal`. -/
def searcheventPriv (s : State P) (processo : P) (evento : EventName) : Option Ptr :=
  searchFrom s evento rounds (s.eventsList processo)

section
variable (s : State P) (lock : Lock P) (evento : EventName) (processo : P)

@[simp] theorem searcheventPub_boolP :
    searcheventPub (s.boolP lock) evento = searcheventPub s evento := rfl

@[simp] theorem searcheventPub_boolV :
    searcheventPub (s.boolV lock) evento = searcheventPub s evento := rfl

theorem searchFrom_congr {s t : State P} (hevents : t.events = s.events) (hnext : t.next = s.next)
    (evento : EventName) (fuel : Nat) (cursore : Ptr) :
    searchFrom t evento fuel cursore = searchFrom s evento fuel cursore := by
  induction fuel generalizing cursore with
  | zero => rfl
  | succ fuel ih =>
    cases cursore with
    | none => rfl
    | some e => rw [searchFrom, searchFrom, hevents, hnext, ih]

@[simp] theorem searcheventPriv_boolP :
    searcheventPriv (s.boolP lock) processo evento = searcheventPriv s processo evento :=
  searchFrom_congr (s := s) (t := s.boolP lock) rfl rfl ..

@[simp] theorem searcheventPriv_boolV :
    searcheventPriv (s.boolV lock) processo evento = searcheventPriv s processo evento :=
  searchFrom_congr (s := s) (t := s.boolV lock) rfl rfl ..

end

/-! ### The lists -/

section
variable [DecidableEq P]

/-- `add_event_to_list`, called by `processo`. -/
def addEventToList (s : State P) (processo : P) : Code × State P :=
  let s := s.boolP .privEventsSem
  match s.eventsFreelist with
  | none => (.eventNomore, s.boolV .privEventsSem)
  | some elemento =>
    let s := { s with eventsFreelist := s.next (some elemento) }
    let s := s.boolV .privEventsSem
    let s := { s with
      next := Function.update s.next (some elemento) (s.eventsList processo) }
    (.success, { s with
      eventsList := Function.update s.eventsList processo (some elemento) })

/-- What the variable `base` of `free_event_in_list` points to. -/
inductive Base where
  | eventsList
  | cursore

/-- `*(base)=cursore->next`, and the new value of `cursore`. -/
def storeBase (s : State P) (processo : P) (e : Slot) : Base → Ptr × State P
  | .eventsList =>
    (some e, { s with
      eventsList := Function.update s.eventsList processo (s.next (some e)) })
  | .cursore => (s.next (some e), s)

/-- The loop of `free_event_in_list`: whether it finds the event. `none`: it does not
end. -/
def freeLoop (processo : P) (evento : EventName) :
    Nat → State P → Ptr → Base → Option (Bool × State P)
  | 0, _, _, _ => none
  | _ + 1, s, none, _ => some (false, s)
  | fuel + 1, s, some e, base =>
    if sameName evento (s.events e).event then
      let (cursore, s) := storeBase s processo e base
      let s := { s with next := Function.update s.next cursore s.eventsFreelist }
      some (true, { s with eventsFreelist := cursore })
    else freeLoop processo evento fuel s (s.next (some e)) .cursore

/-- `free_event_in_list`. -/
def freeEventInList (s : State P) (processo : P) (evento : EventName) :
    Option Code × State P :=
  let s := s.boolP .privEventsSem
  match freeLoop processo evento rounds s (s.eventsList processo) .eventsList with
  | none => (none, s)
  | some (found, s) =>
    (some (if found then .success else .eventNotexist), s.boolV .privEventsSem)

/-! ### The calls, each made by a process -/

/-- `getevent`. The `Bool_P` of its search is commented out. -/
def getevent (s : State P) (processo : P) (nome : EventName) : Option Code × State P :=
  let requested := nome.take maxEventNameLength
  if (searcheventFix requested).isSome then (some .eventExist, s)
  else
    match searcheventPub s requested with
    | some i =>
      let evento := s.publicEvents i
      if evento.perms &&& eMaskTaken ≠ 0 then (some .eventPubTaken, s.boolV .eventsSem)
      else
        let s := s.setPublic i { evento with
          owner := s.pid processo, perms := eMaskTaken ||| eMaskBool, handler := 0, timeout := 0 }
        let s := s.initSemaphore (.pub i) 0
        (some .success, s.boolV .eventsSem)
    | none =>
      let s := s.boolV .eventsSem
      let s := s.boolP (.processEventsSem processo)
      match searcheventPriv s processo requested with
      | none => (none, s)
      | some (some _) => (some .eventExist, s.boolV (.processEventsSem processo))
      | some none =>
        match addEventToList s processo with
        | (.eventNomore, s) => (some .eventNomore, s.boolV (.processEventsSem processo))
        | (_, s) =>
          match s.eventsList processo with
          | none => (none, s)
          | some e =>
            let s := s.setEvent e { s.events e with
              event := requested, perms := eMaskTaken ||| eMaskBool, handler := 0, timeout := 0 }
            let s := s.initSemaphore (.priv e) 0
            (some .success, s.boolV (.processEventsSem processo))

/-- `clearevent`. -/
def clearevent (s : State P) (processo : P) (event : EventName) : Option Code × State P :=
  if (searcheventFix event).isSome then (some .eventNoperms, s)
  else
    let s := s.boolP .eventsSem
    match searcheventPub s event with
    | some i =>
      let evento := s.publicEvents i
      if evento.perms &&& eMaskTaken ≠ 0 ∧ evento.owner = s.pid processo then
        let s := s.setPublic i { evento with perms := 0, owner := 0 }
        (some .success, s.boolV .eventsSem)
      else (some .eventNoperms, s.boolV .eventsSem)
    | none => freeEventInList s processo event

/-- `perms & (!E_MASK_FIX)`: the negation is the logical one, so nothing is left. -/
def settablePerms (permessi : BitVec 8) : BitVec 8 :=
  permessi &&& if eMaskFix = 0 then 1 else 0

/-- `setevent`. -/
def setevent (s : State P) (processo : P) (event : EventName) (attributi : Attributes) :
    Option Code × State P :=
  let s := s.boolP .eventsSem
  match searcheventPub s event with
  | some i =>
    let evento := s.publicEvents i
    if evento.perms &&& eMaskTaken ≠ 0 ∧ evento.perms &&& eMaskFix ≠ 0 ∧
        evento.owner = s.pid processo then
      if attributi.timeout ≠ 0 then (some .notImplementedYet, s.boolV .eventsSem)
      else if attributi.handler ≠ 0 then (some .notImplementedYet, s.boolV .eventsSem)
      else
        let evento := { evento with perms := settablePerms attributi.permessi }
        let s := s.setPublic i evento
        if evento.perms ||| eMaskBool ≠ 0 ∧ 1 < attributi.valore then
          (some .eventWrongvals, s.boolV .eventsSem)
        else
          let s := s.initSemaphore (.pub i) attributi.valore
          (some .success, s.boolV .eventsSem)
    else (some .eventNoperms, s.boolV .eventsSem)
  | none =>
    let s := s.boolV .eventsSem
    let s := s.boolP (.processEventsSem processo)
    match searcheventPriv s processo event with
    | none => (none, s)
    | some none => (some .eventNotexist, s.boolV (.processEventsSem processo))
    | some (some e) =>
      if attributi.timeout ≠ 0 then
        (some .notImplementedYet, s.boolV (.processEventsSem processo))
      else if attributi.handler ≠ 0 then
        (some .notImplementedYet, s.boolV (.processEventsSem processo))
      else
        let evento := { s.events e with perms := settablePerms attributi.permessi }
        let s := s.setEvent e evento
        if evento.perms ||| eMaskBool ≠ 0 ∧ 1 < attributi.valore then
          (some .eventWrongvals, s.boolV (.processEventsSem processo))
        else
          let s := s.initSemaphore (.priv e) attributi.valore
          (some .success, s.boolV .eventsSem)

/-- `signal`. -/
def signal (s : State P) (processo : P) (pid : Dword) (evento : EventName) :
    Option Code × State P :=
  if pid ≠ 0 then
    match s.processOf pid with
    | none => (some .pidNotFound, s)
    | some pidt =>
      let s := s.boolP (.processEventsSem pidt)
      match searcheventPriv s pidt evento with
      | none => (none, s)
      | some none => (some .eventNotexist, s.boolV (.processEventsSem pidt))
      | some (some e) => (some .success, (s.semV (.priv e)).boolV (.processEventsSem pidt))
  else
    let s := s.boolP .eventsSem
    match searcheventPub s evento with
    | none => (some .eventNotexist, s.boolV .eventsSem)
    | some i =>
      let cursore := s.publicEvents i
      if cursore.perms &&& eMaskExt ≠ 0 ∨ cursore.owner = s.pid processo then
        (some .success, (s.semV (.pub i)).boolV .eventsSem)
      else (some .eventNoperms, s.boolV .eventsSem)

/-- `wait`. -/
def wait (s : State P) (processo : P) (event : EventName) : Option Code × State P :=
  let s := s.boolP .eventsSem
  match searcheventPub s event with
  | some i =>
    let evento := s.publicEvents i
    if evento.perms &&& eMaskTaken = 0 then (some .eventPubNottaken, s.boolV .eventsSem)
    else if evento.owner = s.pid processo then
      (some .success, (s.boolV .eventsSem).semP (.pub i))
    else if evento.perms &&& eMaskExt = 0 then (some .eventNoperms, s.boolV .eventsSem)
    else (some .success, (s.boolV .eventsSem).semP (.pub i))
  | none =>
    let s := s.boolV .eventsSem
    let s := s.boolP (.processEventsSem processo)
    match searcheventPriv s processo event with
    | none => (none, s)
    | some (some e) =>
      (some .success, (s.boolV (.processEventsSem processo)).semP (.priv e))
    | some none => (some .eventNotexist, s)

inductive Call (P : Type) where
  | getevent (processo : P) (nome : EventName)
  | clearevent (processo : P) (event : EventName)
  | setevent (processo : P) (event : EventName) (attributi : Attributes)
  | signal (processo : P) (pid : Dword) (evento : EventName)
  | wait (processo : P) (event : EventName)

def State.call (s : State P) : Call P → Option Code × State P
  | .getevent processo nome => Events.getevent s processo nome
  | .clearevent processo event => Events.clearevent s processo event
  | .setevent processo event attributi => Events.setevent s processo event attributi
  | .signal processo pid evento => Events.signal s processo pid evento
  | .wait processo event => Events.wait s processo event

/-- A call that returns. -/
def exec (s : State P) (c : Call P) : Option (State P) :=
  (s.call c).1.map fun _ => (s.call c).2

end

/-! ### A small system -/

/-- One process, with its process identifier. -/
def single : State Unit :=
  initEvents (fun _ => 4) (fun pid => if pid = 4 then some () else none) ⟨[], 0, 0, 0, 0⟩ none

def timer : EventName := ['t', 'i', 'm', 'e', 'r']

def data : EventName := ['d', 'a', 't', 'a']

end OsdevArchive.Osso.Events
