import Mathlib.Data.Fintype.Card
import OsdevArchive.Lib.Runs
import OsdevArchive.Osso.Events

/-!
The lists of private events. Each element of `events` is in the free list or in the list
of one process. `free_event_in_list` keeps that only for the first element of a list:
further on, `base` is the address of the variable `cursore`, so it moves the cursor
instead of the link of the element before.
-/

namespace OsdevArchive.Osso.Events

open OsdevArchive.Lib.LinkedList OsdevArchive.Lib.Runs

variable {P : Type}

/-- The free list has the elements `free`, and the list of each process its `lists`;
every element is in exactly one of them. -/
structure Partition (s : State P) (free : List Slot) (lists : P → List Slot) : Prop where
  unused : Linked s.next s.eventsFreelist free
  owned : ∀ p, Linked s.next (s.eventsList p) (lists p)
  placed : ∃ place, Placed place free lists

/-- The lists are the same. -/
structure SameLists (s t : State P) : Prop where
  next : t.next = s.next
  eventsFreelist : t.eventsFreelist = s.eventsFreelist
  eventsList : t.eventsList = s.eventsList

theorem SameLists.partition {s t : State P} (hsame : SameLists s t) {free : List Slot}
    {lists : P → List Slot} (h : Partition s free lists) : Partition t free lists := by
  obtain ⟨hnext, hfree, hlist⟩ := hsame
  constructor
  · rw [hnext, hfree]
    exact h.unused
  · intro p
    rw [hnext, hlist]
    exact h.owned p
  · exact h.placed

/-! ### Searching -/

/-- The event that a search of this list finds. -/
def firstNamed (s : State P) (evento : EventName) (es : List Slot) : Ptr :=
  es.find? fun e => sameName evento (s.events e).event

theorem firstNamed_name {s : State P} {event : EventName} {es : List Slot} {e : Slot}
    (h : firstNamed s event es = some e) : sameName event (s.events e).event = true := by
  have hname := List.find?_some h
  exact hname

theorem searchFrom_linked {s : State P} {evento : EventName} {p : Ptr} {es : List Slot}
    (hlinked : Linked s.next p es) {fuel : Nat} (hfuel : es.length < fuel) :
    searchFrom s evento fuel p = some (firstNamed s evento es) := by
  induction es generalizing p fuel with
  | nil =>
    obtain rfl : p = none := hlinked
    cases fuel with
    | zero => exact absurd hfuel (Nat.not_lt_zero _)
    | succ fuel => rfl
  | cons e es ih =>
    obtain ⟨rfl, htail⟩ := hlinked
    cases fuel with
    | zero => exact absurd hfuel (Nat.not_lt_zero _)
    | succ fuel =>
      have hrest := ih htail (Nat.lt_of_succ_lt_succ hfuel)
      rw [searchFrom, firstNamed, List.find?_cons]
      cases sameName evento (s.events e).event with
      | true => rfl
      | false => exact hrest

theorem Partition.length_lt_rounds {s : State P} {free : List Slot} {lists : P → List Slot}
    (h : Partition s free lists) (p : P) : (lists p).length < rounds := by
  have hcard := (h.owned p).nodup.length_le_card
  rw [Fintype.card_fin] at hcard
  exact Nat.lt_succ_of_le hcard

theorem Partition.searcheventPriv {s : State P} {free : List Slot} {lists : P → List Slot}
    (h : Partition s free lists) (p : P) (evento : EventName) :
    searcheventPriv s p evento = some (firstNamed s evento (lists p)) :=
  searchFrom_linked (h.owned p) (h.length_lt_rounds p)

/-- An element of a process is not free, nor another process's. -/
theorem Partition.apart {s : State P} {free : List Slot} {lists : P → List Slot}
    (h : Partition s free lists) {p : P} {e : Slot} (he : e ∈ lists p) :
    e ∉ free ∧ ∀ q, q ≠ p → e ∉ lists q := by
  obtain ⟨place, hplaced⟩ := h.placed
  have hplace := (hplaced.owner p e).mp he
  constructor
  · rw [hplaced.unowned, hplace]
    exact Option.some_ne_none p
  · intro q hq
    rw [hplaced.owner, hplace]
    exact fun heq => hq (Option.some.inj heq).symm

theorem Partition.not_owned {s : State P} {free : List Slot} {lists : P → List Slot}
    (h : Partition s free lists) {e : Slot} (he : e ∈ free) (p : P) : e ∉ lists p :=
  fun howned => (h.apart howned).1 he

/-! ### The first partition -/

section
variable (pid : P → Dword) (processOf : Dword → Option P) (unset : EventStruct) (low : Ptr)

theorem initEvents_linked {k : Nat} (hk : k ≤ maxEventNumber) :
    Linked (initEvents pid processOf unset low).next
      (if h : k < maxEventNumber then some ⟨k, h⟩ else none)
      ((List.finRange maxEventNumber).drop k) := by
  induction hrest : maxEventNumber - k generalizing k with
  | zero =>
    have hend : k = maxEventNumber := by omega
    rw [dif_neg (by omega), List.drop_of_length_le (by rw [List.length_finRange, hend])]
    exact linked_nil
  | succ rest ih =>
    have hlt : k < maxEventNumber := by omega
    rw [dif_pos hlt, List.drop_eq_getElem_cons (by rwa [List.length_finRange]),
      List.getElem_finRange, Fin.cast_mk]
    have hnext : maxEventNumber - (k + 1) = rest := by omega
    exact ⟨rfl, ih hlt hnext⟩

theorem initEvents_partition : Partition (initEvents pid processOf unset low)
    (List.finRange maxEventNumber) fun _ => [] := by
  refine ⟨?_, fun _ => rfl, fun _ => none, ?_, ?_⟩
  · have hlinked := initEvents_linked pid processOf unset low (Nat.zero_le maxEventNumber)
    rw [List.drop_zero] at hlinked
    exact hlinked
  · exact fun e => iff_of_true (List.mem_finRange e) rfl
  · exact fun p e => iff_of_false List.not_mem_nil (Option.some_ne_none p).symm

end

variable [DecidableEq P]

/-! ### One element moves -/

/-- The first free element becomes the first of the list of `processo`. -/
structure Adds (s t : State P) (processo : P) (e : Slot) : Prop where
  head : s.eventsFreelist = some e
  next : t.next = Function.update s.next (some e) (s.eventsList processo)
  eventsFreelist : t.eventsFreelist = s.next (some e)
  eventsList : t.eventsList = Function.update s.eventsList processo (some e)

theorem Adds.partition {s t : State P} {processo : P} {e : Slot} (hadds : Adds s t processo e)
    {free : List Slot} {lists : P → List Slot} (h : Partition s free lists) :
    ∃ rest, free = e :: rest ∧
      Partition t rest (Function.update lists processo (e :: lists processo)) := by
  obtain ⟨hhead, hnext, hfree, hlist⟩ := hadds
  have hunused := h.unused
  rw [hhead] at hunused
  obtain ⟨rest, rfl, hrest⟩ := hunused.eq_of_some
  have hnew : e ∉ rest := (List.nodup_cons.mp h.unused.nodup).1
  have hout (p : P) : e ∉ lists p := h.not_owned List.mem_cons_self p
  obtain ⟨place, hplaced⟩ := h.placed
  refine ⟨rest, rfl, ?_, ?_, _, hplaced.take hnew⟩
  · rw [hnext, hfree]
    exact hrest.update hnew _
  · intro p
    rw [hnext, hlist]
    by_cases hp : p = processo
    · subst hp
      rw [Function.update_self, Function.update_self]
      exact (h.owned p).push (hout p)
    · rw [Function.update_of_ne hp, Function.update_of_ne hp]
      exact (h.owned p).update (hout p) _

/-- The first element of the list of `processo` becomes the first free one. -/
structure RemovesHead (s t : State P) (processo : P) (e : Slot) : Prop where
  head : s.eventsList processo = some e
  next : t.next = Function.update s.next (some e) s.eventsFreelist
  eventsFreelist : t.eventsFreelist = some e
  eventsList : t.eventsList = Function.update s.eventsList processo (s.next (some e))

theorem RemovesHead.partition {s t : State P} {processo : P} {e : Slot}
    (hremoves : RemovesHead s t processo e) {free : List Slot} {lists : P → List Slot}
    (h : Partition s free lists) :
    Partition t (e :: free) (Function.update lists processo ((lists processo).erase e)) := by
  obtain ⟨hhead, hnext, hfree, hlist⟩ := hremoves
  have howned := h.owned processo
  rw [hhead] at howned
  obtain ⟨rest, hlists, hrest⟩ := howned.eq_of_some
  have hmem : e ∈ lists processo := hlists ▸ List.mem_cons_self
  have hnew : e ∉ rest := (List.nodup_cons.mp (hlists ▸ (h.owned processo).nodup)).1
  obtain ⟨hunused, hothers⟩ := h.apart hmem
  obtain ⟨place, hplaced⟩ := h.placed
  refine ⟨?_, ?_, _, hplaced.giveBack hmem (h.owned processo).nodup⟩
  · rw [hnext, hfree]
    exact h.unused.push hunused
  · intro p
    rw [hnext, hlist]
    by_cases hp : p = processo
    · subst hp
      rw [Function.update_self, Function.update_self, hlists, List.erase_cons_head]
      exact hrest.update hnew _
    · rw [Function.update_of_ne hp, Function.update_of_ne hp]
      exact (h.owned p).update (hothers p hp) _

/-! ### What the calls do to the lists -/

theorem addEventToList_cases (s : State P) (processo : P) :
    (∃ t, addEventToList s processo = (.eventNomore, t) ∧ SameLists s t) ∨
    ∃ e t, addEventToList s processo = (.success, t) ∧ Adds s t processo e := by
  cases hfree : s.eventsFreelist with
  | none =>
    refine .inl ⟨(s.boolP .privEventsSem).boolV .privEventsSem, ?_, rfl, rfl, rfl⟩
    simp only [addEventToList, State.boolP, hfree]
  | some e =>
    refine .inr ⟨e, (addEventToList s processo).2, ?_, hfree, ?_, ?_, ?_⟩
    all_goals simp only [addEventToList, State.boolP, State.boolV, hfree]

theorem getevent_cases {s t : State P} {processo : P} {nome : EventName}
    (h : exec s (.getevent processo nome) = some t) :
    SameLists s t ∨ ∃ e, Adds s t processo e := by
  simp only [exec, State.call, getevent] at h
  split at h
  · obtain rfl := Option.some.inj h
    exact .inl ⟨rfl, rfl, rfl⟩
  · split at h
    · split at h
      · obtain rfl := Option.some.inj h
        exact .inl ⟨rfl, rfl, rfl⟩
      · obtain rfl := Option.some.inj h
        exact .inl ⟨rfl, rfl, rfl⟩
    · split at h
      · cases h
      · obtain rfl := Option.some.inj h
        exact .inl ⟨rfl, rfl, rfl⟩
      · rcases addEventToList_cases
            ((s.boolV .eventsSem).boolP (.processEventsSem processo)) processo with
          ⟨u, hadd, hsame⟩ | ⟨e, u, hadd, hadds⟩
        · rw [hadd] at h
          obtain rfl := Option.some.inj h
          exact .inl ⟨hsame.next, hsame.eventsFreelist, hsame.eventsList⟩
        · have hhead : u.eventsList processo = some e := by
            rw [hadds.eventsList, Function.update_self]
          rw [hadd] at h
          simp only [hhead, Option.map_some, Option.some.injEq] at h
          subst h
          exact .inr ⟨e, hadds.head, hadds.next, hadds.eventsFreelist, hadds.eventsList⟩

theorem exec_eq_some {s t : State P} {c : Call P} (h : exec s c = some t) : t = (s.call c).2 := by
  obtain ⟨-, -, rfl⟩ := Option.map_eq_some_iff.mp h
  rfl

namespace SameLists

omit [DecidableEq P]

variable {s t : State P}

theorem refl (s : State P) : SameLists s s := ⟨rfl, rfl, rfl⟩

/-- Semaphores and the contents of an event have no part in the lists. -/
theorem boolP (h : SameLists s t) (lock : Lock P) : SameLists s (t.boolP lock) :=
  ⟨h.next, h.eventsFreelist, h.eventsList⟩

theorem boolV (h : SameLists s t) (lock : Lock P) : SameLists s (t.boolV lock) :=
  ⟨h.next, h.eventsFreelist, h.eventsList⟩

theorem semP (h : SameLists s t) (event : EventRef) : SameLists s (t.semP event) :=
  ⟨h.next, h.eventsFreelist, h.eventsList⟩

theorem semV (h : SameLists s t) (event : EventRef) : SameLists s (t.semV event) :=
  ⟨h.next, h.eventsFreelist, h.eventsList⟩

theorem initSemaphore (h : SameLists s t) (event : EventRef) (value : Dword) :
    SameLists s (t.initSemaphore event value) :=
  ⟨h.next, h.eventsFreelist, h.eventsList⟩

theorem setPublic (h : SameLists s t) (i : Fin numPublicEvents) (evento : EventStruct) :
    SameLists s (t.setPublic i evento) :=
  ⟨h.next, h.eventsFreelist, h.eventsList⟩

theorem setEvent (h : SameLists s t) (e : Slot) (evento : EventStruct) :
    SameLists s (t.setEvent e evento) :=
  ⟨h.next, h.eventsFreelist, h.eventsList⟩

end SameLists

section other

omit [DecidableEq P]

variable (s : State P) (processo : P)

/-- The other calls do not touch the lists. -/
theorem setevent_same (event : EventName) (attr : Attributes) :
    SameLists s (setevent s processo event attr).2 := by
  have hlock : SameLists s (s.boolP .eventsSem) := (SameLists.refl s).boolP _
  have hlock' : SameLists s (((s.boolP .eventsSem).boolV .eventsSem).boolP
      (.processEventsSem processo)) := (hlock.boolV _).boolP _
  simp only [setevent]
  cases searcheventPub (s.boolP .eventsSem) event with
  | some i =>
    simp only
    split
    · split
      · exact hlock.boolV _
      split
      · exact hlock.boolV _
      split
      · exact (hlock.setPublic i _).boolV _
      · exact ((hlock.setPublic i _).initSemaphore _ _).boolV _
    · exact hlock.boolV _
  | none =>
    simp only
    split
    · exact hlock'
    · exact hlock'.boolV _
    · split
      · exact hlock'.boolV _
      split
      · exact hlock'.boolV _
      split
      · exact (hlock'.setEvent _ _).boolV _
      · exact ((hlock'.setEvent _ _).initSemaphore _ _).boolV _

theorem signal_same (pid : Dword) (evento : EventName) :
    SameLists s (signal s processo pid evento).2 := by
  simp only [signal]
  split
  · cases s.processOf pid with
    | none => exact .refl s
    | some pidt =>
      have hlock : SameLists s (s.boolP (.processEventsSem pidt)) := (SameLists.refl s).boolP _
      simp only
      split
      · exact hlock
      · exact hlock.boolV _
      · exact (hlock.semV _).boolV _
  · have hlock : SameLists s (s.boolP .eventsSem) := (SameLists.refl s).boolP _
    cases searcheventPub (s.boolP .eventsSem) evento with
    | none => exact hlock.boolV _
    | some i =>
      simp only
      split
      · exact (hlock.semV _).boolV _
      · exact hlock.boolV _

theorem wait_same (event : EventName) : SameLists s (wait s processo event).2 := by
  have hlock : SameLists s (s.boolP .eventsSem) := (SameLists.refl s).boolP _
  have hlock' : SameLists s (((s.boolP .eventsSem).boolV .eventsSem).boolP
      (.processEventsSem processo)) := (hlock.boolV _).boolP _
  simp only [wait]
  cases searcheventPub (s.boolP .eventsSem) event with
  | some i =>
    simp only
    split
    · exact hlock.boolV _
    split
    · exact (hlock.boolV _).semP _
    split
    · exact hlock.boolV _
    · exact (hlock.boolV _).semP _
  | none =>
    simp only
    split
    · exact hlock'
    · exact (hlock'.boolV _).semP _
    · exact hlock'

end other

/-! ### Removing an event -/

/-- The named event is public, or not in the list of `processo`, or its first element. -/
def Removable (s : State P) (processo : P) (event : EventName) : Prop :=
  (searcheventPub s event).isSome ∨ searcheventPriv s processo event = some none ∨
    searcheventPriv s processo event = some (s.eventsList processo)

theorem freeLoop_missing {s : State P} {processo : P} {evento : EventName} {p : Ptr}
    {es : List Slot} (hlinked : Linked s.next p es) {fuel : Nat} (hfuel : es.length < fuel)
    (hmissing : firstNamed s evento es = none) (base : Base) :
    freeLoop processo evento fuel s p base = some (false, s) := by
  induction es generalizing p fuel base with
  | nil =>
    obtain rfl : p = none := hlinked
    cases fuel with
    | zero => exact absurd hfuel (Nat.not_lt_zero _)
    | succ fuel => rfl
  | cons e es ih =>
    obtain ⟨rfl, htail⟩ := hlinked
    cases fuel with
    | zero => exact absurd hfuel (Nat.not_lt_zero _)
    | succ fuel =>
      rw [firstNamed, List.find?_cons] at hmissing
      cases hname : sameName evento (s.events e).event with
      | true =>
        rw [hname] at hmissing
        cases hmissing
      | false =>
        rw [hname] at hmissing
        rw [freeLoop, hname]
        exact ih htail (Nat.lt_of_succ_lt_succ hfuel) hmissing .cursore

theorem freeLoop_head {s : State P} {processo : P} {evento : EventName} {e : Slot} (fuel : Nat)
    (hhead : s.eventsList processo = some e)
    (hname : sameName evento (s.events e).event = true) :
    ∃ t, freeLoop processo evento (fuel + 1) s (some e) .eventsList = some (true, t) ∧
      RemovesHead s t processo e := by
  refine ⟨{ s with
    eventsList := Function.update s.eventsList processo (s.next (some e))
    next := Function.update s.next (some e) s.eventsFreelist
    eventsFreelist := some e }, ?_, hhead, rfl, rfl, rfl⟩
  rw [freeLoop, hname]
  rfl

section
variable {s : State P} {free : List Slot} {lists : P → List Slot} {processo : P}
  {event : EventName}

theorem clearevent_public (processo : P) (hpublic : (searcheventPub s event).isSome) :
    ∃ code t, s.call (.clearevent processo event) = (some code, t) ∧ SameLists s t := by
  obtain ⟨i, hi⟩ := Option.isSome_iff_exists.mp hpublic
  have hsearch : searcheventPub (s.boolP .eventsSem) event = some i := hi
  simp only [State.call, clearevent, searcheventFix, Option.isSome_none, Bool.false_eq_true,
    if_false, hsearch]
  split
  · exact ⟨_, _, rfl, rfl, rfl, rfl⟩
  · exact ⟨_, _, rfl, rfl, rfl, rfl⟩

theorem clearevent_private (hprivate : searcheventPub s event = none) :
    s.call (.clearevent processo event) =
      freeEventInList (s.boolP .eventsSem) processo event := by
  have hsearch : searcheventPub (s.boolP .eventsSem) event = none := hprivate
  simp only [State.call, clearevent, searcheventFix, Option.isSome_none, Bool.false_eq_true,
    if_false, hsearch]

theorem clearevent_missing (h : Partition s free lists)
    (hprivate : searcheventPub s event = none)
    (hmissing : firstNamed s event (lists processo) = none) :
    ∃ t, s.call (.clearevent processo event) = (some .eventNotexist, t) ∧ SameLists s t := by
  have hloop : freeLoop processo event rounds ((s.boolP .eventsSem).boolP .privEventsSem)
      (s.eventsList processo) .eventsList = some (false, _) :=
    freeLoop_missing (s := (s.boolP .eventsSem).boolP .privEventsSem) (h.owned processo)
      (h.length_lt_rounds processo) hmissing _
  rw [clearevent_private hprivate]
  refine ⟨((s.boolP .eventsSem).boolP .privEventsSem).boolV .privEventsSem, ?_, rfl, rfl, rfl⟩
  unfold freeEventInList
  simp only [State.boolP] at hloop ⊢
  rw [hloop]
  rfl

theorem clearevent_head {e : Slot} (hprivate : searcheventPub s event = none)
    (hhead : s.eventsList processo = some e)
    (hname : sameName event (s.events e).event = true) :
    ∃ t, s.call (.clearevent processo event) = (some .success, t) ∧
      RemovesHead s t processo e := by
  have hlist : ((s.boolP .eventsSem).boolP .privEventsSem).eventsList processo = some e := hhead
  obtain ⟨u, hloop, hremoves⟩ := freeLoop_head maxEventNumber hlist hname
  rw [clearevent_private hprivate]
  refine ⟨u.boolV .privEventsSem, ?_, hhead, hremoves.next, hremoves.eventsFreelist,
    hremoves.eventsList⟩
  unfold freeEventInList
  rw [← hlist] at hloop
  simp only [rounds]
  rw [hloop]
  rfl

end

/-- The event of `processo` that a call for `event` is about, if it is not a public one. -/
def target (s : State P) (lists : P → List Slot) (processo : P) (event : EventName) : Ptr :=
  if (searcheventPub s event).isSome then none else firstNamed s event (lists processo)

/-- The named event is taken out, and all others are left where they were. -/
structure RemovesExactly (s t : State P) (processo : P) (event : EventName) : Prop where
  named : ∀ free lists e, Partition s free lists → target s lists processo event = some e →
    e ∈ lists processo ∧
      Partition t (e :: free) (Function.update lists processo ((lists processo).erase e))
  missing : ∀ free lists, Partition s free lists → target s lists processo event = none →
    Partition t free lists

theorem exec_of_call {s t : State P} {c : Call P} {code : Code} (h : s.call c = (some code, t)) :
    exec s c = some t := by
  rw [exec, h]
  rfl

theorem clearevent_removes {s t : State P} {free : List Slot} {lists : P → List Slot}
    {processo : P} {event : EventName} (h : Partition s free lists)
    (hremovable : Removable s processo event)
    (hexec : exec s (.clearevent processo event) = some t) :
    SameLists s t ∧ target s lists processo event = none ∨
      ∃ e, RemovesHead s t processo e ∧ target s lists processo event = some e := by
  by_cases hpublic : (searcheventPub s event).isSome
  · obtain ⟨code, u, hcall, hsame⟩ := clearevent_public processo hpublic
    obtain rfl : u = t := Option.some.inj ((exec_of_call hcall).symm.trans hexec)
    exact .inl ⟨hsame, if_pos hpublic⟩
  · have hprivate : searcheventPub s event = none := Option.not_isSome_iff_eq_none.mp hpublic
    have htarget : target s lists processo event = firstNamed s event (lists processo) :=
      if_neg hpublic
    have hsearch := h.searcheventPriv processo event
    rw [htarget]
    cases hfirst : firstNamed s event (lists processo) with
    | none =>
      obtain ⟨u, hcall, hsame⟩ := clearevent_missing h hprivate hfirst
      obtain rfl : u = t := Option.some.inj ((exec_of_call hcall).symm.trans hexec)
      exact .inl ⟨hsame, rfl⟩
    | some e =>
      rw [hfirst] at hsearch
      have hhead : s.eventsList processo = some e := by
        rcases hremovable with hpub | hnone | hhead
        · exact absurd hpub hpublic
        · rw [hsearch] at hnone
          cases hnone
        · rw [hsearch] at hhead
          exact (Option.some.inj hhead).symm
      obtain ⟨u, hcall, hremoves⟩ := clearevent_head hprivate hhead (firstNamed_name hfirst)
      obtain rfl : u = t := Option.some.inj ((exec_of_call hcall).symm.trans hexec)
      exact .inr ⟨e, hremoves, rfl⟩

theorem clearevent_removesExactly {s t : State P} {processo : P} {event : EventName}
    (hremovable : Removable s processo event)
    (hexec : exec s (.clearevent processo event) = some t) :
    RemovesExactly s t processo event := by
  constructor
  · intro free lists e h htarget
    rcases clearevent_removes h hremovable hexec with ⟨-, hnone⟩ | ⟨f, hremoves, hsome⟩
    · rw [htarget] at hnone
      cases hnone
    · obtain rfl : e = f := Option.some.inj (htarget.symm.trans hsome)
      refine ⟨?_, hremoves.partition h⟩
      have howned := h.owned processo
      rw [hremoves.head] at howned
      obtain ⟨rest, hlists, -⟩ := howned.eq_of_some
      exact hlists ▸ List.mem_cons_self
  · intro free lists h htarget
    rcases clearevent_removes h hremovable hexec with ⟨hsame, -⟩ | ⟨f, -, hsome⟩
    · exact hsame.partition h
    · rw [htarget] at hsome
      cases hsome

/-! ### Runs -/

/-- The calls keep the events divided among the lists, and a removal is exact. -/
structure Sound (s : State P) : Prop where
  partition : ∃ free lists, Partition s free lists ∧ free.Nodup ∧ ∀ p, (lists p).Nodup
  removes : ∀ processo event t, Removable s processo event →
    exec s (.clearevent processo event) = some t → RemovesExactly s t processo event

/-- `clearevent` is called only for events that are removable. -/
def Allowed (s : State P) : Call P → Prop
  | .clearevent processo event => Removable s processo event
  | _ => True

theorem partition_exec {s t : State P} {c : Call P}
    (h : ∃ free lists, Partition s free lists) (hok : Allowed s c) (hexec : exec s c = some t) :
    ∃ free lists, Partition t free lists := by
  obtain ⟨free, lists, hpart⟩ := h
  cases c with
  | getevent processo nome =>
    rcases getevent_cases hexec with hsame | ⟨e, hadds⟩
    · exact ⟨free, lists, hsame.partition hpart⟩
    · obtain ⟨rest, -, hnew⟩ := hadds.partition hpart
      exact ⟨rest, _, hnew⟩
  | clearevent processo event =>
    rcases clearevent_removes hpart hok hexec with ⟨hsame, -⟩ | ⟨e, hremoves, -⟩
    · exact ⟨free, lists, hsame.partition hpart⟩
    · exact ⟨_, _, hremoves.partition hpart⟩
  | setevent processo event attr =>
    rw [exec_eq_some hexec]
    exact ⟨free, lists, (setevent_same s processo event attr).partition hpart⟩
  | signal processo pid evento =>
    rw [exec_eq_some hexec]
    exact ⟨free, lists, (signal_same s processo pid evento).partition hpart⟩
  | wait processo event =>
    rw [exec_eq_some hexec]
    exact ⟨free, lists, (wait_same s processo event).partition hpart⟩

theorem events_partitioned {pid : P → Dword} {processOf : Dword → Option P}
    {unset : EventStruct} {low : Ptr} {cs : List (Call P)} {t : State P}
    (h : Run (Guarded Allowed (Computes exec)) (initEvents pid processOf unset low) cs t) :
    Sound t := by
  obtain ⟨free, lists, hpart⟩ := h.guarded_invariant
    (I := fun s => ∃ free lists, Partition s free lists)
    (fun _ _ _ hs hok hexec => partition_exec hs hok hexec)
    ⟨_, _, initEvents_partition pid processOf unset low⟩
  refine ⟨⟨free, lists, hpart, hpart.unused.nodup, fun p => (hpart.owned p).nodup⟩, ?_⟩
  exact fun _ _ _ hremovable hexec => clearevent_removesExactly hremovable hexec

/-- The event that was created last is removed first. -/
def inOrder : List (Call Unit) :=
  [.getevent () timer, .getevent () data, .signal () 4 timer, .clearevent () data]

def afterInOrder : State Unit := (inOrder.foldlM exec single).getD single

instance (s : State P) (c : Call P) : Decidable (Allowed s c) :=
  match c with
  | .clearevent .. => inferInstanceAs (Decidable (_ ∨ _ ∨ _))
  | .getevent .. => inferInstanceAs (Decidable True)
  | .setevent .. => inferInstanceAs (Decidable True)
  | .signal .. => inferInstanceAs (Decidable True)
  | .wait .. => inferInstanceAs (Decidable True)

theorem events_partitioned_inOrder :
    afterInOrder.eventsList () = some 0 ∧ Sound afterInOrder := by
  have hrun : Run (Guarded Allowed (Computes exec)) single inOrder afterInOrder :=
    Run.of_foldlM_checked rfl
  exact ⟨rfl, events_partitioned hrun⟩

/-- The event that was created first is removed first. -/
def outOfOrder : List (Call Unit) :=
  [.getevent () timer, .getevent () data, .clearevent () timer]

def afterOutOfOrder : State Unit := (outOfOrder.foldlM exec single).getD single

theorem events_lost :
    Run (Computes exec) single outOfOrder afterOutOfOrder ∧
      afterOutOfOrder.eventsFreelist = none ∧
      searcheventPriv afterOutOfOrder () timer = some (some 0) ∧ ¬ Sound afterOutOfOrder := by
  have hfree : afterOutOfOrder.eventsFreelist = none := rfl
  have hlinked : Linked afterOutOfOrder.next (afterOutOfOrder.eventsList ()) [1, 0] :=
    ⟨rfl, rfl, rfl⟩
  refine ⟨Run.of_foldlM rfl, hfree, rfl, fun hsound => ?_⟩
  obtain ⟨free, lists, hpart, -⟩ := hsound.partition
  have hunused := hpart.unused
  rw [hfree] at hunused
  obtain rfl : free = [] := hunused.eq_nil
  have hlists : lists () = [1, 0] := (hpart.owned ()).unique hlinked
  obtain ⟨place, hplaced⟩ := hpart.placed
  -- the third element is neither free nor in the list
  cases hplace : place 2 with
  | none => exact List.not_mem_nil ((hplaced.unowned 2).mpr hplace)
  | some p =>
    have hmem := (hplaced.owner p 2).mpr hplace
    rw [show p = () from rfl, hlists] at hmem
    exact absurd hmem (by decide)

end OsdevArchive.Osso.Events
