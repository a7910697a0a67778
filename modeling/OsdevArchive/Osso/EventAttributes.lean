import OsdevArchive.Osso.Events

/-!
What `setevent` does to an event. It writes the permissions before its last check, and what it
writes is always 0, since the mask of the `FIX` attribute is negated as a truth value; the check of
the value combines the `BOOL` attribute with `|`, so that it never depends on it. The public and
the private copy of the code are alike in this.
-/

namespace OsdevArchive.Osso.Events

variable {P : Type} [DecidableEq P]

/-- The event that a reference is for. -/
def State.event (s : State P) : EventRef → EventStruct
  | .pub i => s.publicEvents i
  | .priv e => s.events e

/-- The initialisation of an event's semaphore, if the operation is one. -/
def SemOp.init : SemOp P → Option (EventRef × Dword)
  | .eventInit event value => some (event, value)
  | .p _ | .v _ | .eventP _ | .eventV _ => none

/-- The semaphores of events that were initialised, with their values. -/
def State.inits (s : State P) : List (EventRef × Dword) := s.ops.filterMap SemOp.init

/-- The event that a process means by a name. -/
def attributeTarget (s : State P) (processo : P) (event : EventName) : Option EventRef :=
  match searcheventPub s event with
  | some i => some (.pub i)
  | none => (searcheventPriv s processo event).join.map EventRef.priv

/-- The process may set the event. -/
def Settable (s : State P) (processo : P) : EventRef → Prop
  | .pub i =>
    (s.publicEvents i).perms &&& eMaskTaken ≠ 0 ∧ (s.publicEvents i).perms &&& eMaskFix ≠ 0 ∧
      (s.publicEvents i).owner = s.pid processo
  | .priv _ => True

instance Settable.instDecidable (s : State P) (processo : P) :
    ∀ ref, Decidable (Settable s processo ref)
  | .pub _ => inferInstanceAs (Decidable (_ ∧ _ ∧ _))
  | .priv _ => inferInstanceAs (Decidable True)

/-- The call comes to the attributes of the event `ref`. -/
structure Reaches (s : State P) (processo : P) (event : EventName) (attributi : Attributes)
    (ref : EventRef) : Prop where
  found : attributeTarget s processo event = some ref
  settable : Settable s processo ref
  timeout : attributi.timeout = 0
  handler : attributi.handler = 0

/-- Neither an event nor its semaphore has changed. -/
def Untouched (s t : State P) : Prop := (∀ ref, t.event ref = s.event ref) ∧ t.inits = s.inits

/-- The event has the permissions that were asked for, except for `FIX`, and the value. -/
structure Granted (s : State P) (ref : EventRef) (attributi : Attributes) (t : State P) : Prop where
  event : t.event ref = { s.event ref with perms := attributi.permessi &&& ~~~eMaskFix }
  others : ∀ other, other ≠ ref → t.event other = s.event other
  semaphore : t.inits = s.inits ++ [(ref, attributi.valore)]

/-- The value check fails. -/
def Refused (attributi : Attributes) : Prop :=
  attributi.permessi &&& eMaskBool ≠ 0 ∧ 1 < attributi.valore

/-- A call that fails changes nothing, one that succeeds grants what was asked for, and the value
is checked exactly for the `BOOL` attribute. -/
structure SetsRight (s : State P) (processo : P) (event : EventName) (attributi : Attributes) :
    Prop where
  error : ∀ code t, setevent s processo event attributi = (some code, t) → code ≠ .success →
    Untouched s t
  success : ∀ t, setevent s processo event attributi = (some .success, t) →
    ∃ ref, Reaches s processo event attributi ref ∧ Granted s ref attributi t
  check : ∀ code t ref, setevent s processo event attributi = (some code, t) →
    Reaches s processo event attributi ref → (code = .eventWrongvals ↔ Refused attributi)

/-- What is asked for is what the call does anyway: it comes to no event; or the value is refused
by right, and the event had no permissions; or no permission but `FIX` is asked for. -/
def Harmless (s : State P) (processo : P) (event : EventName) (attributi : Attributes) : Prop :=
  ∀ ref, Reaches s processo event attributi ref →
    Refused attributi ∧ (s.event ref).perms = 0 ∨
      attributi.valore ≤ 1 ∧ attributi.permessi &&& ~~~eMaskFix = 0

/-! ### What the call does -/

section

variable (s : State P) (lock : Lock P) (ref : EventRef) (value : Dword)

omit [DecidableEq P]

@[simp] theorem boolP_event : (s.boolP lock).event ref = s.event ref := by cases ref <;> rfl

@[simp] theorem boolV_event : (s.boolV lock).event ref = s.event ref := by cases ref <;> rfl

@[simp] theorem initSemaphore_event (r : EventRef) :
    (s.initSemaphore ref value).event r = s.event r := by cases r <;> rfl

@[simp] theorem boolP_inits : (s.boolP lock).inits = s.inits := by
  simp [State.inits, SemOp.init]

@[simp] theorem boolV_inits : (s.boolV lock).inits = s.inits := by
  simp [State.inits, SemOp.init]

@[simp] theorem initSemaphore_inits :
    (s.initSemaphore ref value).inits = s.inits ++ [(ref, value)] := by
  simp [State.inits, SemOp.init]

@[simp] theorem setPublic_inits (i : Fin numPublicEvents) (e : EventStruct) :
    (s.setPublic i e).inits = s.inits := rfl

@[simp] theorem setEvent_inits (i : Slot) (e : EventStruct) : (s.setEvent i e).inits = s.inits :=
  rfl

@[simp] theorem setPublic_event (i : Fin numPublicEvents) (e : EventStruct) :
    (s.setPublic i e).event ref = if ref = .pub i then e else s.event ref := by
  cases ref with
  | pub k => simp [State.event, State.setPublic, Function.update_apply]
  | priv k => simp [State.event, State.setPublic]

@[simp] theorem setEvent_event (i : Slot) (e : EventStruct) :
    (s.setEvent i e).event ref = if ref = .priv i then e else s.event ref := by
  cases ref with
  | pub k => simp [State.event, State.setEvent]
  | priv k => simp [State.event, State.setEvent, Function.update_apply]

end

variable {s t : State P} {processo : P} {event : EventName} {attributi : Attributes}
  {ref : EventRef}

/-- The mask leaves nothing. -/
theorem settablePerms_eq (permessi : BitVec 8) : settablePerms permessi = 0 := by
  have hmask : ¬eMaskFix = 0 := by decide
  rw [settablePerms, if_neg hmask]
  exact BitVec.and_zero

omit [DecidableEq P] in
/-- A call that comes to an event takes its permissions, whether it fails or not. -/
theorem setevent_reaches (h : Reaches s processo event attributi ref) :
    ∃ t, setevent s processo event attributi =
        (some (if 1 < attributi.valore then .eventWrongvals else .success), t) ∧
      (∀ r, t.event r = if r = ref then { s.event ref with perms := 0 } else s.event r) ∧
      t.inits = if 1 < attributi.valore then s.inits else s.inits ++ [(ref, attributi.valore)] := by
  obtain ⟨hfound, hsettable, htimeout, hhandler⟩ := h
  unfold attributeTarget at hfound
  unfold setevent
  simp only [searcheventPub_boolP, searcheventPriv_boolP, searcheventPriv_boolV, htimeout,
    hhandler, ne_eq, not_true_eq_false, if_false, settablePerms_eq]
  cases hpub : searcheventPub s event with
  | some i =>
    rw [hpub] at hfound
    obtain rfl := Option.some.inj hfound
    have hperm : ((s.boolP .eventsSem).publicEvents i).perms &&& eMaskTaken ≠ 0 ∧
        ((s.boolP .eventsSem).publicEvents i).perms &&& eMaskFix ≠ 0 ∧
        ((s.boolP .eventsSem).publicEvents i).owner = (s.boolP .eventsSem).pid processo :=
      hsettable
    dsimp only
    rw [if_pos hperm]
    by_cases hvalore : 1 < attributi.valore
    · rw [if_pos ⟨or_eMaskBool_ne 0, hvalore⟩, if_pos hvalore, if_pos hvalore]
      refine ⟨_, rfl, fun r => ?_, ?_⟩
      · simp only [boolV_event, setPublic_event, boolP_event]
        rfl
      · simp only [boolV_inits, setPublic_inits, boolP_inits]
    · rw [if_neg fun hboth => hvalore hboth.2, if_neg hvalore, if_neg hvalore]
      refine ⟨_, rfl, fun r => ?_, ?_⟩
      · simp only [boolV_event, initSemaphore_event, setPublic_event, boolP_event]
        rfl
      · simp only [boolV_inits, initSemaphore_inits, setPublic_inits, boolP_inits]
  | none =>
    rw [hpub] at hfound
    cases hpriv : searcheventPriv s processo event with
    | none =>
      rw [hpriv] at hfound
      cases hfound
    | some cursore =>
      cases cursore with
      | none =>
        rw [hpriv] at hfound
        cases hfound
      | some e =>
        rw [hpriv] at hfound
        obtain rfl := Option.some.inj hfound
        dsimp only
        by_cases hvalore : 1 < attributi.valore
        · rw [if_pos ⟨or_eMaskBool_ne 0, hvalore⟩, if_pos hvalore, if_pos hvalore]
          refine ⟨_, rfl, fun r => ?_, ?_⟩
          · simp only [boolV_event, setEvent_event, boolP_event]
            rfl
          · simp only [boolV_inits, setEvent_inits, boolP_inits]
        · rw [if_neg fun hboth => hvalore hboth.2, if_neg hvalore, if_neg hvalore]
          refine ⟨_, rfl, fun r => ?_, ?_⟩
          · simp only [boolV_event, initSemaphore_event, setEvent_event, boolP_event]
            rfl
          · simp only [boolV_inits, initSemaphore_inits, setEvent_inits, boolP_inits]

omit [DecidableEq P] in
/-- A call that comes to no event leaves all as it is. -/
theorem setevent_fails (h : ∀ ref, ¬Reaches s processo event attributi ref) :
    (setevent s processo event attributi).1 ≠ some .success ∧
      Untouched s (setevent s processo event attributi).2 := by
  have hnot : ∀ ref, attributeTarget s processo event = some ref → Settable s processo ref →
      attributi.timeout = 0 → attributi.handler ≠ 0 :=
    fun ref hfound hsettable htimeout hhandler => h ref ⟨hfound, hsettable, htimeout, hhandler⟩
  have hlocks : ∀ code : Option Code, code ≠ some .success → ∀ t : State P,
      (∀ ref, t.event ref = s.event ref) → t.inits = s.inits →
        (code, t).1 ≠ some .success ∧ Untouched s (code, t).2 :=
    fun code hcode t hevent hinits => ⟨hcode, hevent, hinits⟩
  unfold attributeTarget at hnot
  unfold setevent
  simp only [searcheventPub_boolP, searcheventPriv_boolP, searcheventPriv_boolV]
  cases hpub : searcheventPub s event with
  | some i =>
    rw [hpub] at hnot
    dsimp only
    split
    · rename_i hperm
      split
      · apply hlocks _ (by decide)
        · simp
        · simp
      · rename_i htimeout
        rw [if_pos (hnot _ rfl hperm (not_not.mp htimeout))]
        apply hlocks _ (by decide)
        · simp
        · simp
    · apply hlocks _ (by decide)
      · simp
      · simp
  | none =>
    rw [hpub] at hnot
    cases hpriv : searcheventPriv s processo event with
    | none =>
      apply hlocks _ (by decide)
      · simp
      · simp
    | some cursore =>
      cases cursore with
      | none =>
        apply hlocks _ (by decide)
        · simp
        · simp
      | some e =>
        rw [hpriv] at hnot
        dsimp only
        split
        · apply hlocks _ (by decide)
          · simp
          · simp
        · rename_i htimeout
          rw [if_pos (hnot _ rfl trivial (not_not.mp htimeout))]
          apply hlocks _ (by decide)
          · simp
          · simp

omit [DecidableEq P] in
/-- There is nothing wrong with a call that comes to no event. -/
theorem SetsRight.of_unreached (h : ∀ ref, ¬Reaches s processo event attributi ref) :
    SetsRight s processo event attributi := by
  obtain ⟨hcode, huntouched⟩ := setevent_fails h
  constructor
  · intro code t ht _
    rw [ht] at huntouched
    exact huntouched
  · intro t ht
    rw [ht] at hcode
    exact absurd rfl hcode
  · exact fun code t ref _ href => absurd href (h ref)

omit [DecidableEq P] in
/-- A value above 1 is refused, but the permissions have been cleared by then. -/
theorem Reaches.setsRight_iff_refused (hreach : Reaches s processo event attributi ref)
    (hvalore : 1 < attributi.valore) : SetsRight s processo event attributi ↔
      Refused attributi ∧ (s.event ref).perms = 0 := by
  obtain ⟨t, hcall, hevent, hinits⟩ := setevent_reaches hreach
  have hself := hevent ref
  rw [if_pos rfl] at hself
  rw [if_pos hvalore] at hcall hinits
  constructor
  · intro hright
    have hsame := (hright.error _ t hcall Code.noConfusion).1 ref
    rw [hself] at hsame
    exact ⟨(hright.check _ t ref hcall hreach).mp rfl, congrArg EventStruct.perms hsame.symm⟩
  · rintro ⟨hrefused, hperms⟩
    constructor
    · intro code t' ht' _
      obtain ⟨-, rfl⟩ := Prod.mk.inj (hcall.symm.trans ht')
      refine ⟨fun r => ?_, hinits⟩
      rw [hevent]
      split
      · rename_i hr
        rw [hr, ← hperms]
      · rfl
    · intro t' ht'
      rw [hcall] at ht'
      cases ht'
    · intro code t' r ht' _
      obtain ⟨hcode, -⟩ := Prod.mk.inj (hcall.symm.trans ht')
      exact iff_of_true (Option.some.inj hcode).symm hrefused

omit [DecidableEq P] in
/-- Another value is accepted, and the permissions are cleared all the same. -/
theorem Reaches.setsRight_iff_granted (hreach : Reaches s processo event attributi ref)
    (hvalore : ¬1 < attributi.valore) : SetsRight s processo event attributi ↔
      attributi.permessi &&& ~~~eMaskFix = 0 := by
  obtain ⟨t, hcall, hevent, hinits⟩ := setevent_reaches hreach
  have hself := hevent ref
  rw [if_pos rfl] at hself
  rw [if_neg hvalore] at hcall hinits
  constructor
  · intro hright
    obtain ⟨r, hr, hgranted⟩ := hright.success t hcall
    obtain rfl : ref = r := Option.some.inj (hreach.found.symm.trans hr.found)
    have hsame := hgranted.event
    rw [hself] at hsame
    exact congrArg EventStruct.perms hsame.symm
  · intro hasked
    constructor
    · intro code t' ht' hcode
      obtain ⟨hsuccess, -⟩ := Prod.mk.inj (hcall.symm.trans ht')
      exact absurd (Option.some.inj hsuccess).symm hcode
    · intro t' ht'
      obtain ⟨-, rfl⟩ := Prod.mk.inj (hcall.symm.trans ht')
      refine ⟨ref, hreach, ?_, ?_, hinits⟩
      · rw [hself, hasked]
      · intro other hother
        rw [hevent, if_neg hother]
    · intro code t' r ht' _
      obtain ⟨hsuccess, -⟩ := Prod.mk.inj (hcall.symm.trans ht')
      apply iff_of_false _ fun hrefused => hvalore hrefused.2
      intro hwrong
      rw [hwrong] at hsuccess
      cases hsuccess

omit [DecidableEq P] in
/-- What a call does is right exactly if it is harmless. -/
theorem setsRight_iff (s : State P) (processo : P) (event : EventName) (attributi : Attributes) :
    SetsRight s processo event attributi ↔ Harmless s processo event attributi := by
  by_cases hreach : ∃ ref, Reaches s processo event attributi ref
  · obtain ⟨ref, hreach⟩ := hreach
    -- a name stands for one event only
    have hone : Harmless s processo event attributi ↔
        Refused attributi ∧ (s.event ref).perms = 0 ∨
          attributi.valore ≤ 1 ∧ attributi.permessi &&& ~~~eMaskFix = 0 := by
      constructor
      · exact fun h => h ref hreach
      · intro h r hr
        obtain rfl : ref = r := Option.some.inj (hreach.found.symm.trans hr.found)
        exact h
    by_cases hvalore : 1 < attributi.valore
    · rw [hreach.setsRight_iff_refused hvalore, hone]
      exact (or_iff_left fun h => absurd hvalore (BitVec.not_lt.mpr h.1)).symm
    · rw [hreach.setsRight_iff_granted hvalore, hone,
        or_iff_right fun h => hvalore h.1.2, and_iff_right (BitVec.not_lt.mp hvalore)]
  · have hnone : ∀ ref, ¬Reaches s processo event attributi ref := not_exists.mp hreach
    exact iff_of_true (.of_unreached hnone) fun ref href => absurd href (hnone ref)

/-- A private event was just created. -/
def withTimer : State Unit := (getevent single () timer).2

/-- A boolean event with the value 2. -/
def wrongAttributes : Attributes := ⟨eMaskTaken ||| eMaskBool, 2, 0, 0⟩

/-- The value is refused, and the permissions are gone. -/
theorem refused_and_cleared :
    (withTimer.event (.priv 0)).perms = eMaskTaken ||| eMaskBool ∧
      (setevent withTimer () timer wrongAttributes).1 = some .eventWrongvals ∧
      ((setevent withTimer () timer wrongAttributes).2.event (.priv 0)).perms = 0 ∧
      ¬SetsRight withTimer () timer wrongAttributes := by
  have hbefore : (withTimer.event (.priv 0)).perms = eMaskTaken ||| eMaskBool := by decide +kernel
  have hcode : (setevent withTimer () timer wrongAttributes).1 = some .eventWrongvals := by
    decide +kernel
  have hafter : ((setevent withTimer () timer wrongAttributes).2.event (.priv 0)).perms = 0 := by
    decide +kernel
  refine ⟨hbefore, hcode, hafter, fun hright => ?_⟩
  have hsame := (hright.error .eventWrongvals (setevent withTimer () timer wrongAttributes).2
    (Prod.ext hcode rfl) Code.noConfusion).1 (.priv 0)
  rw [hsame, hbefore] at hafter
  exact absurd hafter (by decide)

end OsdevArchive.Osso.Events
