import OsdevArchive.Osso.Events

/-!
The semaphores that the event calls take and release. A call leaves its operations in
the trace of the state; it is balanced if, in this order, each release is of a semaphore
that is held, and nothing is held at the end.
-/

namespace OsdevArchive.Osso.Events

variable {P : Type} [DecidableEq P]

/-- The locks that are held after an operation, `none` if one is released that is not. -/
def SemOp.held (locks : List (Lock P)) : SemOp P → Option (List (Lock P))
  | .p lock => some (lock :: locks)
  | .v lock => if lock ∈ locks then some (locks.erase lock) else none
  | _ => some locks

/-- Each semaphore is released as often as it was acquired, and only while it is held. -/
def Balanced (ops : List (SemOp P)) : Prop := ops.foldlM SemOp.held [] = some []

instance (ops : List (SemOp P)) : Decidable (Balanced ops) := inferInstanceAs (Decidable (_ = _))

/-- The paths of the calls that are balanced. -/
def BalancedPath (s : State P) : Call P → Prop
  | .getevent .. => False
  | .clearevent _ event => (searcheventPub s event).isSome
  | .setevent processo event attributi =>
    (searcheventPub s event).isSome ∨ searcheventPriv s processo event = some none ∨
      attributi.timeout ≠ 0 ∨ attributi.handler ≠ 0 ∨ 1 < attributi.valore
  | .signal .. => True
  | .wait processo event =>
    (searcheventPub s event).isSome ∨ searcheventPriv s processo event ≠ some none

/-! ### The operations of each call -/

theorem addEventToList_ops (s : State P) (processo : P) :
    (addEventToList s processo).2.ops = s.ops ++ [.p .privEventsSem, .v .privEventsSem] := by
  unfold addEventToList
  dsimp only
  split
  · simp
  · simp

theorem freeLoop_ops {processo : P} {evento : EventName} {fuel : Nat} {s t : State P}
    {cursore : Ptr} {base : Base} {found : Bool}
    (h : freeLoop processo evento fuel s cursore base = some (found, t)) : t.ops = s.ops := by
  induction fuel generalizing cursore base with
  | zero => cases h
  | succ fuel ih =>
    cases cursore with
    | none =>
      cases h
      rfl
    | some e =>
      rw [freeLoop] at h
      split at h
      · cases h
        cases base with
        | eventsList => rfl
        | cursore => rfl
      · exact ih h

theorem freeEventInList_ops {s t : State P} {processo : P} {evento : EventName} {code : Code}
    (h : freeEventInList s processo evento = (some code, t)) :
    t.ops = s.ops ++ [.p .privEventsSem, .v .privEventsSem] := by
  unfold freeEventInList at h
  dsimp only at h
  split at h
  · cases h
  · next hloop =>
    cases h
    rw [boolV_ops, freeLoop_ops hloop, boolP_ops, List.append_assoc]
    rfl

section
variable {s t : State P} {processo : P} {event : EventName} {code : Code}

theorem clearevent_ops (h : s.call (.clearevent processo event) = (some code, t)) :
    t.ops = s.ops ++ if (searcheventPub s event).isSome then [.p .eventsSem, .v .eventsSem]
      else [.p .eventsSem, .p .privEventsSem, .v .privEventsSem] := by
  simp only [State.call, clearevent, searcheventFix, Option.isSome_none, Bool.false_eq_true,
    if_false, searcheventPub_boolP] at h
  split at h
  · next hpub =>
    rw [hpub]
    split at h
    · cases h
      simp
    · cases h
      simp
  · next hpub =>
    rw [hpub, freeEventInList_ops h]
    simp

/-- Whichever way `getevent` returns, it has released `Events_Sem`, which it never took. -/
theorem getevent_unbalanced (hops : s.ops = [])
    (h : s.call (.getevent processo event) = (some code, t)) : ¬ Balanced t.ops := by
  simp only [State.call, getevent, searcheventFix, Option.isSome_none, Bool.false_eq_true,
    if_false, searcheventPriv_boolP, searcheventPriv_boolV] at h
  split at h
  · split at h
    · cases h
      simp [hops, Balanced, SemOp.held]
    · cases h
      simp [hops, Balanced, SemOp.held]
  · split at h
    · cases h
    · cases h
      simp [hops, Balanced, SemOp.held]
    · have hadd := addEventToList_ops
        ((s.boolV .eventsSem).boolP (.processEventsSem processo)) processo
      split at h
      · next hresult =>
        cases h
        rw [hresult] at hadd
        dsimp only at hadd
        simp [hadd, hops, Balanced, SemOp.held]
      · next hresult =>
        rw [hresult] at hadd
        dsimp only at hadd
        split at h
        · cases h
        · cases h
          simp [hadd, hops, Balanced, SemOp.held]

theorem setevent_balanced_iff {attributi : Attributes} (hops : s.ops = [])
    (h : s.call (.setevent processo event attributi) = (some code, t)) :
    Balanced t.ops ↔ BalancedPath s (.setevent processo event attributi) := by
  simp only [State.call, setevent, searcheventPub_boolP, searcheventPriv_boolP,
    searcheventPriv_boolV] at h
  simp only [BalancedPath]
  split at h
  · next hpub =>
    rw [hpub]
    repeat' split at h
    all_goals
      cases h
      simp [hops, Balanced, SemOp.held]
  · next hpub =>
    rw [hpub]
    split at h
    · cases h
    · next hmissing =>
      cases h
      simp [hmissing, hops, Balanced, SemOp.held]
    · next hfound =>
      rw [hfound]
      split at h
      · next htimeout =>
        cases h
        refine iff_of_true ?_ (.inr (.inr (.inl htimeout)))
        simp [hops, Balanced, SemOp.held]
      · next htimeout =>
        split at h
        · next hhandler =>
          cases h
          refine iff_of_true ?_ (.inr (.inr (.inr (.inl hhandler))))
          simp [hops, Balanced, SemOp.held]
        · next hhandler =>
          split at h
          · next hvalore =>
            cases h
            refine iff_of_true ?_ (.inr (.inr (.inr (.inr hvalore.2))))
            simp [hops, Balanced, SemOp.held]
          · next hvalore =>
            cases h
            refine iff_of_false ?_ ?_
            · simp [hops, Balanced, SemOp.held]
            · rintro (hpublic | hmissing | ht | hh | hv)
              · cases hpublic
              · cases hmissing
              · exact htimeout ht
              · exact hhandler hh
              · exact hvalore ⟨or_eMaskBool_ne _, hv⟩

theorem signal_balanced {pid : Dword} (hops : s.ops = [])
    (h : s.call (.signal processo pid event) = (some code, t)) : Balanced t.ops := by
  simp only [State.call, signal, searcheventPub_boolP, searcheventPriv_boolP] at h
  repeat' split at h
  all_goals
    cases h
    try simp [hops, Balanced, SemOp.held]

theorem wait_balanced_iff (hops : s.ops = [])
    (h : s.call (.wait processo event) = (some code, t)) :
    Balanced t.ops ↔ BalancedPath s (.wait processo event) := by
  simp only [State.call, wait, searcheventPub_boolP, searcheventPriv_boolP,
    searcheventPriv_boolV] at h
  simp only [BalancedPath]
  split at h
  · next hpub =>
    rw [hpub]
    repeat' split at h
    all_goals
      cases h
      simp [hops, Balanced, SemOp.held]
  · next hpub =>
    rw [hpub]
    split at h
    · cases h
    · next hfound =>
      cases h
      simp [hfound, hops, Balanced, SemOp.held]
    · next hmissing =>
      cases h
      simp [hmissing, hops, Balanced, SemOp.held]

theorem clearevent_balanced_iff (hops : s.ops = [])
    (h : s.call (.clearevent processo event) = (some code, t)) :
    Balanced t.ops ↔ BalancedPath s (.clearevent processo event) := by
  rw [clearevent_ops h, hops]
  by_cases hpub : (searcheventPub s event).isSome
  · simp [hpub, BalancedPath, Balanced, SemOp.held]
  · simp [hpub, BalancedPath, Balanced, SemOp.held]

end

/-- A call that returns has released what it took, exactly if it took one of these paths. -/
theorem call_balanced_iff {s t : State P} {c : Call P} {code : Code} (hops : s.ops = [])
    (h : s.call c = (some code, t)) : Balanced t.ops ↔ BalancedPath s c := by
  cases c with
  | getevent processo nome => exact iff_of_false (getevent_unbalanced hops h) id
  | clearevent processo event => exact clearevent_balanced_iff hops h
  | setevent processo event attributi => exact setevent_balanced_iff hops h
  | signal processo pid evento => exact iff_of_true (signal_balanced hops h) trivial
  | wait processo event => exact wait_balanced_iff hops h

theorem call_balanced_public :
    Balanced (single.call (.clearevent () (interruptName 3))).2.ops := by
  have hcall : single.call (.clearevent () (interruptName 3)) =
      (some .eventNoperms, (single.call (.clearevent () (interruptName 3))).2) := rfl
  have hpublic : (searcheventPub single (interruptName 3)).isSome := by decide +kernel
  exact (call_balanced_iff rfl hcall).mpr hpublic

/-- Waiting for an event that does not exist keeps the lock of the process. -/
theorem wait_keeps_lock :
    (single.call (.wait () timer)).1 = some .eventNotexist ∧
      (single.call (.wait () timer)).2.ops =
        [.p .eventsSem, .v .eventsSem, .p (.processEventsSem ())] ∧
      ¬ Balanced (single.call (.wait () timer)).2.ops := by
  exact ⟨by decide +kernel, by decide +kernel, by decide +kernel⟩

end OsdevArchive.Osso.Events
