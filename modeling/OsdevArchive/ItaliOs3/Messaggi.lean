import OsdevArchive.Lib.Runs
import Mathlib.Data.BitVec
import Mathlib.Data.List.Perm.Basic
import Mathlib.Logic.Function.Basic

/-!
The mailboxes of ItaliOs3 (`task/messaggi.cc`), over the container in `lib/stack`. Processes call
in any order. `send` and `receive` stop the scheduler while they work; the other calls are
interleaved from one access to the mailboxes to the next.
-/

namespace OsdevArchive.ItaliOs3.Messaggi

open OsdevArchive.Lib.Runs

/-! ### The container -/

/-- The elements from the head on. -/
structure Stack (α : Type*) where
  nodes : List α
  dimens : Nat

namespace Stack

variable {α : Type*}

def init : Stack α := ⟨[], 0⟩

def push (s : Stack α) (e : α) : Stack α := ⟨e :: s.nodes, s.dimens + 1⟩

/-- `none` goes through the null pointer. -/
def pop (s : Stack α) : Option (α × Stack α) :=
  match s.nodes with
  | [] => none
  | zombie :: next => some (zombie, ⟨next, s.dimens - 1⟩)

def size (s : Stack α) : Nat := s.dimens

end Stack

/-! ### Mailboxes -/

abbrev CasellaPostale := BitVec 32

inductive AccountState where
  | aperto
  | chiuso
  | nonCreato
deriving DecidableEq

def maxCaselle : Nat := 1000

/-- The bytes of a message, as many as its `size` says, and who has sent it. -/
structure Messaggio where
  msg : List (BitVec 8)
  mittente : CasellaPostale
deriving DecidableEq

structure Account where
  stato : AccountState
  casella : Stack Messaggio

/-- What happened to a mailbox. -/
inductive Scambio where
  | inviato (m : Messaggio)
  | ricevuto (m : Messaggio)

/-- What a process does next. -/
inductive Pc where
  | ferma
  | cerca (cod : Nat)
  | apre (cod : Option Nat)
  | chiude (cod : Nat)
  | risponde (destinatario : CasellaPostale)

/-- The mailbox that `apri_account` is about to open. -/
def Pc.trovata : Pc → Option Nat
  | .apre cod => cod
  | _ => none

/-- The mailboxes and what lies in front of the first one, the processes and what their last call
returned, the codes that `apri_account` has returned, and what happened to the mailboxes. -/
structure State (P : Type) where
  ufficioPostale : Nat → Account
  davanti : Option AccountState
  pc : P → Pc
  reso : P → BitVec 32
  codici : List CasellaPostale
  storia : Nat → List Scambio

inductive Azione where
  | apriAccount
  | chiudiAccount (cod : CasellaPostale)
  | send (mittente destinatario : CasellaPostale) (messaggio : List (BitVec 8))
  | receive (mioCodice : CasellaPostale)
  | passo
deriving DecidableEq

section

variable {P : Type} [DecidableEq P]

namespace State

variable (s : State P)

def Esistente (cod : CasellaPostale) : Prop :=
  cod.toNat < maxCaselle ∧ (s.ufficioPostale cod.toNat).stato = .aperto

instance instDecidableEsistente (cod : CasellaPostale) : Decidable (s.Esistente cod) :=
  inferInstanceAs (Decidable (_ ∧ _))

def va (p : P) (pc : Pc) : State P := { s with pc := Function.update s.pc p pc }

/-- A call returns. -/
def ritorna (p : P) (r : BitVec 32) : State P :=
  { s with pc := Function.update s.pc p .ferma, reso := Function.update s.reso p r }

def cambia (cod : Nat) (stato : AccountState) : State P :=
  { s with
    ufficioPostale := Function.update s.ufficioPostale cod
      ⟨stato, (s.ufficioPostale cod).casella⟩ }

/-- The mailbox after an exchange. -/
def scambia (cod : Nat) (casella : Stack Messaggio) (x : Scambio) : State P :=
  { s with
    ufficioPostale := Function.update s.ufficioPostale cod
      ⟨(s.ufficioPostale cod).stato, casella⟩
    storia := Function.update s.storia cod (s.storia cod ++ [x]) }

/-- `apri_account` returns. -/
def aperta (p : P) (cod : CasellaPostale) : State P :=
  { s.ritorna p cod with codici := s.codici ++ [cod] }

end State

/-- One step of the call that a process is in. -/
def passo (s : State P) (p : P) : Option (State P) :=
  match s.pc p with
  | .ferma => none
  | .cerca cod =>
    if cod < maxCaselle then
      if (s.ufficioPostale cod).stato = .nonCreato then some (s.va p (.apre (some cod)))
      else some (s.va p (.cerca (cod + 1)))
    else some (s.va p (.apre none))
  | .apre (some cod) => some ((s.cambia cod .aperto).aperta p (BitVec.ofNat 32 cod))
  | .apre none => some ({ s with davanti := some .aperto }.aperta p (-1))
  | .chiude cod => some ((s.cambia cod .chiuso).ritorna p 0)
  | .risponde destinatario =>
    some (s.ritorna p (if ¬ s.Esistente destinatario then -1 else -2))

/-- A call of a process that is in none, up to the first place where another process may go on. -/
def chiama (s : State P) (p : P) : Azione → Option (State P)
  | .apriAccount => some (s.va p (.cerca 0))
  | .chiudiAccount cod =>
    if s.Esistente cod then some (s.va p (.chiude cod.toNat)) else some (s.ritorna p (-1))
  | .send mittente destinatario messaggio =>
    if s.Esistente mittente ∧ s.Esistente destinatario then
      let msg : Messaggio := ⟨messaggio, mittente⟩
      some ((s.scambia destinatario.toNat
        ((s.ufficioPostale destinatario.toNat).casella.push msg) (.inviato msg)).ritorna p 0)
    else some (s.va p (.risponde destinatario))
  | .receive mioCodice =>
    if s.Esistente mioCodice then
      if (s.ufficioPostale mioCodice.toNat).casella.size ≠ 0 then do
        let (mymsg, casella) ← (s.ufficioPostale mioCodice.toNat).casella.pop
        some ((s.scambia mioCodice.toNat casella (.ricevuto mymsg)).ritorna p mymsg.mittente)
      else some (s.ritorna p 0)
    else some (s.ritorna p 0)
  | .passo => none

def step (s : State P) (e : P × Azione) : Option (State P) :=
  match e.2 with
  | .passo => passo s e.1
  | azione =>
    match s.pc e.1 with
    | .ferma => chiama s e.1 azione
    | _ => none

/-- After `init_msg`. -/
def initMsg : State P :=
  ⟨fun _ => ⟨.nonCreato, .init⟩, none, fun _ => .ferma, fun _ => 0, [], fun _ => []⟩

/-! ### Last in, first out -/

/-- Every message received is the last one sent of those that were in the mailbox; those that are
in it are the last argument. -/
inductive Lifo : List Scambio → List Messaggio → Prop where
  | empty : Lifo [] []
  | sent {storia : List Scambio} {nodes : List Messaggio} (m : Messaggio) :
      Lifo storia nodes → Lifo (storia ++ [.inviato m]) (m :: nodes)
  | received {storia : List Scambio} {nodes : List Messaggio} {m : Messaggio} :
      Lifo storia (m :: nodes) → Lifo (storia ++ [.ricevuto m]) nodes

def Scambio.sent? : Scambio → Option Messaggio
  | .inviato m => some m
  | .ricevuto _ => none

def Scambio.received? : Scambio → Option Messaggio
  | .inviato _ => none
  | .ricevuto m => some m

def inviati (storia : List Scambio) : List Messaggio := storia.filterMap Scambio.sent?

def ricevuti (storia : List Scambio) : List Messaggio := storia.filterMap Scambio.received?

/-- Every message sent has been received or is in the mailbox, once. -/
theorem Lifo.perm {storia : List Scambio} {nodes : List Messaggio} (h : Lifo storia nodes) :
    (inviati storia).Perm (ricevuti storia ++ nodes) := by
  induction h with
  | empty => exact .nil
  | @sent storia nodes m _ ih =>
    have hin : inviati (storia ++ [.inviato m]) = inviati storia ++ [m] := List.filterMap_append
    have hout : ricevuti (storia ++ [.inviato m]) = ricevuti storia ++ [] :=
      List.filterMap_append
    rw [hin, hout, List.append_nil]
    have hmove : ([m] ++ (ricevuti storia ++ nodes)).Perm (ricevuti storia ++ m :: nodes) :=
      (@List.perm_middle _ m (ricevuti storia) nodes).symm
    exact ((ih.append_right [m]).trans List.perm_append_comm).trans hmove
  | @received storia nodes m _ ih =>
    have hin : inviati (storia ++ [.ricevuto m]) = inviati storia ++ [] := List.filterMap_append
    have hout : ricevuti (storia ++ [.ricevuto m]) = ricevuti storia ++ [m] :=
      List.filterMap_append
    rw [hin, hout, List.append_nil, List.append_assoc]
    exact ih

/-- The mailboxes hold what was sent to them, and the codes are those of mailboxes or say that
there is none. -/
structure Ordinata (s : State P) : Prop where
  lifo : ∀ cod, Lifo (s.storia cod) (s.ufficioPostale cod).casella.nodes
  size : ∀ cod, (s.ufficioPostale cod).casella.dimens = (s.ufficioPostale cod).casella.nodes.length
  codes : ∀ cod ∈ s.codici, cod.toNat < maxCaselle ∨ cod = -1
  found : ∀ p cod, s.pc p = .apre (some cod) → cod < maxCaselle

/-- A step that is part of a call that fails, or comes before what the call does. -/
def Vana (s : State P) (e : P × Azione) : Prop :=
  match e.2 with
  | .apriAccount => True
  | .chiudiAccount _ => True
  | .send mittente destinatario _ => ¬ (s.Esistente mittente ∧ s.Esistente destinatario)
  | .receive mioCodice => ¬ s.Esistente mioCodice ∨
      (s.ufficioPostale mioCodice.toNat).casella.nodes = []
  | .passo => (∀ cod, s.pc e.1 ≠ .apre (some cod)) ∧ ∀ cod, s.pc e.1 ≠ .chiude cod

/-- The mailbox that `apri_account` has found is still not in use when it is opened. -/
def Sola (s : State P) (e : P × Azione) : Prop :=
  e.2 = .passo → ∀ cod ∈ (s.pc e.1).trovata, (s.ufficioPostale cod).stato = .nonCreato

instance instDecidableSola (s : State P) (e : P × Azione) : Decidable (Sola s e) :=
  inferInstanceAs (Decidable (_ → ∀ cod ∈ (s.pc e.1).trovata, _ = _))

/-- The codes that were returned for mailboxes are those of mailboxes in use, each one once. -/
structure Distinte (s : State P) : Prop where
  once : (s.codici.filter fun cod => cod.toNat < maxCaselle).Nodup
  used : ∀ cod ∈ s.codici, cod.toNat < maxCaselle →
    (s.ufficioPostale cod.toNat).stato ≠ .nonCreato

variable {s t : State P} {p : P} {e : P × Azione}

/-! ### Steps -/

/-- What a step can do. -/
inductive Mossa (s : State P) (p : P) : Azione → State P → Prop where
  | va {azione : Azione} {pc : Pc} : (∀ cod, pc = .apre (some cod) → cod < maxCaselle) →
      Mossa s p azione (s.va p pc)
  | ritorna {azione : Azione} (r : BitVec 32) : Mossa s p azione (s.ritorna p r)
  | apre {cod : Nat} : s.pc p = .apre (some cod) →
      Mossa s p .passo ((s.cambia cod .aperto).aperta p (BitVec.ofNat 32 cod))
  | piena : s.pc p = .apre none →
      Mossa s p .passo ({ s with davanti := some .aperto }.aperta p (-1))
  | chiude {cod : Nat} : s.pc p = .chiude cod →
      Mossa s p .passo ((s.cambia cod .chiuso).ritorna p 0)
  | send {mittente destinatario : CasellaPostale} {messaggio : List (BitVec 8)} :
      s.Esistente mittente → s.Esistente destinatario →
      Mossa s p (.send mittente destinatario messaggio) ((s.scambia destinatario.toNat
        ((s.ufficioPostale destinatario.toNat).casella.push ⟨messaggio, mittente⟩)
        (.inviato ⟨messaggio, mittente⟩)).ritorna p 0)
  | receive {cod : CasellaPostale} {m : Messaggio} {next : List Messaggio} : s.Esistente cod →
      (s.ufficioPostale cod.toNat).casella.nodes = m :: next →
      Mossa s p (.receive cod) ((s.scambia cod.toNat
        ⟨next, (s.ufficioPostale cod.toNat).casella.dimens - 1⟩ (.ricevuto m)).ritorna p m.mittente)

theorem passo_mossa (h : passo s p = some t) : Mossa s p .passo t := by
  unfold passo at h
  split at h
  · cases h
  · split at h
    · rename_i hcod
      split at h
      · obtain rfl := Option.some.inj h
        refine .va fun cod hpc => ?_
        cases hpc
        exact hcod
      · obtain rfl := Option.some.inj h
        exact .va fun cod hpc => by cases hpc
    · obtain rfl := Option.some.inj h
      exact .va fun cod hpc => by cases hpc
  · rename_i hpc
    obtain rfl := Option.some.inj h
    exact .apre hpc
  · rename_i hpc
    obtain rfl := Option.some.inj h
    exact .piena hpc
  · rename_i hpc
    obtain rfl := Option.some.inj h
    exact .chiude hpc
  · obtain rfl := Option.some.inj h
    exact .ritorna _

theorem chiama_mossa {azione : Azione} (h : chiama s p azione = some t) : Mossa s p azione t := by
  cases azione with
  | apriAccount =>
    obtain rfl := Option.some.inj h
    exact .va fun cod hpc => by cases hpc
  | chiudiAccount cod =>
    unfold chiama at h
    dsimp only at h
    split at h
    · obtain rfl := Option.some.inj h
      exact .va fun cod hpc => by cases hpc
    · obtain rfl := Option.some.inj h
      exact .ritorna _
  | send mittente destinatario messaggio =>
    unfold chiama at h
    dsimp only at h
    split at h
    · rename_i hboth
      obtain rfl := Option.some.inj h
      exact .send hboth.1 hboth.2
    · obtain rfl := Option.some.inj h
      exact .va fun cod hpc => by cases hpc
  | receive mioCodice =>
    unfold chiama at h
    dsimp only at h
    split at h
    · rename_i hmio
      split at h
      · obtain ⟨⟨m, casella⟩, hpop, hrest⟩ := Option.bind_eq_some_iff.mp h
        obtain rfl := Option.some.inj hrest
        unfold Stack.pop at hpop
        split at hpop
        · cases hpop
        · rename_i hnodes
          obtain ⟨rfl, rfl⟩ := Prod.mk.inj (Option.some.inj hpop)
          exact .receive hmio hnodes
      · obtain rfl := Option.some.inj h
        exact .ritorna _
    · obtain rfl := Option.some.inj h
      exact .ritorna _
  | passo => cases h

theorem step_mossa (h : step s e = some t) : Mossa s e.1 e.2 t := by
  unfold step at h
  split at h
  · rename_i hpasso
    rw [hpasso]
    exact passo_mossa h
  · split at h
    · exact chiama_mossa h
    · cases h

/-! ### Mailboxes stay in order -/

omit [DecidableEq P] in
theorem cambia_casella (s : State P) (cod : Nat) (stato : AccountState) (i : Nat) :
    ((s.cambia cod stato).ufficioPostale i).casella = (s.ufficioPostale i).casella := by
  unfold State.cambia
  dsimp only
  rw [Function.update_apply]
  split
  · rename_i heq
    rw [heq]
  · rfl

omit [DecidableEq P] in
theorem Ordinata.same (h : Ordinata s)
    (hcaselle : ∀ i, (t.ufficioPostale i).casella = (s.ufficioPostale i).casella)
    (hstoria : t.storia = s.storia)
    (hcodes : ∀ cod ∈ t.codici, cod ∈ s.codici ∨ cod.toNat < maxCaselle ∨ cod = -1)
    (hfound : ∀ p cod, t.pc p = .apre (some cod) → cod < maxCaselle) : Ordinata t := by
  refine ⟨fun cod => ?_, fun cod => ?_, fun cod hcod => ?_, hfound⟩
  · rw [hstoria, hcaselle]
    exact h.lifo cod
  · rw [hcaselle]
    exact h.size cod
  · obtain hold | hnew := hcodes cod hcod
    · exact h.codes cod hold
    · exact hnew

/-- A process that goes somewhere else than to a mailbox that it has found. -/
theorem found_update (h : Ordinata s) {pc : Pc}
    (hpc : ∀ cod, pc = .apre (some cod) → cod < maxCaselle) (q : P) (cod : Nat)
    (hq : Function.update s.pc p pc q = .apre (some cod)) : cod < maxCaselle := by
  rw [Function.update_apply] at hq
  split at hq
  · exact hpc cod hq
  · exact h.found q cod hq

theorem not_found {cod : Nat} (h : Pc.ferma = .apre (some cod)) : cod < maxCaselle := by
  cases h

/-- An exchange with a mailbox is recorded for it. -/
theorem Ordinata.scambia (h : Ordinata s) {casella : Stack Messaggio} {x : Scambio} {i : Nat}
    (hlifo : Lifo (s.storia i ++ [x]) casella.nodes) (hsize : casella.dimens = casella.nodes.length)
    (r : BitVec 32) : Ordinata ((s.scambia i casella x).ritorna p r) := by
  refine ⟨fun cod => ?_, fun cod => ?_, h.codes, found_update h fun cod => not_found⟩
  · change Lifo (Function.update s.storia i _ cod)
      (Function.update s.ufficioPostale i _ cod).casella.nodes
    by_cases heq : cod = i
    · rw [heq, Function.update_self, Function.update_self]
      exact hlifo
    · rw [Function.update_of_ne heq, Function.update_of_ne heq]
      exact h.lifo cod
  · change (Function.update s.ufficioPostale i _ cod).casella.dimens =
      (Function.update s.ufficioPostale i _ cod).casella.nodes.length
    by_cases heq : cod = i
    · rw [heq, Function.update_self]
      exact hsize
    · rw [Function.update_of_ne heq]
      exact h.size cod

theorem step_ordinata (h : Ordinata s) (hstep : step s e = some t) : Ordinata t := by
  obtain ⟨p, azione⟩ := e
  cases step_mossa hstep with
  | va hpc => exact h.same (fun _ => rfl) rfl (fun _ => .inl) (found_update h hpc)
  | ritorna r =>
    exact h.same (fun _ => rfl) rfl (fun _ => .inl) (found_update h fun cod => not_found)
  | @apre cod hpc =>
    have hless := h.found p cod hpc
    refine h.same (cambia_casella s cod .aperto) rfl (fun c hc => ?_)
      (found_update h fun cod => not_found)
    refine (List.mem_append.mp hc).imp_right fun hlast => ?_
    obtain rfl := List.mem_singleton.mp hlast
    left
    rw [BitVec.toNat_ofNat]
    unfold maxCaselle at *
    omega
  | piena hpc =>
    refine h.same (fun _ => rfl) rfl (fun c hc => ?_) (found_update h fun cod => not_found)
    exact (List.mem_append.mp hc).imp_right fun hlast => .inr (List.mem_singleton.mp hlast)
  | @chiude cod hpc =>
    exact h.same (cambia_casella s cod .chiuso) rfl (fun _ => .inl)
      (found_update h fun cod => not_found)
  | @send mittente destinatario messaggio _ _ =>
    exact h.scambia (.sent _ (h.lifo _)) (congrArg Nat.succ (h.size _)) 0
  | @receive cod m next _ hnodes =>
    have hlifo := h.lifo cod.toNat
    have hsize := h.size cod.toNat
    rw [hnodes] at hlifo hsize
    refine h.scambia (.received hlifo) ?_ _
    dsimp only
    rw [hsize]
    rfl

/-- A step of a call that fails changes no mailbox. -/
theorem vana_keeps (hvana : Vana s e) (hstep : step s e = some t) :
    t.ufficioPostale = s.ufficioPostale := by
  obtain ⟨p, azione⟩ := e
  cases step_mossa hstep with
  | va hpc => rfl
  | ritorna r => rfl
  | @apre cod hpc => exact absurd hpc (hvana.1 cod)
  | piena hpc => rfl
  | @chiude cod hpc => exact absurd hpc (hvana.2 cod)
  | send hmittente hdestinatario => exact absurd ⟨hmittente, hdestinatario⟩ hvana
  | receive hmio hnodes =>
    obtain hno | hempty := hvana
    · exact absurd hmio hno
    · rw [hempty] at hnodes
      cases hnodes

/-! ### Codes -/

omit [DecidableEq P] in
theorem Distinte.same (h : Distinte s) (hcodici : t.codici = s.codici)
    (hstato : ∀ i, (s.ufficioPostale i).stato ≠ .nonCreato →
      (t.ufficioPostale i).stato ≠ .nonCreato) : Distinte t := by
  refine ⟨?_, fun cod hcod hless => ?_⟩
  · rw [hcodici]
    exact h.once
  · rw [hcodici] at hcod
    exact hstato _ (h.used cod hcod hless)

omit [DecidableEq P] in
theorem cambia_stato (s : State P) {stato : AccountState} (hne : stato ≠ .nonCreato) (cod i : Nat)
    (h : (s.ufficioPostale i).stato ≠ .nonCreato) :
    ((s.cambia cod stato).ufficioPostale i).stato ≠ .nonCreato := by
  unfold State.cambia
  dsimp only
  rw [Function.update_apply]
  split
  · exact hne
  · exact h

omit [DecidableEq P] in
theorem scambia_stato (s : State P) (cod : Nat) (casella : Stack Messaggio) (x : Scambio) (i : Nat)
    (h : (s.ufficioPostale i).stato ≠ .nonCreato) :
    ((s.scambia cod casella x).ufficioPostale i).stato ≠ .nonCreato := by
  unfold State.scambia
  dsimp only
  rw [Function.update_apply]
  split
  · rename_i heq
    rw [← heq]
    exact h
  · exact h

/-- A mailbox that is not in use gets a new code. -/
theorem Distinte.apre (h : Distinte s) {cod : Nat} (hless : cod < maxCaselle)
    (hfree : (s.ufficioPostale cod).stato = .nonCreato) :
    Distinte ((s.cambia cod .aperto).aperta p (BitVec.ofNat 32 cod)) := by
  have hnat : (BitVec.ofNat 32 cod).toNat = cod := by
    unfold maxCaselle at hless
    rw [BitVec.toNat_ofNat]
    omega
  refine ⟨?_, fun c hc hcless => ?_⟩
  · change ((s.codici ++ [BitVec.ofNat 32 cod]).filter fun c => c.toNat < maxCaselle).Nodup
    rw [List.filter_append, List.nodup_append]
    refine ⟨h.once, List.Nodup.filter _ (List.nodup_singleton _), ?_⟩
    rintro c hc _ hnew rfl
    obtain ⟨hold, hcless⟩ := List.mem_filter.mp hc
    obtain rfl := List.mem_singleton.mp (List.mem_filter.mp hnew).1
    have hused := h.used _ hold (of_decide_eq_true hcless)
    rw [hnat] at hused
    exact hused hfree
  · obtain hold | hnew := List.mem_append.mp hc
    · exact cambia_stato s (by decide) cod _ (h.used c hold hcless)
    · obtain rfl := List.mem_singleton.mp hnew
      change (Function.update s.ufficioPostale cod _ (BitVec.ofNat 32 cod).toNat).stato ≠ _
      rw [hnat, Function.update_self]
      change AccountState.aperto ≠ .nonCreato
      decide

theorem step_distinte (ho : Ordinata s) (h : Distinte s) (hsola : Sola s e)
    (hstep : step s e = some t) : Distinte t := by
  obtain ⟨p, azione⟩ := e
  cases step_mossa hstep with
  | va hpc => exact h.same rfl fun _ => id
  | ritorna r => exact h.same rfl fun _ => id
  | @apre cod hpc => exact h.apre (ho.found p cod hpc) (hsola rfl cod (congrArg Pc.trovata hpc))
  | piena hpc =>
    refine ⟨?_, fun c hc hless => ?_⟩
    · change ((s.codici ++ [-1]).filter fun c : CasellaPostale => c.toNat < maxCaselle).Nodup
      rw [List.filter_append]
      exact (List.append_nil (s.codici.filter _)).symm ▸ h.once
    · obtain hold | hnew := List.mem_append.mp hc
      · exact h.used c hold hless
      · obtain rfl := List.mem_singleton.mp hnew
        exact absurd hless (by decide)
  | @chiude cod hpc => exact h.same rfl (cambia_stato s (by decide) cod)
  | @send mittente destinatario messaggio _ _ =>
    exact h.same rfl (scambia_stato s _ _ (.inviato ⟨messaggio, mittente⟩))
  | @receive cod m _ _ _ => exact h.same rfl (scambia_stato s _ _ (.ricevuto m))

/-! ### Runs -/

omit [DecidableEq P] in
theorem initMsg_ordinata : Ordinata (initMsg : State P) :=
  ⟨fun _ => .empty, fun _ => rfl, fun _ hc => absurd hc List.not_mem_nil, fun _ _ => not_found⟩

/-- In every run the mailboxes are stacks, the codes are those of mailboxes or say that there is
none, and calls that fail change no mailbox; no two mailboxes get one code as long as each one that
is opened is still not in use. -/
theorem mailboxes_are_stacks {es : List (P × Azione)} (t : State P) :
    (Run (Computes step) initMsg es t →
      (∀ cod, Lifo (t.storia cod) (t.ufficioPostale cod).casella.nodes ∧
        (inviati (t.storia cod)).Perm
          (ricevuti (t.storia cod) ++ (t.ufficioPostale cod).casella.nodes)) ∧
      (∀ cod ∈ t.codici, cod.toNat < maxCaselle ∨ cod = -1) ∧
      ∀ e u, Vana t e → step t e = some u → u.ufficioPostale = t.ufficioPostale) ∧
    (Run (Guarded Sola (Computes step)) initMsg es t →
      (t.codici.filter fun cod => cod.toNat < maxCaselle).Nodup) := by
  refine ⟨fun hrun => ?_, fun hrun => ?_⟩
  · have ht : Ordinata t :=
      hrun.invariant (fun s e t hs hstep => step_ordinata hs hstep) initMsg_ordinata
    exact ⟨fun cod => ⟨ht.lifo cod, (ht.lifo cod).perm⟩, ht.codes, fun e u => vana_keeps⟩
  · have hstart : Distinte (initMsg : State P) :=
      ⟨List.nodup_nil, fun _ hc => absurd hc List.not_mem_nil⟩
    have ht : Ordinata t ∧ Distinte t := by
      apply hrun.guarded_invariant _ ⟨initMsg_ordinata, hstart⟩
      intro s e t hs hsola hstep
      exact ⟨step_ordinata hs.1 hstep, step_distinte hs.1 hs.2 hsola hstep⟩
    exact ht.2.once

end

/-- Two processes open mailboxes at the same time; the one sends two messages before the other
receives one and answers. -/
def twoMailboxes : List (Bool × Azione) :=
  [(true, .apriAccount), (false, .apriAccount), (true, .passo), (true, .passo), (false, .passo),
    (false, .passo), (false, .passo), (true, .send 0 1 [1]), (true, .send 0 1 [2]),
    (false, .receive 1), (false, .send 1 0 [3]), (true, .receive 0)]

/-- A process sends two messages to itself before it receives one. -/
def twoMessages : List (Unit × Azione) :=
  [((), .apriAccount), ((), .passo), ((), .passo), ((), .send 0 0 [1]), ((), .send 0 0 [2]),
    ((), .receive 0)]

theorem messages_come_back :
    ∃ t, Run (Guarded Sola (Computes step)) initMsg twoMailboxes t ∧
      (∀ cod, Lifo (t.storia cod) (t.ufficioPostale cod).casella.nodes) ∧
      (t.codici.filter fun cod => cod.toNat < maxCaselle).Nodup ∧ t.codici = [0, 1] ∧
      ricevuti (t.storia 1) = [⟨[2], 0⟩] ∧ ricevuti (t.storia 0) = [⟨[3], 1⟩] := by
  obtain ⟨t, hfold, hseen⟩ : ∃ t, twoMailboxes.foldlM (checked Sola step) initMsg = some t ∧
      t.codici = [0, 1] ∧ ricevuti (t.storia 1) = [⟨[2], 0⟩] ∧
      ricevuti (t.storia 0) = [⟨[3], 1⟩] :=
    ⟨_, rfl, by decide +kernel, by decide +kernel, by decide +kernel⟩
  have hrun := Run.of_foldlM_checked hfold
  obtain ⟨hall, hcodes⟩ := @mailboxes_are_stacks Bool _ twoMailboxes t
  exact ⟨t, hrun, fun cod => ((hall hrun.of_guarded).1 cod).1, hcodes hrun, hseen⟩

/-- Of two messages the second one is received first. -/
theorem second_message_first :
    ∃ t, Run (Computes step) initMsg twoMessages t ∧
      inviati (t.storia 0) = [⟨[1], 0⟩, ⟨[2], 0⟩] ∧ ricevuti (t.storia 0) = [⟨[2], 0⟩] ∧
      ¬ ricevuti (t.storia 0) <+: inviati (t.storia 0) := by
  obtain ⟨t, hfold, hsent, hreceived⟩ : ∃ t, twoMessages.foldlM step initMsg = some t ∧
      inviati (t.storia 0) = [⟨[1], 0⟩, ⟨[2], 0⟩] ∧ ricevuti (t.storia 0) = [⟨[2], 0⟩] :=
    ⟨_, rfl, by decide +kernel, by decide +kernel⟩
  refine ⟨t, Run.of_foldlM hfold, hsent, hreceived, ?_⟩
  rw [hsent, hreceived]
  decide

end OsdevArchive.ItaliOs3.Messaggi
