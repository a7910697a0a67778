import OsdevArchive.Lib.Runs
import Mathlib.Algebra.Group.Int.Defs
import Mathlib.Logic.Function.Basic
import Mathlib.Data.Fin.Basic

/-!
The table of open files of cheapos (`filesystem.c`, `syscall_filesystem.c`). A call of
`open`, `touch` or `remv` is two steps: the entry is claimed before the driver is asked, and
the driver may let other tasks run. What a driver answers is part of the step's label.
-/

namespace OsdevArchive.Cheapos.FileTable

open OsdevArchive.Lib.Runs

/-- `TABELLA_ACCESSOFILE_LUNG`. -/
def accessofileLung : Nat := 24

/-- `KSTRNG_LUNG`. -/
def kstrngLung : Nat := 128

/-- `VOLUME_NAME_LUNG`. -/
def volumeNameLung : Nat := 4

/-- The names of `tabella_filesystem`. -/
def volumi : List (List Char) := [['K', 'E', 'R', ':'], ['F', 'A', 'T', ':'], ['C', 'O', 'N', ':']]

/-- `filesystem_accesso_t`. -/
structure Accesso where
  nomefile : List Char
  pid : Int
  fs : Nat
  session : BitVec 32

/-- What a task can be asking of a driver that has not answered yet. -/
inductive Modo where
  | open
  | touch
  | remv
deriving DecidableEq

/-- `inCorso` holds, for each task, the call that is inside a driver. -/
structure State where
  tabella : Fin accessofileLung → Accesso
  vivo : Int → Bool
  inCorso : Int → Option (Modo × Fin accessofileLung)

/-- An entry as `filesystem_init` and `pidcloseall` leave it. -/
def Accesso.chiuso (e : Accesso) : Accesso := { e with nomefile := [], pid := -1, session := 0 }

/-- An entry that is given back by the call that claimed it, or by `syscall_close`. -/
def Accesso.libero (e : Accesso) : Accesso := { e with nomefile := [], pid := -1 }

/-- After `filesystem_init`, before the first task is made. -/
def filesystemInit : State where
  tabella _ := ⟨[], -1, 0, 0⟩
  vivo _ := false
  inCorso _ := none

namespace State

variable (s : State)

/-- The search for the file system, by the first four characters. -/
def cercaFs (nome : List Char) : Option Nat :=
  volumi.findIdx? (· = nome.take volumeNameLung)

/-- "File gia' in uso?" -/
def inUso (nome : List Char) : Bool :=
  (List.finRange accessofileLung).any
    fun i => 0 < (s.tabella i).pid ∧ (s.tabella i).nomefile = nome

/-- "Cerco un FD libero". -/
def cercaFd : Option (Fin accessofileLung) :=
  (List.finRange accessofileLung).find? fun i => (s.tabella i).pid < 0

/-- The file system and the entry for a name, if the call does not fail before it claims
one. -/
def posto (nome : List Char) : Option (Nat × Fin accessofileLung) :=
  match cercaFs nome with
  | none => none
  | some fs => if s.inUso nome then none else s.cercaFd.map fun fd => (fs, fd)

def aggiorna (i : Fin accessofileLung) (f : Accesso → Accesso) : State :=
  { s with tabella := Function.update s.tabella i (f (s.tabella i)) }

/-- `pidcloseall`. -/
def pidcloseall (pid : Int) : State :=
  { s with tabella := fun i =>
      if (s.tabella i).pid = pid then (s.tabella i).chiuso else s.tabella i }

/-- The task `pid` runs no more, nor does the call it was in. -/
def termina (pid : Int) : State :=
  { s.pidcloseall pid with
    vivo := Function.update s.vivo pid false
    inCorso := Function.update s.inCorso pid none }

end State

/-- The entry at the address `&tabella_accessofile[fd]`: the addresses are numbers modulo
`2 ^ 32` and an entry takes `140` bytes, so that only `fd` modulo `2 ^ 30` counts. -/
def voce (fd : Int) : Option (Fin accessofileLung) :=
  if h : (fd % 2 ^ 30).toNat < accessofileLung then some ⟨(fd % 2 ^ 30).toNat, h⟩ else none

/-- The calls. Those on a descriptor also hold the word that is found at
`tabella_accessofile[fd].pid` if no entry is there. -/
inductive Chiamata where
  | nasce (pid : Int)
  | prende (modo : Modo) (pid : Int) (nome : List Char)
  | risponde (pid : Int) (opt : Bool) (session : BitVec 32)
  | close (pid fd parola : Int) (opt : Bool)
  | seek (pid fd parola : Int) (retval : Int)
  | read (pid fd parola : Int) (retval : Int)
  | write (pid fd parola : Int) (retval : Int)
  | exit (pid : Int)
  | kill (pid altro : Int)

/-- A call is still in its driver or returns a value. -/
inductive Esito where
  | resta
  | torna (valore : Int)
deriving DecidableEq

/-- The word that is compared with the pid of the caller. -/
def State.pidDi (s : State) (fd parola : Int) : Int :=
  match voce fd with
  | some i => (s.tabella i).pid
  | none => parola

/-- The two checks at the start of the calls on a descriptor. -/
def State.accetta (s : State) (pid fd parola : Int) : Bool :=
  fd < accessofileLung ∧ s.pidDi fd parola = pid

/-- `syscall_seek`, `syscall_read` and `syscall_write` leave the table as it is. -/
def State.usa (s : State) (pid fd parola retval : Int) : Esito × State :=
  if s.accetta pid fd parola then (.torna retval, s) else (.torna (-1), s)

/-- `syscall_close`. -/
def State.syscallClose (s : State) (pid fd parola : Int) (opt : Bool) : Esito × State :=
  if s.accetta pid fd parola then
    match voce fd with
    | some i => if opt then (.torna 1, s.aggiorna i .libero) else (.torna 0, s)
    | none => (.torna 0, s)
  else (.torna (-1), s)

/-- "Prendo il mio FD". -/
def State.occupa (s : State) (modo : Modo) (pid : Int) (nome : List Char) (fs : Nat)
    (fd : Fin accessofileLung) : State :=
  let s := s.aggiorna fd fun e => { e with pid := pid, fs := fs, nomefile := nome }
  { s with inCorso := Function.update s.inCorso pid (some (modo, fd)) }

/-- `syscall_open`, `syscall_touch` and `syscall_remv` up to the call of the driver. -/
def State.prende (s : State) (modo : Modo) (pid : Int) (nome : List Char) : Esito × State :=
  match s.posto nome with
  | none => (.torna (-1), s)
  | some (fs, fd) => (.resta, s.occupa modo pid nome fs fd)

/-- The rest of these calls. `open` passes the address of the field `session`. -/
def State.risponde (s : State) (modo : Modo) (pid : Int) (fd : Fin accessofileLung) (opt : Bool)
    (session : BitVec 32) : Esito × State :=
  let s := { s with inCorso := Function.update s.inCorso pid none }
  match modo with
  | .open =>
    let s := s.aggiorna fd fun e => { e with session := session }
    if opt then (.torna fd.val, s) else (.torna (-1), s.aggiorna fd .libero)
  | .touch | .remv => (.torna (if opt then 1 else 0), s.aggiorna fd .libero)

/-- `syscall_kill`: a task that is alive and does not run is in `Qready` or in `Qwait`. -/
def State.syscallKill (s : State) (pid altro : Int) : Esito × State :=
  if pid = altro ∨ altro < 2 then (.torna 0, s)
  else if s.vivo altro then (.torna 1, s.termina altro)
  else (.torna 0, s)

/-- The task that makes a call is alive and in no other call. -/
def State.chiama (s : State) (pid : Int) : Bool := s.vivo pid ∧ s.inCorso pid = none

def step (s : State) : Chiamata → Option (Esito × State)
  | .nasce pid =>
    if 0 < pid ∧ s.vivo pid = false then
      some (.torna pid, { s with vivo := Function.update s.vivo pid true })
    else none
  | .prende modo pid nome => if s.chiama pid then some (s.prende modo pid nome) else none
  | .risponde pid opt session =>
    (s.inCorso pid).map fun (modo, fd) => s.risponde modo pid fd opt session
  | .close pid fd parola opt =>
    if s.chiama pid then some (s.syscallClose pid fd parola opt) else none
  | .seek pid fd parola retval | .read pid fd parola retval | .write pid fd parola retval =>
    if s.chiama pid then some (s.usa pid fd parola retval) else none
  | .exit pid => if s.vivo pid then some (.resta, s.termina pid) else none
  | .kill pid altro => if s.chiama pid then some (s.syscallKill pid altro) else none

/-- A call that writes, or calls a driver with, something that is no entry of the table: a
name that does not fit, or an index that leads to memory of others. -/
def Fuori (s : State) : Chiamata → Prop
  | .prende _ _ nome => kstrngLung ≤ nome.length ∧ (s.posto nome).isSome
  | .close pid fd parola _ | .seek pid fd parola _ | .read pid fd parola _
  | .write pid fd parola _ => voce fd = none ∧ s.accetta pid fd parola
  | _ => False

/-- A call, how it ends and what it leaves; nothing is known after one that goes out of the
table. -/
def Step (s : State) (a : Chiamata × Esito) (t : State) : Prop :=
  Fuori s a.1 ∨ step s a.1 = some (a.2, t)

/-! ### What is expected of the table -/

/-- An open descriptor of a task. -/
def Aperto (s : State) (pid fd : Int) : Prop :=
  ∃ i : Fin accessofileLung, (i.val : Int) = fd ∧ (s.tabella i).pid = pid

/-- No name is in two entries that are in use. -/
def Esclusivo (s : State) : Prop :=
  ∀ i j, 0 < (s.tabella i).pid → 0 < (s.tabella j).pid →
    (s.tabella i).nomefile = (s.tabella j).nomefile → i = j

/-- Each entry is free or belongs to one task, which is alive. -/
def Posseduto (s : State) : Prop :=
  ∀ i, (s.tabella i).pid = -1 ∨ ∃! pid, s.vivo pid = true ∧ (s.tabella i).pid = pid

/-- What a call has to answer and to leave. -/
def Corretta (s : State) (a : Chiamata × Esito) (t : State) : Prop :=
  match a.1 with
  | .close pid fd _ _ | .seek pid fd _ _ | .read pid fd _ _ | .write pid fd _ _ =>
    ¬ Aperto s pid fd → a.2 = .torna (-1) ∧ t = s
  | .risponde pid _ _ => ∀ m i, s.inCorso pid = some (m, i) → m = .open →
    a.2 = .torna (-1) ∨ ∃ fd, a.2 = .torna fd ∧ Aperto t pid fd
  | .exit pid => ∀ i, (t.tabella i).pid ≠ pid
  | .kill _ altro => a.2 = .torna 1 → ∀ i, (t.tabella i).pid ≠ altro
  | _ => True

/-- The name fits or is refused, and the index is not negative or leads to a word that is
not the pid of the caller. -/
def Ammessa (s : State) (a : Chiamata × Esito) : Prop :=
  match a.1 with
  | .prende _ _ nome => nome.length < kstrngLung ∨ s.posto nome = none
  | .close pid fd parola _ | .seek pid fd parola _ | .read pid fd parola _
  | .write pid fd parola _ => 0 ≤ fd ∨ s.pidDi fd parola ≠ pid
  | _ => True

/-! ### The invariant -/

variable {s t : State} {pid fd parola : Int} {i : Fin accessofileLung}

/-- The entry of a call that is inside a driver stays with its task. -/
structure Sound (s : State) : Prop where
  vivo : ∀ pid, s.vivo pid = true → 0 < pid
  posseduto : ∀ i, (s.tabella i).pid = -1 ∨ s.vivo (s.tabella i).pid = true
  esclusivo : Esclusivo s
  inCorso : ∀ pid m i, s.inCorso pid = some (m, i) →
    s.vivo pid = true ∧ (s.tabella i).pid = pid

theorem filesystemInit_sound : Sound filesystemInit where
  vivo _ h := by cases h
  posseduto _ := .inl rfl
  esclusivo _ _ h := by cases h
  inCorso _ _ _ h := by cases h

theorem posto_spec {nome : List Char} {fs : Nat} (h : s.posto nome = some (fs, i)) :
    (s.tabella i).pid < 0 ∧
      ∀ j, 0 < (s.tabella j).pid → (s.tabella j).nomefile ≠ nome := by
  unfold State.posto at h
  split at h
  · cases h
  · split at h
    · cases h
    · rename_i huso
      obtain ⟨fd, hfd, hpair⟩ := Option.map_eq_some_iff.mp h
      obtain ⟨rfl, rfl⟩ := Prod.mk.inj hpair
      constructor
      · simpa using List.find?_some hfd
      · intro j hj hnome
        apply huso
        apply List.any_eq_true.mpr
        exact ⟨j, List.mem_finRange j, by simpa using ⟨hj, hnome⟩⟩

theorem voce_of_lt (hfd : fd < accessofileLung) (hpos : 0 ≤ fd) :
    ∃ i : Fin accessofileLung, (i.val : Int) = fd ∧ voce fd = some i := by
  have hlt : fd.toNat < accessofileLung := by omega
  have hmod : fd % 2 ^ 30 = fd := by
    apply Int.emod_eq_of_lt hpos
    unfold accessofileLung at hfd
    omega
  refine ⟨⟨fd.toNat, hlt⟩, Int.toNat_of_nonneg hpos, ?_⟩
  simp only [voce, hmod, dif_pos hlt]

/-- An index that passes the checks of an allowed call is an open descriptor. -/
theorem accetta_spec (hok : 0 ≤ fd ∨ s.pidDi fd parola ≠ pid)
    (h : s.accetta pid fd parola = true) :
    ∃ i : Fin accessofileLung, (i.val : Int) = fd ∧ voce fd = some i ∧
      (s.tabella i).pid = pid := by
  obtain ⟨hfd, hpid⟩ : fd < accessofileLung ∧ s.pidDi fd parola = pid := by
    simpa [State.accetta] using h
  have hpos : 0 ≤ fd := hok.resolve_right fun hne => hne hpid
  obtain ⟨i, hi, hvoce⟩ := voce_of_lt hfd hpos
  refine ⟨i, hi, hvoce, ?_⟩
  simpa [State.pidDi, hvoce] using hpid

theorem not_oltre (hok : 0 ≤ fd ∨ s.pidDi fd parola ≠ pid) :
    ¬ (voce fd = none ∧ s.accetta pid fd parola = true) := by
  rintro ⟨hvoce, haccetta⟩
  obtain ⟨i, -, hi, -⟩ := accetta_spec hok haccetta
  simp [hvoce] at hi

theorem Ammessa.not_fuori {a : Chiamata × Esito} (h : Ammessa s a) : ¬ Fuori s a.1 := by
  obtain ⟨c, e⟩ := a
  cases c with
  | prende modo pid nome =>
    rintro ⟨hlong, hposto⟩
    rcases h with h | h
    · exact absurd h (Nat.not_lt.mpr hlong)
    · simp [h] at hposto
  | close | seek | read | write => exact not_oltre h
  | nasce | risponde | exit | kill => exact id

theorem Ammessa.step {a : Chiamata × Esito} (h : Ammessa s a) (hstep : Step s a t) :
    step s a.1 = some (a.2, t) :=
  hstep.resolve_left h.not_fuori

/-! ### What each operation keeps -/

theorem aggiorna_pid {f : Accesso → Accesso} {j : Fin accessofileLung} :
    ((s.aggiorna i f).tabella j).pid =
      if j = i then (f (s.tabella i)).pid else (s.tabella j).pid := by
  simp only [State.aggiorna, Function.update_apply]
  split <;> rfl

theorem aggiorna_nomefile {f : Accesso → Accesso} {j : Fin accessofileLung} :
    ((s.aggiorna i f).tabella j).nomefile =
      if j = i then (f (s.tabella i)).nomefile else (s.tabella j).nomefile := by
  simp only [State.aggiorna, Function.update_apply]
  split <;> rfl

/-- An entry that no call inside a driver holds can be freed. -/
theorem Sound.libera (h : Sound s) (hi : ∀ pid m, s.inCorso pid ≠ some (m, i)) :
    Sound (s.aggiorna i .libero) where
  vivo := h.vivo
  posseduto j := by
    rw [aggiorna_pid]
    split
    · exact .inl rfl
    · exact h.posseduto j
  esclusivo j k hj hk hnome := by
    rw [aggiorna_pid] at hj hk
    rw [aggiorna_nomefile, aggiorna_nomefile] at hnome
    split at hj
    · cases hj
    · split at hk
      · cases hk
      · rw [if_neg ‹_›, if_neg ‹_›] at hnome
        exact h.esclusivo j k hj hk hnome
  inCorso pid m j hj := by
    obtain ⟨hvivo, hpid⟩ := h.inCorso pid m j hj
    refine ⟨hvivo, ?_⟩
    rw [aggiorna_pid, if_neg, hpid]
    rintro rfl
    exact hi pid m hj

theorem Sound.sessione (h : Sound s) (session : BitVec 32) :
    Sound (s.aggiorna i fun e => { e with session := session }) := by
  have hpid : ∀ j, ((s.aggiorna i fun e => { e with session := session }).tabella j).pid =
      (s.tabella j).pid := by
    intro j
    rw [aggiorna_pid]
    split
    · rename_i hj
      rw [hj]
    · rfl
  have hnome : ∀ j, ((s.aggiorna i fun e => { e with session := session }).tabella j).nomefile =
      (s.tabella j).nomefile := by
    intro j
    rw [aggiorna_nomefile]
    split
    · rename_i hj
      rw [hj]
    · rfl
  constructor
  · exact h.vivo
  · intro j
    rw [hpid]
    exact h.posseduto j
  · intro j k hj hk hjk
    rw [hpid] at hj hk
    rw [hnome, hnome] at hjk
    exact h.esclusivo j k hj hk hjk
  · intro pid m j hj
    rw [hpid]
    exact h.inCorso pid m j hj

theorem Sound.occupa (h : Sound s) (hvivo : s.vivo pid = true) {modo : Modo}
    {nome : List Char} {fs : Nat} (hposto : s.posto nome = some (fs, i)) :
    Sound (s.occupa modo pid nome fs i) := by
  obtain ⟨hfree, hfresh⟩ := posto_spec hposto
  have hpid : ∀ j, ((s.occupa modo pid nome fs i).tabella j).pid =
      if j = i then pid else (s.tabella j).pid := by
    intro j
    simp only [State.occupa, aggiorna_pid]
  have hnome : ∀ j, ((s.occupa modo pid nome fs i).tabella j).nomefile =
      if j = i then nome else (s.tabella j).nomefile := by
    intro j
    simp only [State.occupa, aggiorna_nomefile]
  constructor
  · exact h.vivo
  · intro j
    rw [hpid]
    split
    · exact .inr hvivo
    · exact h.posseduto j
  · intro j k hj hk hjk
    rw [hpid] at hj hk
    rw [hnome, hnome] at hjk
    by_cases hji : j = i
    · by_cases hki : k = i
      · rw [hji, hki]
      · rw [if_pos hji, if_neg hki] at hjk
        rw [if_neg hki] at hk
        exact absurd hjk.symm (hfresh k hk)
    · rw [if_neg hji] at hj hjk
      by_cases hki : k = i
      · rw [if_pos hki] at hjk
        exact absurd hjk (hfresh j hj)
      · rw [if_neg hki] at hk hjk
        exact h.esclusivo j k hj hk hjk
  · intro q m j hj
    change Function.update s.inCorso pid (some (modo, i)) q = some (m, j) at hj
    rw [hpid]
    rw [Function.update_apply] at hj
    split at hj
    · rename_i hq
      obtain ⟨-, rfl⟩ := Prod.mk.inj (Option.some.inj hj)
      rw [if_pos rfl, hq]
      exact ⟨hvivo, rfl⟩
    · obtain ⟨hq, hown⟩ := h.inCorso q m j hj
      have hpos := h.vivo q hq
      have hji : j ≠ i := by
        rintro rfl
        omega
      rw [if_neg hji]
      exact ⟨hq, hown⟩

theorem Sound.prende (h : Sound s) (hvivo : s.vivo pid = true) {modo : Modo} {nome : List Char} :
    Sound (s.prende modo pid nome).2 := by
  unfold State.prende
  split
  · exact h
  · exact h.occupa hvivo ‹_›

/-- The call of a task leaves its driver. -/
theorem Sound.esce (h : Sound s) (pid : Int) :
    Sound { s with inCorso := Function.update s.inCorso pid none } where
  vivo := h.vivo
  posseduto := h.posseduto
  esclusivo := h.esclusivo
  inCorso q m j hj := by
    change Function.update s.inCorso pid none q = some (m, j) at hj
    rw [Function.update_apply] at hj
    split at hj
    · cases hj
    · exact h.inCorso q m j hj

/-- Two calls inside drivers do not hold one entry. -/
theorem Sound.solo (h : Sound s) {modo : Modo} (hin : s.inCorso pid = some (modo, i)) :
    ∀ q m, Function.update s.inCorso pid none q ≠ some (m, i) := by
  intro q m hq
  rw [Function.update_apply] at hq
  split at hq
  · cases hq
  · rename_i hne
    apply hne
    rw [← (h.inCorso q m i hq).2, (h.inCorso pid modo i hin).2]

theorem Sound.risponde (h : Sound s) {modo : Modo} (hin : s.inCorso pid = some (modo, i))
    {opt : Bool} {session : BitVec 32} : Sound (s.risponde modo pid i opt session).2 := by
  have hesce := h.esce pid
  have hsolo := h.solo hin
  unfold State.risponde
  cases modo with
  | «open» =>
    cases opt with
    | true => exact hesce.sessione session
    | false => exact (hesce.sessione session).libera hsolo
  | touch => exact hesce.libera hsolo
  | remv => exact hesce.libera hsolo

theorem Sound.termina (h : Sound s) (pid : Int) : Sound (s.termina pid) where
  vivo q hq := by
    change Function.update s.vivo pid false q = true at hq
    rw [Function.update_apply] at hq
    split at hq
    · cases hq
    · exact h.vivo q hq
  posseduto j := by
    unfold State.termina State.pidcloseall
    dsimp only
    by_cases hj : (s.tabella j).pid = pid
    · rw [if_pos hj]
      exact .inl rfl
    · rw [if_neg hj, Function.update_of_ne hj]
      exact h.posseduto j
  esclusivo j k hj hk hnome := by
    unfold State.termina State.pidcloseall at hj hk hnome
    dsimp only at hj hk hnome
    split at hj
    · cases hj
    · split at hk
      · cases hk
      · rw [if_neg ‹_›, if_neg ‹_›] at hnome
        exact h.esclusivo j k hj hk hnome
  inCorso q m j hj := by
    change Function.update s.inCorso pid none q = some (m, j) at hj
    rw [Function.update_apply] at hj
    split at hj
    · cases hj
    · rename_i hq
      obtain ⟨hvivo, hpid⟩ := h.inCorso q m j hj
      unfold State.termina State.pidcloseall
      dsimp only
      rw [Function.update_of_ne hq, if_neg (by rw [hpid]; exact hq)]
      exact ⟨hvivo, hpid⟩

theorem termina_pid (pid : Int) (hpos : pid ≠ -1) (j : Fin accessofileLung) :
    ((s.termina pid).tabella j).pid ≠ pid := by
  unfold State.termina State.pidcloseall
  dsimp only
  split
  · exact hpos.symm
  · assumption

/-! ### Steps and runs -/

theorem chiama_spec (h : s.chiama pid = true) : s.vivo pid = true ∧ s.inCorso pid = none := by
  simpa [State.chiama] using h

/-- A task that makes a call holds no entry of a call inside a driver. -/
theorem Sound.chiama_solo (h : Sound s) (hchiama : s.chiama pid = true)
    (hpid : (s.tabella i).pid = pid) : ∀ q m, s.inCorso q ≠ some (m, i) := by
  intro q m hq
  obtain rfl : pid = q := hpid.symm.trans (h.inCorso q m i hq).2
  rw [(chiama_spec hchiama).2] at hq
  cases hq

theorem Sound.syscallClose (h : Sound s) (hchiama : s.chiama pid = true) {opt : Bool}
    (hok : 0 ≤ fd ∨ s.pidDi fd parola ≠ pid) : Sound (s.syscallClose pid fd parola opt).2 := by
  unfold State.syscallClose
  split
  · rename_i haccetta
    obtain ⟨i, -, hvoce, hpid⟩ := accetta_spec hok haccetta
    simp only [hvoce]
    split
    · exact h.libera (h.chiama_solo hchiama hpid)
    · exact h
  · exact h

theorem usa_snd {retval : Int} : (s.usa pid fd parola retval).2 = s := by
  unfold State.usa
  split <;> rfl

theorem Sound.syscallKill (h : Sound s) {altro : Int} : Sound (s.syscallKill pid altro).2 := by
  unfold State.syscallKill
  split
  · exact h
  · split
    · exact h.termina altro
    · exact h

theorem Sound.nasce (h : Sound s) (hpos : 0 < pid) :
    Sound { s with vivo := Function.update s.vivo pid true } where
  vivo q hq := by
    change Function.update s.vivo pid true q = true at hq
    rw [Function.update_apply] at hq
    split at hq
    · rename_i hqp
      rwa [hqp]
    · exact h.vivo q hq
  posseduto j := by
    apply (h.posseduto j).imp_right
    intro hj
    show Function.update s.vivo pid true _ = true
    rw [Function.update_apply]
    split
    · rfl
    · exact hj
  esclusivo := h.esclusivo
  inCorso q m j hj := by
    obtain ⟨hq, hpid⟩ := h.inCorso q m j hj
    refine ⟨?_, hpid⟩
    show Function.update s.vivo pid true q = true
    rw [Function.update_apply]
    split
    · rfl
    · exact hq

theorem Sound.step (h : Sound s) {a : Chiamata × Esito} (hok : Ammessa s a)
    (hstep : Step s a t) : Sound t := by
  have hstep := hok.step hstep
  obtain ⟨c, e⟩ := a
  cases c with
  | nasce pid =>
    obtain ⟨⟨hpos, -⟩, heq⟩ := Option.ite_some_none_eq_some.mp hstep
    obtain ⟨-, rfl⟩ := Prod.mk.inj heq
    exact h.nasce hpos
  | prende modo pid nome =>
    obtain ⟨hchiama, heq⟩ := Option.ite_some_none_eq_some.mp hstep
    obtain rfl : _ = t := congrArg Prod.snd heq
    exact h.prende (chiama_spec hchiama).1
  | risponde pid opt session =>
    obtain ⟨⟨modo, fd⟩, hin, heq⟩ := Option.map_eq_some_iff.mp hstep
    obtain rfl : _ = t := congrArg Prod.snd heq
    exact h.risponde hin
  | close pid fd parola opt =>
    obtain ⟨hchiama, heq⟩ := Option.ite_some_none_eq_some.mp hstep
    obtain rfl : _ = t := congrArg Prod.snd heq
    exact h.syscallClose hchiama hok
  | seek pid fd parola retval | read pid fd parola retval | write pid fd parola retval =>
    obtain ⟨-, heq⟩ := Option.ite_some_none_eq_some.mp hstep
    obtain rfl : s = t := usa_snd.symm.trans (congrArg Prod.snd heq)
    exact h
  | exit pid =>
    obtain ⟨-, heq⟩ := Option.ite_some_none_eq_some.mp hstep
    obtain rfl : _ = t := congrArg Prod.snd heq
    exact h.termina pid
  | kill pid altro =>
    obtain ⟨-, heq⟩ := Option.ite_some_none_eq_some.mp hstep
    obtain rfl : _ = t := congrArg Prod.snd heq
    exact h.syscallKill

theorem usa_corretta {retval : Int} {e : Esito} (hok : 0 ≤ fd ∨ s.pidDi fd parola ≠ pid)
    (heq : s.usa pid fd parola retval = (e, t)) (hfd : ¬ Aperto s pid fd) :
    e = .torna (-1) ∧ t = s := by
  unfold State.usa at heq
  split at heq
  · obtain ⟨i, hi, -, hpid⟩ := accetta_spec hok ‹_›
    exact absurd ⟨i, hi, hpid⟩ hfd
  · obtain ⟨rfl, rfl⟩ := Prod.mk.inj heq
    exact ⟨rfl, rfl⟩

theorem syscallClose_corretta {opt : Bool} {e : Esito}
    (hok : 0 ≤ fd ∨ s.pidDi fd parola ≠ pid)
    (heq : s.syscallClose pid fd parola opt = (e, t)) (hfd : ¬ Aperto s pid fd) :
    e = .torna (-1) ∧ t = s := by
  unfold State.syscallClose at heq
  split at heq
  · obtain ⟨i, hi, -, hpid⟩ := accetta_spec hok ‹_›
    exact absurd ⟨i, hi, hpid⟩ hfd
  · obtain ⟨rfl, rfl⟩ := Prod.mk.inj heq
    exact ⟨rfl, rfl⟩

/-- A descriptor that `open` returns is the caller's. -/
theorem risponde_corretta (h : Sound s) (hin : s.inCorso pid = some (.open, i)) {opt : Bool}
    {session : BitVec 32} {e : Esito} (heq : s.risponde .open pid i opt session = (e, t)) :
    e = .torna (-1) ∨ ∃ fd, e = .torna fd ∧ Aperto t pid fd := by
  cases opt with
  | false => exact .inl (congrArg Prod.fst heq).symm
  | true =>
    refine .inr ⟨i.val, (congrArg Prod.fst heq).symm, i, rfl, ?_⟩
    obtain rfl : _ = t := congrArg Prod.snd heq
    simp only [State.risponde, if_true, aggiorna_pid]
    exact (h.inCorso pid _ i hin).2

theorem corretta_of_step (h : Sound s) {a : Chiamata × Esito} (hok : Ammessa s a)
    (hstep : Step s a t) : Corretta s a t := by
  have hstep := hok.step hstep
  obtain ⟨c, e⟩ := a
  cases c with
  | nasce | prende => trivial
  | risponde pid opt session =>
    obtain ⟨⟨modo, fd⟩, hin, heq⟩ := Option.map_eq_some_iff.mp hstep
    intro m i hi hm
    obtain ⟨rfl, rfl⟩ := Prod.mk.inj (Option.some.inj (hin.symm.trans hi))
    subst hm
    exact risponde_corretta h hin heq
  | close pid fd parola opt =>
    obtain ⟨-, heq⟩ := Option.ite_some_none_eq_some.mp hstep
    exact syscallClose_corretta hok heq
  | seek pid fd parola retval | read pid fd parola retval | write pid fd parola retval =>
    obtain ⟨-, heq⟩ := Option.ite_some_none_eq_some.mp hstep
    exact usa_corretta hok heq
  | exit pid =>
    obtain ⟨hvivo, heq⟩ := Option.ite_some_none_eq_some.mp hstep
    obtain ⟨-, rfl⟩ := Prod.mk.inj heq
    have hpos := h.vivo pid hvivo
    exact termina_pid pid (by omega)
  | kill pid altro =>
    obtain ⟨-, heq⟩ := Option.ite_some_none_eq_some.mp hstep
    intro he
    unfold State.syscallKill at heq
    split at heq
    · obtain ⟨rfl, -⟩ := Prod.mk.inj heq
      cases he
    · split at heq
      · obtain ⟨-, rfl⟩ := Prod.mk.inj heq
        exact termina_pid altro (by omega)
      · obtain ⟨rfl, -⟩ := Prod.mk.inj heq
        cases he

theorem Sound.run {calls : List (Chiamata × Esito)}
    (h : Run (Guarded Ammessa Step) filesystemInit calls s) : Sound s :=
  h.guarded_invariant (fun _ _ _ hs hok hstep => hs.step hok hstep) filesystemInit_sound

/-- While no index below zero reaches an entry or a foreign word with the caller's pid, and
no long name is copied, the table keeps its descriptors apart and every call is right. -/
theorem descriptors_run {calls : List (Chiamata × Esito)}
    (h : Run (Guarded Ammessa Step) filesystemInit calls s) :
    Esclusivo s ∧ Posseduto s ∧ ∀ a t, Ammessa s a → Step s a t → Corretta s a t := by
  have hs := Sound.run h
  refine ⟨hs.esclusivo, ?_, fun a t => corretta_of_step hs⟩
  intro i
  apply (hs.posseduto i).imp_right
  intro hvivo
  exact ⟨(s.tabella i).pid, ⟨hvivo, rfl⟩, fun _ hq => hq.2.symm⟩

/-- The first task opens `KER:\mem`, which gives it descriptor `0`. -/
def apre : List (Chiamata × Esito) :=
  [(.nasce 1, .torna 1),
    (.prende .open 1 ['K', 'E', 'R', ':', '\\', 'm', 'e', 'm'], .resta),
    (.risponde 1 true 0x20000, .torna 0)]

/-- The label's result is what the call returns. -/
def esegue (s : State) (a : Chiamata × Esito) : Option State :=
  (step s a.1).bind fun r => if r.1 = a.2 then some r.2 else none

theorem esegue_step {a : Chiamata × Esito} (h : esegue s a = some t) : Step s a t := by
  obtain ⟨⟨e, u⟩, hstep, heq⟩ := Option.bind_eq_some_iff.mp h
  obtain ⟨rfl, rfl⟩ := Option.ite_some_none_eq_some.mp heq
  exact .inr hstep

theorem apre_run : ∃ s, Run (Guarded Ammessa Step) filesystemInit apre s ∧
    (s.tabella ⟨0, by decide⟩).pid = 1 ∧ s.chiama 1 = true := by
  have hend : (apre.foldlM esegue filesystemInit).map (fun s =>
      ((s.tabella ⟨0, by decide⟩).pid, s.chiama 1)) = some (1, true) := by
    decide +kernel
  obtain ⟨s, hs, hpair⟩ := Option.map_eq_some_iff.mp hend
  obtain ⟨hpid, hchiama⟩ := Prod.mk.inj hpair
  refine ⟨s, (Run.of_foldlM hs).labelled.mono ?_, hpid, hchiama⟩
  rintro s a t ⟨ha, hstep⟩
  refine ⟨?_, esegue_step hstep⟩
  simp only [apre, List.mem_cons, List.not_mem_nil, or_false] at ha
  rcases ha with rfl | rfl | rfl
  · exact trivial
  · exact .inl (by decide)
  · exact trivial

theorem voce_sub (i : Fin accessofileLung) : voce (i.val - 2 ^ 30) = some i := by
  have hi : i.val < 24 := i.isLt
  have hmod : ((i.val : Int) - 2 ^ 30) % 2 ^ 30 = i.val := by omega
  simp only [voce, hmod, Int.toNat_natCast, i.isLt, dif_pos]

/-- The owner of an entry can close it by a negative index. -/
theorem close_sub {opt : Bool} (hchiama : s.chiama pid = true)
    (hpid : (s.tabella i).pid = pid) (parola : Int) :
    step s (.close pid (i.val - 2 ^ 30) parola opt) =
      some (if opt then (.torna 1, s.aggiorna i .libero) else (.torna 0, s)) := by
  have hlt : (i.val : Int) - 2 ^ 30 < accessofileLung := by
    have := i.isLt
    omega
  have haccetta : s.accetta pid (i.val - 2 ^ 30) parola = true := by
    simp only [State.accetta, State.pidDi, voce_sub, hpid, hlt, and_self, decide_true]
  simp only [step, hchiama, if_true, State.syscallClose, haccetta, voce_sub]

/-- After the open of `KER:\mem`. -/
theorem descriptors_of_apre : ∃ s, Run (Guarded Ammessa Step) filesystemInit apre s ∧
    Esclusivo s ∧ Posseduto s := by
  obtain ⟨s, hrun, -⟩ := apre_run
  have h := descriptors_run hrun
  exact ⟨s, hrun, h.1, h.2.1⟩

/-- The index `-2 ^ 30` leads to entry `0`, too. -/
theorem close_reaches : ∃ s t, Run Step filesystemInit apre s ∧
    Step s (.close 1 (-2 ^ 30) 0 true, .torna 1) t ∧
    ¬ Corretta s (.close 1 (-2 ^ 30) 0 true, .torna 1) t := by
  obtain ⟨s, hrun, hpid, hchiama⟩ := apre_run
  have hclose : step s (.close 1 (-2 ^ 30) 0 true) =
      some (.torna 1, s.aggiorna ⟨0, by decide⟩ .libero) := close_sub hchiama hpid 0
  refine ⟨s, _, hrun.of_guarded, .inr hclose, ?_⟩
  intro h
  have hfd : ¬ Aperto s 1 (-2 ^ 30) := by
    rintro ⟨i, hi, -⟩
    omega
  cases (h hfd).1

end OsdevArchive.Cheapos.FileTable
