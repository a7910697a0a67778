import OsdevArchive.Osso.MessageOrder

/-!
Where the pages of the messages are. A page is free, mapped into the message area of a
process, queued for one, or in the hands of a call; it stays in one place as long as
only mapped message pages are sent and freed, and no process runs out of addresses.
Neither `sendmsg` nor `freemsg` looks whether its address is mapped.
-/

namespace OsdevArchive.Osso.Messages

open OsdevArchive.Lib.RingBuffer OsdevArchive.Lib.Runs

/-! ### Virtual pages -/

def dirOf (page : Nat) : Index := Fin.ofNat 1024 (page / 1024)

def indexOf (page : Nat) : Index := Fin.ofNat 1024 page

theorem dirIndex_eq (addr : Dword) : dirIndex addr = dirOf (addr.toNat / 4096) := by
  simp only [dirIndex, dirOf, BitVec.toNat_ushiftRight, Nat.shiftRight_eq_div_pow]
  rw [Nat.div_div_eq_div_mul]

theorem tableIndex_eq (addr : Dword) : tableIndex addr = indexOf (addr.toNat / 4096) := by
  simp only [tableIndex, indexOf, BitVec.toNat_ushiftRight, Nat.shiftRight_eq_div_pow]

theorem page_unique {n n' : Nat} (hn : n < 2 ^ 20) (hn' : n' < 2 ^ 20) (hdir : dirOf n = dirOf n')
    (hindex : indexOf n = indexOf n') : n = n' := by
  simp only [dirOf, indexOf, Fin.ext_iff, Fin.ofNat_eq_cast, Fin.val_natCast] at hdir hindex
  omega

section
variable {P : Type} (m : Space P) (processo : P) (n : Nat)

/-- The last page that a process uses. -/
def Space.lastPage : Nat := (m.lastUsedPage processo).toNat / 4096

/-- The virtual page is mapped to the physical page. -/
def Space.Maps (page : Nat) : Prop :=
  m.present processo (dirOf n) ∧ m.tables (.user processo (dirOf n)) (indexOf n) = ⟨page, true⟩

theorem Space.lastPage_lt : m.lastPage processo < 2 ^ 20 := by
  have hlt := (m.lastUsedPage processo).isLt
  simp only [lastPage]
  omega

end

/-! ### The places of a page -/

/-- The page that a call has in hand. -/
def Pc.page {P : Type} : Pc P → Option Nat
  | .bmsgMap page | .recMemSem page | .recMap page => some page
  | .sendMsgSem _ header | .sendQueue _ header => some header.paginaFisica
  | .user | .sendFind _ _ _ | .sendUnmap _ _ _ | .sendMutex _ | .sendMessages _ | .recMsgSem
  | .recTake => none

inductive Place (P T : Type) where
  | free
  /-- A page table, or a page that was in use before. -/
  | elsewhere
  | mapped (processo : P) (n : Nat)
  | queued (dest : P)
  | held (t : T)
  deriving DecidableEq

variable {P T : Type} [DecidableEq P] {W : Queues (P ⊕ Lock P) T}

/-- The virtual pages that a process got for messages. -/
def InArea (cfg : Config P T) (m : Space P) (processo : P) (n : Nat) : Prop :=
  cfg.space.lastPage processo < n ∧ n ≤ m.lastPage processo

def State.queuedPages (s : State P T W) (dest : P) : List Nat :=
  (s.msgqueue dest).contents.map MsgHeader.paginaFisica

/-- The page with index `i` in `pagine` is in this place. -/
def At (cfg : Config P T) (s : State P T W) (i : Nat) : Place P T → Prop
  | .free => s.space.mem.pagelist i = .freepage
  | .elsewhere => cfg.space.mem.pagelist i ≠ .freepage ∨ s.space.mem.pagelist i = .ptabpage
  | .mapped processo n =>
    InArea cfg s.space processo n ∧ s.space.Maps processo n (s.space.pagine + i)
  | .queued dest => s.space.pagine + i ∈ s.queuedPages dest
  | .held t => (s.pc t).page = some (s.space.pagine + i)

/-- Each page is in exactly one place, and there once. -/
structure Owned (cfg : Config P T) (s : State P T W) : Prop where
  place : ∀ i, ∃! place, At cfg s i place
  once : ∀ dest, (s.queuedPages dest).Nodup

/-- The address is in a mapped page of the message area. -/
def MessagePage (cfg : Config P T) (m : Space P) (processo : P) (addr : Dword) : Prop :=
  InArea cfg m processo (addr.toNat / 4096) ∧
    m.present processo (dirIndex addr) ∧ (m.pte processo addr).present

/-- There is an address behind the last page. -/
def HasRoom (m : Space P) (processo : P) : Prop := m.lastPage processo + 1 < 2 ^ 20

/-- What is unmapped is a message page, and what is mapped gets an address. -/
def ProperPc (cfg : Config P T) (m : Space P) (processo : P) : Pc P → Prop
  | .sendUnmap _ _ msgAddr => MessagePage cfg m processo msgAddr
  | .bmsgMap _ | .recMap _ => HasRoom m processo
  | _ => True

/-- A step of the running thread, if there is one. -/
def ProperBy (cfg : Config P T) (s : State P T W) : Act T → Option T → Prop
  | .freemsg msg, some t => MessagePage cfg s.space (cfg.task t) msg
  | .proceed, some t => ProperPc cfg s.space (cfg.task t) (s.pc t)
  | .freemsg _, none | .proceed, none | .getbmsg, _ | .sendmsg _ _ _, _ | .recmsg _, _
  | .schedule, _ | .create _, _ => True

/-- The steps that keep each page in one place. -/
def Proper (cfg : Config P T) (s : State P T W) (act : Act T) : Prop :=
  ProperBy cfg s act s.sems.sched.threadInEsecuzione

instance (cfg : Config P T) (m : Space P) (processo : P) (addr : Dword) :
    Decidable (MessagePage cfg m processo addr) :=
  inferInstanceAs (Decidable ((_ < _ ∧ _ ≤ _) ∧ _ = true ∧ _ = true))

instance (cfg : Config P T) (m : Space P) (processo : P) :
    ∀ pc, Decidable (ProperPc cfg m processo pc)
  | .sendUnmap _ _ msgAddr => inferInstanceAs (Decidable (MessagePage cfg m processo msgAddr))
  | .bmsgMap _ | .recMap _ => inferInstanceAs (Decidable (_ < _))
  | .user | .sendFind _ _ _ | .sendMsgSem _ _ | .sendQueue _ _ | .sendMutex _
  | .sendMessages _ | .recMsgSem | .recTake | .recMemSem _ => inferInstanceAs (Decidable True)

instance (cfg : Config P T) (s : State P T W) :
    ∀ act tid, Decidable (ProperBy cfg s act tid)
  | .freemsg msg, some t => inferInstanceAs (Decidable (MessagePage cfg s.space (cfg.task t) msg))
  | .proceed, some t => inferInstanceAs (Decidable (ProperPc cfg s.space (cfg.task t) (s.pc t)))
  | .freemsg _, none | .proceed, none | .getbmsg, _ | .sendmsg _ _ _, _ | .recmsg _, _
  | .schedule, _ | .create _, _ => inferInstanceAs (Decidable True)

instance (cfg : Config P T) (s : State P T W) (act : Act T) : Decidable (Proper cfg s act) :=
  inferInstanceAs (Decidable (ProperBy cfg s act s.sems.sched.threadInEsecuzione))

/-! ### The allocator's part -/

theorem getpage_page {mem mem' : Memory.State} {i : Nat}
    (h : Memory.getpage mem = (.page i, mem')) : mem.pagelist i = .freepage ∧
      mem'.pagelist = Function.update mem.pagelist i .datapage := by
  rw [Memory.getpage] at h
  rcases Memory.memGetpage_cases .datapage mem with
    ⟨k, seen, -, -, ⟨hfree, hresult⟩ | ⟨-, hresult⟩⟩ | ⟨seen, -, -, hresult⟩
  · rw [hresult] at h
    obtain ⟨⟨rfl⟩, rfl⟩ := Prod.mk.inj h
    exact ⟨hfree, rfl⟩
  · rw [hresult] at h
    cases h
  · rw [hresult] at h
    cases h

theorem getpagetable_cases (mem : Memory.State) :
    (Memory.getpagetable mem).1 = .null ∨ ∃ i, mem.pagelist i = .freepage ∧
      (Memory.getpagetable mem).1 = .page i ∧
      (Memory.getpagetable mem).2.pagelist = Function.update mem.pagelist i .ptabpage := by
  by_cases hfree : mem.pagelist mem.ptPages.toNat = .freepage
  · have hresult : Memory.getpagetable mem = (.page mem.ptPages.toNat, _) := if_pos hfree
    exact .inr ⟨_, hfree, by rw [hresult], by rw [hresult]; rfl⟩
  · have hresult : Memory.getpagetable mem = (.null, _) := if_neg hfree
    exact .inl (by rw [hresult])

/-! ### Moves of one page -/

/-- What is known of the pages of the processes. -/
structure Grown (cfg : Config P T) (m : Space P) : Prop where
  pagine : m.pagine = cfg.space.pagine
  kernelDirs : m.kernelDirs = cfg.space.kernelDirs
  boundary : ∀ p, (m.lastUsedPage p).toNat % 4096 = 0
  last : ∀ p, cfg.space.lastPage p ≤ m.lastPage p
  clear : ∀ p n, m.lastPage p < n → n < 2 ^ 20 → ∀ page, ¬ m.Maps p n page

/-- Each page is at its place, and what is mapped, queued or held are such pages. -/
structure Pages (cfg : Config P T) (s : State P T W) (place : Nat → Place P T) : Prop where
  grown : Grown cfg s.space
  at_iff : ∀ i pl, At cfg s i pl ↔ place i = pl
  once : ∀ dest, (s.queuedPages dest).Nodup
  mapped : ∀ p n page, InArea cfg s.space p n → s.space.Maps p n page → s.space.pagine ≤ page
  queued : ∀ dest, ∀ page ∈ s.queuedPages dest, s.space.pagine ≤ page
  held : ∀ t page, (s.pc t).page = some page → s.space.pagine ≤ page

section
variable {cfg : Config P T} {s s' : State P T W} {place : Nat → Place P T} {i : Nat} {t : T}
  {p : P} {n : Nat} {old new : Place P T}

theorem Pages.owned (h : Pages cfg s place) : Owned cfg s where
  place i := ⟨place i, (h.at_iff i _).mpr rfl, fun pl hpl => ((h.at_iff i pl).mp hpl).symm⟩
  once := h.once

/-- A page leaves its place for another one. -/
theorem at_iff_of_move (h : ∀ i pl, At cfg s i pl ↔ place i = pl) (hi : place i = old)
    (hne : old ≠ new)
    (hrest : ∀ pl, pl ≠ old → pl ≠ new → ∀ j, At cfg s' j pl ↔ At cfg s j pl)
    (hout : ∀ j, At cfg s' j old ↔ j ≠ i ∧ At cfg s j old)
    (hin : ∀ j, At cfg s' j new ↔ j = i ∨ At cfg s j new) (j : Nat) (pl : Place P T) :
    At cfg s' j pl ↔ Function.update place i new j = pl := by
  by_cases hj : j = i
  · subst hj
    rw [Function.update_self]
    by_cases hnew : pl = new
    · subst hnew
      simp [hin]
    · by_cases hold : pl = old
      · subst hold
        simp [hout, hne.symm]
      · rw [hrest pl hold hnew, h, hi]
        exact iff_of_false (Ne.symm hold) (Ne.symm hnew)
  · rw [Function.update_of_ne hj, ← h]
    by_cases hnew : pl = new
    · subst hnew
      simp [hin, hj]
    · by_cases hold : pl = old
      · subst hold
        simp [hout, hj]
      · exact hrest pl hold hnew j

omit [DecidableEq P] in
theorem area_not_kernel {m : Space P} (hgrown : Grown cfg m) (harea : InArea cfg m p n) :
    ¬ (dirOf n).val < m.kernelDirs := by
  have habove := cfg.above p
  have hlt := m.lastPage_lt p
  obtain ⟨hfirst, hlast⟩ := harea
  rw [hgrown.kernelDirs]
  simp only [Space.lastPage] at hfirst hlast hlt
  simp only [dirOf, Fin.ofNat_eq_cast, Fin.val_natCast]
  omega

variable [DecidableEq T] {sems : Semaphore.State W} {pc : Pc P}

omit [DecidableEq P] in
theorem page_update (pcs : T → Pc P) (t' : T) :
    (Function.update pcs t pc t').page = if t' = t then pc.page else (pcs t').page := by
  by_cases ht : t' = t
  · subst ht
    rw [Function.update_self, if_pos rfl]
  · rw [Function.update_of_ne ht, if_neg ht]

/-- What a thread has in hand after a step. -/
theorem Pages.held_update (h : Pages cfg s place)
    (hpc : ∀ page, pc.page = some page → s.space.pagine ≤ page) (t' : T) (page : Nat)
    (hpage : (Function.update s.pc t pc t').page = some page) : s.space.pagine ≤ page := by
  rw [page_update] at hpage
  split at hpage
  · exact hpc page hpage
  · exact h.held t' page hpage

/-- A step of a thread that has the same page in hand, or none, before and after it. -/
theorem Pages.goes (h : Pages cfg s place) (hpage : pc.page = (s.pc t).page) :
    Pages cfg { s with sems := sems, pc := Function.update s.pc t pc } place where
  grown := h.grown
  at_iff i pl := by
    rw [← h.at_iff]
    cases pl with
    | held t' =>
      have hsame : (Function.update s.pc t pc t').page = (s.pc t').page := by
        rw [page_update, hpage]
        split
        · next ht => rw [ht]
        · rfl
      simp only [At, hsame]
    | _ => exact Iff.rfl
  once := h.once
  mapped := h.mapped
  queued := h.queued
  held := h.held_update fun page hp => h.held t page (hpage ▸ hp)

/-- `getbmsg` has a free page in hand. -/
theorem Pages.takeFree (h : Pages cfg s place) {mem : Memory.State}
    (hfree : s.space.mem.pagelist i = .freepage)
    (hmem : mem.pagelist = Function.update s.space.mem.pagelist i .datapage)
    (hnone : (s.pc t).page = none) (hpc : pc.page = some (s.space.pagine + i)) :
    Pages cfg { s with
      sems := sems, pc := Function.update s.pc t pc, space := { s.space with mem := mem } }
      (Function.update place i (.held t)) where
  grown := ⟨h.grown.pagine, h.grown.kernelDirs, h.grown.boundary, h.grown.last, h.grown.clear⟩
  at_iff := by
    refine at_iff_of_move h.at_iff ((h.at_iff i .free).mp hfree) (by rintro ⟨⟩) ?_ ?_ ?_
    · intro pl hfree' hheld j
      cases pl with
      | free => exact absurd rfl hfree'
      | elsewhere =>
        simp only [At, hmem]
        by_cases hj : j = i
        · subst hj
          simp [hfree]
        · rw [Function.update_of_ne hj]
      | held t' =>
        have hne : t' ≠ t := fun ht => hheld (ht ▸ rfl)
        simp only [At, page_update, if_neg hne]
      | mapped _ _ => exact Iff.rfl
      | queued _ => exact Iff.rfl
    · intro j
      simp only [At, hmem]
      by_cases hj : j = i
      · subst hj
        simp
      · simp [hj]
    · intro j
      simp only [At, page_update, if_true, hpc, hnone, Option.some.injEq]
      simp [eq_comm]
  once := h.once
  mapped := h.mapped
  queued := h.queued
  held := h.held_update fun page hp => by
    obtain rfl := Option.some.inj (hpc.symm.trans hp)
    exact Nat.le_add_right ..

/-- `sendmsg` queues the page that it has in hand. -/
theorem Pages.enqueue (h : Pages cfg s place) {dest : P} {header : MsgHeader}
    (hroom : (s.msgqueue dest).head ≠ advance (s.msgqueue dest).tail)
    (hheld : (s.pc t).page = some header.paginaFisica) (hpc : pc.page = none) :
    ∃ place', Pages cfg { s.queueMsg dest header with
      sems := sems, pc := Function.update s.pc t pc } place' := by
  have hput := ((s.msgqueue dest).contains_contents.put hroom (a := header)).contents_eq
  obtain ⟨i, hi⟩ : ∃ i, header.paginaFisica = s.space.pagine + i :=
    Nat.exists_eq_add_of_le (h.held t _ hheld)
  have hpages (d : P) : ({ s.queueMsg dest header with
      sems := sems, pc := Function.update s.pc t pc } : State P T W).queuedPages d =
        if d = dest then s.queuedPages dest ++ [s.space.pagine + i] else s.queuedPages d := by
    by_cases hd : d = dest
    · subst hd
      simp [State.queuedPages, State.queueMsg, hput, hi]
    · simp [State.queuedPages, State.queueMsg, hd]
  have hplace : place i = .held t := (h.at_iff i _).mp (by simp only [At, hheld, hi])
  have hnew (d : P) : s.space.pagine + i ∉ s.queuedPages d := fun hmem => by
    have hqueued := (h.at_iff i (.queued d)).mp hmem
    rw [hplace] at hqueued
    cases hqueued
  refine ⟨Function.update place i (.queued dest), h.grown, ?_, ?_, h.mapped, ?_, ?_⟩
  · refine at_iff_of_move h.at_iff hplace (by rintro ⟨⟩) ?_ ?_ ?_
    · intro pl hne hne' j
      cases pl with
      | held t' =>
        have ht : t' ≠ t := fun ht => hne (ht ▸ rfl)
        simp only [At, page_update, if_neg ht]
        rfl
      | queued d =>
        have hd : d ≠ dest := fun hd => hne' (hd ▸ rfl)
        simp only [At, hpages, if_neg hd]
        rfl
      | _ => exact Iff.rfl
    · intro j
      simp only [At, page_update, if_true, hpc, hheld, hi, Option.some.injEq,
        Nat.add_left_cancel_iff]
      simp [eq_comm]
    · intro j
      simp only [At, hpages, if_true, List.mem_append, List.mem_singleton]
      rw [or_comm]
      exact or_congr_left (by simp [State.queueMsg])
  · intro d
    rw [hpages]
    split
    · exact (h.once dest).append (List.nodup_singleton _) (by simpa using hnew dest)
    · exact h.once d
  · intro d page hpage
    rw [hpages] at hpage
    split at hpage
    · rcases List.mem_append.mp hpage with hpage | hpage
      · exact h.queued dest page hpage
      · obtain rfl := List.mem_singleton.mp hpage
        exact Nat.le_add_right ..
    · exact h.queued d page hpage
  · exact h.held_update (by simp [hpc])

/-- `recmsg` has the first page of the queue in hand. -/
theorem Pages.dequeue (h : Pages cfg s place) {header : MsgHeader} {rest : List MsgHeader}
    (hqueue : (s.msgqueue p).contents = header :: rest) (hnone : (s.pc t).page = none)
    (hpc : pc.page = some header.paginaFisica) :
    ∃ place', Pages cfg { s.takeMsg p header with
      sems := sems, pc := Function.update s.pc t pc } place' := by
  have hcontains := (s.msgqueue p).contains_contents
  rw [hqueue] at hcontains
  have htake := hcontains.take.contents_eq
  have hold : s.queuedPages p = header.paginaFisica :: rest.map MsgHeader.paginaFisica := by
    rw [State.queuedPages, hqueue, List.map_cons]
  obtain ⟨i, hi⟩ : ∃ i, header.paginaFisica = s.space.pagine + i :=
    Nat.exists_eq_add_of_le (h.queued p _ (hold ▸ List.mem_cons_self))
  have hnodup := h.once p
  rw [hold, List.nodup_cons] at hnodup
  have hpages (d : P) : ({ s.takeMsg p header with
      sems := sems, pc := Function.update s.pc t pc } : State P T W).queuedPages d =
        if d = p then rest.map MsgHeader.paginaFisica else s.queuedPages d := by
    by_cases hd : d = p
    · subst hd
      simp [State.queuedPages, State.takeMsg, htake]
    · simp [State.queuedPages, State.takeMsg, hd]
  have hplace : place i = .queued p := (h.at_iff i _).mp (by simp [At, hold, hi])
  refine ⟨Function.update place i (.held t), h.grown, ?_, ?_, h.mapped, ?_, ?_⟩
  · refine at_iff_of_move h.at_iff hplace (by rintro ⟨⟩) ?_ ?_ ?_
    · intro pl hne hne' j
      cases pl with
      | held t' =>
        have ht : t' ≠ t := fun ht => hne' (ht ▸ rfl)
        simp only [At, page_update, if_neg ht]
        rfl
      | queued d =>
        have hd : d ≠ p := fun hd => hne (hd ▸ rfl)
        simp only [At, hpages, if_neg hd]
        rfl
      | _ => exact Iff.rfl
    · intro j
      have hpagine : (s.takeMsg p header).space.pagine = s.space.pagine := rfl
      simp only [At, hpages, if_true, hold, List.mem_cons, hpagine]
      constructor
      · intro hmem
        refine ⟨fun hj => hnodup.1 ?_, .inr hmem⟩
        rw [hi, ← hj]
        exact hmem
      · rintro ⟨hj, hmem | hmem⟩
        · exact absurd (Nat.add_left_cancel (hmem.trans hi)) hj
        · exact hmem
    · intro j
      have hpagine : (s.takeMsg p header).space.pagine = s.space.pagine := rfl
      simp only [At, page_update, if_true, hpc, hnone, hi, Option.some.injEq, hpagine,
        Nat.add_left_cancel_iff]
      simp [eq_comm]
  · intro d
    rw [hpages]
    split
    · exact hnodup.2
    · exact h.once d
  · intro d page hpage
    rw [hpages] at hpage
    split at hpage
    · exact h.queued p page (hold ▸ List.mem_cons_of_mem _ hpage)
    · exact h.queued d page hpage
  · refine h.held_update fun page hp => ?_
    obtain rfl := Option.some.inj (hpc.symm.trans hp)
    exact h.queued p _ (hold ▸ List.mem_cons_self)

end

/-! ### Entries of page tables -/

section
variable {cfg : Config P T} {s : State P T W} {place : Nat → Place P T} {i : Nat} {t : T}
  {m : Space P} {p q : P} {n : Nat} {addr : Dword}

/-- An entry of the user part is changed, and it alone. -/
theorem maps_setPte (entry : Pte) (hkernel : ¬ (dirOf (addr.toNat / 4096)).val < m.kernelDirs)
    (hpresent : m.present p (dirOf (addr.toNat / 4096))) (hn : n < 2 ^ 20) (page : Nat) :
    (m.setPte p addr entry).Maps q n page ↔
      if q = p ∧ n = addr.toNat / 4096 then entry = ⟨page, true⟩ else m.Maps q n page := by
  have htable : m.table p (dirIndex addr) = .user p (dirOf (addr.toNat / 4096)) := by
    rw [dirIndex_eq, Space.table, if_neg hkernel, if_pos hpresent]
  simp only [Space.Maps, Space.setPte, htable, tableIndex_eq]
  by_cases hq : q = p ∧ dirOf n = dirOf (addr.toNat / 4096)
  · obtain ⟨rfl, hdir⟩ := hq
    rw [hdir, Function.update_self]
    by_cases hindex : indexOf n = indexOf (addr.toNat / 4096)
    · have hsame := page_unique hn (by have := addr.isLt; omega) hdir hindex
      subst hsame
      simp [hpresent]
    · have hne : n ≠ addr.toNat / 4096 := fun heq => hindex (heq ▸ rfl)
      rw [Function.update_of_ne hindex, if_neg fun hboth => hne hboth.2]
  · have hne : ¬ (q = p ∧ n = addr.toNat / 4096) := fun hboth => hq ⟨hboth.1, hboth.2 ▸ rfl⟩
    have htables : (Table.user q (dirOf n) : Table P) ≠ .user p (dirOf (addr.toNat / 4096)) :=
      fun heq => hq (Table.user.inj heq)
    rw [Function.update_of_ne htables, if_neg hne]

/-- A mapped message page is unmapped. -/
theorem maps_unmap (hgrown : Grown cfg m) (hpage : MessagePage cfg m p addr) (hn : n < 2 ^ 20)
    (page : Nat) : (m.unmap p addr).Maps q n page ↔
      ¬ (q = p ∧ n = addr.toNat / 4096) ∧ m.Maps q n page := by
  obtain ⟨harea, hpresent, -⟩ := hpage
  rw [dirIndex_eq] at hpresent
  rw [Space.unmap, maps_setPte _ (area_not_kernel hgrown harea) hpresent hn]
  split
  · next heq => simp [heq]
  · next hne => simp [hne]

omit [DecidableEq P] in
theorem maps_pte (hgrown : Grown cfg m) (hpage : MessagePage cfg m p addr) :
    m.Maps p (addr.toNat / 4096) (m.pte p addr).pageBaseAddr := by
  obtain ⟨harea, hpresent, hentry⟩ := hpage
  rw [dirIndex_eq] at hpresent
  have htable : m.table p (dirIndex addr) = .user p (dirOf (addr.toNat / 4096)) := by
    rw [dirIndex_eq, Space.table, if_neg (area_not_kernel hgrown harea), if_pos hpresent]
  refine ⟨hpresent, ?_⟩
  simp only [Space.pte, htable, tableIndex_eq] at hentry ⊢
  rw [← hentry]

omit [DecidableEq P] in
theorem Space.Maps.unique {page page' : Nat} (h : m.Maps p n page) (h' : m.Maps p n page') :
    page = page' := congrArg Pte.pageBaseAddr (h.2.symm.trans h'.2)

omit [DecidableEq P] in
/-- Where no page is added and no address used, nothing new is known. -/
theorem Grown.mono {m' : Space P} (h : Grown cfg m) (hpagine : m'.pagine = m.pagine)
    (hkernel : m'.kernelDirs = m.kernelDirs) (hlast : m'.lastUsedPage = m.lastUsedPage)
    (hmaps : ∀ p n page, n < 2 ^ 20 → m'.Maps p n page → m.Maps p n page) : Grown cfg m' where
  pagine := hpagine.trans h.pagine
  kernelDirs := hkernel.trans h.kernelDirs
  boundary := hlast ▸ h.boundary
  last := by
    simp only [Space.lastPage, hlast]
    exact h.last
  clear := by
    simp only [Space.lastPage, hlast]
    exact fun p n hn hlt page hmap => h.clear p n hn hlt page (hmaps p n page hlt hmap)

omit [DecidableEq P] in
theorem InArea.lt (h : InArea cfg m p n) : n < 2 ^ 20 := h.2.trans_lt (m.lastPage_lt p)

/-- The new pages are the old ones, without one mapping. -/
structure Unmapped (m m' : Space P) (p : P) (n : Nat) : Prop where
  pagine : m'.pagine = m.pagine
  kernelDirs : m'.kernelDirs = m.kernelDirs
  last : m'.lastUsedPage = m.lastUsedPage
  maps : ∀ q k page, k < 2 ^ 20 → (m'.Maps q k page ↔ ¬ (q = p ∧ k = n) ∧ m.Maps q k page)

section
variable {s' : State P T W} (hu : Unmapped s.space s'.space p n)
include hu

theorem Unmapped.grown (h : Grown cfg s.space) : Grown cfg s'.space :=
  h.mono hu.pagine hu.kernelDirs hu.last fun q k page hk hmap => ((hu.maps q k page hk).mp hmap).2

theorem Unmapped.area {q : P} {k : Nat} :
    InArea cfg s'.space q k ↔ InArea cfg s.space q k := by
  simp only [InArea, Space.lastPage, hu.last]

theorem Unmapped.at_other {q : P} {k : Nat} (hne : (.mapped q k : Place P T) ≠ .mapped p n)
    (j : Nat) : At cfg s' j (.mapped q k) ↔ At cfg s j (.mapped q k) := by
  simp only [At, hu.area, hu.pagine]
  refine and_congr_right fun hin => ?_
  rw [hu.maps _ _ _ hin.lt]
  exact and_iff_right fun ⟨hq, hk⟩ => hne (by rw [hq, hk])

theorem Unmapped.at_self (hin : InArea cfg s.space p n)
    (hmaps : s.space.Maps p n (s.space.pagine + i)) (j : Nat) :
    At cfg s' j (.mapped p n) ↔ j ≠ i ∧ At cfg s j (.mapped p n) := by
  simp only [At, hu.area, hu.pagine]
  rw [hu.maps _ _ _ hin.lt]
  constructor
  · exact fun hboth => absurd ⟨rfl, rfl⟩ hboth.2.1
  · rintro ⟨hj, -, hmapj⟩
    exact absurd (Nat.add_left_cancel (hmapj.unique hmaps)) hj

theorem Unmapped.mapped (h : Pages cfg s place) (q : P) (k page : Nat)
    (hin : InArea cfg s'.space q k) (hmap : s'.space.Maps q k page) : s'.space.pagine ≤ page := by
  rw [hu.pagine]
  have harea := hu.area.mp hin
  exact h.mapped q k page harea ((hu.maps q k page harea.lt).mp hmap).2

end

theorem unmapped_unmap (hgrown : Grown cfg m) (hpage : MessagePage cfg m p addr) :
    Unmapped m (m.unmap p addr) p (addr.toNat / 4096) :=
  ⟨rfl, rfl, rfl, fun _ _ page hk => maps_unmap hgrown hpage hk page⟩

theorem unmapped_freepage (hgrown : Grown cfg m) (hpage : MessagePage cfg m p addr) (i : Nat) :
    Unmapped m ((m.unmap p addr).freepage (m.pagine + i)) p (addr.toNat / 4096) ∧
      ((m.unmap p addr).freepage (m.pagine + i)).mem.pagelist =
        Function.update m.mem.pagelist i .freepage := by
  have hle : (m.unmap p addr).pagine ≤ m.pagine + i := Nat.le_add_right ..
  have hindex : m.pagine + i - (m.unmap p addr).pagine = i := Nat.add_sub_cancel_left ..
  rw [Space.freepage, if_pos hle, hindex]
  exact ⟨⟨rfl, rfl, rfl, fun _ _ page hk => maps_unmap hgrown hpage hk page⟩, rfl⟩

/-- The page to which a message page of a process is mapped. -/
theorem Pages.mapped_page (h : Pages cfg s place) (hpage : MessagePage cfg s.space p addr) :
    ∃ i, (s.space.pte p addr).pageBaseAddr = s.space.pagine + i ∧
      s.space.Maps p (addr.toNat / 4096) (s.space.pagine + i) ∧
      place i = .mapped p (addr.toNat / 4096) := by
  have hmaps := maps_pte h.grown hpage
  obtain ⟨i, hi⟩ : ∃ i, (s.space.pte p addr).pageBaseAddr = s.space.pagine + i :=
    Nat.exists_eq_add_of_le (h.mapped p _ _ hpage.1 hmaps)
  rw [hi] at hmaps
  exact ⟨i, hi, hmaps, (h.at_iff i _).mp ⟨hpage.1, hmaps⟩⟩

/-- `freemsg` frees the page that it unmaps. -/
theorem Pages.free (h : Pages cfg s place) (hpage : MessagePage cfg s.space p addr) :
    ∃ place', Pages cfg { s with
      space := (s.space.unmap p addr).freepage (s.space.pte p addr).pageBaseAddr } place' := by
  obtain ⟨i, hi, hmaps, hplace⟩ := h.mapped_page hpage
  rw [hi]
  obtain ⟨hu, hlist⟩ := unmapped_freepage h.grown hpage i
  have hused : s.space.mem.pagelist i ≠ .ptabpage := fun htab => by
    have helse := (h.at_iff i .elsewhere).mp (.inr htab)
    rw [hplace] at helse
    cases helse
  generalize (s.space.unmap p addr).freepage (s.space.pagine + i) = m' at hu hlist
  have hu' : Unmapped s.space ({ s with space := m' } : State P T W).space p _ := hu
  refine ⟨Function.update place i .free, hu'.grown h.grown, ?_, h.once, hu'.mapped h,
    fun dest page hq => ?_, fun t page ht => ?_⟩
  · refine at_iff_of_move h.at_iff hplace (by rintro ⟨⟩) ?_ (hu'.at_self hpage.1 hmaps) ?_
    · intro pl hne hne' j
      cases pl with
      | free => exact absurd rfl hne'
      | elsewhere =>
        simp only [At, hlist]
        by_cases hj : j = i
        · subst hj
          simp [hused]
        · rw [Function.update_of_ne hj]
      | mapped q k => exact hu'.at_other hne j
      | queued d =>
        simp only [At, hu.pagine]
        rfl
      | held t => simp only [At, hu.pagine]
    · intro j
      simp only [At, hlist]
      by_cases hj : j = i
      · subst hj
        simp
      · simp [hj]
  · exact hu.pagine.symm ▸ h.queued dest page hq
  · exact hu.pagine.symm ▸ h.held t page ht

/-- A new page table, for a part of the address space in which nothing is mapped. -/
theorem maps_newTable {k : Index} (habsent : m.present p k = false) (mem : Memory.State)
    (page : Nat) : Space.Maps { m with
      mem := mem
      present := Function.update m.present p (Function.update (m.present p) k true)
      tables := Function.update m.tables (.user p k) fun _ => ⟨0, false⟩ } q n page ↔
        m.Maps q n page := by
  by_cases hq : q = p ∧ dirOf n = k
  · obtain ⟨rfl, rfl⟩ := hq
    simp [Space.Maps, habsent]
  · have htable : (Table.user q (dirOf n) : Table P) ≠ .user p k :=
      fun heq => hq (Table.user.inj heq)
    simp only [Space.Maps, Function.update_of_ne htable]
    refine and_congr_left' ?_
    by_cases hqp : q = p
    · subst hqp
      have hdir : dirOf n ≠ k := fun hdir => hq ⟨rfl, hdir⟩
      rw [Function.update_self, Function.update_of_ne hdir]
    · rw [Function.update_of_ne hqp]

/-- A page table for an address is a page that was free, or was there before. -/
theorem Pages.withTable (h : Pages cfg s place) (hok : s.space.withTable p addr = .ok m)
    (hkernel : ¬ (dirIndex addr).val < s.space.kernelDirs) :
    m.present p (dirIndex addr) ∧ m.lastUsedPage = s.space.lastUsedPage ∧
      m.kernelDirs = s.space.kernelDirs ∧ m.pagine = s.space.pagine ∧
      (∀ q n page, m.Maps q n page ↔ s.space.Maps q n page) ∧
      ∃ place', Pages cfg { s with space := m } place' := by
  simp only [Space.withTable] at hok
  split at hok
  · next hthere =>
    obtain rfl := Except.ok.inj hok
    exact ⟨hthere.resolve_left hkernel, rfl, rfl, rfl, fun _ _ _ => Iff.rfl, place, h⟩
  · next habsent =>
    have hpresent : s.space.present p (dirIndex addr) = false :=
      Bool.eq_false_iff.mpr fun hthere => habsent (.inr hthere)
    rcases getpagetable_cases s.space.mem with hnull | ⟨i, hfree, hresult, hlist⟩
    · rw [hnull, if_pos rfl] at hok
      cases hok
    · rw [hresult, if_neg (by rintro ⟨⟩)] at hok
      obtain rfl := Except.ok.inj hok
      have hmaps := fun q n page =>
        maps_newTable (q := q) (n := n) hpresent (Memory.getpagetable s.space.mem).2 page
      refine ⟨by simp, rfl, rfl, rfl, hmaps, Function.update place i .elsewhere,
        h.grown.mono rfl rfl rfl fun q n page _ => (hmaps q n page).mp, ?_, h.once,
        fun q n page hin hmap => h.mapped q n page hin ((hmaps q n page).mp hmap), h.queued, h.held⟩
      refine at_iff_of_move h.at_iff ((h.at_iff i .free).mp hfree) (by rintro ⟨⟩) ?_ ?_ ?_
      · intro pl hne hne' j
        cases pl with
        | free => exact absurd rfl hne
        | elsewhere => exact absurd rfl hne'
        | mapped q n => exact and_congr_right fun _ => hmaps q n _
        | queued d => exact Iff.rfl
        | held t => exact Iff.rfl
      · intro j
        simp only [At, hlist]
        by_cases hj : j = i
        · subst hj
          simp
        · simp [hj]
      · intro j
        simp only [At, hlist]
        by_cases hj : j = i
        · subst hj
          simp
        · simp [hj]

/-- One more page is used, and nothing is mapped there yet. -/
theorem Pages.useAddress (h : Pages cfg s place) (hroom : HasRoom s.space p)
    (haddr : addr = s.space.lastUsedPage p + 4096) :
    addr.toNat / 4096 = s.space.lastPage p + 1 ∧
      Pages cfg { s with space := { s.space with
        lastUsedPage := Function.update s.space.lastUsedPage p addr } } place := by
  have hboundary := h.grown.boundary p
  have htoNat : addr.toNat = (s.space.lastUsedPage p).toNat + 4096 := by
    simp only [HasRoom, Space.lastPage] at hroom
    rw [haddr, BitVec.toNat_add]
    exact Nat.mod_eq_of_lt (by simp; omega)
  have hpage : addr.toNat / 4096 = s.space.lastPage p + 1 := by
    rw [htoNat, Space.lastPage]
    omega
  have hlast (q : P) : Space.lastPage { s.space with
      lastUsedPage := Function.update s.space.lastUsedPage p addr } q =
        if q = p then s.space.lastPage p + 1 else s.space.lastPage q := by
    by_cases hq : q = p
    · subst hq
      simpa [Space.lastPage] using hpage
    · simp [Space.lastPage, hq]
  have hle (q : P) : s.space.lastPage q ≤ Space.lastPage { s.space with
      lastUsedPage := Function.update s.space.lastUsedPage p addr } q := by
    rw [hlast]
    split
    · next hq => exact hq ▸ Nat.le_succ _
    · exact Nat.le_refl _
  -- the page that is new in the area is not mapped
  have harea (q : P) (n page : Nat) (hmap : s.space.Maps q n page) (hn : n < 2 ^ 20) :
      InArea cfg { s.space with
        lastUsedPage := Function.update s.space.lastUsedPage p addr } q n ↔
        InArea cfg s.space q n := by
    refine and_congr_right fun _ => ⟨fun hin => ?_, fun hin => hin.trans (hle q)⟩
    by_contra hout
    exact h.grown.clear q n (by omega) hn page hmap
  refine ⟨hpage, ⟨h.grown.pagine, h.grown.kernelDirs, fun q => ?_, fun q => ?_, ?_⟩, ?_, h.once,
    ?_, h.queued, h.held⟩
  · by_cases hq : q = p
    · subst hq
      simp only [Function.update_self, htoNat]
      omega
    · simp only [Function.update_of_ne hq]
      exact h.grown.boundary q
  · exact (h.grown.last q).trans (hle q)
  · exact fun q n hn => h.grown.clear q n ((hle q).trans_lt hn)
  · intro i pl
    rw [← h.at_iff]
    cases pl with
    | mapped q n =>
      refine and_congr_left fun hmap => ?_
      by_cases hn : n < 2 ^ 20
      · exact harea q n _ hmap hn
      · exact iff_of_false (fun hin => hn hin.lt) (fun hin => hn hin.lt)
    | _ => exact Iff.rfl
  · intro q n page hin hmap
    exact h.mapped q n page ((harea q n page hmap hin.lt).mp hin) hmap

variable [DecidableEq T] {sems : Semaphore.State W} {pc : Pc P} {page : Nat}

/-- `sendmsg` has the page in hand that it unmaps. -/
theorem Pages.unmap (h : Pages cfg s place) (hpage : MessagePage cfg s.space p addr)
    (hnone : (s.pc t).page = none) (hpc : pc.page = some (s.space.pte p addr).pageBaseAddr) :
    ∃ place', Pages cfg { s with
      sems := sems, pc := Function.update s.pc t pc, space := s.space.unmap p addr } place' := by
  obtain ⟨i, hi, hmaps, hplace⟩ := h.mapped_page hpage
  rw [hi] at hpc
  have hu : Unmapped s.space ({ s with
      sems := sems, pc := Function.update s.pc t pc,
      space := s.space.unmap p addr } : State P T W).space p _ := unmapped_unmap h.grown hpage
  have hpagine : (s.space.unmap p addr).pagine = s.space.pagine := rfl
  refine ⟨Function.update place i (.held t), hu.grown h.grown, ?_, h.once, hu.mapped h,
    h.queued, ?_⟩
  · refine at_iff_of_move h.at_iff hplace (by rintro ⟨⟩) ?_ (hu.at_self hpage.1 hmaps) ?_
    · intro pl hne hne' j
      cases pl with
      | held t' =>
        have ht : t' ≠ t := fun ht => hne' (ht ▸ rfl)
        simp only [At, page_update, if_neg ht, hpagine]
      | mapped q k => exact hu.at_other hne j
      | _ => exact Iff.rfl
    · intro j
      simp only [At, page_update, if_true, hpc, hnone, Option.some.injEq, hpagine,
        Nat.add_left_cancel_iff]
      simp [eq_comm]
  · refine h.held_update fun page hp => ?_
    obtain rfl := Option.some.inj (hpc.symm.trans hp)
    exact Nat.le_add_right ..

/-- A call maps the page that it has in hand where nothing is mapped. -/
theorem Pages.mapAt (h : Pages cfg s place) (hin : InArea cfg s.space p (addr.toNat / 4096))
    (hpresent : s.space.present p (dirOf (addr.toNat / 4096)))
    (hclear : ∀ page, ¬ s.space.Maps p (addr.toNat / 4096) page)
    (hheld : (s.pc t).page = some page) (hpc : pc.page = none) :
    ∃ place', Pages cfg { s with
      sems := sems, pc := Function.update s.pc t pc
      space := s.space.setPte p addr ⟨page, true⟩ } place' := by
  obtain ⟨i, rfl⟩ : ∃ i, page = s.space.pagine + i := Nat.exists_eq_add_of_le (h.held t _ hheld)
  have hmaps := fun q n (hn : n < 2 ^ 20) => maps_setPte (m := s.space) (q := q) (n := n)
    ⟨s.space.pagine + i, true⟩ (area_not_kernel h.grown hin) hpresent hn
  have hpagine : (s.space.setPte p addr ⟨s.space.pagine + i, true⟩).pagine = s.space.pagine := rfl
  have harea (q : P) (n : Nat) : InArea cfg (s.space.setPte p addr ⟨s.space.pagine + i, true⟩) q n ↔
      InArea cfg s.space q n := Iff.rfl
  have hplace : place i = .held t := (h.at_iff i _).mp hheld
  refine ⟨Function.update place i (.mapped p (addr.toNat / 4096)),
    ⟨h.grown.pagine, h.grown.kernelDirs, h.grown.boundary, h.grown.last, ?_⟩, ?_, h.once, ?_,
    h.queued, ?_⟩
  · intro q n hlast hn page hmap
    rw [hmaps q n hn] at hmap
    split at hmap
    · next heq =>
      obtain ⟨rfl, rfl⟩ := heq
      exact absurd hin.2 (Nat.not_le.mpr hlast)
    · exact h.grown.clear q n hlast hn page hmap
  · refine at_iff_of_move h.at_iff hplace (by rintro ⟨⟩) ?_ ?_ ?_
    · intro pl hne hne' j
      cases pl with
      | held t' =>
        have ht : t' ≠ t := fun ht => hne (ht ▸ rfl)
        simp only [At, page_update, if_neg ht, hpagine]
      | mapped q n =>
        simp only [At, harea, hpagine]
        refine and_congr_right fun hqin => ?_
        rw [hmaps q n hqin.lt, if_neg]
        rintro ⟨rfl, rfl⟩
        exact hne' rfl
      | _ => exact Iff.rfl
    · intro j
      simp only [At, page_update, if_true, hpc, hheld, hpagine, Option.some.injEq,
        Nat.add_left_cancel_iff]
      simp [eq_comm]
    · intro j
      simp only [At, harea, hpagine]
      rw [hmaps p _ hin.lt, if_pos ⟨rfl, rfl⟩]
      have hno := hclear (s.space.pagine + j)
      simp [hin, hno, eq_comm]
  · intro q n page hqin hmap
    rw [hmaps q n (InArea.lt (m := s.space) hqin)] at hmap
    split at hmap
    · rw [← (Pte.mk.inj hmap).1]
      exact Nat.le_add_right ..
    · exact h.mapped q n page hqin hmap
  · exact h.held_update (by simp [hpc])

/-- `getbmsg` and `recmsg` map the page that they have in hand. -/
theorem Pages.map (h : Pages cfg s place) (hroom : HasRoom s.space p)
    (hheld : (s.pc t).page = some page) (hpc : pc.page = none)
    (hok : s.space.map p page = .ok m) :
    ∃ place', Pages cfg { s with
      sems := sems, pc := Function.update s.pc t pc, space := m } place' := by
  obtain ⟨addr, haddr⟩ : ∃ addr, addr = s.space.lastUsedPage p + 4096 := ⟨_, rfl⟩
  obtain ⟨hpage, h₁⟩ := h.useAddress hroom haddr
  simp only [Space.map, ← haddr] at hok
  cases htable : Space.withTable { s.space with
      lastUsedPage := Function.update s.space.lastUsedPage p addr } p addr with
  | error e =>
    rw [htable] at hok
    cases hok
  | ok m₂ =>
    rw [htable] at hok
    obtain rfl := Except.ok.inj hok
    have hin : InArea cfg { s.space with
        lastUsedPage := Function.update s.space.lastUsedPage p addr } p (addr.toNat / 4096) := by
      constructor
      · rw [hpage]
        exact Nat.lt_succ_of_le (h.grown.last p)
      · simp [Space.lastPage]
    have hkernel := area_not_kernel h₁.grown hin
    rw [← dirIndex_eq] at hkernel
    obtain ⟨hpresent, hlast, -, -, hmaps, place₂, h₂⟩ := h₁.withTable htable hkernel
    have hin₂ : InArea cfg m₂ p (addr.toNat / 4096) := by
      simpa only [InArea, Space.lastPage, hlast] using hin
    rw [dirIndex_eq] at hpresent
    refine h₂.mapAt hin₂ hpresent (fun page hmap => ?_) hheld hpc
    rw [hmaps] at hmap
    refine h.grown.clear p _ ?_ hin.lt page hmap
    rw [hpage]
    exact Nat.lt_succ_self _

end

/-! ### One step -/

section
variable {cfg : Config P T} [DecidableEq T]

variable {s s' : State P T W} {place : Nat → Place P T} {t : T} {goes : Pc P} {act : Act T}
  {result : Option (Semaphore.State W)}

theorem acquired_ok (h : s.acquired t goes result = .ok s') :
    ∃ sems, s' = { s with sems := sems, pc := Function.update s.pc t goes } := by
  cases result with
  | none => cases h
  | some sems =>
    rw [State.acquired] at h
    split at h
    · cases h
    · exact ⟨sems, (Except.ok.inj h).symm⟩

theorem released_ok (h : s.released t goes result = .ok s') :
    ∃ sems, s' = { s with sems := sems, pc := Function.update s.pc t goes } := by
  cases result with
  | none => cases h
  | some sems => exact ⟨sems, (Except.ok.inj h).symm⟩

theorem Pages.acquired (h : Pages cfg s place) (hpage : goes.page = (s.pc t).page)
    (hok : s.acquired t goes result = .ok s') : ∃ place', Pages cfg s' place' := by
  obtain ⟨sems, rfl⟩ := acquired_ok hok
  exact ⟨place, h.goes hpage⟩

theorem Pages.released (h : Pages cfg s place) (hpage : goes.page = (s.pc t).page)
    (hok : s.released t goes result = .ok s') : ∃ place', Pages cfg s' place' := by
  obtain ⟨sems, rfl⟩ := released_ok hok
  exact ⟨place, h.goes hpage⟩

/-- The end of `getbmsg` and of `recmsg`. -/
theorem Pages.maps (h : Pages cfg s place) {page : Nat} {processo : P}
    (hroom : HasRoom s.space processo) (hheld : (s.pc t).page = some page)
    (hok : (do
      let space ← s.space.map processo page
      { s with space := space }.released t .user result) = Except.ok s') :
    ∃ place', Pages cfg s' place' := by
  cases hmap : s.space.map processo page with
  | error e =>
    rw [hmap] at hok
    cases hok
  | ok m =>
    rw [hmap] at hok
    obtain ⟨sems, rfl⟩ := released_ok hok
    exact h.map hroom hheld rfl hmap

theorem Pages.proceed (h : Pages cfg s place) (hproper : ProperPc cfg s.space (cfg.task t) (s.pc t))
    (hok : s.proceed t cfg (s.pc t) = .ok s') : ∃ place', Pages cfg s' place' := by
  cases hpc : s.pc t with
  | user =>
    rw [hpc] at hok
    cases hok
  | bmsgMap page =>
    rw [hpc] at hok hproper
    exact h.maps hproper (by rw [hpc]; rfl) hok
  | recMap page =>
    rw [hpc] at hok hproper
    exact h.maps hproper (by rw [hpc]; rfl) hok
  | sendFind destinatario dimensione msgAddr =>
    rw [hpc, State.proceed] at hok
    split at hok
    · exact h.released (by rw [hpc]; rfl) hok
    · split at hok
      · exact h.acquired (by rw [hpc]; rfl) hok
      · exact h.released (by rw [hpc]; rfl) hok
  | sendUnmap dest dimensione msgAddr =>
    rw [hpc] at hok hproper
    obtain ⟨sems, rfl⟩ := released_ok hok
    exact h.unmap hproper (by rw [hpc]; rfl) rfl
  | sendMsgSem dest header =>
    rw [hpc] at hok
    exact h.acquired (by rw [hpc]; rfl) hok
  | sendQueue dest header =>
    rw [hpc, State.proceed] at hok
    split at hok
    · cases hok
    · next hroom =>
      obtain ⟨sems, rfl⟩ := released_ok hok
      exact h.enqueue hroom (by rw [hpc]; rfl) rfl
  | sendMutex dest =>
    rw [hpc] at hok
    exact h.released (by rw [hpc]; rfl) hok
  | sendMessages dest =>
    rw [hpc] at hok
    exact h.released (by rw [hpc]; rfl) hok
  | recMsgSem =>
    rw [hpc] at hok
    exact h.acquired (by rw [hpc]; rfl) hok
  | recTake =>
    rw [hpc, State.proceed] at hok
    split at hok
    · cases hok
    · next hne =>
      obtain ⟨sems, rfl⟩ := released_ok hok
      have hcontains := (s.msgqueue (cfg.task t)).contains_contents
      obtain ⟨header, rest, hqueue⟩ := List.exists_cons_of_ne_nil fun hnil =>
        hne (hcontains.eq_nil_iff.mpr hnil).symm
      rw [hqueue] at hcontains
      rw [hcontains.head_eq]
      exact h.dequeue hqueue (by rw [hpc]; rfl) rfl
  | recMemSem physical =>
    rw [hpc] at hok
    exact h.acquired (by rw [hpc]; rfl) hok

theorem Pages.getbmsg (h : Pages cfg s place) (hpc : s.pc t = .user) {processo : P}
    (hok : s.getbmsg t processo = .ok s') : ∃ place', Pages cfg s' place' := by
  rw [State.getbmsg] at hok
  split at hok
  · next i mem hget =>
    obtain ⟨hfree, hmem⟩ := getpage_page hget
    obtain ⟨sems, rfl⟩ := acquired_ok hok
    exact ⟨_, h.takeFree hfree hmem (by rw [hpc]; rfl) rfl⟩
  · cases hok

theorem Pages.recmsg (h : Pages cfg s place) (hpc : s.pc t = .user) {processo : P} {flags : Dword}
    (hok : s.recmsg t processo flags = .ok s') : ∃ place', Pages cfg s' place' := by
  simp only [State.recmsg] at hok
  split at hok
  · split at hok
    · obtain rfl := Except.ok.inj hok
      exact ⟨place, h⟩
    · obtain rfl := Except.ok.inj hok
      exact ⟨place, h.goes (by rw [hpc]; rfl)⟩
  · exact h.acquired (by rw [hpc]; rfl) hok

theorem Pages.call (h : Pages cfg s place) (hpc : s.pc t = .user)
    (hproper : ProperBy cfg s act (some t)) (hok : s.call t cfg act = .ok s') :
    ∃ place', Pages cfg s' place' := by
  cases act with
  | getbmsg => exact h.getbmsg hpc hok
  | freemsg msg =>
    obtain rfl := Except.ok.inj hok
    exact h.free hproper
  | sendmsg destinatario dimensione msgAddr => exact h.acquired (by rw [hpc]; rfl) hok
  | recmsg flags => exact h.recmsg hpc hok
  | proceed => cases hok
  | schedule => cases hok
  | create t => cases hok

theorem Pages.systemStep (h : Pages cfg s place) {act : Semaphore.Act P (Lock P) T}
    (hok : s.systemStep act = .ok s') : ∃ place', Pages cfg s' place' := by
  rw [State.systemStep] at hok
  split at hok
  · cases hok
  · obtain rfl := Except.ok.inj hok
    exact ⟨place, h.grown, h.at_iff, h.once, h.mapped, h.queued, h.held⟩

theorem Pages.exec (h : Pages cfg s place) (hproper : Proper cfg s act)
    (hok : exec cfg s act = .ok s') : ∃ place', Pages cfg s' place' := by
  rw [Proper] at hproper
  unfold Messages.exec at hok
  split at hok
  · exact h.systemStep hok
  · exact h.systemStep hok
  · cases hok
  · next t hrun =>
    rw [hrun] at hproper
    exact h.proceed hproper hok
  · next t hrun =>
    rw [hrun] at hproper
    split at hok
    · split at hok
      · cases hok
      · exact h.call ‹_› hproper hok
    · cases hok

end

section
variable {P T : Type} [DecidableEq P] [DecidableEq T]

end

/-- Thread 2 frees the message that it got. -/
def returned : State (Fin 2) (Fin 3) dynamic.queues :=
  ((exchange ++ [Act.freemsg 0x8001000]).foldlM (next pair) (boot pair dynamic.queues)).getD
    (boot pair dynamic.queues)

local instance instNeZeroThreads : NeZero 3 := ⟨by decide⟩

end OsdevArchive.Osso.Messages
