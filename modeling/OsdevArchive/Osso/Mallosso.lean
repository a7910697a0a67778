import OsdevArchive.Lib.ByteBuffer
import OsdevArchive.Osso.PageTables

/-!
The memory that a process of OSSO gets and gives back (`kernel/memory.c`). `mallosso` asks
`Linear_alloc` for four bytes more than its caller, and leaves this size in them; `freosso` finds
it there, and `Linear_free` adds four bytes once more before it counts the pages.
-/

namespace OsdevArchive.Osso.PageTables

open OsdevArchive.Lib.ByteBuffer (byteOf word_byteOf)
open OsdevArchive.Osso.Memory (Dword PageKind dimPage)

def userLevel : Dword := 1

/-- The running process. -/
structure Process extends Space where
  lastUsedPage : Dword
  level : Dword

/-- `pages_needed`. -/
def pagesNeeded (dimensione : Dword) : Dword :=
  dimensione / dimPage + if dimensione % dimPage ≠ 0 then 1 else 0

namespace Space

/-- `Linear_alloc` gets a page table for an address that has none; it panics where there is no
page for it. -/
def withTable (s : Space) (livello a : Dword) : Option Space :=
  if (s.pagedir (pde a)).present then some s
  else
    match s.getpagetable with
    | (some p, s) => some (s.setDir a ⟨p, true, true, livello.getLsbD 0⟩)
    | (none, _) => none

/-- `freepage`, which for a page below `pagine` writes in front of `pagelist`. -/
def freepage (s : Space) (page : Nat) : Space :=
  if s.pagine ≤ page then { s with mem := (Memory.freepage (page - s.pagine) s.mem).2 }
  else { s with mem := { s.mem with freePages := s.mem.freePages + 1 } }

/-- The loop of `Linear_free`; it panics where nothing is mapped. -/
def freeLoop : Nat → Dword → Space → Option Space
  | 0, _, s => some s
  | pages + 1, indirizzo, s =>
    if ¬(s.pagedir (pde indirizzo)).present then none
    else
      let e := s.entry indirizzo
      if ¬e.present then none
      else
        freeLoop pages (indirizzo + dimPage)
          ((s.freepage e.baseAddr).setEntry indirizzo { e with present := false })

/-- A byte is written at an address; `none` is a page fault. -/
def store (s : Space) (a : Dword) (byte : Byte) : Option Space :=
  (s.mapping a).map fun e => s.poke e.baseAddr (offset a) byte

/-- A word is written, byte by byte. -/
def storeWord (s : Space) (a v : Dword) : Option Space := do
  let s ← s.store a (byteOf v 0)
  let s ← s.store (a + 1) (byteOf v 1)
  let s ← s.store (a + 2) (byteOf v 2)
  s.store (a + 3) (byteOf v 3)

def loadWord (s : Space) (a : Dword) : Option Dword := do
  let b0 ← s.load a
  let b1 ← s.load (a + 1)
  let b2 ← s.load (a + 2)
  let b3 ← s.load (a + 3)
  some (b3 ++ b2 ++ b1 ++ b0)

end Space

namespace Process

variable (s : Process)

/-- A round of the loop of `Linear_alloc`. -/
def allocPage (livello : Dword) : Option Process :=
  match s.getpage with
  | (none, _) => none
  | (some temp, m) =>
    let a := s.lastUsedPage + dimPage
    (m.withTable livello a).map fun m =>
      { m.setEntry a ⟨temp, true, true, livello = userLevel⟩ with
        lastUsedPage := a, level := s.level }

def allocLoop (livello : Dword) : Nat → Process → Option Process
  | 0, s => some s
  | pages + 1, s => (s.allocPage livello).bind (allocLoop livello pages)

/-- `Linear_alloc`; `none` is a panic. -/
def linearAlloc (dimensione livello : Dword) : Option (Dword × Process) :=
  if s.mem.freePages < pagesNeeded dimensione then none
  else (allocLoop livello (pagesNeeded dimensione).toNat s).map fun t =>
    (s.lastUsedPage + dimPage, t)

/-- `mallosso`; null is the address 0. -/
def mallosso (dimensione : Dword) : Option (Dword × Process) := do
  let (indirizzo, t) ← s.linearAlloc (dimensione + 4) s.level
  if indirizzo ≠ 0 then do
    let m ← t.storeWord indirizzo (dimensione + 4)
    some (indirizzo + 4, { t with toSpace := m })
  else some (0, t)

/-- `Linear_free`. -/
def linearFree (indirizzo dimensione : Dword) : Option Process :=
  (Space.freeLoop (pagesNeeded (dimensione + 4)).toNat indirizzo s.toSpace).map fun m =>
    { s with toSpace := m }

def freosso (indirizzo : Dword) : Option Process := do
  let dimensione ← s.loadWord (indirizzo - 4)
  s.linearFree (indirizzo - 4) dimensione

end Process

/-! ### What the round trip has to do -/

/-- After `mallosso` led from `s` to `u`, giving back what it returned frees the pages that it
mapped, and no others. -/
structure Restores (s u t : Process) : Prop where
  mapping : ∀ x, t.mapping x = s.mapping x
  frees : ∀ i, u.mem.pagelist i ≠ .freepage ∧ t.mem.pagelist i = .freepage ↔
    ∃ x e, u.mapping x = some e ∧ s.mapping x ≠ u.mapping x ∧ e.baseAddr = s.pagine + i
  tables : ∀ i, NewTable s.toSpace t.toSpace i → t.mem.pagelist i = .ptabpage
  pagelist : ∀ i, ¬NewTable s.toSpace t.toSpace i → t.mem.pagelist i = s.mem.pagelist i
  freePages : t.mem.freePages =
    s.mem.freePages - BitVec.ofNat 32 (newTables s.toSpace t.toSpace).card

/-- `freosso` of the returned pointer restores what was there before. -/
def RoundTrip (s u : Process) (ptr : Dword) : Prop := ∃ t, u.freosso ptr = some t ∧ Restores s u t

/-- The pages that follow the last one are not mapped. -/
def Room (s : Process) (pages : Nat) : Prop :=
  ∀ i < pages, s.mapping (s.lastUsedPage + BitVec.ofNat 32 (4096 * (i + 1))) = none

/-- The size with its header ends at least four bytes before the end of a page, and the pages for
it were not mapped. -/
structure Fits (s : Process) (dimensione : Dword) : Prop where
  start : 0 < (dimensione + 4).toNat % 4096
  slack : (dimensione + 4).toNat % 4096 ≤ 4092
  below : (dimensione + 4).toNat + 4 < 2 ^ 32
  room : Room s (pagesNeeded (dimensione + 4)).toNat

/-! ### Allocation -/

variable {s t u : Process} {m n : Space} {livello a x : Dword} {is : List Nat} {k i : Nat}

theorem withTable_some (hc : Coherent m) (h : m.withTable livello a = some n) :
    Coherent n ∧ (∀ x, n.mapping x = m.mapping x) ∧ Took m [] n ∧ n.data = m.data ∧
      ∀ d, (n.pagedir d).present ↔ (m.pagedir d).present ∨ d = pde a := by
  unfold Space.withTable at h
  split at h
  · rename_i hpresent
    obtain rfl := Option.some.inj h
    refine ⟨hc, fun _ => rfl, Took.refl m, rfl, fun d => ?_⟩
    exact (or_iff_left_of_imp fun hd => hd ▸ hpresent).symm
  · rename_i hnot
    split at h
    · rename_i p r hcall
      obtain rfl := Option.some.inj h
      obtain ⟨j, rfl, hfree, hlist, hcount, hr⟩ := getpagetable_some hcall
      have hdirs : r.pagedir = m.pagedir := by rw [hr]
      have hdir : (r.setDir a ⟨m.pagine + j, true, true, livello.getLsbD 0⟩).pagedir =
          Function.update m.pagedir (pde a) ⟨m.pagine + j, true, true, livello.getLsbD 0⟩ := by
        rw [Space.setDir, hdirs]
      have hpagine : r.pagine = m.pagine := by rw [hr]
      have htables : r.tables = Function.update m.tables (m.pagine + j) fun _ => .clear := by
        rw [hr]
      obtain ⟨hcoherent, hmapping⟩ := hc.newTable hnot hfree rfl rfl hdir htables hpagine hlist
      refine ⟨hcoherent, hmapping, took_table hpagine hnot rfl rfl hdir hfree hlist hcount, ?_, ?_⟩
      · change r.data = _
        rw [hr]
      · intro d
        rw [hdir, Function.update_apply]
        split
        · exact iff_of_true rfl (Or.inr ‹_›)
        · exact (or_iff_left ‹_›).symm
    · cases h

/-- A round of `Linear_alloc` maps a free page behind the last one. -/
theorem allocPage_some (hc : Coherent s.toSpace) (h : s.allocPage livello = some u) :
    Coherent u.toSpace ∧ u.lastUsedPage = s.lastUsedPage + dimPage ∧ u.level = s.level ∧
      (∀ d, (u.pagedir d).present ↔
        (s.pagedir d).present ∨ d = pde (s.lastUsedPage + dimPage)) ∧
      ∃ i, Took s.toSpace [i] u.toSpace ∧
        u.data = Function.update s.data (s.pagine + i) (fun _ => 0) ∧ ∀ x, u.mapping x =
          if vpn x = vpn (s.lastUsedPage + dimPage) then
            some ⟨s.pagine + i, true, true, livello = userLevel⟩
          else s.mapping x := by
  unfold Process.allocPage at h
  split at h
  · cases h
  · rename_i p m hcall
    obtain ⟨n, htable, rfl⟩ := Option.map_eq_some_iff.mp h
    obtain ⟨i, rfl, hfree, hlist, hcount, -, hm⟩ := getpage_some hcall
    obtain ⟨hcm, hmapping⟩ := hc.getpage hcall
    obtain ⟨hcn, hsame, htook, hdata, hdir⟩ := withTable_some hcm htable
    have hpagedir : m.pagedir = s.pagedir := by rw [hm]
    refine ⟨hcn.coherent_setEntry _, rfl, rfl, ?_, i, ?_, ?_, ?_⟩
    · rw [← hpagedir]
      exact hdir
    · have hpage : Took s.toSpace [i] m := by
        apply took_page _ hpagedir hfree hlist hcount
        rw [hm]
      exact (hpage.trans htook).setEntry _ _
    · change n.data = _
      rw [hdata, hm]
    · intro x
      have hentry := mapping_setEntry hcn.tableOnce ((hdir _).mpr (Or.inr rfl))
        ⟨s.pagine + i, true, true, livello = userLevel⟩ x
      rw [hsame, hmapping] at hentry
      exact hentry

/-- The loop maps the pages `is` behind the last one. -/
structure Allocated (s : Process) (livello : Dword) (is : List Nat) (u : Process) : Prop where
  coherent : Coherent u.toSpace
  level : u.level = s.level
  last : u.lastUsedPage = s.lastUsedPage + BitVec.ofNat 32 (4096 * is.length)
  took : Took s.toSpace is u.toSpace
  inside : ∀ i (hi : i < is.length), ∀ x, vpn x = (vpn s.lastUsedPage + (i + 1)) % 2 ^ 20 →
    u.mapping x = some ⟨s.pagine + is[i], true, true, livello = userLevel⟩
  outside : ∀ x, (∀ i < is.length, vpn x ≠ (vpn s.lastUsedPage + (i + 1)) % 2 ^ 20) →
    u.mapping x = s.mapping x

theorem Allocated.refl (hc : Coherent s.toSpace) : Allocated s livello [] s where
  coherent := hc
  level := rfl
  last := by simp
  took := Took.refl _
  inside i hi := absurd hi (Nat.not_lt_zero i)
  outside _ _ := rfl

/-- One page more, as long as there are addresses left. -/
theorem Allocated.step (h : Allocated s livello is u) (hlen : is.length < 2 ^ 20)
    (hstep : u.allocPage livello = some t) : ∃ j, Allocated s livello (is ++ [j]) t := by
  obtain ⟨hcoherent, hlast, hlevel, -, j, htook, -, hmapping⟩ := allocPage_some h.coherent hstep
  have hnext : t.lastUsedPage =
      s.lastUsedPage + BitVec.ofNat 32 (4096 * (is ++ [j]).length) := by
    rw [hlast, h.last, List.length_append, List.length_singleton, Nat.mul_add, BitVec.ofNat_add,
      ← BitVec.add_assoc]
    rfl
  have hvpn : vpn (u.lastUsedPage + dimPage) = (vpn s.lastUsedPage + (is.length + 1)) % 2 ^ 20 := by
    rw [← hlast, hnext, vpn_add, List.length_append, List.length_singleton]
  rw [h.took.pagine, hvpn] at hmapping
  refine ⟨j, hcoherent, hlevel.trans h.level, hnext, h.took.trans htook, ?_, ?_⟩
  · intro i hi x hx
    rw [List.length_append, List.length_singleton] at hi
    rw [hmapping]
    rcases Nat.lt_or_ge i is.length with hlt | hge
    · have hne : vpn x ≠ (vpn s.lastUsedPage + (is.length + 1)) % 2 ^ 20 := by omega
      rw [if_neg hne, h.inside i hlt x hx, List.getElem_append_left hlt]
    · obtain rfl : i = is.length := by omega
      rw [if_pos hx, List.getElem_append_right (Nat.le_refl _)]
      simp
  · intro x hx
    rw [List.length_append, List.length_singleton] at hx
    rw [hmapping, if_neg (hx is.length (Nat.lt_succ_self _))]
    exact h.outside x fun i hi => hx i (Nat.lt_succ_of_lt hi)

/-- The last round may be taken apart from the others. -/
theorem allocLoop_succ (k : Nat) (s : Process) :
    Process.allocLoop livello (k + 1) s =
      (Process.allocLoop livello k s).bind fun t => t.allocPage livello := by
  induction k generalizing s with
  | zero =>
    change (s.allocPage livello).bind some = s.allocPage livello
    exact Option.bind_fun_some _
  | succ k ih =>
    change (s.allocPage livello).bind (Process.allocLoop livello (k + 1)) =
      ((s.allocPage livello).bind (Process.allocLoop livello k)).bind _
    rw [Option.bind_assoc]
    exact Option.bind_congr fun r _ => ih r

theorem allocLoop_some (hc : Coherent s.toSpace) (hk : k ≤ 2 ^ 20)
    (h : Process.allocLoop livello k s = some u) :
    ∃ is, is.length = k ∧ Allocated s livello is u := by
  induction k generalizing u with
  | zero =>
    obtain rfl := Option.some.inj h
    exact ⟨[], rfl, .refl hc⟩
  | succ k ih =>
    rw [allocLoop_succ] at h
    obtain ⟨r, hloop, hlast⟩ := Option.bind_eq_some_iff.mp h
    obtain ⟨is, hlength, halloc⟩ := ih (by omega) hloop
    obtain ⟨j, hnext⟩ := halloc.step (by omega) hlast
    exact ⟨is ++ [j], by rw [List.length_append, hlength]; rfl, hnext⟩

/-! ### Release -/

/-- What freeing a page does to `pagelist`. -/
theorem freepage_pagelist (m : Space) (page j : Nat) : (m.freepage page).mem.pagelist j =
    if page = m.pagine + j then .freepage else m.mem.pagelist j := by
  unfold Space.freepage
  by_cases hpage : m.pagine ≤ page
  · have hindex : page = m.pagine + j ↔ j = page - m.pagine := by omega
    rw [if_pos hpage]
    simp only [hindex]
    exact Function.update_apply ..
  · rw [if_neg hpage, if_neg (by omega)]

theorem freepage_freePages (m : Space) (page : Nat) :
    (m.freepage page).mem.freePages = m.mem.freePages + 1 := by
  unfold Space.freepage
  split <;> rfl

theorem freepage_mapping (m : Space) (page : Nat) (x : Dword) :
    (m.freepage page).mapping x = m.mapping x := by
  unfold Space.freepage
  split <;> rfl

theorem freepage_dirs (m : Space) (page : Nat) :
    (m.freepage page).pagedir = m.pagedir ∧ (m.freepage page).pagine = m.pagine := by
  unfold Space.freepage
  split <;> exact ⟨rfl, rfl⟩

/-- The page is that of one of the `k` virtual pages from `a` on. -/
def PageOf (m : Space) (a : Dword) (k j : Nat) : Prop :=
  ∃ i < k, ∃ e, m.mapping (a + BitVec.ofNat 32 (4096 * i)) = some e ∧ e.baseAddr = m.pagine + j

/-- The loop of `Linear_free` unmaps `k` pages from `a` on, which were mapped. -/
structure Freed (m : Space) (a : Dword) (k : Nat) (n : Space) : Prop where
  pagedir : n.pagedir = m.pagedir
  pagine : n.pagine = m.pagine
  mapped : ∀ i < k, m.mapping (a + BitVec.ofNat 32 (4096 * i)) ≠ none
  inside : ∀ i < k, ∀ x, vpn x = (vpn a + i) % 2 ^ 20 → n.mapping x = none
  outside : ∀ x, (∀ i < k, vpn x ≠ (vpn a + i) % 2 ^ 20) → n.mapping x = m.mapping x
  freed : ∀ j, PageOf m a k j → n.mem.pagelist j = .freepage
  kept : ∀ j, ¬PageOf m a k j → n.mem.pagelist j = m.mem.pagelist j
  freePages : n.mem.freePages = m.mem.freePages + BitVec.ofNat 32 k

theorem Freed.refl (m : Space) (a : Dword) : Freed m a 0 m where
  pagedir := rfl
  pagine := rfl
  mapped i hi := absurd hi (Nat.not_lt_zero i)
  inside i hi := absurd hi (Nat.not_lt_zero i)
  outside _ _ := rfl
  freed := fun _ ⟨i, hi, _⟩ => absurd hi (Nat.not_lt_zero i)
  kept _ _ := rfl
  freePages := by simp

theorem add_page (a : Dword) (i : Nat) :
    a + dimPage + BitVec.ofNat 32 (4096 * i) = a + BitVec.ofNat 32 (4096 * (i + 1)) := by
  have hpage : dimPage = BitVec.ofNat 32 4096 := rfl
  rw [BitVec.add_assoc, hpage, ← BitVec.ofNat_add, Nat.mul_add, Nat.add_comm]

theorem vpn_add_dimPage (a : Dword) : vpn (a + dimPage) = (vpn a + 1) % 2 ^ 20 := vpn_add a 1

/-- The first page is unmapped and freed. -/
def Space.freeFirst (m : Space) (a : Dword) : Space :=
  (m.freepage (m.entry a).baseAddr).setEntry a { m.entry a with present := false }

theorem freeFirst_mapping (hc : TablesOnce m) (hdir : (m.pagedir (pde a)).present) (x : Dword) :
    (m.freeFirst a).mapping x = if vpn x = vpn a then none else m.mapping x := by
  obtain ⟨hdirs, -⟩ := freepage_dirs m (m.entry a).baseAddr
  have honce : TablesOnce (m.freepage (m.entry a).baseAddr) := by
    unfold TablesOnce
    rw [hdirs]
    exact hc
  have hpresent : ((m.freepage (m.entry a).baseAddr).pagedir (pde a)).present := by
    rw [hdirs]
    exact hdir
  have hentry := mapping_setEntry honce hpresent { m.entry a with present := false } x
  rw [freepage_mapping] at hentry
  exact hentry

theorem freeFirst_pagelist (m : Space) (a : Dword) (j : Nat) :
    (m.freeFirst a).mem.pagelist j =
      if (m.entry a).baseAddr = m.pagine + j then .freepage else m.mem.pagelist j :=
  freepage_pagelist m _ j

/-- The pages of the block are the first one and those of the rest. -/
theorem pageOf_succ (hc : TablesOnce m) (hk : k < 2 ^ 20) (hdir : (m.pagedir (pde a)).present)
    (hpresent : (m.entry a).present) (j : Nat) :
    PageOf m a (k + 1) j ↔
      (m.entry a).baseAddr = m.pagine + j ∨ PageOf (m.freeFirst a) (a + dimPage) k j := by
  obtain ⟨-, hpagine⟩ := freepage_dirs m (m.entry a).baseAddr
  have hfirst : m.mapping a = some (m.entry a) := mapping_eq_some.mpr ⟨hdir, hpresent, rfl⟩
  have hrest : ∀ i < k, (m.freeFirst a).mapping (a + dimPage + BitVec.ofNat 32 (4096 * i)) =
      m.mapping (a + BitVec.ofNat 32 (4096 * (i + 1))) := by
    intro i hi
    have hne : vpn (a + BitVec.ofNat 32 (4096 * (i + 1))) ≠ vpn a := by
      rw [vpn_add]
      have hlt := vpn_lt a
      omega
    rw [add_page, freeFirst_mapping hc hdir, if_neg hne]
  constructor
  · rintro ⟨i, hi, e, he, hbase⟩
    cases i with
    | zero =>
      rw [Nat.mul_zero, BitVec.add_zero, hfirst] at he
      obtain rfl := Option.some.inj he
      exact Or.inl hbase
    | succ i => exact Or.inr ⟨i, by omega, e, (hrest i (by omega)).trans he, hpagine ▸ hbase⟩
  · rintro (hbase | ⟨i, hi, e, he, hbase⟩)
    · refine ⟨0, Nat.succ_pos k, m.entry a, ?_, hbase⟩
      rw [Nat.mul_zero, BitVec.add_zero, hfirst]
    · exact ⟨i + 1, by omega, e, (hrest i hi).symm.trans he, hbase.trans (by rw [← hpagine]; rfl)⟩

theorem Freed.cons (hc : TablesOnce m) (hk : k < 2 ^ 20) (hdir : (m.pagedir (pde a)).present)
    (hpresent : (m.entry a).present) (h : Freed (m.freeFirst a) (a + dimPage) k n) :
    Freed m a (k + 1) n := by
  obtain ⟨hdirs, hpagine⟩ := freepage_dirs m (m.entry a).baseAddr
  have hmapping := freeFirst_mapping hc hdir
  have hlt := vpn_lt a
  have hpages := pageOf_succ hc hk hdir hpresent
  constructor
  · exact h.pagedir.trans hdirs
  · exact h.pagine.trans hpagine
  · intro i hi
    cases i with
    | zero =>
      rw [Nat.mul_zero, BitVec.add_zero, mapping_eq_some.mpr ⟨hdir, hpresent, rfl⟩]
      exact Option.some_ne_none _
    | succ i =>
      intro hnone
      apply h.mapped i (by omega)
      rw [add_page, hmapping, hnone, ite_self]
  · intro i hi x hx
    cases i with
    | zero =>
      rw [h.outside x, hmapping, if_pos (by omega)]
      intro j hj
      rw [vpn_add_dimPage]
      omega
    | succ i =>
      apply h.inside i (by omega)
      rw [vpn_add_dimPage]
      omega
  · intro x hx
    have hfirst := hx 0 (Nat.succ_pos k)
    rw [h.outside x, hmapping, if_neg (by omega)]
    intro i hi
    have hne := hx (i + 1) (by omega)
    rw [vpn_add_dimPage]
    omega
  · intro j hj
    by_cases hrest : PageOf (m.freeFirst a) (a + dimPage) k j
    · exact h.freed j hrest
    · have hbase := (or_iff_left hrest).mp ((hpages j).mp hj)
      rw [h.kept j hrest, freeFirst_pagelist, if_pos hbase]
  · intro j hj
    rw [hpages, not_or] at hj
    rw [h.kept j hj.2, freeFirst_pagelist, if_neg hj.1]
  · have hcount : (m.freeFirst a).mem.freePages = m.mem.freePages + 1 := freepage_freePages m _
    have hone : BitVec.ofNat 32 (k + 1) = 1 + BitVec.ofNat 32 k :=
      (congrArg (BitVec.ofNat 32) (Nat.add_comm k 1)).trans (BitVec.ofNat_add 1 k)
    rw [h.freePages, hcount, hone, BitVec.add_assoc]

/-- The loop ends exactly if all its pages are mapped, and unmaps them. -/
theorem freeLoop_spec (hc : TablesOnce m) (hk : k ≤ 2 ^ 20) :
    (∀ n, Space.freeLoop k a m = some n → Freed m a k n) ∧
      ((∀ i < k, m.mapping (a + BitVec.ofNat 32 (4096 * i)) ≠ none) →
        ∃ n, Space.freeLoop k a m = some n) := by
  induction k generalizing a m with
  | zero =>
    constructor
    · intro n hn
      obtain rfl := Option.some.inj hn
      exact Freed.refl m a
    · exact fun _ => ⟨m, rfl⟩
  | succ k ih =>
    by_cases hboth : (m.pagedir (pde a)).present ∧ (m.entry a).present
    · obtain ⟨hdir, hpresent⟩ := hboth
      have honce : TablesOnce (m.freeFirst a) := by
        unfold TablesOnce
        rw [show (m.freeFirst a).pagedir = m.pagedir from (freepage_dirs m _).1]
        exact hc
      have hstep : Space.freeLoop (k + 1) a m =
          Space.freeLoop k (a + dimPage) (m.freeFirst a) := by
        rw [Space.freeLoop, if_neg (not_not.mpr hdir), if_neg (not_not.mpr hpresent)]
        rfl
      rw [hstep]
      obtain ⟨hsome, htotal⟩ := ih honce (by omega) (a := a + dimPage)
      constructor
      · intro n hn
        exact (hsome n hn).cons hc (by omega) hdir hpresent
      · intro hmapped
        apply htotal
        intro i hi
        have hne : vpn (a + BitVec.ofNat 32 (4096 * (i + 1))) ≠ vpn a := by
          rw [vpn_add]
          have hlt := vpn_lt a
          omega
        rw [add_page, freeFirst_mapping hc hdir, if_neg hne]
        exact hmapped (i + 1) (by omega)
    · have hnone : Space.freeLoop (k + 1) a m = none := by
        unfold Space.freeLoop
        rw [not_and_or] at hboth
        rcases hboth with hdir | hpresent
        · rw [if_pos hdir]
        · by_cases hdir : (m.pagedir (pde a)).present
          · rw [if_neg (not_not.mpr hdir), if_pos hpresent]
          · rw [if_pos hdir]
      constructor
      · intro n hn
        rw [hnone] at hn
        cases hn
      · intro hmapped
        have hfirst := hmapped 0 (Nat.succ_pos k)
        rw [Nat.mul_zero, BitVec.add_zero] at hfirst
        exact absurd (if_neg hboth) hfirst

/-! ### The size in front of the block -/

theorem store_eq {e : Entry} (he : m.mapping a = some e) (byte : Byte) :
    m.store a byte = some (m.poke e.baseAddr (offset a) byte) := by
  rw [Space.store, he, Option.map_some]

theorem load_eq {e : Entry} (he : m.mapping a = some e) :
    m.load a = some (m.data e.baseAddr (offset a)) := by
  rw [Space.load, he, Option.map_some]

/-- A word at the start of a page lies in it. -/
theorem offset_add (ha : offset a = 0) (hi : i < 4) :
    offset (a + BitVec.ofNat 32 i) = i ∧ vpn (a + BitVec.ofNat 32 i) = vpn a := by
  have hlt := a.isLt
  unfold offset at ha ⊢
  unfold vpn
  rw [BitVec.toNat_add, BitVec.toNat_ofNat]
  omega

/-- The four bytes that `storeWord` writes. -/
def Space.pokeWord (m : Space) (page : Nat) (v : Dword) : Space :=
  (((m.poke page 0 (byteOf v 0)).poke page 1 (byteOf v 1)).poke page 2 (byteOf v 2)).poke page 3
    (byteOf v 3)

theorem storeWord_eq {e : Entry} (ha : offset a = 0) (he : m.mapping a = some e) (v : Dword) :
    m.storeWord a v = some (m.pokeWord e.baseAddr v) := by
  have hstore : ∀ i < 4, ∀ r : Space, r.mapping = m.mapping → ∀ byte : Byte,
      r.store (a + BitVec.ofNat 32 i) byte = some (r.poke e.baseAddr i byte) := by
    intro i hi r hr byte
    obtain ⟨hoff, hvpn⟩ := offset_add ha hi
    rw [store_eq ((congrFun hr _).trans ((mapping_congr_vpn hvpn).trans he)), hoff]
  have h0 := hstore 0 (by omega) m rfl (byteOf v 0)
  rw [BitVec.add_zero] at h0
  have h1 := hstore 1 (by omega) (m.poke e.baseAddr 0 (byteOf v 0)) rfl (byteOf v 1)
  have h2 := hstore 2 (by omega)
    ((m.poke e.baseAddr 0 (byteOf v 0)).poke e.baseAddr 1 (byteOf v 1)) rfl (byteOf v 2)
  have h3 := hstore 3 (by omega)
    (((m.poke e.baseAddr 0 (byteOf v 0)).poke e.baseAddr 1 (byteOf v 1)).poke e.baseAddr 2
      (byteOf v 2)) rfl (byteOf v 3)
  exact Option.bind_eq_some_iff.mpr ⟨_, h0, Option.bind_eq_some_iff.mpr
    ⟨_, h1, Option.bind_eq_some_iff.mpr ⟨_, h2, h3⟩⟩⟩

theorem pokeWord_data (m : Space) (page : Nat) (v : Dword) (hi : i < 4) :
    (m.pokeWord page v).data page i = byteOf v i := by
  simp only [Space.pokeWord, Space.poke, Function.update_self, Function.update_apply]
  obtain rfl | rfl | rfl | rfl : i = 3 ∨ i = 2 ∨ i = 1 ∨ i = 0 := by omega
  all_goals rfl

theorem loadWord_pokeWord {e : Entry} (ha : offset a = 0) (he : m.mapping a = some e)
    (v : Dword) : (m.pokeWord e.baseAddr v).loadWord a = some v := by
  have hload : ∀ i < 4, (m.pokeWord e.baseAddr v).load (a + BitVec.ofNat 32 i) =
      some (byteOf v i) := by
    intro i hi
    obtain ⟨hoff, hvpn⟩ := offset_add ha hi
    have hentry : (m.pokeWord e.baseAddr v).mapping (a + BitVec.ofNat 32 i) = some e :=
      (mapping_congr_vpn (s := m) hvpn).trans he
    rw [load_eq hentry, hoff, pokeWord_data m _ v hi]
  have h0 := hload 0 (by omega)
  rw [BitVec.add_zero] at h0
  have hword : byteOf v 3 ++ byteOf v 2 ++ byteOf v 1 ++ byteOf v 0 = v := word_byteOf v
  refine Option.bind_eq_some_iff.mpr ⟨_, h0, Option.bind_eq_some_iff.mpr
    ⟨_, hload 1 (by omega), Option.bind_eq_some_iff.mpr ⟨_, hload 2 (by omega),
      Option.bind_eq_some_iff.mpr ⟨_, hload 3 (by omega), ?_⟩⟩⟩⟩
  exact congrArg some hword

/-! ### Sizes -/

theorem toNat_pagesNeeded (d : Dword) : (pagesNeeded d).toNat = (d.toNat + 4095) / 4096 := by
  have hlt := d.isLt
  have hpage : dimPage.toNat = 4096 := rfl
  unfold pagesNeeded
  have hmod : d % dimPage ≠ 0 ↔ d.toNat % 4096 ≠ 0 := by
    rw [← BitVec.toNat_inj.ne, BitVec.toNat_umod, hpage]
    rfl
  by_cases h : d % dimPage ≠ 0
  · have hrest := hmod.mp h
    rw [if_pos h, BitVec.toNat_add, BitVec.toNat_udiv, hpage]
    change (d.toNat / 4096 + 1) % 2 ^ 32 = _
    omega
  · have hrest := mt hmod.mpr h
    rw [if_neg h, BitVec.toNat_add, BitVec.toNat_udiv, hpage]
    change (d.toNat / 4096 + 0) % 2 ^ 32 = _
    omega

theorem pagesNeeded_le (d : Dword) : (pagesNeeded d).toNat ≤ 2 ^ 20 := by
  have hlt := d.isLt
  rw [toNat_pagesNeeded]
  omega

/-! ### The round trip -/

/-- What `mallosso` has done when it returns a block of the pages `is`. -/
structure Returned (s : Process) (d ptr : Dword) (is : List Nat) (u : Process) : Prop where
  length : is.length = (pagesNeeded (d + 4)).toNat
  took : Took s.toSpace is u.toSpace
  once : TablesOnce u.toSpace
  header : u.loadWord (ptr - 4) = some (d + 4)
  start : ptr - 4 = s.lastUsedPage + dimPage
  inside : ∀ i (hi : i < is.length), ∀ x, vpn x = (vpn s.lastUsedPage + (i + 1)) % 2 ^ 20 →
    u.mapping x = some ⟨s.pagine + is[i], true, true, s.level = userLevel⟩
  outside : ∀ x, (∀ i < is.length, vpn x ≠ (vpn s.lastUsedPage + (i + 1)) % 2 ^ 20) →
    u.mapping x = s.mapping x

theorem mallosso_some {d ptr : Dword} (hc : Coherent s.toSpace)
    (haligned : offset s.lastUsedPage = 0) (h : s.mallosso d = some (ptr, u)) (hptr : ptr ≠ 0) :
    ∃ is, Returned s d ptr is u := by
  obtain ⟨⟨indirizzo, t⟩, halloc, hrest⟩ := Option.bind_eq_some_iff.mp h
  unfold Process.linearAlloc at halloc
  split at halloc
  · cases halloc
  · obtain ⟨r, hloop, hr⟩ := Option.map_eq_some_iff.mp halloc
    obtain ⟨rfl, rfl⟩ := Prod.mk.inj hr
    obtain ⟨is, hlength, hallocated⟩ := allocLoop_some hc (pagesNeeded_le _) hloop
    dsimp only at hrest
    split at hrest
    · obtain ⟨m, hstore, hm⟩ := Option.bind_eq_some_iff.mp hrest
      obtain ⟨rfl, rfl⟩ := Prod.mk.inj (Option.some.inj hm)
      have hoffset : offset (s.lastUsedPage + dimPage) = 0 := by
        unfold offset at haligned ⊢
        rw [BitVec.toNat_add, show dimPage.toNat = 4096 from rfl]
        omega
      obtain ⟨e, he⟩ : ∃ e, r.mapping (s.lastUsedPage + dimPage) = some e := by
        cases hmap : r.mapping (s.lastUsedPage + dimPage) with
        | none =>
          have hfault : r.store (s.lastUsedPage + dimPage) (byteOf (d + 4) 0) = none := by
            rw [Space.store, hmap, Option.map_none]
          rw [Space.storeWord, hfault] at hstore
          cases hstore
        | some e => exact ⟨e, rfl⟩
      rw [storeWord_eq hoffset he] at hstore
      obtain rfl := Option.some.inj hstore
      have hback : s.lastUsedPage + dimPage + 4 - 4 = s.lastUsedPage + dimPage :=
        BitVec.add_sub_cancel ..
      refine ⟨is, hlength, ?_, hallocated.coherent.tableOnce, ?_, hback, hallocated.inside,
        hallocated.outside⟩
      · exact (((hallocated.took.poke _ _ _).poke _ _ _).poke _ _ _).poke _ _ _
      · rw [hback]
        exact loadWord_pokeWord hoffset he (d + 4)
    · obtain ⟨rfl, -⟩ := Prod.mk.inj (Option.some.inj hrest)
      exact absurd rfl hptr

section

variable {d ptr : Dword} (h : Returned s d ptr is u)
include h

theorem Returned.freosso : u.freosso ptr =
    (Space.freeLoop (pagesNeeded (d + 4 + 4)).toNat (s.lastUsedPage + dimPage) u.toSpace).map
      fun m => { u with toSpace := m } := by
  unfold Process.freosso
  rw [h.header]
  change u.linearFree (ptr - 4) (d + 4) = _
  rw [h.start]
  rfl

theorem Returned.entry (hi : i < is.length) :
    u.mapping (s.lastUsedPage + dimPage + BitVec.ofNat 32 (4096 * i)) =
      some ⟨s.pagine + is[i], true, true, s.level = userLevel⟩ := by
  apply h.inside i hi
  rw [add_page, vpn_add]

/-- The pages of the block are those that were taken. -/
theorem Returned.pageOf (hk : k ≤ is.length) (j : Nat) :
    PageOf u.toSpace (s.lastUsedPage + dimPage) k j ↔ j ∈ is.take k := by
  rw [List.mem_take_iff_getElem]
  constructor
  · rintro ⟨i, hi, e, he, hbase⟩
    have hlt : i < is.length := by omega
    rw [h.entry hlt] at he
    obtain rfl := Option.some.inj he
    rw [h.took.pagine] at hbase
    exact ⟨i, by omega, Nat.add_left_cancel hbase⟩
  · rintro ⟨i, hi, rfl⟩
    exact ⟨i, by omega, _, h.entry (by omega), by rw [h.took.pagine]⟩

theorem Returned.used (hi : i < is.length) : u.mem.pagelist is[i] = .datapage :=
  (h.took.taken _ (List.getElem_mem hi)).2

/-- Where the block was, nothing is mapped again, as before the call. -/
theorem Returned.mapping_freed (hroom : Room s is.length)
    (hfreed : Freed u.toSpace (s.lastUsedPage + dimPage) is.length m) (x : Dword) :
    m.mapping x = s.mapping x := by
  have hvpn : ∀ i, (vpn (s.lastUsedPage + dimPage) + i) % 2 ^ 20 =
      (vpn s.lastUsedPage + (i + 1)) % 2 ^ 20 := by
    intro i
    rw [vpn_add_dimPage]
    omega
  by_cases hx : ∃ i < is.length, vpn x = (vpn s.lastUsedPage + (i + 1)) % 2 ^ 20
  · obtain ⟨i, hi, hx⟩ := hx
    rw [hfreed.inside i hi x (hx.trans (hvpn i).symm), ← hroom i hi]
    apply mapping_congr_vpn
    rw [hx, vpn_add]
  · have hne : ∀ i < is.length, vpn x ≠ (vpn s.lastUsedPage + (i + 1)) % 2 ^ 20 :=
      fun i hi heq => hx ⟨i, hi, heq⟩
    have hne' : ∀ i < is.length, vpn x ≠ (vpn (s.lastUsedPage + dimPage) + i) % 2 ^ 20 := by
      intro i hi
      rw [hvpn]
      exact hne i hi
    rw [hfreed.outside x hne', h.outside x hne]

/-- The pages of which the mapping is new are those of the block. -/
theorem Returned.mapped_iff (hroom : Room s is.length) (j : Nat) :
    (∃ x e, u.mapping x = some e ∧ s.mapping x ≠ u.mapping x ∧ e.baseAddr = s.pagine + j) ↔
      j ∈ is := by
  constructor
  · rintro ⟨x, e, he, hne, hbase⟩
    obtain ⟨i, hi, hx⟩ : ∃ i < is.length, vpn x = (vpn s.lastUsedPage + (i + 1)) % 2 ^ 20 := by
      by_contra hnot
      exact hne (h.outside x fun i hi heq => hnot ⟨i, hi, heq⟩).symm
    rw [h.inside i hi x hx] at he
    obtain rfl := Option.some.inj he
    obtain rfl : is[i] = j := Nat.add_left_cancel hbase
    exact List.getElem_mem hi
  · intro hj
    obtain ⟨i, hi, rfl⟩ := List.mem_iff_getElem.mp hj
    refine ⟨_, _, h.entry hi, ?_, rfl⟩
    have hnone : s.mapping (s.lastUsedPage + dimPage + BitVec.ofNat 32 (4096 * i)) = none := by
      rw [add_page]
      exact hroom i hi
    rw [h.entry hi, hnone]
    exact (Option.some_ne_none _).symm

/-- The pages of the block are freed, and they were free before. -/
theorem Returned.restores (hroom : Room s is.length)
    (hfreed : Freed u.toSpace (s.lastUsedPage + dimPage) is.length m) :
    Restores s u { u with toSpace := m } := by
  have hpages : ∀ j, PageOf u.toSpace (s.lastUsedPage + dimPage) is.length j ↔ j ∈ is := by
    intro j
    rw [h.pageOf (Nat.le_refl _), List.take_length]
  have hnew : newTables s.toSpace m = newTables s.toSpace u.toSpace := by
    unfold newTables
    rw [hfreed.pagedir]
  have htable : ∀ j, NewTable s.toSpace m j ↔ NewTable s.toSpace u.toSpace j := by
    intro j
    unfold NewTable
    rw [hnew, hfreed.pagedir]
  constructor
  · exact h.mapping_freed hroom hfreed
  · intro j
    change u.mem.pagelist j ≠ .freepage ∧ m.mem.pagelist j = .freepage ↔ _
    rw [h.mapped_iff hroom]
    constructor
    · rintro ⟨hused, hfree⟩
      by_contra hj
      rw [hfreed.kept j (mt (hpages j).mp hj)] at hfree
      exact hused hfree
    · intro hj
      refine ⟨?_, hfreed.freed j ((hpages j).mpr hj)⟩
      rw [(h.took.taken j hj).2]
      exact PageKind.noConfusion
  · intro j hj
    have hptab := (h.took.newTable ((htable j).mp hj)).2
    change m.mem.pagelist j = .ptabpage
    rw [hfreed.kept j, hptab]
    intro hin
    rw [(h.took.taken j ((hpages j).mp hin)).2] at hptab
    cases hptab
  · intro j hj
    change m.mem.pagelist j = s.mem.pagelist j
    by_cases hin : j ∈ is
    · rw [hfreed.freed j ((hpages j).mpr hin), (h.took.taken j hin).1]
    · rw [hfreed.kept j (mt (hpages j).mp hin), h.took.rest j hin (mt (htable j).mpr hj)]
  · change m.mem.freePages = s.mem.freePages - BitVec.ofNat 32 (newTables s.toSpace m).card
    rw [hfreed.freePages, h.took.freePages, hnew, Nat.add_comm is.length, BitVec.ofNat_add,
      ← BitVec.sub_sub]
    exact BitVec.sub_add_cancel ..

/-- The pages that are freed: those of the block, one more, or not all. -/
theorem Returned.counts :
    (0 < (d + 4).toNat % 4096 ∧ (d + 4).toNat % 4096 ≤ 4092 ∧ (d + 4).toNat + 4 < 2 ^ 32 ∧
      (pagesNeeded (d + 4 + 4)).toNat = is.length) ∨
    (pagesNeeded (d + 4 + 4)).toNat = is.length + 1 ∨
      (pagesNeeded (d + 4 + 4)).toNat < is.length := by
  have hlt := (d + 4).isLt
  have hsum : (d + 4 + 4).toNat = ((d + 4).toNat + 4) % 2 ^ 32 := BitVec.toNat_add ..
  rw [h.length, toNat_pagesNeeded, toNat_pagesNeeded, hsum]
  omega

theorem Returned.fits_of_roundTrip (hback : RoundTrip s u ptr) : Fits s d := by
  obtain ⟨t, ht, hrestores⟩ := hback
  rw [h.freosso] at ht
  obtain ⟨m, hloop, rfl⟩ := Option.map_eq_some_iff.mp ht
  have hle := pagesNeeded_le (d + 4 + 4)
  have hfreed := (freeLoop_spec h.once hle).1 m hloop
  have hmapping : ∀ x, m.mapping x = s.mapping x := hrestores.mapping
  rcases h.counts with ⟨hstart, hslack, hbelow, hcount⟩ | hcount | hcount
  · refine ⟨hstart, hslack, hbelow, ?_⟩
    intro i hi
    rw [← h.length] at hi
    rw [← hmapping]
    apply hfreed.inside i (by omega)
    rw [vpn_add, vpn_add_dimPage]
    omega
  · -- The page behind the block was mapped, and now it is not.
    rw [hcount] at hfreed hle
    have hbehind := hfreed.mapped is.length (Nat.lt_succ_self _)
    have hvpn : vpn (s.lastUsedPage + dimPage + BitVec.ofNat 32 (4096 * is.length)) =
        (vpn (s.lastUsedPage + dimPage) + is.length) % 2 ^ 20 := vpn_add ..
    have hgone := hfreed.inside is.length (Nat.lt_succ_self _) _ hvpn
    rw [hmapping] at hgone
    rw [h.outside] at hbehind
    · exact absurd hgone hbehind
    · intro i hi
      rw [hvpn, vpn_add_dimPage]
      omega
  · -- The page behind those that are freed stays in use.
    have hkept : ¬PageOf u.toSpace (s.lastUsedPage + dimPage) (pagesNeeded (d + 4 + 4)).toNat
        (is[(pagesNeeded (d + 4 + 4)).toNat]) := by
      rw [h.pageOf (Nat.le_of_lt hcount), List.mem_take_iff_getElem]
      rintro ⟨i, hi, heq⟩
      have hindex := (h.took.once.getElem_inj_iff).mp heq
      omega
    have hdata : m.mem.pagelist is[(pagesNeeded (d + 4 + 4)).toNat] = .datapage :=
      (hfreed.kept _ hkept).trans (h.used hcount)
    by_cases hnew : NewTable s.toSpace m is[(pagesNeeded (d + 4 + 4)).toNat]
    · have hptab : m.mem.pagelist _ = .ptabpage := hrestores.tables _ hnew
      rw [hdata] at hptab
      cases hptab
    · have hfree : m.mem.pagelist _ = _ := hrestores.pagelist _ hnew
      rw [hdata, (h.took.taken _ (List.getElem_mem hcount)).1] at hfree
      cases hfree

theorem Returned.roundTrip_of_fits (hfits : Fits s d) : RoundTrip s u ptr := by
  have hstart := hfits.start
  have hslack := hfits.slack
  have hbelow := hfits.below
  have hsum : (d + 4 + 4).toNat = ((d + 4).toNat + 4) % 2 ^ 32 := BitVec.toNat_add ..
  have hcount : (pagesNeeded (d + 4 + 4)).toNat = is.length := by
    rw [h.length, toNat_pagesNeeded, toNat_pagesNeeded, hsum]
    omega
  have hle := pagesNeeded_le (d + 4 + 4)
  obtain ⟨hspec, htotal⟩ := freeLoop_spec (a := s.lastUsedPage + dimPage) h.once hle
  obtain ⟨m, hloop⟩ := htotal fun i hi => by
    rw [hcount] at hi
    rw [h.entry hi]
    exact Option.some_ne_none _
  have hfreed := hspec m hloop
  rw [hcount] at hfreed
  have hroom : Room s is.length := h.length ▸ hfits.room
  refine ⟨{ u with toSpace := m }, ?_, h.restores hroom hfreed⟩
  rw [h.freosso, hloop]
  rfl

end

/-- A block that `mallosso` returned is given back as it should be exactly if its size fits. -/
theorem mallossoRoundTrip_iff {d ptr : Dword} (hc : Coherent s.toSpace)
    (haligned : offset s.lastUsedPage = 0) (h : s.mallosso d = some (ptr, u)) (hptr : ptr ≠ 0) :
    RoundTrip s u ptr ↔ Fits s d := by
  obtain ⟨is, hreturned⟩ := mallosso_some hc haligned h hptr
  exact ⟨hreturned.fits_of_roundTrip, hreturned.roundTrip_of_fits⟩

/-- A hundred free pages, of which none is mapped. -/
def emptyProcess : Process where
  mem := ⟨fun _ => .freepage, 100, 100, 100, 99, []⟩
  pagine := 0x101
  pagedir _ := .clear
  tables _ _ := .clear
  data _ _ := 0
  lastUsedPage := 0x8000000
  level := userLevel

theorem coherent_empty : Coherent emptyProcess.toSpace :=
  ⟨fun _ h => absurd h Bool.false_ne_true, fun _ _ h => absurd h Bool.false_ne_true⟩

theorem room_empty (pages : Nat) : Room emptyProcess pages :=
  fun _ _ => mapping_of_not_present Bool.false_ne_true

/-- A block and its address, where `mallosso` returns one. -/
theorem exists_block {d ptr : Dword}
    (h : (emptyProcess.mallosso d).map Prod.fst = some ptr) :
    ∃ u, emptyProcess.mallosso d = some (ptr, u) := by
  obtain ⟨⟨ptr', u⟩, hcall, rfl⟩ := Option.map_eq_some_iff.mp h
  exact ⟨u, hcall⟩

theorem emptyBlock_small : (emptyProcess.mallosso 100).map Prod.fst = some 0x8001004 := by
  decide +kernel

theorem emptyBlock_page : (emptyProcess.mallosso 4089).map Prod.fst = some 0x8001004 := by
  decide +kernel

/-- A block of 100 bytes is given back. -/
theorem mallossoRoundTrip_iff_small :
    ∃ u, emptyProcess.mallosso 100 = some (0x8001004, u) ∧ RoundTrip emptyProcess u 0x8001004 := by
  obtain ⟨u, hcall⟩ := exists_block emptyBlock_small
  have hfits : Fits emptyProcess 100 := ⟨by decide, by decide, by decide, room_empty _⟩
  exact ⟨u, hcall, (mallossoRoundTrip_iff coherent_empty (by decide) hcall (by decide)).mpr hfits⟩

/-- A block of 4089 bytes takes one page with its header, and two are freed. -/
theorem header_straddles :
    ∃ u, emptyProcess.mallosso 4089 = some (0x8001004, u) ∧
      ¬RoundTrip emptyProcess u 0x8001004 := by
  obtain ⟨u, hcall⟩ := exists_block emptyBlock_page
  obtain ⟨is, hreturned⟩ := mallosso_some coherent_empty (by decide) hcall (by decide)
  refine ⟨u, hcall, fun hback => ?_⟩
  exact absurd (hreturned.fits_of_roundTrip hback).slack (by decide)

end OsdevArchive.Osso.PageTables
