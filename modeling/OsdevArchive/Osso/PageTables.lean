import Mathlib.Data.BitVec
import OsdevArchive.Osso.Memory

/-!
The page directory of a process of OSSO and its page tables, entry by entry, with the pages that
the allocator of `kernel/memory.c` hands out for them. All entries are followed, also those that
are copied from the kernel's directory. A page is named by its physical number; what it holds as a
page table and what it holds as data are apart.
-/

namespace OsdevArchive.Osso.PageTables

open OsdevArchive.Osso.Memory (Dword PageKind)

abbrev Byte := BitVec 8

/-- The index of the directory entry of an address. -/
def pde (address : Dword) : Nat := address.toNat / 2 ^ 22

def pte (address : Dword) : Nat := address.toNat / 2 ^ 12 % 2 ^ 10

def offset (address : Dword) : Nat := address.toNat % 2 ^ 12

/-- The fields of `PDE` and `PTE` that the kernel changes. -/
structure Entry where
  baseAddr : Nat
  present : Bool
  readWrite : Bool
  user : Bool
  deriving DecidableEq

/-- An entry of an empty page table. -/
def Entry.clear : Entry := ⟨0, false, false, false⟩

/-- The allocator, whose first page `pagine` has this number, the page directory, the page
tables and the data. -/
structure Space where
  mem : Memory.State
  pagine : Nat
  pagedir : Nat → Entry
  tables : Nat → Nat → Entry
  data : Nat → Nat → Byte

namespace Space

variable (s : Space) (a : Dword)

/-- A page as `getpage` returns it; `none` is a panic. -/
def getpage : Option Nat × Space :=
  match Memory.getpage s.mem with
  | (.page i, mem) =>
    (some (s.pagine + i),
      { s with mem := mem, data := Function.update s.data (s.pagine + i) fun _ => 0 })
  | (_, mem) => (none, { s with mem := mem })

/-- A page table as `getpagetable` returns it; `none` is `NULL`. -/
def getpagetable : Option Nat × Space :=
  match Memory.getpagetable s.mem with
  | (.page i, mem) =>
    (some (s.pagine + i),
      { s with mem := mem, tables := Function.update s.tables (s.pagine + i) fun _ => .clear })
  | (_, mem) => (none, { s with mem := mem })

/-- The entry of an address, if its page table is there. -/
def entry : Entry := s.tables (s.pagedir (pde a)).baseAddr (pte a)

/-- The entry of an address that is mapped. -/
def mapping : Option Entry :=
  if (s.pagedir (pde a)).present ∧ (s.entry a).present then some (s.entry a) else none

def setDir (e : Entry) : Space := { s with pagedir := Function.update s.pagedir (pde a) e }

def setEntry (e : Entry) : Space :=
  let t := (s.pagedir (pde a)).baseAddr
  { s with tables := Function.update s.tables t (Function.update (s.tables t) (pte a) e) }

/-- The byte at an address. -/
def load : Option Byte := (s.mapping a).map fun e => s.data e.baseAddr (offset a)

/-- A byte is written in a page. -/
def poke (page off : Nat) (byte : Byte) : Space :=
  { s with data := Function.update s.data page (Function.update (s.data page) off byte) }

end Space

/-! ### Virtual pages -/

/-- The number of the page of an address. -/
def vpn (a : Dword) : Nat := a.toNat / 4096

variable {s u : Space} {a x y : Dword} {e : Entry} {p i : Nat}

theorem vpn_lt (a : Dword) : vpn a < 2 ^ 20 := by
  have hlt := a.isLt
  unfold vpn
  omega

theorem vpn_add (a : Dword) (i : Nat) :
    vpn (a + BitVec.ofNat 32 (4096 * i)) = (vpn a + i) % 2 ^ 20 := by
  have hlt := a.isLt
  unfold vpn
  rw [BitVec.toNat_add, BitVec.toNat_ofNat]
  omega

theorem vpn_eq_iff : vpn x = vpn a ↔ pde x = pde a ∧ pte x = pte a := by
  have hx := x.isLt
  have ha := a.isLt
  unfold vpn pde pte
  omega

/-- Each page table is at one place of the directory. -/
def TablesOnce (s : Space) : Prop :=
  ∀ d e, (s.pagedir d).present → (s.pagedir e).present →
    (s.pagedir d).baseAddr = (s.pagedir e).baseAddr → d = e

/-- No page table is free. -/
structure Coherent (s : Space) : Prop where
  tableUsed : ∀ d, (s.pagedir d).present → ∀ i, (s.pagedir d).baseAddr = s.pagine + i →
    s.mem.pagelist i ≠ .freepage
  tableOnce : TablesOnce s

theorem mapping_of_not_present (h : ¬(s.pagedir (pde a)).present) : s.mapping a = none :=
  if_neg fun hboth => h hboth.1

theorem mapping_of_present (h : (s.pagedir (pde a)).present) :
    s.mapping a = if (s.entry a).present then some (s.entry a) else none := by
  simp only [Space.mapping, h, true_and]

theorem mapping_eq_some :
    s.mapping a = some e ↔
      (s.pagedir (pde a)).present ∧ (s.entry a).present ∧ s.entry a = e := by
  unfold Space.mapping
  split
  · rename_i h
    rw [Option.some_inj]
    tauto
  · rename_i h
    simp only [reduceCtorEq, false_iff]
    tauto

theorem setDir_self (s : Space) (a : Dword) (e : Entry) : (s.setDir a e).pagedir (pde a) = e :=
  Function.update_self ..

theorem setEntry_self (s : Space) (a : Dword) (e : Entry) : (s.setEntry a e).entry a = e := by
  unfold Space.entry Space.setEntry
  dsimp only
  rw [Function.update_self, Function.update_self]

theorem mapping_congr_vpn (h : vpn x = vpn a) : s.mapping x = s.mapping a := by
  obtain ⟨hpde, hpte⟩ := vpn_eq_iff.mp h
  unfold Space.mapping Space.entry
  rw [hpde, hpte]

/-! ### The pages of the allocator -/

/-- What was in use stays in use when a free page is handed out. -/
theorem used_update {list list' : Nat → PageKind} {kind : PageKind} (hfree : list p = .freepage)
    (h : list' = Function.update list p kind) (q : Nat) (hq : list q ≠ .freepage) :
    list' q ≠ .freepage := by
  have hne : q ≠ p := by
    rintro rfl
    exact hq hfree
  rw [h, Function.update_of_ne hne]
  exact hq

/-- What a call of `getpage` returns was free, and is all that it changes. -/
theorem getpage_some (h : s.getpage = (some p, u)) : ∃ i, p = s.pagine + i ∧
    s.mem.pagelist i = .freepage ∧
    u.mem.pagelist = Function.update s.mem.pagelist i .datapage ∧
    u.mem.freePages = s.mem.freePages - 1 ∧ u.mem.ptPages = s.mem.ptPages ∧
    u = { s with mem := u.mem, data := Function.update s.data p fun _ => 0 } := by
  unfold Space.getpage Memory.getpage at h
  rcases Memory.memGetpage_cases .datapage s.mem with
    ⟨k, seen, -, -, ⟨hfree, hresult⟩ | ⟨-, hresult⟩⟩ | ⟨seen, -, -, hresult⟩
  · rw [hresult] at h
    obtain ⟨hp, rfl⟩ := Prod.mk.inj h
    obtain rfl := Option.some.inj hp
    exact ⟨k, rfl, hfree, rfl, rfl, rfl, rfl⟩
  · rw [hresult] at h
    cases h
  · rw [hresult] at h
    cases h

/-- What a call of `getpagetable` returns was free, and it is empty. -/
theorem getpagetable_some (h : s.getpagetable = (some p, u)) : ∃ i, p = s.pagine + i ∧
    s.mem.pagelist i = .freepage ∧
    u.mem.pagelist = Function.update s.mem.pagelist i .ptabpage ∧
    u.mem.freePages = s.mem.freePages - 1 ∧
    u = { s with mem := u.mem, tables := Function.update s.tables p fun _ => .clear } := by
  unfold Space.getpagetable at h
  by_cases hfree : s.mem.pagelist s.mem.ptPages.toNat = .freepage
  · have hresult : Memory.getpagetable s.mem = (.page s.mem.ptPages.toNat, _) := if_pos hfree
    rw [hresult] at h
    obtain ⟨hp, rfl⟩ := Prod.mk.inj h
    obtain rfl := Option.some.inj hp
    exact ⟨_, rfl, hfree, rfl, rfl, rfl⟩
  · have hresult : Memory.getpagetable s.mem = (.null, _) := if_neg hfree
    rw [hresult] at h
    cases h

/-! ### What the steps do to the mappings -/

/-- The entry of an address whose page table is there. -/
theorem mapping_setEntry (hc : TablesOnce s) (hdir : (s.pagedir (pde a)).present) (e : Entry)
    (x : Dword) :
    (s.setEntry a e).mapping x =
      if vpn x = vpn a then (if e.present then some e else none) else s.mapping x := by
  by_cases hx : (s.pagedir (pde x)).present
  · have hentry : (s.setEntry a e).entry x = if vpn x = vpn a then e else s.entry x := by
      simp only [Space.entry, Space.setEntry, vpn_eq_iff]
      by_cases hpde : pde x = pde a
      · rw [hpde, Function.update_self, Function.update_apply]
        simp only [true_and]
      · have hne : (s.pagedir (pde x)).baseAddr ≠ (s.pagedir (pde a)).baseAddr :=
          fun heq => hpde (hc _ _ hx hdir heq)
        rw [Function.update_of_ne hne, if_neg fun hboth => hpde hboth.1]
    have hpresent : ((s.setEntry a e).pagedir (pde x)).present := hx
    rw [mapping_of_present hpresent, mapping_of_present hx, hentry]
    split <;> rfl
  · have hnot : ¬((s.setEntry a e).pagedir (pde x)).present := hx
    have hne : vpn x ≠ vpn a := fun heq => hx ((vpn_eq_iff.mp heq).1 ▸ hdir)
    rw [mapping_of_not_present hnot, mapping_of_not_present hx, if_neg hne]

section

variable (hc : Coherent s)
include hc

theorem Coherent.of_used (hdir : u.pagedir = s.pagedir) (hpagine : u.pagine = s.pagine)
    (hused : ∀ i, s.mem.pagelist i ≠ .freepage → u.mem.pagelist i ≠ .freepage) : Coherent u := by
  constructor
  · intro d hd i hi
    rw [hdir] at hd hi
    rw [hpagine] at hi
    exact hused i (hc.tableUsed d hd i hi)
  · intro d e hd he hde
    rw [hdir] at hd he hde
    exact hc.tableOnce d e hd he hde

/-- A page for data leaves the mappings as they are. -/
theorem Coherent.getpage (h : s.getpage = (some p, u)) :
    Coherent u ∧ ∀ x, u.mapping x = s.mapping x := by
  obtain ⟨i, -, hfree, hlist, -, -, hu⟩ := getpage_some h
  constructor
  · apply hc.of_used
    · rw [hu]
    · rw [hu]
    · exact fun j hj => used_update hfree hlist j hj
  · intro x
    rw [hu]
    rfl

theorem Coherent.coherent_setEntry (e : Entry) : Coherent (s.setEntry a e) :=
  hc.of_used rfl rfl fun _ h => h

/-- A page that was free becomes the empty page table of a directory entry that was not present:
the mappings are as they were. -/
theorem Coherent.newTable (hnot : ¬(s.pagedir (pde a)).present)
    (hfree : s.mem.pagelist i = .freepage) (he : e.present) (hbase : e.baseAddr = s.pagine + i)
    (hdir : u.pagedir = Function.update s.pagedir (pde a) e)
    (htables : u.tables = Function.update s.tables (s.pagine + i) fun _ => .clear)
    (hpagine : u.pagine = s.pagine)
    (hlist : u.mem.pagelist = Function.update s.mem.pagelist i .ptabpage) :
    Coherent u ∧ ∀ x, u.mapping x = s.mapping x := by
  have hused := used_update hfree hlist
  have hnew : ∀ d, (s.pagedir d).present → (s.pagedir d).baseAddr ≠ s.pagine + i :=
    fun d hd heq => hc.tableUsed d hd i heq hfree
  constructor
  · constructor
    · intro d hd j hj
      rw [hpagine] at hj
      rcases eq_or_ne d (pde a) with rfl | hda
      · rw [hdir, Function.update_self, hbase] at hj
        obtain rfl : i = j := Nat.add_left_cancel hj
        rw [hlist, Function.update_self]
        exact PageKind.noConfusion
      · rw [hdir, Function.update_of_ne hda] at hd hj
        exact hused j (hc.tableUsed d hd j hj)
    · intro d f hd hf hdf
      rw [hdir] at hd hf hdf
      rcases eq_or_ne d (pde a) with rfl | hda <;> rcases eq_or_ne f (pde a) with rfl | hfa
      · rfl
      · rw [Function.update_of_ne hfa] at hf hdf
        rw [Function.update_self, hbase] at hdf
        exact absurd hdf.symm (hnew f hf)
      · rw [Function.update_of_ne hda] at hd hdf
        rw [Function.update_self, hbase] at hdf
        exact absurd hdf (hnew d hd)
      · rw [Function.update_of_ne hda] at hd
        rw [Function.update_of_ne hfa] at hf
        rw [Function.update_of_ne hda, Function.update_of_ne hfa] at hdf
        exact hc.tableOnce d f hd hf hdf
  · intro x
    by_cases hx : pde x = pde a
    · have hpresent : (u.pagedir (pde x)).present := by
        rw [hdir, hx, Function.update_self]
        exact he
      have hentry : u.entry x = .clear := by
        rw [Space.entry, hdir, hx, Function.update_self, hbase, htables, Function.update_self]
      rw [mapping_of_present hpresent, hentry, mapping_of_not_present (hx ▸ hnot)]
      rfl
    · have hsame : u.pagedir (pde x) = s.pagedir (pde x) := by
        rw [hdir, Function.update_of_ne hx]
      by_cases hpresent : (s.pagedir (pde x)).present
      · have hentry : u.entry x = s.entry x := by
          rw [Space.entry, hsame, htables, Function.update_of_ne (hnew _ hpresent)]
          rfl
        rw [mapping_of_present (hsame ▸ hpresent), mapping_of_present hpresent, hentry]
      · rw [mapping_of_not_present (hsame ▸ hpresent), mapping_of_not_present hpresent]

end

/-! ### What is taken from the allocator -/

/-- The entries of the directory that got a page table. -/
def newTables (s t : Space) : Finset Nat :=
  (Finset.range 1024).filter fun d => ¬(s.pagedir d).present ∧ (t.pagedir d).present

/-- The page became a page table. -/
def NewTable (s t : Space) (i : Nat) : Prop :=
  ∃ d ∈ newTables s t, (t.pagedir d).baseAddr = s.pagine + i

theorem mem_newTables {d : Nat} :
    d ∈ newTables s u ↔ d < 1024 ∧ ¬(s.pagedir d).present ∧ (u.pagedir d).present := by
  simp [newTables]

/-- From `s` to `u` the pages `is` were taken for data, and a page for each new page table. -/
structure Took (s : Space) (is : List Nat) (u : Space) : Prop where
  pagine : u.pagine = s.pagine
  kept : ∀ d, (s.pagedir d).present → u.pagedir d = s.pagedir d
  taken : ∀ j ∈ is, s.mem.pagelist j = .freepage ∧ u.mem.pagelist j = .datapage
  once : is.Nodup
  tables : ∀ d ∈ newTables s u, ∃ j, (u.pagedir d).baseAddr = s.pagine + j ∧
    s.mem.pagelist j = .freepage ∧ u.mem.pagelist j = .ptabpage
  rest : ∀ j, j ∉ is → ¬NewTable s u j → u.mem.pagelist j = s.mem.pagelist j
  freePages : u.mem.freePages =
    s.mem.freePages - BitVec.ofNat 32 (is.length + (newTables s u).card)

variable {w : Space} {is js : List Nat}

theorem Took.newTable (h : Took s is u) {j : Nat} (hj : NewTable s u j) :
    s.mem.pagelist j = .freepage ∧ u.mem.pagelist j = .ptabpage := by
  obtain ⟨d, hd, hbase⟩ := hj
  obtain ⟨i, hi, hfree, hptab⟩ := h.tables d hd
  obtain rfl : i = j := Nat.add_left_cancel (hi.symm.trans hbase)
  exact ⟨hfree, hptab⟩

theorem newTables_self : newTables s s = ∅ := by
  ext d
  simp [mem_newTables]

theorem Took.refl (s : Space) : Took s [] s where
  pagine := rfl
  kept _ _ := rfl
  taken _ h := absurd h List.not_mem_nil
  once := List.nodup_nil
  tables d hd := by
    rw [newTables_self] at hd
    exact absurd hd (Finset.notMem_empty d)
  rest _ _ _ := rfl
  freePages := by simp [newTables_self]

theorem Took.setEntry (h : Took s is u) (a : Dword) (e : Entry) : Took s is (u.setEntry a e) :=
  ⟨h.pagine, h.kept, h.taken, h.once, h.tables, h.rest, h.freePages⟩

theorem Took.poke (h : Took s is u) (page off : Nat) (byte : Byte) :
    Took s is (u.poke page off byte) :=
  ⟨h.pagine, h.kept, h.taken, h.once, h.tables, h.rest, h.freePages⟩

theorem Took.newTables_trans (h : Took s is u) (k : Took u js w) :
    newTables s w = newTables s u ∪ newTables u w := by
  ext d
  simp only [Finset.mem_union, mem_newTables]
  constructor
  · rintro ⟨hd, hs, hw⟩
    by_cases hu : (u.pagedir d).present
    · exact Or.inl ⟨hd, hs, hu⟩
    · exact Or.inr ⟨hd, hu, hw⟩
  · rintro (⟨hd, hs, hu⟩ | ⟨hd, hu, hw⟩)
    · refine ⟨hd, hs, ?_⟩
      rw [k.kept d hu]
      exact hu
    · refine ⟨hd, fun hs => hu ?_, hw⟩
      rw [h.kept d hs]
      exact hs

theorem Took.newTable_iff (h : Took s is u) (k : Took u js w) (j : Nat) :
    NewTable s w j ↔ NewTable s u j ∨ NewTable u w j := by
  unfold NewTable
  rw [h.newTables_trans k, h.pagine]
  constructor
  · rintro ⟨d, hd, hbase⟩
    rcases Finset.mem_union.mp hd with hsu | huw
    · left
      rw [k.kept d (mem_newTables.mp hsu).2.2] at hbase
      exact ⟨d, hsu, hbase⟩
    · exact Or.inr ⟨d, huw, hbase⟩
  · rintro (⟨d, hd, hbase⟩ | ⟨d, hd, hbase⟩)
    · refine ⟨d, Finset.mem_union_left _ hd, ?_⟩
      rw [k.kept d (mem_newTables.mp hd).2.2]
      exact hbase
    · exact ⟨d, Finset.mem_union_right _ hd, hbase⟩

/-- What is in use stays as it is. -/
theorem Took.keeps (h : Took s is u) {j : Nat} (hj : s.mem.pagelist j ≠ .freepage) :
    u.mem.pagelist j = s.mem.pagelist j :=
  h.rest j (fun hin => hj (h.taken j hin).1) fun hnew => hj (h.newTable hnew).1

theorem Took.trans (h : Took s is u) (k : Took u js w) : Took s (is ++ js) w where
  pagine := k.pagine.trans h.pagine
  kept d hd := by
    have hu := h.kept d hd
    rw [k.kept d (hu ▸ hd), hu]
  taken j hj := by
    rcases List.mem_append.mp hj with his | hjs
    · obtain ⟨hfree, hdata⟩ := h.taken j his
      have hused : u.mem.pagelist j ≠ .freepage := by
        rw [hdata]
        exact PageKind.noConfusion
      exact ⟨hfree, (k.keeps hused).trans hdata⟩
    · obtain ⟨hfree, hdata⟩ := k.taken j hjs
      refine ⟨?_, hdata⟩
      by_contra hused
      exact hused ((h.keeps hused).symm.trans hfree)
  once := by
    apply h.once.append k.once
    intro j his hjs
    have hdata := (h.taken j his).2
    rw [(k.taken j hjs).1] at hdata
    cases hdata
  tables d hd := by
    rw [h.newTables_trans k] at hd
    rcases Finset.mem_union.mp hd with hsu | huw
    · obtain ⟨j, hbase, hfree, hptab⟩ := h.tables d hsu
      have hused : u.mem.pagelist j ≠ .freepage := by
        rw [hptab]
        exact PageKind.noConfusion
      refine ⟨j, ?_, hfree, (k.keeps hused).trans hptab⟩
      rw [k.kept d (mem_newTables.mp hsu).2.2]
      exact hbase
    · obtain ⟨j, hbase, hfree, hptab⟩ := k.tables d huw
      refine ⟨j, h.pagine ▸ hbase, ?_, hptab⟩
      by_contra hused
      exact hused ((h.keeps hused).symm.trans hfree)
  rest j hj hnew := by
    rw [List.mem_append, not_or] at hj
    rw [h.newTable_iff k, not_or] at hnew
    rw [k.rest j hj.2 hnew.2, h.rest j hj.1 hnew.1]
  freePages := by
    have hdisjoint : Disjoint (newTables s u) (newTables u w) := by
      rw [Finset.disjoint_left]
      intro d hsu huw
      exact (mem_newTables.mp huw).2.1 (mem_newTables.mp hsu).2.2
    have hcount : (is ++ js).length + (newTables s w).card =
        is.length + (newTables s u).card + (js.length + (newTables u w).card) := by
      rw [h.newTables_trans k, Finset.card_union_of_disjoint hdisjoint, List.length_append]
      omega
    rw [k.freePages, h.freePages, hcount, BitVec.ofNat_add _ (js.length + _)]
    exact BitVec.sub_sub ..

/-- One page for data. -/
theorem took_page (hpagine : u.pagine = s.pagine) (hdir : u.pagedir = s.pagedir)
    (hfree : s.mem.pagelist i = .freepage)
    (hlist : u.mem.pagelist = Function.update s.mem.pagelist i .datapage)
    (hcount : u.mem.freePages = s.mem.freePages - 1) : Took s [i] u := by
  have hnone : newTables s u = ∅ := by
    ext d
    simp [mem_newTables, hdir]
  constructor
  · exact hpagine
  · intro d _
    rw [hdir]
  · intro j hj
    obtain rfl := List.mem_singleton.mp hj
    exact ⟨hfree, by rw [hlist, Function.update_self]⟩
  · exact List.nodup_singleton i
  · intro d hd
    rw [hnone] at hd
    exact absurd hd (Finset.notMem_empty d)
  · intro j hj _
    rw [hlist, Function.update_of_ne (fun heq => hj (List.mem_singleton.mpr heq))]
  · rw [hcount, hnone]
    rfl

theorem pde_lt (a : Dword) : pde a < 1024 := by
  have hlt := a.isLt
  unfold pde
  omega

/-- One page for a page table. -/
theorem took_table (hpagine : u.pagine = s.pagine) (hnot : ¬(s.pagedir (pde a)).present)
    (he : e.present) (hbase : e.baseAddr = s.pagine + i)
    (hdir : u.pagedir = Function.update s.pagedir (pde a) e)
    (hfree : s.mem.pagelist i = .freepage)
    (hlist : u.mem.pagelist = Function.update s.mem.pagelist i .ptabpage)
    (hcount : u.mem.freePages = s.mem.freePages - 1) : Took s [] u := by
  have hone : newTables s u = {pde a} := by
    ext d
    rw [mem_newTables, hdir, Finset.mem_singleton, Function.update_apply]
    constructor
    · rintro ⟨-, hs, hu⟩
      split at hu
      · assumption
      · exact absurd hu hs
    · rintro rfl
      rw [if_pos rfl]
      exact ⟨pde_lt a, hnot, he⟩
  have hnew : (u.pagedir (pde a)).baseAddr = s.pagine + i := by
    rw [hdir, Function.update_self, hbase]
  constructor
  · exact hpagine
  · intro d hd
    rw [hdir, Function.update_of_ne]
    rintro rfl
    exact hnot hd
  · exact fun j hj => absurd hj List.not_mem_nil
  · exact List.nodup_nil
  · intro d hd
    rw [hone] at hd
    obtain rfl := Finset.mem_singleton.mp hd
    exact ⟨i, hnew, hfree, by rw [hlist, Function.update_self]⟩
  · intro j _ hj
    rw [hlist, Function.update_of_ne]
    rintro rfl
    exact hj ⟨pde a, by rw [hone]; exact Finset.mem_singleton_self _, hnew⟩
  · rw [hcount, hone]
    rfl

end OsdevArchive.Osso.PageTables
