import OsdevArchive.Lib.Stores
import OsdevArchive.Osso.MemCopyExact

/-!
The address space of a process that OSSO is about to start (`kernel/process.c`). The first `0x20`
entries of its page directory are copies of those of the kernel. The load keeps a record of whether
something of the kernel's was written: one of these entries, what is behind them, or a page below
those of the allocator, such as the page 0 that is taken for a page table when there is none.
-/

namespace OsdevArchive.Osso.AddressSpace

open OsdevArchive.Lib.Stores OsdevArchive.Osso.PageTables
open OsdevArchive.Osso.Memory (Dword PageKind dimPage)

/-- The entries that are copied from `Kernel_Page_Dir`. -/
def sharedEntries : Nat := 0x20

/-- An address that is not under a copied entry. -/
def High (x : Dword) : Prop := sharedEntries ≤ pde x

/-- The memory, and whether something of the kernel's was written. -/
structure Load extends Space where
  shared : Bool

/-- What is written is the kernel's: the address is under a copied entry, or the page is not from
the allocator. -/
def kernels (s : Space) (a : Dword) (page : Nat) : Bool :=
  pde a < sharedEntries ∨ page < s.pagine

/-- The two checks of an address write a copied entry, or an entry of a page table of the
kernel's. -/
def recordChecks (s : Space) (level a : Dword) : Bool :=
  let t := s.ensureTable level a
  (¬(s.pagedir (pde a)).present ∧ pde a < sharedEntries) ∨
    (¬(t.entry a).present ∧ kernels t a (t.pagedir (pde a)).baseAddr)

namespace Load

variable (l : Load) (level a : Dword)

/-- The two checks of an address; `none` is a panic. -/
def prepare : Option Load :=
  match l.toSpace.prepare level a with
  | .ok s => some ⟨s, l.shared || recordChecks l.toSpace level a⟩
  | .error _ => none

/-- `n` bytes are written from an address on, which stay in its page. -/
def write (feed : Feed) (n i : Nat) : Load where
  toSpace := Space.chunk feed n (l.physicalAddress a) i l.toSpace
  shared := l.shared || (0 < n ∧ kernels l.toSpace a (l.entry a).baseAddr)

/-- A round of the loop of `Linear_alloc`. -/
def linearPage (livello lastUsedPage : Dword) : Option Load :=
  (Process.allocPage ⟨l.toSpace, lastUsedPage, livello⟩ livello).map fun s =>
    ⟨s.toSpace, l.shared ||
      kernels s.toSpace s.lastUsedPage (s.pagedir (pde s.lastUsedPage)).baseAddr⟩

/-- A call of `getpage`. -/
def getpage : Option Load :=
  match l.toSpace.getpage with
  | (some _, s) => some ⟨s, l.shared⟩
  | (none, _) => none

end Load

/-! ### What the record says -/

/-- The kernel's part of the memory is as before. -/
structure Kept (s t : Space) : Prop where
  pagine : t.pagine = s.pagine
  pagedir : ∀ d < sharedEntries, t.pagedir d = s.pagedir d
  tables : ∀ p < s.pagine, t.tables p = s.tables p
  data : ∀ p < s.pagine, t.data p = s.data p

/-- Where nothing is recorded, nothing of the kernel's has changed. -/
def Records (l l' : Load) : Prop :=
  l'.shared = false → l.shared = false ∧ Kept l.toSpace l'.toSpace

variable {l l' l'' : Load} {s t u : Space} {level a x : Dword} {feed : Feed} {n i : Nat}

theorem Kept.refl (s : Space) : Kept s s := ⟨rfl, fun _ _ => rfl, fun _ _ => rfl, fun _ _ => rfl⟩

theorem Kept.trans (h : Kept s t) (k : Kept t u) : Kept s u where
  pagine := k.pagine.trans h.pagine
  pagedir d hd := (k.pagedir d hd).trans (h.pagedir d hd)
  tables p hp := (k.tables p (h.pagine ▸ hp)).trans (h.tables p hp)
  data p hp := (k.data p (h.pagine ▸ hp)).trans (h.data p hp)

theorem Records.trans (h : Records l l') (k : Records l' l'') : Records l l'' := by
  intro hshared
  obtain ⟨hmiddle, hlater⟩ := k hshared
  obtain ⟨hfirst, hearlier⟩ := h hmiddle
  exact ⟨hfirst, hearlier.trans hlater⟩

/-- What is recorded stays recorded. -/
theorem Records.shared (h : Records l l') (hl : l.shared = true) : l'.shared = true := by
  by_contra hnot
  obtain ⟨hfalse, -⟩ := h (Bool.not_eq_true _ ▸ hnot)
  rw [hl] at hfalse
  cases hfalse

theorem kernels_eq_false {page : Nat} :
    kernels s a page = false ↔ High a ∧ s.pagine ≤ page := by
  unfold kernels High
  rw [decide_eq_false_iff_not, not_or, Nat.not_lt, Nat.not_lt]

theorem kept_mem (s : Space) (mem : Memory.State) : Kept s { s with mem := mem } :=
  ⟨rfl, fun _ _ => rfl, fun _ _ => rfl, fun _ _ => rfl⟩

/-- A page table of the allocator's changes. -/
theorem kept_table {p : Nat} (hp : s.pagine ≤ p) (mem : Memory.State) (table : Nat → Entry) :
    Kept s { s with mem := mem, tables := Function.update s.tables p table } := by
  refine ⟨rfl, fun _ _ => rfl, fun q hq => ?_, fun _ _ => rfl⟩
  exact Function.update_of_ne (Nat.ne_of_lt (Nat.lt_of_lt_of_le hq hp)) ..

/-- A page of the allocator's changes. -/
theorem kept_page {p : Nat} (hp : s.pagine ≤ p) (mem : Memory.State) (page : Nat → Byte) :
    Kept s { s with mem := mem, data := Function.update s.data p page } := by
  refine ⟨rfl, fun _ _ => rfl, fun _ _ => rfl, fun q hq => ?_⟩
  exact Function.update_of_ne (Nat.ne_of_lt (Nat.lt_of_lt_of_le hq hp)) ..

theorem getpage_kept (s : Space) : Kept s s.getpage.2 := by
  unfold Space.getpage
  split
  · exact kept_page (Nat.le_add_right _ _) _ _
  · exact kept_mem s _

theorem getpagetable_kept (s : Space) : Kept s s.getpagetable.2 := by
  unfold Space.getpagetable
  split
  · exact kept_table (Nat.le_add_right _ _) _ _
  · exact kept_mem s _

theorem setDir_kept (ha : High a) (e : Entry) : Kept s (s.setDir a e) := by
  refine ⟨rfl, fun d hd => ?_, fun _ _ => rfl, fun _ _ => rfl⟩
  have hne : d ≠ pde a := fun heq => absurd ha (Nat.not_le.mpr (heq ▸ hd))
  exact Function.update_of_ne hne ..

theorem setEntry_kept (h : s.pagine ≤ (s.pagedir (pde a)).baseAddr) (e : Entry) :
    Kept s (s.setEntry a e) :=
  kept_table h s.mem _

theorem ensureTable_kept (h : (s.pagedir (pde a)).present ∨ High a) :
    Kept s (s.ensureTable level a) := by
  unfold Space.ensureTable
  split
  · exact Kept.refl s
  · rename_i hnot
    exact (getpagetable_kept s).trans (setDir_kept (h.resolve_left hnot) _)

theorem ensurePage_kept (h : (s.entry a).present ∨ s.pagine ≤ (s.pagedir (pde a)).baseAddr)
    (hok : s.ensurePage level a = .ok t) : Kept s t := by
  unfold Space.ensurePage at hok
  split at hok
  · obtain rfl := Except.ok.inj hok
    exact Kept.refl s
  · rename_i hnot
    split at hok
    · rename_i p u hcall
      obtain rfl := Except.ok.inj hok
      have hkept := getpage_kept s
      rw [hcall] at hkept
      obtain ⟨-, -, -, -, -, -, hu⟩ := getpage_some hcall
      have hdir : u.pagedir = s.pagedir := by rw [hu]
      refine hkept.trans (setEntry_kept ?_ _)
      rw [hkept.pagine, hdir]
      exact h.resolve_left hnot
    · cases hok

theorem prepare_records (h : l.prepare level a = some l') : Records l l' := by
  unfold Load.prepare at h
  split at h
  · rename_i s hok
    obtain rfl := Option.some.inj h
    intro hshared
    obtain ⟨hl, hrecord⟩ := Bool.or_eq_false_iff.mp hshared
    refine ⟨hl, ?_⟩
    unfold recordChecks at hrecord
    dsimp only at hrecord
    rw [decide_eq_false_iff_not, not_or, not_and_or, not_and_or, not_not, not_not, Nat.not_lt,
      Bool.not_eq_true, kernels_eq_false] at hrecord
    obtain ⟨hdir, hentry⟩ := hrecord
    have hfirst : Kept l.toSpace (l.toSpace.ensureTable level a) := ensureTable_kept hdir
    exact hfirst.trans (ensurePage_kept (hentry.imp_right And.right) hok)
  · cases h

theorem chunk_kept {address : Nat} (h : n = 0 ∨ s.pagine * 4096 ≤ address) :
    Kept s (Space.chunk feed n address i s) := by
  induction n generalizing address i s with
  | zero => exact Kept.refl s
  | succ n ih =>
    have hpage := h.resolve_left (Nat.succ_ne_zero n)
    have hfirst : Kept s (s.write address (feed.read s i)) :=
      kept_page ((Nat.le_div_iff_mul_le (by decide)).mpr hpage) s.mem _
    exact hfirst.trans (ih (Or.inr (Nat.le_succ_of_le hpage)))

theorem write_records : Records l (l.write a feed n i) := by
  intro hshared
  obtain ⟨hl, hrecord⟩ := Bool.or_eq_false_iff.mp hshared
  refine ⟨hl, chunk_kept ?_⟩
  rw [decide_eq_false_iff_not, not_and_or, Nat.not_lt, Nat.le_zero, Bool.not_eq_true,
    kernels_eq_false] at hrecord
  refine hrecord.imp_right fun hpage => ?_
  exact (Nat.mul_le_mul_right 4096 hpage.2).trans (Nat.le_add_right _ _)

theorem getpage_records (h : l.getpage = some l') : Records l l' := by
  have hkept := getpage_kept l.toSpace
  unfold Load.getpage at h
  split at h
  · rename_i p s hcall
    obtain rfl := Option.some.inj h
    rw [hcall] at hkept
    exact fun hshared => ⟨hshared, hkept⟩
  · cases h

theorem withTable_kept (ha : High a) (h : s.withTable level a = some t) : Kept s t := by
  unfold Space.withTable at h
  split at h
  · obtain rfl := Option.some.inj h
    exact Kept.refl s
  · split at h
    · rename_i p u hcall
      obtain rfl := Option.some.inj h
      have hkept := getpagetable_kept s
      rw [hcall] at hkept
      exact hkept.trans (setDir_kept ha _)
    · cases h

theorem linearPage_records {livello last : Dword} (h : l.linearPage livello last = some l') :
    Records l l' := by
  unfold Load.linearPage at h
  obtain ⟨p, halloc, rfl⟩ := Option.map_eq_some_iff.mp h
  intro hshared
  obtain ⟨hl, hrecord⟩ := Bool.or_eq_false_iff.mp hshared
  rw [kernels_eq_false] at hrecord
  refine ⟨hl, ?_⟩
  unfold Process.allocPage at halloc
  have hfirst := getpage_kept l.toSpace
  split at halloc
  · cases halloc
  · rename_i temp m hcall
    obtain ⟨v, htable, rfl⟩ := Option.map_eq_some_iff.mp halloc
    rw [hcall] at hfirst
    have hbase : v.pagine ≤ (v.pagedir (pde (last + dimPage))).baseAddr := hrecord.2
    exact (hfirst.trans (withTable_kept hrecord.1 htable)).trans (setEntry_kept hbase _)

/-! ### The entries that are not copied -/

/-- The address space without the copied entries. -/
def above (s : Space) : Space :=
  { s with pagedir := fun d => if d < sharedEntries then Entry.clear else s.pagedir d }

theorem above_pagedir (ha : High a) : (above s).pagedir (pde a) = s.pagedir (pde a) :=
  if_neg (Nat.not_lt.mpr ha)

theorem above_entry (ha : High a) : (above s).entry a = s.entry a := by
  unfold Space.entry
  rw [above_pagedir ha]
  rfl

theorem above_mapping (hx : High x) : (above s).mapping x = s.mapping x := by
  unfold Space.mapping
  rw [above_entry hx, above_pagedir hx]

theorem above_load (hx : High x) : (above s).load x = s.load x := by
  unfold Space.load
  rw [above_mapping hx]
  rfl

theorem above_setDir (ha : High a) (e : Entry) : (above s).setDir a e = above (s.setDir a e) := by
  unfold Space.setDir above
  dsimp only
  congr 1
  funext d
  by_cases hd : d = pde a
  · subst hd
    rw [Function.update_self, if_neg (Nat.not_lt.mpr ha), Function.update_self]
  · rw [Function.update_of_ne hd, Function.update_of_ne hd]

theorem above_setEntry (ha : High a) (e : Entry) :
    (above s).setEntry a e = above (s.setEntry a e) := by
  unfold Space.setEntry
  dsimp only
  rw [above_pagedir ha]
  rfl

theorem above_getpage (s : Space) : (above s).getpage = (s.getpage.1, above s.getpage.2) := by
  have hmem : (above s).mem = s.mem := rfl
  unfold Space.getpage
  rw [hmem]
  rcases Memory.getpage s.mem with ⟨outcome, mem⟩
  cases outcome <;> rfl

theorem above_getpagetable (s : Space) :
    (above s).getpagetable = (s.getpagetable.1, above s.getpagetable.2) := by
  have hmem : (above s).mem = s.mem := rfl
  unfold Space.getpagetable
  rw [hmem]
  rcases Memory.getpagetable s.mem with ⟨outcome, mem⟩
  cases outcome <;> rfl

theorem above_ensureTable (ha : High a) :
    (above s).ensureTable level a = above (s.ensureTable level a) := by
  unfold Space.ensureTable
  rw [above_pagedir ha, above_getpagetable]
  split
  · rfl
  · exact above_setDir ha _

/-- The checks of an address that is not under a copied entry do not look at those. -/
theorem above_prepare (ha : High a) (h : s.prepare level a = .ok t) :
    (above s).prepare level a = .ok (above t) := by
  unfold Space.prepare at h ⊢
  rw [above_ensureTable ha]
  generalize s.ensureTable level a = u at h ⊢
  unfold Space.ensurePage at h ⊢
  rw [above_entry ha, above_getpage]
  split at h
  · rename_i hpresent
    obtain rfl := Except.ok.inj h
    exact if_pos hpresent
  · rename_i hnot
    rw [if_neg hnot]
    split at h
    · rename_i p v hcall
      obtain rfl := Except.ok.inj h
      rw [hcall]
      exact congrArg Except.ok (above_setEntry ha _)
    · cases h

theorem above_withTable (ha : High a) (h : s.withTable level a = some t) :
    (above s).withTable level a = some (above t) := by
  unfold Space.withTable at h ⊢
  rw [above_pagedir ha, above_getpagetable]
  split at h
  · rename_i hpresent
    obtain rfl := Option.some.inj h
    exact if_pos hpresent
  · rename_i hnot
    rw [if_neg hnot]
    split at h
    · rename_i p v hcall
      obtain rfl := Option.some.inj h
      rw [hcall]
      exact congrArg some (above_setDir ha _)
    · cases h

/-! ### What is asked of the allocator -/

/-- What a load does that may need a page. -/
inductive Access where
  /-- The two checks of an address. -/
  | check (a : Dword)
  /-- A page of `Linear_alloc`. -/
  | stack (a : Dword)
  /-- A page of the kernel's. -/
  | page

/-- The directory entries and the pages that are present. -/
structure Seen where
  dirs : Finset Nat
  pages : Finset Nat

def Access.visit (k : Seen) : Access → Seen
  | .check a | .stack a => ⟨insert (pde a) k.dirs, insert (vpn a) k.pages⟩
  | .page => k

def Access.asks (k : Seen) : Access → List Request
  | .check a => (if pde a ∉ k.dirs then [.table] else []) ++ if vpn a ∉ k.pages then [.page] else []
  | .stack a => .page :: if pde a ∉ k.dirs then [.table] else []
  | .page => [.page]

def demand : Seen → List Access → List Request
  | _, [] => []
  | k, x :: xs => x.asks k ++ demand (x.visit k) xs

def Seen.after (k : Seen) (xs : List Access) : Seen := xs.foldl Access.visit k

theorem demand_append (k : Seen) (xs ys : List Access) :
    demand k (xs ++ ys) = demand k xs ++ demand (k.after xs) ys := by
  induction xs generalizing k with
  | nil => rfl
  | cons x xs ih =>
    rw [List.cons_append, demand, demand, ih, List.append_assoc]
    rfl

theorem Seen.after_append (k : Seen) (xs ys : List Access) :
    k.after (xs ++ ys) = (k.after xs).after ys := List.foldl_append ..

/-! ### The pages of the process -/

/-- The page tables and pages are from the allocator and in use, and each is at one place. -/
structure Own (s : Space) : Prop where
  coherent : Coherent s
  table : ∀ d, (s.pagedir d).present → s.pagine ≤ (s.pagedir d).baseAddr
  used : ∀ x e, s.mapping x = some e →
    ∃ i, e.baseAddr = s.pagine + i ∧ s.mem.pagelist i ≠ .freepage
  once : ∀ x y e f, s.mapping x = some e → s.mapping y = some f → e.baseAddr = f.baseAddr →
    vpn x = vpn y

/-- These entries and pages are present, and no others. -/
structure Known (s : Space) (k : Seen) : Prop where
  dirs : ∀ x, High x → ((s.pagedir (pde x)).present ↔ pde x ∈ k.dirs)
  pages : ∀ x, High x → (s.mapping x ≠ none ↔ vpn x ∈ k.pages)

/-- What the process reads, with zero where there is no page yet. -/
def value (s : Space) (x : Dword) : Byte := (s.load x).getD 0

variable {k : Seen} {w : Space} {js : List Nat} {e : Entry}

theorem value_of_mapping (h : s.mapping x = some e) : value s x = s.data e.baseAddr (offset x) := by
  rw [value, Space.load, h]
  rfl

theorem value_of_none (h : s.mapping x = none) : value s x = 0 := by
  rw [value, Space.load, h]
  rfl

theorem Known.asks (h : Known u k) (ha : High a) : (Access.check a).asks k = requestsFor u a := by
  have hpage : vpn a ∉ k.pages ↔ u.mapping a = none := by
    rw [← h.pages a ha, not_not]
  exact congrArg₂ (· ++ ·) (if_congr (not_congr (h.dirs a ha)).symm rfl rfl)
    (if_congr hpage rfl rfl)

/-- Pages and page tables are taken, and put at addresses of one page. -/
theorem Own.of_mapping (h : Own u) (hc : Coherent w) (htook : Took u js w)
    (hdirs : ∀ d, (w.pagedir d).present → (u.pagedir d).present ∨ d = pde a)
    (hmapping : ∀ x e, w.mapping x = some e →
      u.mapping x = some e ∨ vpn x = vpn a ∧ ∃ j ∈ js, e.baseAddr = u.pagine + j) : Own w := by
  have hpagine := htook.pagine
  -- A new page is none of those that were there.
  have hnew : ∀ x e, u.mapping x = some e → ∀ j ∈ js, e.baseAddr ≠ u.pagine + j := by
    intro x e he j hj heq
    obtain ⟨i, hbase, hused⟩ := h.used x e he
    obtain rfl := Nat.add_left_cancel (hbase.symm.trans heq)
    exact hused (htook.taken i hj).1
  constructor
  · exact hc
  · intro d hd
    by_cases hold : (u.pagedir d).present
    · rw [htook.kept d hold, hpagine]
      exact h.table d hold
    · obtain rfl := (hdirs d hd).resolve_left hold
      obtain ⟨j, hbase, -⟩ := htook.tables _ (mem_newTables.mpr ⟨pde_lt a, hold, hd⟩)
      rw [hbase, hpagine]
      exact Nat.le_add_right _ _
  · intro x e he
    rw [hpagine]
    rcases hmapping x e he with hold | ⟨-, j, hj, hbase⟩
    · obtain ⟨i, hbase, hused⟩ := h.used x e hold
      rw [← htook.keeps hused] at hused
      exact ⟨i, hbase, hused⟩
    · refine ⟨j, hbase, ?_⟩
      rw [(htook.taken j hj).2]
      exact PageKind.noConfusion
  · intro x y e f he hf hbase
    rcases hmapping x e he with hx | ⟨hx, j, hj, hje⟩ <;>
      rcases hmapping y f hf with hy | ⟨hy, i, hi, hif⟩
    · exact h.once x y e f hx hy hbase
    · exact absurd (hbase.trans hif) (hnew x e hx i hi)
    · exact absurd (hbase.symm.trans hje) (hnew y f hy j hj)
    · exact hx.trans hy.symm

theorem Own.prepared (h : Own u) (hp : Prepared u level a js w) : Own w := by
  refine h.of_mapping hp.coherent hp.took (fun d => (hp.dirs d).mp) fun x e he => ?_
  rcases hp.cases with ⟨-, -, hsame, -⟩ | ⟨j, rfl, -, hnew, -⟩
  · exact Or.inl ((hsame x).symm.trans he)
  · rw [hnew] at he
    split at he
    · rename_i hvpn
      obtain rfl := Option.some.inj he
      exact Or.inr ⟨hvpn, j, List.mem_singleton_self j, rfl⟩
    · exact Or.inl he

/-- A page that was free holds zeros now: no address that had a page has it. -/
theorem Own.value_beside (h : Own u) {j : Nat} (hfree : u.mem.pagelist j = .freepage)
    (hdata : w.data = Function.update u.data (u.pagine + j) fun _ => 0)
    (hmapping : w.mapping x = u.mapping x) : value w x = value u x := by
  cases hold : u.mapping x with
  | none => rw [value_of_none hold, value_of_none (hmapping.trans hold)]
  | some e =>
    obtain ⟨i, hbase, hused⟩ := h.used x e hold
    have hne : e.baseAddr ≠ u.pagine + j := by
      rw [hbase]
      intro heq
      obtain rfl := Nat.add_left_cancel heq
      exact hused hfree
    rw [value_of_mapping hold, value_of_mapping (hmapping.trans hold), hdata,
      Function.update_of_ne hne]

theorem Own.value_prepared (h : Own u) (hp : Prepared u level a js w) (x : Dword) :
    value w x = value u x := by
  rcases hp.cases with ⟨-, -, hsame, hdata⟩ | ⟨j, rfl, hnone, hnew, hdata⟩
  · unfold value Space.load
    rw [hsame, hdata]
  · have hmapping := hnew x
    split at hmapping
    · rename_i hvpn
      rw [value_of_mapping hmapping, hdata, Function.update_self,
        value_of_none ((mapping_congr_vpn hvpn).trans hnone)]
    · exact h.value_beside (hp.took.taken j (List.mem_singleton_self j)).1 hdata hmapping

theorem Known.prepared (h : Known u k) (hp : Prepared u level a js w) :
    Known w ((Access.check a).visit k) := by
  constructor
  · intro x hx
    rw [hp.dirs, h.dirs x hx, or_comm]
    exact Finset.mem_insert.symm
  · intro x hx
    change _ ↔ vpn x ∈ insert (vpn a) k.pages
    rw [Finset.mem_insert, ← h.pages x hx]
    constructor
    · intro hsome
      by_cases hvpn : vpn x = vpn a
      · exact Or.inl hvpn
      · rw [hp.elsewhere hvpn] at hsome
        exact Or.inr hsome
    · rintro (hvpn | hsome)
      · rw [mapping_congr_vpn hvpn]
        exact hp.ready
      · obtain ⟨e, he⟩ := Option.ne_none_iff_exists'.mp hsome
        rw [hp.keeps he]
        exact Option.some_ne_none e

/-! ### What the steps do -/

/-- The piece goes below the first address that is not shared. -/
def Low (p : Piece 32 Byte) : Prop :=
  ∃ i < p.len, pde (p.start + BitVec.ofNat 32 i) < sharedEntries

variable {xs ys : List Access} {ps qs : List (Piece 32 Byte)} {v : Nat → Byte}

/-- What the load did: it got every page table that it asked for, and has written the pieces. -/
structure Does (l : Load) (k : Seen) (xs : List Access) (ps : List (Piece 32 Byte)) (l' : Load) :
    Prop where
  own : Own (above l'.toSpace)
  known : Known (above l'.toSpace) (k.after xs)
  shared : l'.shared = l.shared
  value : ∀ x, High x → value (above l'.toSpace) x = writeAll ps (value (above l.toSpace)) x
  served : ∀ rest, serve (demand k xs ++ rest) l.mem = serve rest l'.mem

/-- Page 0 is none of the allocator's, and holds no entry that is present. -/
structure PageZeroClear (s : Space) : Prop where
  pagine : 0 < s.pagine
  clear : ∀ j, ¬(s.tables 0 j).present

/-- A page table was refused: then the load has written to page 0. -/
structure Refused (l : Load) (k : Seen) (xs : List Access) (l' : Load) : Prop where
  refused : ∀ rest, serve (demand k xs ++ rest) l.mem = .refused
  recorded : PageZeroClear l.toSpace → l'.shared = true

/-- A part of the load: `xs` asks the allocator, `ps` is written. -/
structure Turn (l : Load) (xs : List Access) (ps : List (Piece 32 Byte)) (l' : Load) : Prop where
  records : Records l l'
  low : (∃ p ∈ ps, Low p) → l'.shared = true
  does : (∀ p ∈ ps, ¬Low p) → ∀ k, Own (above l.toSpace) → Known (above l.toSpace) k →
    Does l k xs ps l' ∨ Refused l k xs l'

theorem PageZeroClear.kept (h : PageZeroClear s) (hk : Kept s t) : PageZeroClear t := by
  refine ⟨hk.pagine ▸ h.pagine, fun j => ?_⟩
  rw [hk.tables 0 h.pagine]
  exact h.clear j

theorem Does.trans (h : Does l k xs ps l') (h' : Does l' (k.after xs) ys qs l'') :
    Does l k (xs ++ ys) (ps ++ qs) l'' where
  own := h'.own
  known := by
    rw [Seen.after_append]
    exact h'.known
  shared := h'.shared.trans h.shared
  value x hx := by
    rw [h'.value x hx, writeAll_append]
    exact writeAll_apply_congr (h.value x hx)
  served rest := by
    rw [demand_append, List.append_assoc, h.served, h'.served]

/-- One part of a load after the other. -/
theorem Turn.trans (h : Turn l xs ps l') (h' : Turn l' ys qs l'') :
    Turn l (xs ++ ys) (ps ++ qs) l'' where
  records := h.records.trans h'.records
  low := by
    rintro ⟨p, hp, hlow⟩
    rcases List.mem_append.mp hp with hp | hp
    · exact h'.records.shared (h.low ⟨p, hp, hlow⟩)
    · exact h'.low ⟨p, hp, hlow⟩
  does := by
    intro hhigh k hown hknown
    obtain ⟨hps, hqs⟩ := List.forall_mem_append.mp hhigh
    rcases h.does hps k hown hknown with hdoes | hrefused
    · rcases h'.does hqs _ hdoes.own hdoes.known with hlater | hlater
      · exact Or.inl (hdoes.trans hlater)
      · refine Or.inr ⟨fun rest => ?_, fun hzero => ?_⟩
        · rw [demand_append, List.append_assoc, hdoes.served, hlater.refused]
        · by_contra hnot
          obtain ⟨hmiddle, -⟩ := h'.records (Bool.not_eq_true _ ▸ hnot)
          exact hnot (hlater.recorded (hzero.kept (h.records hmiddle).2))
    · refine Or.inr ⟨fun rest => ?_, fun hzero => h'.records.shared (hrefused.recorded hzero)⟩
      rw [demand_append, List.append_assoc, hrefused.refused]

theorem Turn.refl (l : Load) : Turn l [] [] l where
  records h := ⟨h, Kept.refl l.toSpace⟩
  low := by
    rintro ⟨p, hp, -⟩
    exact absurd hp List.not_mem_nil
  does _ _ hown hknown := Or.inl ⟨hown, hknown, rfl, fun _ _ => rfl, fun _ => rfl⟩

theorem recordChecks_eq_false (ha : High a) (hbase : (s.ensureTable level a).pagine ≤
    ((s.ensureTable level a).pagedir (pde a)).baseAddr) : recordChecks s level a = false := by
  unfold recordChecks
  dsimp only
  rw [kernels_eq_false.mpr ⟨ha, hbase⟩, decide_eq_false_iff_not]
  rintro (⟨-, hlow⟩ | ⟨-, hfalse⟩)
  · exact absurd ha (Nat.not_le.mpr hlow)
  · cases hfalse

/-- An entry is written to page 0 when that is the page table. -/
theorem recordChecks_of_zero (ha : High a) (hclear : PageZeroClear s)
    (hbase : ((s.ensureTable level a).pagedir (pde a)).baseAddr = 0) :
    recordChecks s level a = true := by
  have hkept : Kept s (s.ensureTable level a) := ensureTable_kept (Or.inr ha)
  have hclear' := hclear.kept hkept
  unfold recordChecks
  dsimp only
  rw [decide_eq_true_eq]
  refine Or.inr ⟨?_, decide_eq_true (Or.inr ?_)⟩
  · rw [Space.entry, hbase]
    exact hclear'.clear _
  · rw [hbase]
    exact hclear'.pagine

/-- The checks of an address that is not under a copied entry. -/
theorem check_does (ha : High a) (h : l.prepare level a = some l') (hown : Own (above l.toSpace))
    (hknown : Known (above l.toSpace) k) :
    Does l k [.check a] [] l' ∧ (above l'.toSpace).mapping a ≠ none ∨
      Refused l k [.check a] l' := by
  have hmem : (above l.toSpace).mem = l.mem := rfl
  unfold Load.prepare at h
  split at h
  · rename_i s hok
    obtain rfl := Option.some.inj h
    have habove := above_prepare ha hok
    have hdirs : s.pagedir = (l.toSpace.ensureTable level a).pagedir :=
      ensurePage_pagedir (Or.inl hok)
    have htable : (above s).pagedir (pde a) =
        (l.toSpace.ensureTable level a).pagedir (pde a) := by
      rw [above_pagedir ha, hdirs]
    have hkept : Kept l.toSpace (l.toSpace.ensureTable level a) := ensureTable_kept (Or.inr ha)
    have hasks : demand k [.check a] = requestsFor (above l.toSpace) a := by
      rw [demand, demand, List.append_nil, hknown.asks ha]
    rcases prepare_cases hown.coherent level a with
      ⟨w, js, hw, hprepared, hserve⟩ | ⟨w, hw, -⟩ | ⟨hrefused, hnot, hzero⟩
    · obtain rfl := Except.ok.inj (habove.symm.trans hw)
      have hown' := hown.prepared hprepared
      refine Or.inl ⟨⟨hown', hknown.prepared hprepared, ?_, fun x _ => ?_, ?_⟩, hprepared.ready⟩
      · have hbase := hown'.table (pde a) ((hprepared.dirs _).mpr (Or.inr rfl))
        have hpagine : (above s).pagine = (l.toSpace.ensureTable level a).pagine :=
          hprepared.took.pagine.trans hkept.pagine.symm
        rw [htable, hpagine] at hbase
        change (l.shared || recordChecks l.toSpace level a) = l.shared
        rw [recordChecks_eq_false ha hbase, Bool.or_false]
      · exact hown.value_prepared hprepared x
      · intro rest
        rw [hasks]
        exact hserve rest
    · rw [habove] at hw
      cases hw
    · refine Or.inr ⟨fun rest => ?_, fun hclear => ?_⟩
      · rw [hasks]
        exact hrefused rest
      · have hbase := (hzero _ (Or.inl habove)).2
        rw [htable] at hbase
        change (l.shared || recordChecks l.toSpace level a) = true
        rw [recordChecks_of_zero ha hclear hbase, Bool.or_true]
  · cases h

/-! ### Bytes -/

theorem address_ext {y : Dword} (hvpn : vpn x = vpn y) (hoffset : offset x = offset y) :
    x = y := by
  apply BitVec.eq_of_toNat_eq
  unfold vpn at hvpn
  unfold offset at hoffset
  omega

/-- A byte that is written is read at its address, and only there. -/
theorem Own.value_poke (h : Own u) (he : u.mapping a = some e) (byte : Byte) (x : Dword) :
    value (u.poke e.baseAddr (offset a) byte) x = Function.update (value u) a byte x := by
  have hmapping : (u.poke e.baseAddr (offset a) byte).mapping x = u.mapping x := rfl
  rw [Function.update_apply]
  cases hx : u.mapping x with
  | none =>
    have hne : x ≠ a := by
      rintro rfl
      rw [hx] at he
      cases he
    rw [if_neg hne, value_of_none hx, value_of_none (hmapping.trans hx)]
  | some f =>
    have hsame : f.baseAddr = e.baseAddr ∧ offset x = offset a ↔ x = a := by
      constructor
      · rintro ⟨hbase, hoffset⟩
        exact address_ext (h.once x a f e hx he hbase) hoffset
      · rintro rfl
        rw [hx] at he
        rw [Option.some.inj he]
        exact ⟨rfl, rfl⟩
    rw [value_of_mapping hx, value_of_mapping (hmapping.trans hx), poke_data]
    exact if_congr hsame rfl rfl

/-- What is written changes the data only. -/
theorem chunk_data (feed : Feed) (n address i : Nat) (s : Space) :
    ∃ data, Space.chunk feed n address i s = { s with data := data } := by
  induction n generalizing address i s with
  | zero => exact ⟨s.data, rfl⟩
  | succ n ih =>
    obtain ⟨data, hdata⟩ := ih (address + 1) (i + 1) (s.write address (feed.read s i))
    exact ⟨data, hdata⟩

theorem above_chunk (feed : Feed) (n address i : Nat) (s : Space) :
    above (Space.chunk feed n address i s) = Space.chunk feed n address i (above s) := by
  induction n generalizing address i s with
  | zero => rfl
  | succ n ih =>
    have hread : feed.read (above s) i = feed.read s i := by cases feed <;> rfl
    rw [Space.chunk, Space.chunk, ih, hread]
    rfl

theorem Own.data (h : Own u) (data : Nat → Nat → Byte) : Own { u with data := data } :=
  ⟨⟨h.coherent.tableUsed, h.coherent.tableOnce⟩, h.table, h.used, h.once⟩

theorem Known.data (h : Known u k) (data : Nat → Nat → Byte) : Known { u with data := data } k :=
  ⟨h.dirs, h.pages⟩

/-- Bytes that are written in a page. -/
theorem Own.value_chunk (h : Own u) (hfeed : ∀ s i, feed.read s i = v i)
    (ha : u.mapping a ≠ none) (hn : n ≤ 4096 - offset a) (x : Dword) :
    value (Space.chunk feed n (u.physicalAddress a) i u) x =
      (Piece.mk a n fun m => v (i + m)).write (value u) x := by
  induction n generalizing a i u with
  | zero => rw [write_zero]; rfl
  | succ n ih =>
    obtain ⟨e, he⟩ := Option.ne_none_iff_exists'.mp ha
    have hstep := h.value_poke he (v i)
    rw [Space.chunk, hfeed, write_physical he, Nat.add_comm n 1, write_add (by omega)]
    cases n with
    | zero =>
      rw [write_zero, write_one]
      exact hstep x
    | succ n =>
      obtain ⟨hvpn, hoff⟩ := vpn_succ (a := a) (by omega)
      have hmapped : (u.poke e.baseAddr (offset a) (v i)).mapping (a + 1) ≠ none := by
        change u.mapping (a + 1) ≠ none
        rw [mapping_congr_vpn hvpn]
        exact ha
      have haddress : u.physicalAddress a + 1 =
          (u.poke e.baseAddr (offset a) (v i)).physicalAddress (a + 1) := by
        change _ = u.physicalAddress (a + 1)
        unfold Space.physicalAddress
        rw [entry_congr_vpn hvpn, hoff, Nat.add_assoc]
      have hown : Own (u.poke e.baseAddr (offset a) (v i)) := h.data _
      rw [haddress, ih hown hmapped (by omega)]
      have hvalues : (fun m => v (i + 1 + m)) = fun m => v (i + (1 + m)) := by
        funext m
        rw [Nat.add_assoc]
      rw [hvalues, write_one]
      exact Piece.write_apply_congr (hstep x)

theorem toNat_add_ofNat {m : Nat} (h : a.toNat + m < 2 ^ 32) :
    (a + BitVec.ofNat 32 m).toNat = a.toNat + m := by
  rw [BitVec.toNat_add, BitVec.toNat_ofNat]
  omega

/-- The addresses up to the end of a page are in that page. -/
theorem same_page {m : Nat} (h : m < 4096 - offset a) :
    pde (a + BitVec.ofNat 32 m) = pde a ∧ vpn (a + BitVec.ofNat 32 m) = vpn a := by
  have ha := a.isLt
  unfold offset at h
  unfold pde vpn
  rw [toNat_add_ofNat (by omega)]
  omega

theorem low_of_page (hpos : 0 < n) (hn : n ≤ 4096 - offset a) :
    Low ⟨a, n, v⟩ ↔ pde a < sharedEntries := by
  constructor
  · rintro ⟨i, hi, hlow⟩
    rwa [(same_page (Nat.lt_of_lt_of_le hi hn)).1] at hlow
  · intro hlow
    refine ⟨0, hpos, ?_⟩
    rw [BitVec.add_zero]
    exact hlow

/-- A round of a loop: the checks of an address, and bytes up to the end of its page at most. -/
theorem chunk_turn (hfeed : ∀ s i, feed.read s i = v i) (h : l.prepare level a = some l')
    (hpos : 0 < n) (hn : n ≤ 4096 - offset a) :
    Turn l [.check a] [⟨a, n, fun m => v (i + m)⟩] (l'.write a feed n i) := by
  have hrecords : Records l (l'.write a feed n i) := (prepare_records h).trans write_records
  have hlow : Low ⟨a, n, fun m => v (i + m)⟩ ↔ pde a < sharedEntries := low_of_page hpos hn
  refine ⟨hrecords, ?_, ?_⟩
  · rintro ⟨p, hp, hl⟩
    obtain rfl := List.mem_singleton.mp hp
    change (l'.shared || _) = true
    rw [Bool.or_eq_true, decide_eq_true_eq]
    exact Or.inr ⟨hpos, decide_eq_true (Or.inl (hlow.mp hl))⟩
  · intro hhigh k hown hknown
    have ha : High a := Nat.le_of_not_lt (mt hlow.mpr (hhigh _ (List.mem_singleton_self _)))
    rcases check_does ha h hown hknown with ⟨hdoes, hmapped⟩ | hrefused
    · left
      obtain ⟨data, hdata⟩ := chunk_data feed n (l'.physicalAddress a) i (above l'.toSpace)
      have hphysical : (above l'.toSpace).physicalAddress a = l'.physicalAddress a := by
        unfold Space.physicalAddress
        rw [above_entry ha]
      have habove : above (l'.write a feed n i).toSpace = { above l'.toSpace with data := data } :=
        (above_chunk ..).trans hdata
      obtain ⟨e, he⟩ := Option.ne_none_iff_exists'.mp hmapped
      have hbase : l'.pagine ≤ (l'.entry a).baseAddr := by
        obtain ⟨j, hj, -⟩ := hdoes.own.used a e he
        rw [← above_entry ha, (mapping_eq_some.mp he).2.2, hj]
        exact Nat.le_add_right _ _
      constructor
      · rw [habove]
        exact hdoes.own.data data
      · rw [habove]
        exact hdoes.known.data data
      · change (l'.shared || decide (0 < n ∧ kernels l'.toSpace a (l'.entry a).baseAddr)) = _
        rw [kernels_eq_false.mpr ⟨ha, hbase⟩]
        simp only [Bool.false_eq_true, and_false, decide_false, Bool.or_false]
        exact hdoes.shared
      · intro x hx
        rw [show above (l'.write a feed n i).toSpace = _ from above_chunk .., ← hphysical,
          hdoes.own.value_chunk hfeed hmapped hn]
        exact Piece.write_apply_congr (hdoes.value x hx)
      · intro rest
        obtain ⟨data', hdata'⟩ := chunk_data feed n (l'.physicalAddress a) i l'.toSpace
        have hmem : (l'.write a feed n i).mem = l'.mem := by
          change (Space.chunk feed n (l'.physicalAddress a) i l'.toSpace).mem = _
          rw [hdata']
        rw [hdoes.served, hmem]
    · right
      exact ⟨hrefused.refused, fun hzero => write_records.shared (hrefused.recorded hzero)⟩

end OsdevArchive.Osso.AddressSpace
