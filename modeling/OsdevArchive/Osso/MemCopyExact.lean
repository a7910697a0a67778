import OsdevArchive.Osso.MemCopy

/-!
What a process finds at its addresses after `mem_alloc_and_copy` or `mem_alloc_and_fill`, and when:
exactly as long as `getpagetable` has a page for each table that is missing. A page that is there
already may be at more than one address, or may be one that the allocator takes for free; then the
last byte that is written to a place stays.
-/

namespace OsdevArchive.Osso.PageTables

open OsdevArchive.Osso.Memory (Dword PageKind)

/-- The byte at the address has this place in the memory. -/
def Locates (s : Space) (a : Dword) (page off : Nat) : Prop :=
  ∃ e, s.mapping a = some e ∧ e.baseAddr = page ∧ offset a = off

/-- What is written to: the pages `is` that were taken, and the places of the first `n` bytes. -/
def Touched (s t : Space) (dest : Dword) (n : Nat) (is : List Nat) (page off : Nat) : Prop :=
  (∃ j ∈ is, page = s.pagine + j) ∨ ∃ k < n, Locates t (dest + BitVec.ofNat 32 k) page off

/-- The place that the byte is read from is not written to. -/
def Feed.Steady (touched : Nat → Nat → Prop) : Feed → Nat → Prop
  | .copy source, i => ¬touched (source i).1 (source i).2
  | .fill _, _ => True
  | .image _, _ => True

/-- The mappings when the pages of `n` bytes are there. -/
structure Mapped (s : Space) (level dest : Dword) (n : Nat) (is : List Nat) (t : Space) :
    Prop where
  coherent : Coherent t
  took : Took s is t
  dirs : ∀ d, (t.pagedir d).present ↔
    (s.pagedir d).present ∨ ∃ k < n, pde (dest + BitVec.ofNat 32 k) = d
  kept : ∀ x e, s.mapping x = some e → t.mapping x = some e
  others : ∀ x, (∀ k < n, vpn x ≠ vpn (dest + BitVec.ofNat 32 k)) → t.mapping x = s.mapping x
  mapped : ∀ k < n, t.mapping (dest + BitVec.ofNat 32 k) ≠ none
  new : ∀ x e, s.mapping x = none → t.mapping x = some e →
    ∃ j ∈ is, e = ⟨s.pagine + j, true, true, level = userLevel⟩
  once : ∀ x y e f, s.mapping x = none → s.mapping y = none → t.mapping x = some e →
    t.mapping y = some f → e.baseAddr = f.baseAddr → vpn x = vpn y

/-- The data when `n` bytes are written. The range holds its bytes, where no later one has the
same place and no page that was there already was taken for free; the rest is as before, and a new
page is zero. -/
structure Written (s : Space) (feed : Feed) (dest : Dword) (n : Nat) (is : List Nat) (t : Space) :
    Prop where
  holds : ∀ k < n,
    (∀ l, k < l → l < n → ∀ page off, Locates t (dest + BitVec.ofNat 32 k) page off →
      ¬Locates t (dest + BitVec.ofNat 32 l) page off) →
    (∀ e, s.mapping (dest + BitVec.ofNat 32 k) = some e → ∀ j ∈ is, e.baseAddr ≠ s.pagine + j) →
    feed.Steady (Touched s t dest n is) k →
    t.load (dest + BitVec.ofNat 32 k) = some (feed.read s k)
  rest : ∀ page off, ¬Touched s t dest n is page off → t.data page off = s.data page off
  fresh : ∀ j ∈ is, ∀ off, (∀ k < n, ¬Locates t (dest + BitVec.ofNat 32 k) (s.pagine + j) off) →
    t.data (s.pagine + j) off = 0

/-- The pages of the range that are there already are in use, and each at one address. -/
structure OwnPages (s : Space) (dest : Dword) (n : Nat) : Prop where
  used : ∀ k < n, ∀ e, s.mapping (dest + BitVec.ofNat 32 k) = some e →
    ∀ j, e.baseAddr = s.pagine + j → s.mem.pagelist j ≠ .freepage
  once : ∀ k < n, ∀ l < n, ∀ e f, s.mapping (dest + BitVec.ofNat 32 k) = some e →
    s.mapping (dest + BitVec.ofNat 32 l) = some f → e.baseAddr = f.baseAddr →
      vpn (dest + BitVec.ofNat 32 k) = vpn (dest + BitVec.ofNat 32 l)

/-- The new page tables are pages that were free. -/
def FromAllocator (s t : Space) : Prop :=
  ∀ d ∈ newTables s t, ∃ j, (t.pagedir d).baseAddr = s.pagine + j ∧
    s.mem.pagelist j = .freepage ∧ t.mem.pagelist j = .ptabpage

/-- The memory when the function returns or panics. -/
def Ends (r : Except Space Space) (t : Space) : Prop := r = .ok t ∨ r = .error t

/-- The version with `NEW_MEM_ALLOC_AND_COPY` does what the other one does, which is what it
should do. -/
structure CopiesRight (s : Space) (level : Dword) (feed : Feed) (dest size : Dword)
    (new old : Except Space Space) : Prop where
  same : new = old
  tables : ∀ t, Ends old t → FromAllocator s t
  copied : ∀ t, old = .ok t → ∃ is,
    Mapped s level dest size.toNat is t ∧ Written s feed dest size.toNat is t ∧
      (OwnPages s dest size.toNat → ∀ k < size.toNat,
        feed.Steady (Touched s t dest size.toNat is) k →
          t.load (dest + BitVec.ofNat 32 k) = some (feed.read s k))

/-! ### What is asked of the allocator -/

inductive Request where
  | table
  | page

/-- A page table is refused, or the search for a page panics, or all is there. -/
inductive Served where
  | refused
  | halted
  | served
  deriving DecidableEq

def serve : List Request → Memory.State → Served
  | [], _ => .served
  | .table :: rest, mem =>
    match Memory.getpagetable mem with
    | (.page _, mem) => serve rest mem
    | _ => .refused
  | .page :: rest, mem =>
    match Memory.getpage mem with
    | (.page _, mem) => serve rest mem
    | _ => .halted

/-- What a byte needs: a page table, if it is the first one under a directory entry that is not
present, and a page, if it is the first one in a page that is not there. -/
def requestsAt (s : Space) (dest : Dword) (i : Nat) : List Request :=
  let a := dest + BitVec.ofNat 32 i
  (if (i = 0 ∨ a.toNat % 2 ^ 22 = 0) ∧ ¬(s.pagedir (pde a)).present then [.table] else []) ++
    if (i = 0 ∨ a.toNat % 2 ^ 12 = 0) ∧ s.mapping a = none then [.page] else []

def requests (s : Space) (dest : Dword) (i n : Nat) : List Request :=
  (List.range' i n).flatMap (requestsAt s dest)

/-- No page table that the range needs is refused. -/
def Supplied (s : Space) (dest size : Dword) : Prop :=
  serve (requests s dest 0 size.toNat) s.mem ≠ .refused

variable {s t u v w : Space} {level dest a x : Dword} {feed : Feed} {n i : Nat} {is js : List Nat}

theorem serve_table (u : Space) (rest : List Request) : serve (.table :: rest) u.mem =
    if u.getpagetable.1 = none then .refused else serve rest u.getpagetable.2.mem := by
  rcases hcall : Memory.getpagetable u.mem with ⟨outcome, mem⟩
  cases outcome <;> simp [serve, Space.getpagetable, hcall]

theorem serve_page (u : Space) (rest : List Request) : serve (.page :: rest) u.mem =
    if u.getpage.1 = none then .halted else serve rest u.getpage.2.mem := by
  rcases hcall : Memory.getpage u.mem with ⟨outcome, mem⟩
  cases outcome <;> simp [serve, Space.getpage, hcall]

/-! ### The two checks of an address -/

theorem getpage_none (h : u.getpage = (none, v)) :
    v.pagine = u.pagine ∧ v.pagedir = u.pagedir ∧ v.mem.pagelist = u.mem.pagelist ∧
      v.mem.freePages = u.mem.freePages := by
  unfold Space.getpage Memory.getpage at h
  rcases Memory.memGetpage_cases .datapage u.mem with
    ⟨k, seen, -, -, ⟨-, hresult⟩ | ⟨-, hresult⟩⟩ | ⟨seen, -, -, hresult⟩
  · rw [hresult] at h
    cases h
  · rw [hresult] at h
    obtain ⟨-, rfl⟩ := Prod.mk.inj h
    exact ⟨rfl, rfl, rfl, rfl⟩
  · rw [hresult] at h
    obtain ⟨-, rfl⟩ := Prod.mk.inj h
    exact ⟨rfl, rfl, rfl, rfl⟩

/-- Nothing is taken where nothing changes. -/
theorem took_nothing (hpagine : v.pagine = u.pagine) (hdir : v.pagedir = u.pagedir)
    (hlist : v.mem.pagelist = u.mem.pagelist) (hcount : v.mem.freePages = u.mem.freePages) :
    Took u [] v := by
  have hrefl := Took.refl u
  have hnew : newTables u v = newTables u u := by
    unfold newTables
    rw [hdir]
  constructor
  · exact hpagine
  · intro d _
    rw [hdir]
  · exact fun j hj => absurd hj List.not_mem_nil
  · exact List.nodup_nil
  · intro d hd
    rw [hnew, newTables_self] at hd
    exact absurd hd (Finset.notMem_empty d)
  · intro j _ _
    rw [hlist]
  · rw [hcount, hnew]
    exact hrefl.freePages

/-- The directory entry of an address, checked. -/
structure Tabled (u : Space) (a : Dword) (v : Space) : Prop where
  coherent : Coherent v
  took : Took u [] v
  mapping : ∀ x, v.mapping x = u.mapping x
  data : v.data = u.data
  dirs : ∀ d, (v.pagedir d).present ↔ (u.pagedir d).present ∨ d = pde a

/-- The request for a page table is served, and then it is there; or it is refused, and the
directory entry leads to page 0. -/
theorem ensureTable_cases (hc : Coherent u) (level a : Dword) :
    (Tabled u a (u.ensureTable level a) ∧ ∀ rest,
      serve ((if ¬(u.pagedir (pde a)).present then [.table] else []) ++ rest) u.mem =
        serve rest (u.ensureTable level a).mem) ∨
    ((∀ rest,
      serve ((if ¬(u.pagedir (pde a)).present then [.table] else []) ++ rest) u.mem = .refused) ∧
      ¬(u.pagedir (pde a)).present ∧ ((u.ensureTable level a).pagedir (pde a)).baseAddr = 0) := by
  by_cases hdir : (u.pagedir (pde a)).present
  · left
    have hsame : u.ensureTable level a = u := if_pos hdir
    rw [hsame, if_neg (not_not.mpr hdir)]
    refine ⟨⟨hc, Took.refl u, fun _ => rfl, rfl, ?_⟩, fun _ => rfl⟩
    intro d
    constructor
    · exact Or.inl
    · rintro (hd | rfl)
      · exact hd
      · exact hdir
  · have hensure : u.ensureTable level a = u.getpagetable.2.setDir a
        ⟨u.getpagetable.1.getD 0, true, true, level = userLevel⟩ := if_neg hdir
    simp only [if_pos hdir, List.singleton_append, serve_table, hensure]
    rcases hcall : u.getpagetable with ⟨_ | p, r⟩
    · right
      refine ⟨fun _ => if_pos rfl, hdir, ?_⟩
      rw [setDir_self]
      rfl
    · left
      obtain ⟨j, rfl, hfree, hlist, hcount, hr⟩ := getpagetable_some hcall
      have hdirs : (r.setDir a ⟨u.pagine + j, true, true, level = userLevel⟩).pagedir =
          Function.update u.pagedir (pde a) ⟨u.pagine + j, true, true, level = userLevel⟩ := by
        rw [Space.setDir, show r.pagedir = u.pagedir by rw [hr]]
      have hpagine : r.pagine = u.pagine := by rw [hr]
      have htables : r.tables = Function.update u.tables (u.pagine + j) fun _ => .clear := by
        rw [hr]
      obtain ⟨hcoherent, hmapping⟩ := hc.newTable hdir hfree rfl rfl hdirs htables hpagine hlist
      refine ⟨⟨hcoherent, took_table hpagine hdir rfl rfl hdirs hfree hlist hcount, hmapping,
        ?_, ?_⟩, fun _ => if_neg (Option.some_ne_none _)⟩
      · change r.data = u.data
        rw [hr]
      · intro d
        change ((r.setDir a ⟨u.pagine + j, true, true, level = userLevel⟩).pagedir d).present ↔ _
        rw [hdirs, Function.update_apply]
        by_cases hd : d = pde a
        · simp [hd]
        · simp [hd]

/-- The page of an address, made present: nothing changes, or the page `j` is mapped. -/
structure Prepared (u : Space) (level a : Dword) (js : List Nat) (w : Space) : Prop where
  coherent : Coherent w
  took : Took u js w
  dirs : ∀ d, (w.pagedir d).present ↔ (u.pagedir d).present ∨ d = pde a
  cases :
    (js = [] ∧ u.mapping a ≠ none ∧ (∀ x, w.mapping x = u.mapping x) ∧ w.data = u.data) ∨
    ∃ j, js = [j] ∧ u.mapping a = none ∧
      (∀ x, w.mapping x = if vpn x = vpn a then
        some ⟨u.pagine + j, true, true, level = userLevel⟩ else u.mapping x) ∧
      w.data = Function.update u.data (u.pagine + j) fun _ => 0

theorem ensurePage_cases (h : Tabled u a v) (level : Dword) :
    (∃ w js, v.ensurePage level a = .ok w ∧ Prepared u level a js w ∧ ∀ rest,
      serve ((if u.mapping a = none then [.page] else []) ++ rest) v.mem = serve rest w.mem) ∨
    ∃ w, v.ensurePage level a = .error w ∧ Took u [] w ∧ ∀ rest,
      serve ((if u.mapping a = none then [.page] else []) ++ rest) v.mem = .halted := by
  have hdir : (v.pagedir (pde a)).present := (h.dirs _).mpr (Or.inr rfl)
  have hmapping : u.mapping a = if (v.entry a).present then some (v.entry a) else none := by
    rw [← h.mapping, mapping_of_present hdir]
  by_cases hpresent : (v.entry a).present
  · left
    rw [if_pos hpresent] at hmapping
    have hsome : u.mapping a ≠ none := by
      rw [hmapping]
      exact Option.some_ne_none _
    refine ⟨v, [], if_pos hpresent, ⟨h.coherent, h.took, h.dirs, Or.inl ?_⟩, ?_⟩
    rotate_left
    · intro rest
      rw [if_neg hsome]
      rfl
    exact ⟨rfl, hsome, h.mapping, h.data⟩
  · rw [if_neg hpresent] at hmapping
    simp only [if_pos hmapping, List.singleton_append, serve_page]
    rcases hcall : v.getpage with ⟨_ | p, r⟩
    · right
      obtain ⟨hpagine, hdirs, hlist, hcount⟩ := getpage_none hcall
      refine ⟨r, ?_, h.took.trans (took_nothing hpagine hdirs hlist hcount), fun _ => if_pos rfl⟩
      rw [Space.ensurePage, if_neg hpresent, hcall]
    · left
      obtain ⟨j, rfl, hfree, hlist, hcount, -, hr⟩ := getpage_some hcall
      obtain ⟨hcr, hsame⟩ := h.coherent.getpage hcall
      have hpagine : r.pagine = v.pagine := by rw [hr]
      have hdirs : r.pagedir = v.pagedir := by rw [hr]
      have hdir' : (r.pagedir (pde a)).present := by
        rw [hdirs]
        exact hdir
      refine ⟨r.setEntry a ⟨v.pagine + j, true, true, level = userLevel⟩, [j], ?_, ?_,
        fun _ => if_neg (Option.some_ne_none _)⟩
      · rw [Space.ensurePage, if_neg hpresent, hcall]
      · refine ⟨hcr.coherent_setEntry _,
          (h.took.trans (took_page hpagine hdirs hfree hlist hcount)).setEntry _ _, ?_, Or.inr ?_⟩
        · intro d
          change (r.pagedir d).present ↔ _
          rw [hdirs]
          exact h.dirs d
        · refine ⟨j, rfl, hmapping, ?_, ?_⟩
          · intro x
            rw [mapping_setEntry hcr.tableOnce hdir', hsame, h.mapping, h.took.pagine]
            rfl
          · change r.data = _
            rw [← h.took.pagine, ← h.data, hr]

/-- The check of a page leaves the directory. -/
theorem ensurePage_pagedir (h : Ends (v.ensurePage level a) t) : t.pagedir = v.pagedir := by
  unfold Space.ensurePage at h
  split at h
  · rcases h with h | h
    · rw [Except.ok.inj h]
    · cases h
  · split at h <;> rename_i hcall
    · rcases h with h | h
      · obtain ⟨-, -, -, -, -, -, hr⟩ := getpage_some hcall
        rw [← Except.ok.inj h, hr]
        rfl
      · cases h
    · rcases h with h | h
      · cases h
      · rw [← Except.error.inj h]
        exact (getpage_none hcall).2.1

/-- What is asked for an address. -/
def requestsFor (u : Space) (a : Dword) : List Request :=
  (if ¬(u.pagedir (pde a)).present then [.table] else []) ++
    if u.mapping a = none then [.page] else []

/-- The checks of an address end with its page, or with a panic, or `NULL` was taken for a page
table. -/
theorem prepare_cases (hc : Coherent u) (level a : Dword) :
    (∃ w js, u.prepare level a = .ok w ∧ Prepared u level a js w ∧
      ∀ rest, serve (requestsFor u a ++ rest) u.mem = serve rest w.mem) ∨
    (∃ w, u.prepare level a = .error w ∧ Took u [] w ∧
      ∀ rest, serve (requestsFor u a ++ rest) u.mem = .halted) ∨
    ((∀ rest, serve (requestsFor u a ++ rest) u.mem = .refused) ∧ ¬(u.pagedir (pde a)).present ∧
      ∀ t, Ends (u.prepare level a) t →
        (t.pagedir (pde a)).present ∧ (t.pagedir (pde a)).baseAddr = 0) := by
  unfold requestsFor Space.prepare
  simp only [List.append_assoc]
  rcases ensureTable_cases hc level a with ⟨htabled, hserve⟩ | ⟨hrefused, hnot, hzero⟩
  · simp only [hserve]
    rcases ensurePage_cases htabled level with ⟨w, js, hok, hprepared, hrest⟩ |
      ⟨w, herror, htook, hhalted⟩
    · exact Or.inl ⟨w, js, hok, hprepared, hrest⟩
    · exact Or.inr (Or.inl ⟨w, herror, htook, hhalted⟩)
  · refine Or.inr (Or.inr ⟨fun _ => hrefused _, hnot, ?_⟩)
    intro t ht
    have hpresent : ((u.ensureTable level a).pagedir (pde a)).present := ensureTable_present
    have hdirs : t.pagedir = (u.ensureTable level a).pagedir := ensurePage_pagedir ht
    rw [hdirs]
    exact ⟨hpresent, hzero⟩

/-! ### Entries stay -/

theorem getpagetable_pagedir (u : Space) : u.getpagetable.2.pagedir = u.pagedir := by
  unfold Space.getpagetable
  split <;> rfl

theorem prepare_keeps {d : Nat} (hd : (u.pagedir d).present) (h : Ends (u.prepare level a) t) :
    t.pagedir d = u.pagedir d := by
  have hdirs : t.pagedir = (u.ensureTable level a).pagedir := ensurePage_pagedir h
  rw [hdirs]
  unfold Space.ensureTable
  split
  · rfl
  · rename_i hnot
    change Function.update u.getpagetable.2.pagedir (pde a) _ d = _
    rw [Function.update_of_ne, getpagetable_pagedir]
    rintro rfl
    exact hnot hd

/-- A directory entry that is present stays what it is to the end. -/
theorem byteLoop_keeps {d : Nat} (hd : (u.pagedir d).present)
    (h : Ends (Space.byteLoop level feed dest n i u) t) : t.pagedir d = u.pagedir d := by
  induction n generalizing i u with
  | zero =>
    rcases h with h | h
    · rw [← Except.ok.inj h]
    · cases h
  | succ n ih =>
    unfold Space.byteLoop at h
    cases hprepare : u.prepare level (dest + BitVec.ofNat 32 i) with
    | error w =>
      rw [hprepare] at h
      have hw := prepare_keeps hd (Or.inr hprepare)
      rcases h with h | h
      · cases h
      · rw [← Except.error.inj h, hw]
    | ok w =>
      rw [hprepare] at h
      have hw := prepare_keeps hd (Or.inl hprepare)
      have hrest := ih (u := w.write (w.physicalAddress (dest + BitVec.ofNat 32 i))
        (feed.read w i)) (by exact hw ▸ hd) h
      exact hrest.trans hw

/-! ### One byte more -/

theorem Mapped.refl (hc : Coherent s) (level dest : Dword) : Mapped s level dest 0 [] s where
  coherent := hc
  took := Took.refl s
  dirs d := by simp
  kept _ _ h := h
  others _ _ := rfl
  mapped k hk := absurd hk (Nat.not_lt_zero k)
  new x e hx he := by
    rw [hx] at he
    cases he
  once x y e f hx _ he _ _ := by
    rw [hx] at he
    cases he

theorem Mapped.poke (h : Mapped s level dest n is t) (page off : Nat) (byte : Byte) :
    Mapped s level dest n is (t.poke page off byte) :=
  ⟨h.coherent.of_used rfl rfl fun _ h => h, h.took.poke page off byte, h.dirs, h.kept, h.others,
    h.mapped, h.new, h.once⟩

/-- What was mapped stays mapped. -/
theorem Prepared.keeps (h : Prepared u level a js w) {e : Entry} (he : u.mapping x = some e) :
    w.mapping x = some e := by
  rcases h.cases with ⟨-, -, hsame, -⟩ | ⟨j, -, hnone, hnew, -⟩
  · rw [hsame, he]
  · rw [hnew, if_neg, he]
    intro hx
    rw [mapping_congr_vpn hx, hnone] at he
    cases he

theorem Prepared.ready (h : Prepared u level a js w) : w.mapping a ≠ none := by
  rcases h.cases with ⟨-, hsome, hsame, -⟩ | ⟨j, -, -, hnew, -⟩
  · rw [hsame]
    exact hsome
  · rw [hnew, if_pos rfl]
    exact Option.some_ne_none _

theorem Prepared.elsewhere (h : Prepared u level a js w) (hx : vpn x ≠ vpn a) :
    w.mapping x = u.mapping x := by
  rcases h.cases with ⟨-, -, hsame, -⟩ | ⟨j, -, -, hnew, -⟩
  · exact hsame x
  · rw [hnew, if_neg hx]

/-- The page of the next byte is made present. -/
theorem Mapped.step (h : Mapped s level dest i is u)
    (hp : Prepared u level (dest + BitVec.ofNat 32 i) js w) :
    Mapped s level dest (i + 1) (is ++ js) w := by
  have htook := h.took.trans hp.took
  have hnew : ∀ x e, s.mapping x = none → w.mapping x = some e → u.mapping x = some e ∨
      vpn x = vpn (dest + BitVec.ofNat 32 i) ∧ ∃ j, js = [j] ∧ u.mapping x = none ∧
        e = ⟨s.pagine + j, true, true, level = userLevel⟩ := by
    intro x e hx he
    rcases hp.cases with ⟨-, -, hsame, -⟩ | ⟨j, rfl, hnone, hnew, -⟩
    · exact Or.inl ((hsame x).symm.trans he)
    · rw [hnew] at he
      split at he
      · rename_i hvpn
        refine Or.inr ⟨hvpn, j, rfl, (mapping_congr_vpn hvpn).trans hnone, ?_⟩
        rw [← Option.some.inj he, h.took.pagine]
      · exact Or.inl he
  constructor
  · exact hp.coherent
  · exact htook
  · intro d
    rw [hp.dirs, h.dirs, or_assoc]
    apply or_congr_right
    constructor
    · rintro (⟨k, hk, hd⟩ | rfl)
      · exact ⟨k, Nat.lt_succ_of_lt hk, hd⟩
      · exact ⟨i, Nat.lt_succ_self i, rfl⟩
    · rintro ⟨k, hk, hd⟩
      rcases Nat.lt_succ_iff_lt_or_eq.mp hk with hlt | rfl
      · exact Or.inl ⟨k, hlt, hd⟩
      · exact Or.inr hd.symm
  · intro x e he
    exact hp.keeps (h.kept x e he)
  · intro x hx
    rw [hp.elsewhere (hx i (Nat.lt_succ_self i))]
    exact h.others x fun k hk => hx k (Nat.lt_succ_of_lt hk)
  · intro k hk
    rcases Nat.lt_succ_iff_lt_or_eq.mp hk with hlt | rfl
    · obtain ⟨e, he⟩ := Option.ne_none_iff_exists'.mp (h.mapped k hlt)
      rw [hp.keeps he]
      exact Option.some_ne_none _
    · exact hp.ready
  · intro x e hx he
    rcases hnew x e hx he with hold | ⟨-, j, rfl, -, rfl⟩
    · obtain ⟨j, hj, rfl⟩ := h.new x e hx hold
      exact ⟨j, List.mem_append_left _ hj, rfl⟩
    · exact ⟨j, List.mem_append_right _ (List.mem_singleton_self j), rfl⟩
  · -- The new page is none of those that were taken before.
    have hapart : ∀ j, js = [j] → ∀ x e, s.mapping x = none → u.mapping x = some e →
        e.baseAddr ≠ s.pagine + j := by
      rintro j rfl x e hx he hbase
      obtain ⟨k, hk, rfl⟩ := h.new x e hx he
      obtain rfl : k = j := Nat.add_left_cancel hbase
      exact List.disjoint_of_nodup_append htook.once hk (List.mem_singleton_self k)
    intro x y e f hx hy he hf hbase
    rcases hnew x e hx he with hxold | ⟨hxa, j, hj, -, rfl⟩ <;>
      rcases hnew y f hy hf with hyold | ⟨hya, k, hk, -, rfl⟩
    · exact h.once x y e f hx hy hxold hyold hbase
    · exact absurd hbase (hapart k hk x e hx hxold)
    · exact absurd hbase.symm (hapart j hj y f hy hyold)
    · exact hxa.trans hya.symm

theorem Written.refl (s : Space) (feed : Feed) (dest : Dword) : Written s feed dest 0 [] s where
  holds k hk := absurd hk (Nat.not_lt_zero k)
  rest _ _ _ := rfl
  fresh _ hj := absurd hj List.not_mem_nil

theorem write_physical {e : Entry} (he : w.mapping a = some e) (byte : Byte) :
    w.write (w.physicalAddress a) byte = w.poke e.baseAddr (offset a) byte := by
  obtain ⟨-, -, hentry⟩ := mapping_eq_some.mp he
  have hoff : offset a < 4096 := Nat.mod_lt _ (by omega)
  have hpage : (e.baseAddr * 4096 + offset a) / 4096 = e.baseAddr := by omega
  have hrest : (e.baseAddr * 4096 + offset a) % 4096 = offset a := by omega
  rw [Space.write, Space.physicalAddress, hentry, hpage, hrest]

theorem poke_data (w : Space) (page off : Nat) (byte : Byte) (p o : Nat) :
    (w.poke page off byte).data p o = if p = page ∧ o = off then byte else w.data p o := by
  unfold Space.poke
  dsimp only
  rw [Function.update_apply]
  split
  · rename_i hp
    rw [Function.update_apply, hp]
    simp only [true_and]
  · rename_i hp
    rw [if_neg fun h => hp h.1]

theorem Prepared.data (h : Prepared u level a js w) {p : Nat}
    (hp : ∀ j ∈ js, p ≠ u.pagine + j) : w.data p = u.data p := by
  rcases h.cases with ⟨-, -, -, hdata⟩ | ⟨j, rfl, -, -, hdata⟩
  · rw [hdata]
  · rw [hdata, Function.update_of_ne (hp j (List.mem_singleton_self j))]

theorem Prepared.fresh (h : Prepared u level a js w) {j : Nat} (hj : j ∈ js) (off : Nat) :
    w.data (u.pagine + j) off = 0 := by
  rcases h.cases with ⟨rfl, -, -, -⟩ | ⟨k, rfl, -, -, hdata⟩
  · exact absurd hj List.not_mem_nil
  · obtain rfl := List.mem_singleton.mp hj
    rw [hdata, Function.update_self]

theorem Mapped.index_ne (h : Mapped s level dest i is u)
    (hp : Prepared u level (dest + BitVec.ofNat 32 i) js w) {j l : Nat} (hj : j ∈ is)
    (hl : l ∈ js) : s.pagine + j ≠ u.pagine + l := by
  intro hbase
  rw [h.took.pagine] at hbase
  obtain rfl : j = l := Nat.add_left_cancel hbase
  exact List.disjoint_of_nodup_append (h.took.trans hp.took).once hj hl

/-- The page of an earlier byte is not the one that is taken for the next byte. -/
theorem Mapped.page_ne (h : Mapped s level dest i is u)
    (hp : Prepared u level (dest + BitVec.ofNat 32 i) js w) {k j : Nat} {f : Entry}
    (hf : u.mapping (dest + BitVec.ofNat 32 k) = some f)
    (hused : ∀ e, s.mapping (dest + BitVec.ofNat 32 k) = some e →
      ∀ j ∈ is ++ js, e.baseAddr ≠ s.pagine + j) (hj : j ∈ js) : f.baseAddr ≠ u.pagine + j := by
  cases hold : s.mapping (dest + BitVec.ofNat 32 k) with
  | none =>
    obtain ⟨l, hl, rfl⟩ := h.new _ f hold hf
    exact h.index_ne hp hl hj
  | some g =>
    have hg := h.kept _ g hold
    rw [hf] at hg
    obtain rfl := Option.some.inj hg
    rw [h.took.pagine]
    exact hused f hold j (List.mem_append_right _ hj)

/-- A byte is written after its page was made present. -/
theorem Written.step (hm : Mapped s level dest i is u) (h : Written s feed dest i is u)
    (hp : Prepared u level (dest + BitVec.ofNat 32 i) js w) :
    Written s feed dest (i + 1) (is ++ js)
      (w.write (w.physicalAddress (dest + BitVec.ofNat 32 i)) (feed.read w i)) := by
  obtain ⟨e, he⟩ := Option.ne_none_iff_exists'.mp hp.ready
  rw [write_physical he]
  generalize ht : w.poke e.baseAddr (offset (dest + BitVec.ofNat 32 i)) (feed.read w i) = t
  have hpagine := hm.took.pagine
  have hmapping : ∀ x, t.mapping x = w.mapping x := by
    intro x
    rw [← ht]
    rfl
  have hdata : ∀ p o, t.data p o =
      if p = e.baseAddr ∧ o = offset (dest + BitVec.ofNat 32 i) then feed.read w i
      else w.data p o := by
    intro p o
    rw [← ht, poke_data]
  have hlast : Locates t (dest + BitVec.ofNat 32 i) e.baseAddr
      (offset (dest + BitVec.ofNat 32 i)) := ⟨e, (hmapping _).trans he, rfl, rfl⟩
  -- The bytes before have kept their places.
  have hplaces : ∀ k < i, ∀ p o, Locates t (dest + BitVec.ofNat 32 k) p o ↔
      Locates u (dest + BitVec.ofNat 32 k) p o := by
    intro k hk p o
    obtain ⟨f, hf⟩ := Option.ne_none_iff_exists'.mp (hm.mapped k hk)
    unfold Locates
    rw [hmapping, hp.keeps hf, hf]
  have htouched : ∀ p o, Touched s u dest i is p o → Touched s t dest (i + 1) (is ++ js) p o := by
    rintro p o (⟨j, hj, hpage⟩ | ⟨k, hk, hloc⟩)
    · exact Or.inl ⟨j, List.mem_append_left _ hj, hpage⟩
    · exact Or.inr ⟨k, Nat.lt_succ_of_lt hk, (hplaces k hk p o).mpr hloc⟩
  have huntouched : ∀ p o, ¬Touched s t dest (i + 1) (is ++ js) p o → w.data p o = s.data p o := by
    intro p o hnot
    have hnew : ∀ j ∈ js, p ≠ u.pagine + j := by
      intro j hj hpage
      rw [hpagine] at hpage
      exact hnot (Or.inl ⟨j, List.mem_append_right _ hj, hpage⟩)
    rw [hp.data hnew]
    exact h.rest p o (mt (htouched p o) hnot)
  constructor
  · intro k hk halone hused hsteady
    rcases Nat.lt_succ_iff_lt_or_eq.mp hk with hlt | rfl
    · obtain ⟨f, hf⟩ := Option.ne_none_iff_exists'.mp (hm.mapped k hlt)
      have hft : t.mapping (dest + BitVec.ofNat 32 k) = some f :=
        (hmapping _).trans (hp.keeps hf)
      have hne : ¬(f.baseAddr = e.baseAddr ∧
          offset (dest + BitVec.ofNat 32 k) = offset (dest + BitVec.ofNat 32 i)) := by
        rintro ⟨hbase, hoff⟩
        apply halone i hlt (Nat.lt_succ_self i) _ _ ⟨f, hft, hbase, hoff⟩
        exact hlast
      have hnew : ∀ j ∈ js, f.baseAddr ≠ u.pagine + j :=
        fun j hj => hm.page_ne hp hf hused hj
      have hload : u.load (dest + BitVec.ofNat 32 k) = some (feed.read s k) := by
        apply h.holds k hlt
        · intro l hkl hli p o hloc hloc'
          exact halone l hkl (Nat.lt_succ_of_lt hli) p o ((hplaces k hlt p o).mpr hloc)
            ((hplaces l hli p o).mpr hloc')
        · intro g hg j hj
          exact hused g hg j (List.mem_append_left _ hj)
        · cases feed with
          | copy source => exact mt (htouched _ _) hsteady
          | fill value => trivial
          | image bytes => trivial
      rw [load_eq hf] at hload
      rw [load_eq hft, hdata, if_neg hne, hp.data hnew, hload]
    · rw [load_eq ((hmapping _).trans he), hdata, if_pos ⟨rfl, rfl⟩]
      cases feed with
      | copy source => exact congrArg some (huntouched _ _ hsteady)
      | fill value => rfl
      | image bytes => rfl
  · intro p o hnot
    rw [hdata, if_neg, huntouched p o hnot]
    rintro ⟨rfl, rfl⟩
    exact hnot (Or.inr ⟨i, Nat.lt_succ_self i, hlast⟩)
  · intro j hj off hnot
    rw [hdata, if_neg]
    · rcases List.mem_append.mp hj with hold | hnew
      · rw [hp.data fun l hl => hm.index_ne hp hold hl]
        apply h.fresh j hold
        intro k hk hloc
        exact hnot k (Nat.lt_succ_of_lt hk) ((hplaces k hk _ _).mpr hloc)
      · rw [← hpagine]
        exact hp.fresh hnew off
    · rintro ⟨hbase, rfl⟩
      apply hnot i (Nat.lt_succ_self i)
      rw [hbase]
      exact hlast

/-! ### All bytes -/

theorem toNat_dest {k : Nat} (h : dest.toNat + k < 2 ^ 32) :
    (dest + BitVec.ofNat 32 k).toNat = dest.toNat + k := by
  rw [BitVec.toNat_add, BitVec.toNat_ofNat]
  omega

/-- What a byte needs when those before it have what they need. -/
theorem Mapped.requestsAt (h : Mapped s level dest i is u) (hbound : dest.toNat + i < 2 ^ 32) :
    requestsAt s dest i = requestsFor u (dest + BitVec.ofNat 32 i) := by
  have ha := toNat_dest hbound
  have hdirs : (i = 0 ∨ (dest + BitVec.ofNat 32 i).toNat % 2 ^ 22 = 0) ∧
      ¬(s.pagedir (pde (dest + BitVec.ofNat 32 i))).present ↔
        ¬(u.pagedir (pde (dest + BitVec.ofNat 32 i))).present := by
    rw [h.dirs, not_or, and_comm]
    apply and_congr_right
    intro _
    constructor
    · rintro hfirst ⟨k, hk, hpde⟩
      have hka : (dest + BitVec.ofNat 32 k).toNat = dest.toNat + k :=
        toNat_dest (by omega)
      unfold pde at hpde
      omega
    · intro hnone
      by_contra hnot
      rw [not_or] at hnot
      apply hnone
      refine ⟨i - 1, by omega, ?_⟩
      have hka : (dest + BitVec.ofNat 32 (i - 1)).toNat = dest.toNat + (i - 1) :=
        toNat_dest (by omega)
      unfold pde
      omega
  have hpages : (i = 0 ∨ (dest + BitVec.ofNat 32 i).toNat % 2 ^ 12 = 0) ∧
      s.mapping (dest + BitVec.ofNat 32 i) = none ↔
        u.mapping (dest + BitVec.ofNat 32 i) = none := by
    constructor
    · rintro ⟨hfirst, hnone⟩
      rw [h.others, hnone]
      intro k hk hvpn
      have hka : (dest + BitVec.ofNat 32 k).toNat = dest.toNat + k :=
        toNat_dest (by omega)
      unfold vpn at hvpn
      omega
    · intro hnone
      constructor
      · by_contra hnot
        rw [not_or] at hnot
        apply h.mapped (i - 1) (by omega)
        rw [← hnone]
        apply mapping_congr_vpn
        have hka : (dest + BitVec.ofNat 32 (i - 1)).toNat = dest.toNat + (i - 1) :=
          toNat_dest (by omega)
        unfold vpn
        omega
      · cases hold : s.mapping (dest + BitVec.ofNat 32 i) with
        | none => rfl
        | some e =>
          rw [h.kept _ e hold] at hnone
          cases hnone
  unfold PageTables.requestsAt requestsFor
  dsimp only
  congr 1
  · exact if_congr hdirs rfl rfl
  · exact if_congr hpages rfl rfl

theorem requests_succ (s : Space) (dest : Dword) (i n : Nat) :
    requests s dest i (n + 1) = requestsAt s dest i ++ requests s dest (i + 1) n := by
  rw [requests, List.range'_succ, List.flatMap_cons]
  rfl

/-- The bytes from `i` on: where a page table is refused, the directory leads to a page that is not
from the allocator; otherwise the bytes are written as far as there are pages. -/
theorem byteLoop_spec (hpagine : 0 < s.pagine) (hm : Mapped s level dest i is u)
    (hw : Written s feed dest i is u) (hbound : dest.toNat + i + n < 2 ^ 32) :
    (serve (requests s dest i n) u.mem = .refused →
      ∀ t, Ends (Space.byteLoop level feed dest n i u) t → ¬FromAllocator s t) ∧
    (serve (requests s dest i n) u.mem ≠ .refused →
      (∀ t, Ends (Space.byteLoop level feed dest n i u) t → FromAllocator s t) ∧
      ∀ t, Space.byteLoop level feed dest n i u = .ok t →
        ∃ is, Mapped s level dest (i + n) is t ∧ Written s feed dest (i + n) is t) := by
  induction n generalizing i is u with
  | zero =>
    constructor
    · exact fun hrefused => absurd hrefused Served.noConfusion
    · intro _
      constructor
      · rintro t (ht | ht)
        · obtain rfl := Except.ok.inj ht
          exact hm.took.tables
        · cases ht
      · intro t ht
        obtain rfl := Except.ok.inj ht
        exact ⟨is, hm, hw⟩
  | succ n ih =>
    rw [requests_succ, hm.requestsAt (by omega), Space.byteLoop]
    rcases prepare_cases hm.coherent level (dest + BitVec.ofNat 32 i) with
      ⟨w, js, hok, hprepared, hserve⟩ | ⟨w, herror, htook, hhalted⟩ | ⟨hrefused, hnot, hzero⟩
    · rw [hserve, hok]
      have hnext := hm.step hprepared
      have hstep := hw.step hm hprepared
      have hrest := ih (hnext.poke _ _ _) hstep (by omega)
      rw [Nat.add_right_comm, Nat.add_assoc i n 1] at hrest
      exact hrest
    · rw [hhalted, herror]
      constructor
      · exact fun hrefused => absurd hrefused Served.noConfusion
      · intro _
        constructor
        · rintro t (ht | ht)
          · cases ht
          · obtain rfl := Except.error.inj ht
            exact (hm.took.trans htook).tables
        · intro t ht
          cases ht
    · rw [hrefused]
      refine ⟨fun _ t ht hfrom => ?_, fun hserved => absurd rfl hserved⟩
      -- The entry that leads to page 0 stays.
      have hend : (t.pagedir (pde (dest + BitVec.ofNat 32 i))).present ∧
          (t.pagedir (pde (dest + BitVec.ofNat 32 i))).baseAddr = 0 := by
        cases hprepare : u.prepare level (dest + BitVec.ofNat 32 i) with
        | error w =>
          rw [hprepare] at ht
          rcases ht with ht | ht
          · cases ht
          · rw [← Except.error.inj ht]
            exact hzero w (Or.inr hprepare)
        | ok w =>
          rw [hprepare] at ht
          obtain ⟨hpresent, hbase⟩ := hzero w (Or.inl hprepare)
          have hkeeps := byteLoop_keeps (u := w.write (w.physicalAddress
            (dest + BitVec.ofNat 32 i)) (feed.read w i)) hpresent ht
          rw [hkeeps]
          exact ⟨hpresent, hbase⟩
      have hnew : pde (dest + BitVec.ofNat 32 i) ∈ newTables s t := by
        refine mem_newTables.mpr ⟨pde_lt _, fun hs => hnot ?_, hend.1⟩
        exact (hm.dirs _).mpr (Or.inl hs)
      obtain ⟨j, hj, -⟩ := hfrom _ hnew
      rw [hend.2] at hj
      omega

/-- In pages of its own, a process finds every byte of the range. -/
theorem Written.own (hm : Mapped s level dest n is t) (h : Written s feed dest n is t)
    (hbound : dest.toNat + n < 2 ^ 32) (hown : OwnPages s dest n) {k : Nat} (hk : k < n)
    (hsteady : feed.Steady (Touched s t dest n is) k) :
    t.load (dest + BitVec.ofNat 32 k) = some (feed.read s k) := by
  -- A new page is none of those that were there.
  have hnew : ∀ l < n, ∀ e, s.mapping (dest + BitVec.ofNat 32 l) = some e → ∀ j ∈ is,
      e.baseAddr ≠ s.pagine + j :=
    fun l hl e he j hj hbase => hown.used l hl e he j hbase (hm.took.taken j hj).1
  apply h.holds k hk
  · rintro l hkl hl page off ⟨e, he, rfl, rfl⟩ ⟨f, hf, hbase, hoff⟩
    have hvpn : vpn (dest + BitVec.ofNat 32 k) = vpn (dest + BitVec.ofNat 32 l) := by
      cases hek : s.mapping (dest + BitVec.ofNat 32 k) with
      | none =>
        cases hfl : s.mapping (dest + BitVec.ofNat 32 l) with
        | none => exact hm.once _ _ e f hek hfl he hf hbase.symm
        | some g =>
          obtain ⟨j, hj, rfl⟩ := hm.new _ e hek he
          have hg := hm.kept _ g hfl
          rw [hf] at hg
          obtain rfl := Option.some.inj hg
          exact absurd hbase (hnew l hl f hfl j hj)
      | some g =>
        have hg := hm.kept _ g hek
        rw [he] at hg
        obtain rfl := Option.some.inj hg
        cases hfl : s.mapping (dest + BitVec.ofNat 32 l) with
        | none =>
          obtain ⟨j, hj, rfl⟩ := hm.new _ f hfl hf
          exact absurd hbase.symm (hnew k hk e hek j hj)
        | some g =>
          have hg := hm.kept _ g hfl
          rw [hf] at hg
          obtain rfl := Option.some.inj hg
          exact hown.once k hk l hl e f hek hfl hbase.symm
    have hka : (dest + BitVec.ofNat 32 k).toNat = dest.toNat + k := toNat_dest (by omega)
    have hla : (dest + BitVec.ofNat 32 l).toNat = dest.toNat + l := toNat_dest (by omega)
    unfold vpn at hvpn
    unfold offset at hoff
    omega
  · exact hnew k hk
  · exact hsteady

theorem alloc_right_iff {size : Dword} (hc : Coherent s) (hpagine : 0 < s.pagine)
    (hbound : dest.toNat + size.toNat < 2 ^ 32) (level : Dword) (feed : Feed) :
    CopiesRight s level feed dest size (s.allocChunks level feed dest size)
      (s.allocBytes level feed dest size) ↔ Supplied s dest size := by
  obtain ⟨hrefused, hserved⟩ := byteLoop_spec (n := size.toNat) hpagine
    (Mapped.refl hc level dest) (Written.refl s feed dest) hbound
  rw [Nat.zero_add] at hserved
  constructor
  · intro hright hsupply
    cases hend : s.allocBytes level feed dest size with
    | error t => exact hrefused hsupply t (Or.inr hend) (hright.tables t (Or.inr hend))
    | ok t => exact hrefused hsupply t (Or.inl hend) (hright.tables t (Or.inl hend))
  · intro hsupply
    obtain ⟨htables, hcopied⟩ := hserved hsupply
    refine ⟨allocChunks_eq s level feed hbound, htables, fun t ht => ?_⟩
    obtain ⟨is, hmapped, hwritten⟩ := hcopied t ht
    exact ⟨is, hmapped, hwritten, fun hown k hk => hwritten.own hmapped hbound hown hk⟩

/-- For the copy and for the fill, the two versions are right exactly if no page table is
refused. -/
theorem memAlloc_right_iff {size : Dword} (hc : Coherent s) (hpagine : 0 < s.pagine)
    (hbound : dest.toNat + size.toNat < 2 ^ 32) (level : Dword) (source : Nat → Nat × Nat)
    (value : Byte) :
    (CopiesRight s level (.copy source) dest size (s.memAllocAndCopyNew source dest size level)
      (s.memAllocAndCopy source dest size level) ↔ Supplied s dest size) ∧
    (CopiesRight s level (.fill value) dest size (s.memAllocAndFillNew value dest size level)
      (s.memAllocAndFill value dest size level) ↔ Supplied s dest size) :=
  ⟨alloc_right_iff hc hpagine hbound level (.copy source),
    alloc_right_iff hc hpagine hbound level (.fill value)⟩

/-- Two bytes under two directory entries, with enough pages for their tables. -/
theorem memAlloc_right_iff_two :
    CopiesRight emptyProcess.toSpace userLevel (.fill 7) 0x83fffff 2
      (emptyProcess.memAllocAndFillNew 7 0x83fffff 2 userLevel)
      (emptyProcess.memAllocAndFill 7 0x83fffff 2 userLevel) := by
  have hsupplied : Supplied emptyProcess.toSpace 0x83fffff 2 := by
    unfold Supplied
    decide +kernel
  exact (memAlloc_right_iff coherent_empty (by decide) (by decide) userLevel (fun i => (0, i))
    7).2.mpr hsupplied

/-- Two pages are free, but not the one that `getpagetable` looks at. -/
def noTables : Space :=
  { emptyProcess.toSpace with
    mem := ⟨fun i => if i < 2 then .freepage else .datapage, 100, 100, 2, 99, []⟩ }

/-- Both directory entries lead to page 0, where the entry of the second byte is also that of an
address outside of the range. -/
theorem tables_shared :
    ¬CopiesRight noTables userLevel (.fill 7) 0x83fffff 2
      (noTables.memAllocAndFillNew 7 0x83fffff 2 userLevel)
      (noTables.memAllocAndFill 7 0x83fffff 2 userLevel) ∧
    noTables.load 0x8000000 = none ∧
    (noTables.memAllocAndFill 7 0x83fffff 2 userLevel).toOption.map
      (fun t => t.load 0x8000000) = some (some 7) := by
  refine ⟨fun hright => ?_, by decide +kernel, by decide +kernel⟩
  have hc : Coherent noTables :=
    ⟨fun _ h => absurd h Bool.false_ne_true, fun _ _ h => absurd h Bool.false_ne_true⟩
  have hsupplied := (alloc_right_iff hc (by decide) (by decide) userLevel (.fill 7)).mp hright
  have hrefused : serve (requests noTables 0x83fffff 0 2) noTables.mem = .refused := by
    decide +kernel
  exact hsupplied hrefused

end OsdevArchive.Osso.PageTables
