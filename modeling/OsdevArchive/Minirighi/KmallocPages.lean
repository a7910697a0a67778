import OsdevArchive.Minirighi.KmallocRuns
import OsdevArchive.Minirighi.Paging

/-!
The page release of `kfree`: `deallocate` (`kernel/kmalloc.c`) with `delete_page`
(`arch/i386/kernel/paging.c`) in the kernel half of the address space. What the kernel reads at
an address of an unmapped page is what `page_fault_handler` maps there, a cleared page. The heap
functions of the allocator see the memory through that; the release of pages refines the step of
theirs that clears an interval.
-/

namespace OsdevArchive.Minirighi.KmallocPages

open OsdevArchive.Lib.Tiling OsdevArchive.Minirighi.Kmalloc
open OsdevArchive.Minirighi.Paging (Entry PtIndex)

/-! ## The kernel half of the address space -/

/-- `PDE_INDEX`. -/
def pdeIndex (addr : Nat) : Nat := addr / (pageSize * 1024)

/-- `PTE_INDEX`. -/
def pteIndex (addr : Nat) : PtIndex :=
  ⟨addr / pageSize % 1024, Nat.mod_lt _ (Nat.succ_pos _)⟩

/-- `PAGE_DIR_ALIGN_UP`. -/
def pageDirAlignUp (addr : Nat) : Nat :=
  wrap ((addr &&& sub32 0 (pageSize * 1024)) + pageSize * 1024)

structure Space (F : Type*) where
  /-- The present entries of the page directory, by `PDE_INDEX`. -/
  dirs : Nat → Option (Entry F)
  /-- A frame as a page table. -/
  tables : F → PtIndex → Option (Entry F)
  cow : Cow F
  freeFrames : List F
  /-- How far `free_frames` is above the end of the kernel. -/
  popped : Nat
  /-- `curr_task->pdbr_update_counter`. -/
  pdbrUpdateCounter : Nat

variable {F : Type*}

namespace Space

/-- `pop_frame`. -/
def popFrame (s : Space F) : Option (F × Space F) :=
  match s.freeFrames with
  | [] => none
  | f :: rest => some (f, { s with freeFrames := rest, popped := s.popped + 1 })

/-- `push_frame`. -/
def pushFrame (s : Space F) (f : F) : Space F :=
  if s.popped = 0 then s else { s with freeFrames := f :: s.freeFrames, popped := s.popped - 1 }

section

variable {s : Space F} (f : F)

@[simp] theorem pushFrame_dirs : (s.pushFrame f).dirs = s.dirs := by
  unfold pushFrame
  split <;> rfl

@[simp] theorem pushFrame_tables : (s.pushFrame f).tables = s.tables := by
  unfold pushFrame
  split <;> rfl

@[simp] theorem pushFrame_cow : (s.pushFrame f).cow = s.cow := by
  unfold pushFrame
  split <;> rfl

end

def setPde (s : Space F) (i : Nat) (pde : Option (Entry F)) : Space F :=
  { s with dirs := Function.update s.dirs i pde }

variable [DecidableEq F]

def setTable (s : Space F) (t : F) (table : PtIndex → Option (Entry F)) : Space F :=
  { s with tables := Function.update s.tables t table }

/-- A page is unset as shared and, when it was not, its frame freed. A frame outside the
managed memory is not put on the stack. -/
def releasePage (s : Space F) (managed : F → Bool) (f : F) : Space F :=
  match s.cow.unsetSharedPage f with
  | (cow, 0) => if managed f then { s with cow }.pushFrame f else { s with cow }
  | (cow, _ + 1) => { s with cow }

/-- The end of `delete_page`: a page table `t` that maps no page any more is freed. -/
def deleteTable (s : Space F) (addr : Nat) (t : F) : Space F :=
  if (List.finRange 1024).all fun k => (s.tables t k).isNone then
    let s := (s.pushFrame t).setPde (pdeIndex addr) none
    if kVirStart ≤ addr then { s with pdbrUpdateCounter := s.pdbrUpdateCounter + 1 } else s
  else s

/-- The part of `delete_page` behind the check of the page table `t`. -/
def deletePte (s : Space F) (managed : F → Bool) (addr : Nat) (t : F) : Space F :=
  match s.tables t (pteIndex addr) with
  | none => s
  | some pte =>
    let s := s.releasePage managed pte.frame
    (s.setTable t (Function.update (s.tables t) (pteIndex addr) none)).deleteTable addr t

/-- The first write to a shared page table `t`: the copy of it in `new`. The second component
tells whether there was memory for the counters of all its pages. -/
def copyTable (s : Space F) (mem : PtIndex → Bool) (addr : Nat) (t new : F) : Space F × Bool :=
  let table := s.tables t
  let s := s.setPde (pdeIndex addr) (some ⟨new, true⟩)
  match Paging.St.shareEntries mem table (List.finRange 1024) s.cow with
  | (cow, false) => ({ s with cow }, false)
  | (cow, true) => ({ s with cow }.setTable new (Paging.St.readOnly table), true)

/-- `delete_page`. -/
def deletePage (s : Space F) (managed : F → Bool) (mem : PtIndex → Bool) (addr : Nat) :
    Space F :=
  let addr := pageAlign addr
  match s.dirs (pdeIndex addr) with
  | none => s
  | some pde =>
    match s.cow.unsetSharedPage pde.frame with
    | (cow, 0) =>
      let s := { s with cow }.setPde (pdeIndex addr) (some { pde with write := true })
      s.deletePte managed addr pde.frame
    | (cow, _ + 1) =>
      -- The page table is shared.
      match { s with cow }.popFrame with
      | none => { s with cow }
      | some (new, s) =>
        match s.copyTable mem addr pde.frame new with
        | (s, true) => s.deletePte managed addr new
        | (s, false) => s

/-- The loop of `deallocate` from `start` to `stop`, with the pages that it hands to
`delete_page`. -/
def releasePages (managed : F → Bool) (mem : Nat → PtIndex → Bool) (stop : Nat) :
    Nat → Nat → Space F → Option (List Nat × Space F)
  | 0, _, _ => none
  | fuel + 1, start, s =>
    if start < stop then
      if (s.dirs (pdeIndex start)).isSome then
        (releasePages managed mem stop fuel (wrap (start + pageSize))
          (s.deletePage managed (mem start) start)).map fun r => (start :: r.1, r.2)
      else releasePages managed mem stop fuel (pageDirAlignUp start) s
    else some ([], s)

/-- The frame that the page of an address is mapped to. -/
def frameOf (s : Space F) (addr : Nat) : Option F :=
  (s.dirs (pdeIndex addr)).bind fun pde => (s.tables pde.frame (pteIndex addr)).map Entry.frame

end Space

/-! ## The allocator over pages -/

variable [DecidableEq F]

/-- More pages than there are addresses for. -/
def pageFuel : Nat := 2 ^ 32 / pageSize + 1

/-- `deallocate`: the pages that it hands back, the headers that are read from then on and the
address space. -/
def deallocate (managed : F → Bool) (mem : Nat → PtIndex → Bool) (h : Heap) (s : Space F)
    (ptr : Nat) : Option (List Nat × Heap × Space F) :=
  let start := pageAlignUp (wrap (ptr + sizeofMemBlock))
  let stop := pageAlign (wrap (ptr + sizeofMemBlock + (h ptr).size))
  (s.releasePages managed mem stop pageFuel start).map fun r =>
    (r.1, fun a => if (r.2.frameOf a).isSome then h a else clearBlock, r.2)

/-- `kfree`. -/
def kfree (mMagic : Nat) (managed : F → Bool) (mem : Nat → PtIndex → Bool) (ptr : Nat)
    (h : Heap) (s : Space F) : Option (List Nat × Heap × Space F) :=
  if ptr = null then some ([], h, s)
  else
    let p := sub32 ptr sizeofMemBlock
    if (h p).magic ≠ mMagic ∨ (h p).flags ≠ mAlloc then some ([], h, s)
    else
      let h := Function.update h p { h p with flags := mFree, owner := null }
      (mergePrev (mergeNext h p) p).bind fun r => deallocate managed mem r.2 s r.1

/-! ## What is mapped -/

/-- The page tables of the kernel half: none is shared, and each serves one directory entry.
`do_fork` shares the page tables of the user half only. -/
structure Space.Private (s : Space F) : Prop where
  unshared : ∀ i pde, s.dirs i = some pde → s.cow.count pde.frame = 0
  apart : ∀ i j pde pde', s.dirs i = some pde → s.dirs j = some pde' → pde.frame = pde'.frame →
    i = j

variable {s : Space F} {managed : F → Bool} {a addr : Nat} {t : F}

/-- Releasing a frame maps and unmaps nothing, and no counter of a shared page grows. -/
theorem releasePage_spec (managed : F → Bool) (f : F) :
    (s.releasePage managed f).dirs = s.dirs ∧ (s.releasePage managed f).tables = s.tables ∧
      ∀ g, (s.releasePage managed f).cow.count g ≤ s.cow.count g := by
  have hcount : ∀ g, (s.cow.unsetSharedPage f).1.count g ≤ s.cow.count g := by
    intro g
    rw [Cow.unsetSharedPage_count]
    split
    · next hg => exact hg ▸ Nat.sub_le _ _
    · exact Nat.le_refl _
  unfold Space.releasePage
  generalize s.cow.unsetSharedPage f = r at hcount ⊢
  obtain ⟨cow, n | n⟩ := r
  · cases hm : managed f <;> simpa [hm] using hcount
  · exact ⟨rfl, rfl, hcount⟩

omit [DecidableEq F] in
/-- A state with the same frames in its directory, and counters that are no larger, is private
as well. -/
theorem Space.Private.of_le (hs : s.Private) {s' : Space F}
    (hdirs : ∀ i pde', s'.dirs i = some pde' → ∃ pde, s.dirs i = some pde ∧
      pde.frame = pde'.frame)
    (hcow : ∀ g, s'.cow.count g ≤ s.cow.count g) : s'.Private where
  unshared i pde' hi := by
    obtain ⟨pde, hpde, hframe⟩ := hdirs i pde' hi
    have hzero := hs.unshared i pde hpde
    rw [hframe] at hzero
    exact Nat.le_zero.mp (hzero ▸ hcow pde'.frame)
  apart i j pde' pde'' hi hj heq := by
    obtain ⟨pi, hpi, hfi⟩ := hdirs i pde' hi
    obtain ⟨pj, hpj, hfj⟩ := hdirs j pde'' hj
    exact hs.apart i j pi pj hpi hpj (by rw [hfi, hfj, heq])

/-- The page of `a` is the page of `addr`. -/
theorem page_eq_iff : a / pageSize = addr / pageSize ↔
    pdeIndex a = pdeIndex addr ∧ pteIndex a = pteIndex addr := by
  simp only [pdeIndex, pteIndex, Fin.mk.injEq, ← Nat.div_div_eq_div_mul]
  generalize a / pageSize = x
  generalize addr / pageSize = y
  omega

omit [DecidableEq F] in
/-- A page table that maps nothing may go. -/
theorem deleteTable_spec (hs : s.Private) {pde : Entry F}
    (hpde : s.dirs (pdeIndex addr) = some pde) :
    (s.deleteTable addr pde.frame).Private ∧
      (s.deleteTable addr pde.frame).frameOf = s.frameOf := by
  unfold Space.deleteTable
  split
  · next hall =>
    obtain ⟨s', hs'⟩ : ∃ w, w = (s.pushFrame pde.frame).setPde (pdeIndex addr) none := ⟨_, rfl⟩
    have hdirs : s'.dirs = Function.update s.dirs (pdeIndex addr) none := by
      simp [hs', Space.setPde]
    have htables : s'.tables = s.tables := by simp [hs', Space.setPde]
    have hcow : s'.cow = s.cow := by simp [hs', Space.setPde]
    have hprivate : s'.Private := by
      apply hs.of_le
      · intro i pde' hi
        rw [hdirs, Function.update_apply] at hi
        split at hi
        · cases hi
        · exact ⟨pde', hi, rfl⟩
      · intro g
        rw [hcow]
    have hframe : s'.frameOf = s.frameOf := by
      funext b
      unfold Space.frameOf
      rw [hdirs, htables, Function.update_apply]
      split
      · next hb =>
        have hnone : s.tables pde.frame (pteIndex b) = none := by
          simpa using List.all_eq_true.mp hall (pteIndex b) (List.mem_finRange _)
        rw [hb, hpde]
        simp [hnone]
      · rfl
    rw [← hs']
    dsimp only
    split
    · exact ⟨⟨hprivate.unshared, hprivate.apart⟩, hframe⟩
    · exact ⟨hprivate, hframe⟩
  · exact ⟨hs, rfl⟩

theorem deletePte_spec (hs : s.Private) {pde : Entry F}
    (hpde : s.dirs (pdeIndex addr) = some pde) :
    (s.deletePte managed addr pde.frame).Private ∧
      ∀ b, (s.deletePte managed addr pde.frame).frameOf b =
        if b / pageSize = addr / pageSize then none else s.frameOf b := by
  unfold Space.deletePte
  cases hpte : s.tables pde.frame (pteIndex addr) with
  | none =>
    refine ⟨hs, fun b => ?_⟩
    by_cases hb : b / pageSize = addr / pageSize
    · obtain ⟨hi, hj⟩ := page_eq_iff.mp hb
      rw [if_pos hb]
      simp [Space.frameOf, hi, hj, hpde, hpte]
    · rw [if_neg hb]
  | some pte =>
    obtain ⟨hdirs, htables, hcow⟩ := releasePage_spec (s := s) managed pte.frame
    obtain ⟨s₁, hs₁⟩ : ∃ w, w = s.releasePage managed pte.frame := ⟨_, rfl⟩
    obtain ⟨s₂, hs₂⟩ : ∃ w, w = s₁.setTable pde.frame
      (Function.update (s₁.tables pde.frame) (pteIndex addr) none) := ⟨_, rfl⟩
    dsimp only
    rw [← hs₁, ← hs₂]
    rw [← hs₁] at hdirs htables hcow
    have hdirs₂ : s₂.dirs = s.dirs := by rw [hs₂, ← hdirs, Space.setTable]
    have hprivate : s₂.Private := by
      apply hs.of_le
      · intro i pde' hi
        exact ⟨pde', hdirs₂ ▸ hi, rfl⟩
      · intro g
        rw [hs₂]
        exact hcow g
    have hframe : ∀ b, s₂.frameOf b =
        if b / pageSize = addr / pageSize then none else s.frameOf b := by
      intro b
      have htables₂ : s₂.tables = Function.update s.tables pde.frame
          (Function.update (s.tables pde.frame) (pteIndex addr) none) := by
        rw [hs₂, ← htables, Space.setTable]
      unfold Space.frameOf
      rw [hdirs₂, htables₂]
      cases hb : s.dirs (pdeIndex b) with
      | none => simp
      | some pde' =>
        simp only [Option.bind_some, page_eq_iff]
        by_cases hsame : pde'.frame = pde.frame
        · -- Only the directory entry of `addr` leads to this page table.
          have hi := hs.apart _ _ _ _ hb hpde hsame
          rw [hsame, Function.update_self, Function.update_apply]
          by_cases hj : pteIndex b = pteIndex addr <;> simp [hi, hj]
        · have hi : pdeIndex b ≠ pdeIndex addr := by
            intro hi
            rw [hi, hpde] at hb
            exact hsame (congrArg Entry.frame (Option.some.inj hb).symm)
          rw [Function.update_of_ne hsame]
          simp [hi]
    obtain ⟨hlast, hsame⟩ := deleteTable_spec hprivate (hdirs₂ ▸ hpde)
    exact ⟨hlast, fun b => by rw [hsame, hframe]⟩

/-- `delete_page` unmaps the page and no other. -/
theorem deletePage_spec (hs : s.Private) {mem : PtIndex → Bool} (halign : pageAlign addr = addr) :
    (s.deletePage managed mem addr).Private ∧
      ∀ b, (s.deletePage managed mem addr).frameOf b =
        if b / pageSize = addr / pageSize then none else s.frameOf b := by
  unfold Space.deletePage
  dsimp only
  rw [halign]
  cases hpde : s.dirs (pdeIndex addr) with
  | none =>
    refine ⟨hs, fun b => ?_⟩
    by_cases hb : b / pageSize = addr / pageSize
    · rw [if_pos hb]
      simp [Space.frameOf, (page_eq_iff.mp hb).1, hpde]
    · rw [if_neg hb]
  | some pde =>
    have hzero : (s.cow.unsetSharedPage pde.frame).2 = 0 := by
      rw [Cow.unsetSharedPage_snd]
      exact hs.unshared _ _ hpde
    have hcow : ∀ g, (s.cow.unsetSharedPage pde.frame).1.count g =
        if g = pde.frame then s.cow.count pde.frame - 1 else s.cow.count g :=
      Cow.unsetSharedPage_count
    dsimp only
    generalize s.cow.unsetSharedPage pde.frame = r at hzero hcow ⊢
    obtain ⟨cow, n⟩ := r
    obtain rfl : n = 0 := hzero
    obtain ⟨s', hs'⟩ : ∃ w, w = Space.setPde { s with cow } (pdeIndex addr)
      (some { pde with write := true }) := ⟨_, rfl⟩
    dsimp only
    rw [← hs']
    have hdirs : s'.dirs = Function.update s.dirs (pdeIndex addr)
        (some { pde with write := true }) := by
      rw [hs']
      rfl
    have hprivate : s'.Private := by
      apply hs.of_le
      · intro i pde' hi
        rw [hdirs, Function.update_apply] at hi
        split at hi
        · next hi' =>
          obtain rfl := Option.some.inj hi
          exact ⟨pde, hi' ▸ hpde, rfl⟩
        · exact ⟨pde', hi, rfl⟩
      · intro g
        rw [hs']
        change cow.count g ≤ _
        rw [hcow]
        split
        · next hg => exact hg ▸ Nat.sub_le _ _
        · exact Nat.le_refl _
    have hframe : s'.frameOf = s.frameOf := by
      funext b
      have htables : s'.tables = s.tables := by
        rw [hs']
        rfl
      unfold Space.frameOf
      rw [hdirs, htables, Function.update_apply]
      split
      · next hb => rw [hb, hpde, Option.bind_some, Option.bind_some]
      · rfl
    have hpde' : s'.dirs (pdeIndex addr) = some { pde with write := true } := by
      rw [hdirs, Function.update_self]
    rw [← hframe]
    exact @deletePte_spec _ _ s' managed addr hprivate { pde with write := true } hpde'

/-! ## The loop over the pages -/

theorem pageAlign_of_dvd (hn : a < 2 ^ 32) (hdvd : pageSize ∣ a) : pageAlign a = a := by
  rw [pageAlign_eq hn, Nat.mod_eq_zero_of_dvd hdvd, Nat.sub_zero]

theorem dvd_pageAlign (hn : a < 2 ^ 32) : pageSize ∣ pageAlign a := by
  rw [pageAlign_eq hn]
  exact Nat.dvd_sub_mod a

theorem dvd_pageAlignUp (a : Nat) : pageSize ∣ pageAlignUp a := dvd_pageAlign (wrap_lt _)

/-- The first address of the next page table. -/
theorem pageDirAlignUp_eq (hn : a + pageSize * 1024 < 2 ^ 32) :
    pageDirAlignUp a = (pdeIndex a + 1) * (pageSize * 1024) := by
  have hsize : pageSize * 1024 = 4194304 := rfl
  rw [hsize] at hn
  have hsplit := and_add_and_not32 (z := a) (m := 4194303) (by omega) (by decide)
  have hlow : a &&& 4194303 = a % 4194304 := Nat.and_two_pow_sub_one_eq_mod a 22
  have hmask : sub32 0 4194304 = not32 4194303 := by decide
  rw [pageDirAlignUp, pdeIndex, hsize, hmask, wrap_of_lt (by omega)]
  omega

theorem add_pageSize_le {b : Nat} (ha : pageSize ∣ a) (hb : pageSize ∣ b) (hlt : a < b) :
    a + pageSize ≤ b := by
  unfold pageSize at *
  omega

theorem same_page_iff {b : Nat} (ha : pageSize ∣ a) :
    b / pageSize = a / pageSize ↔ a ≤ b ∧ b < a + pageSize := by
  unfold pageSize at *
  omega

/-- The addresses from a page on to the next page table have one directory entry. -/
theorem next_table (ha : pageSize ∣ a) : a + pageSize ≤ (pdeIndex a + 1) * (pageSize * 1024) ∧
    pageSize ∣ (pdeIndex a + 1) * (pageSize * 1024) ∧
    ∀ b, a ≤ b → b < (pdeIndex a + 1) * (pageSize * 1024) → pdeIndex b = pdeIndex a := by
  unfold pdeIndex pageSize at *
  refine ⟨by omega, by omega, fun b hlow hhigh => by omega⟩

/-- The loop ends. It hands back whole pages between `start` and `stop` only, and unmaps all
that is mapped there. -/
theorem releasePages_spec {mem : Nat → PtIndex → Bool} {start stop fuel : Nat} (hs : s.Private)
    (hstart : pageSize ∣ start) (hstop : stop ≤ kHeapEnd) (hdvd : pageSize ∣ stop)
    (hfuel : stop - start < fuel * pageSize) :
    ∃ pages s', s.releasePages managed mem stop fuel start = some (pages, s') ∧ s'.Private ∧
      (∀ page ∈ pages, pageSize ∣ page ∧ start ≤ page ∧ page + pageSize ≤ stop) ∧
      ∀ b, s'.frameOf b = if start ≤ b ∧ b < stop then none else s.frameOf b := by
  induction fuel generalizing start s with
  | zero =>
    rw [Nat.zero_mul] at hfuel
    exact absurd hfuel (Nat.not_lt_zero _)
  | succ fuel ih =>
    obtain ⟨room, hroom⟩ : ∃ w, w = fuel * pageSize := ⟨_, rfl⟩
    rw [Nat.succ_mul, ← hroom] at hfuel
    rw [← hroom] at ih
    have hsize : pageSize = 4096 := rfl
    rw [Space.releasePages]
    by_cases hlt : start < stop
    · have hnext := add_pageSize_le hstart hdvd hlt
      have hend : stop ≤ 3758096384 := hstop
      rw [if_pos hlt]
      cases hpde : s.dirs (pdeIndex start) with
      | some pde =>
        obtain ⟨hprivate, hframe⟩ := deletePage_spec hs
          (pageAlign_of_dvd (by omega) hstart)
        rw [Option.isSome_some, if_pos rfl, wrap_of_lt (by omega)]
        obtain ⟨pages, s', hloop, hs', hpages, hmapped⟩ := ih hprivate
          (Nat.dvd_add hstart (Nat.dvd_refl _)) (by omega)
        rw [hloop]
        refine ⟨start :: pages, s', rfl, hs', ?_, ?_⟩
        · intro page hpage
          rcases List.mem_cons.mp hpage with rfl | hpage
          · exact ⟨hstart, Nat.le_refl _, hnext⟩
          · obtain ⟨hpage, hlow, hhigh⟩ := hpages page hpage
            exact ⟨hpage, by omega, hhigh⟩
        · intro b
          simp only [hmapped, hframe, same_page_iff hstart]
          split_ifs <;> first | rfl | omega
      | none =>
        obtain ⟨hfar, htable, hsame⟩ := next_table hstart
        rw [Option.isSome_none, if_neg Bool.false_ne_true,
          pageDirAlignUp_eq (by rw [hsize]; omega)]
        generalize (pdeIndex start + 1) * (pageSize * 1024) = next at hfar htable hsame ⊢
        obtain ⟨pages, s', hloop, hs', hpages, hmapped⟩ := ih hs htable (by omega)
        refine ⟨pages, s', hloop, hs', ?_, ?_⟩
        · intro page hpage
          obtain ⟨hpage, hlow, hhigh⟩ := hpages page hpage
          exact ⟨hpage, by omega, hhigh⟩
        · -- Where the directory entry is missing nothing is mapped.
          have hnone : ∀ b, start ≤ b → b < next → s.frameOf b = none := by
            intro b hlow hhigh
            rw [Space.frameOf, hsame b hlow hhigh, hpde, Option.bind_none]
          intro b
          rw [hmapped]
          split_ifs <;> first | rfl | omega | exact hnone b (by omega) (by omega)
    · rw [if_neg hlt]
      refine ⟨[], s, rfl, hs, by simp, fun b => ?_⟩
      rw [if_neg (by omega)]

/-! ## The merges -/

/-- An address whose page is not mapped reads as cleared. -/
def Reads (h : Heap) (s : Space F) : Prop := ∀ a, s.frameOf a = none → h a = clearBlock

variable {mMagic : Nat} {h : Heap} {b c : Block} {pre post : List Block}

theorem describes_ne_clearBlock {x : Nat} (hd : Describes mMagic h x b)
    (hmagic : mMagic ≠ null) : h x ≠ clearBlock := by
  intro hclear
  have hzero := hd.magic
  rw [hclear] at hzero
  exact hmagic hzero.symm

/-- The merges write into headers only, so what is cleared stays cleared. -/
theorem mergeNext_clear (hmagic : mMagic ≠ null) (hl : Layout mMagic h (pre ++ b :: post))
    (ha : h a = clearBlock) : mergeNext h (headerOf pre) a = clearBlock := by
  have hp : a ≠ headerOf pre := by
    rintro rfl
    exact describes_ne_clearBlock hl.describes hmagic ha
  unfold mergeNext
  dsimp only
  rw [hl.nextBlock]
  split
  · next hfree =>
    have hp2 : a ≠ headerOf pre + b.len := by
      rintro rfl
      cases post with
      | nil =>
        have hcovers := hl.bound
        have hlt := hfree.1
        rw [extent_nil] at hcovers
        rw [b.len_eq] at hlt
        unfold kHeapEnd at hlt
        omega
      | cons c post =>
        have hd := hl.describes_next
        rw [headerOf_concat] at hd
        exact describes_ne_clearBlock hd hmagic ha
    rw [Function.update_of_ne hp2, Function.update_of_ne hp, ha]
  · exact ha

theorem mergePrev_clear (hmagic : mMagic ≠ null) (hl : Layout mMagic h (pre ++ b :: post))
    {p : Nat} {h' : Heap} (hmerge : mergePrev h (headerOf pre) = some (p, h'))
    (ha : h a = clearBlock) : h' a = clearBlock := by
  have hp : a ≠ headerOf pre := by
    rintro rfl
    exact describes_ne_clearBlock hl.describes hmagic ha
  rcases List.eq_nil_or_concat pre with rfl | ⟨pre, d, rfl⟩
  · obtain ⟨-, rfl⟩ : headerOf [] = p ∧ h = h' := by
      simpa [mergePrev, headerOf_nil] using hmerge
    exact ha
  · rw [List.concat_eq_append] at hl hmerge hp
    have hl' : Layout mMagic h (pre ++ d :: b :: post) := by simpa using hl
    have hlen := d.len_pos
    have hstart : headerOf pre + d.len ≠ kHeapStart := by
      have hle : kHeapStart ≤ headerOf pre := Nat.le_add_right _ _
      omega
    have hd : a ≠ headerOf pre := by
      rintro rfl
      exact describes_ne_clearBlock hl'.describes hmagic ha
    rw [headerOf_concat] at hmerge hp
    unfold mergePrev at hmerge
    rw [if_neg hstart, hl'.findPrev] at hmerge
    dsimp only at hmerge
    split at hmerge
    · obtain ⟨-, rfl⟩ := Prod.mk.inj (Option.some.inj hmerge)
      rw [Function.update_of_ne hp, Function.update_of_ne hd, ha]
    · obtain ⟨-, rfl⟩ := Prod.mk.inj (Option.some.inj hmerge)
      exact ha

/-! ## `kfree` -/

/-- `deallocate` ends, hands back pages inside the payload of the block only, unmaps nothing
outside of it, and clears what the allocator takes it to clear. -/
theorem deallocate_spec {mem : Nat → PtIndex → Bool}
    (hl : Layout mMagic h (pre ++ c :: post)) (hs : s.Private) (hr : Reads h s) :
    ∃ pages s', deallocate managed mem h s (headerOf pre) =
        some (pages, Kmalloc.deallocate h (headerOf pre), s') ∧
      s'.Private ∧ Reads (Kmalloc.deallocate h (headerOf pre)) s' ∧
      (∀ page ∈ pages, pageSize ∣ page ∧ headerOf pre + 16 ≤ page ∧
        page + pageSize ≤ headerOf pre + 16 + c.size) ∧
      ∀ x, x < headerOf pre + 16 ∨ headerOf pre + 16 + c.size ≤ x →
        s'.frameOf x = s.frameOf x := by
  have hd := hl.describes
  have hbound := hl.bound
  have hpayload : wrap (headerOf pre + sizeofMemBlock) = headerOf pre + 16 :=
    wrap_of_lt (by unfold sizeofMemBlock; omega)
  have hend : wrap (headerOf pre + sizeofMemBlock + (h (headerOf pre)).size) =
      headerOf pre + 16 + c.size := by
    rw [hd.size, sizeofMemBlock]
    exact wrap_of_lt (by omega)
  have hstart : headerOf pre + 16 ≤ pageAlignUp (headerOf pre + 16) :=
    le_pageAlignUp (by unfold pageSize; omega)
  have hstop : pageAlign (headerOf pre + 16 + c.size) ≤ headerOf pre + 16 + c.size := by
    rw [pageAlign_eq (by omega)]
    exact Nat.sub_le _ _
  have hdvd := dvd_pageAlign (a := headerOf pre + 16 + c.size) (by omega)
  have hdvdUp := dvd_pageAlignUp (headerOf pre + 16)
  unfold deallocate Kmalloc.deallocate
  rw [hpayload, hend]
  generalize pageAlignUp (headerOf pre + 16) = start at hstart hdvdUp ⊢
  generalize pageAlign (headerOf pre + 16 + c.size) = stop at hstop hdvd ⊢
  have hstop' : stop ≤ kHeapEnd := by
    unfold kHeapEnd
    omega
  have hfuel : stop - start < pageFuel * pageSize := by
    unfold pageFuel pageSize
    omega
  obtain ⟨pages, s', hloop, hs', hpages, hmapped⟩ :=
    releasePages_spec hs hdvdUp hstop' hdvd hfuel
  have hheap : (fun x => if (s'.frameOf x).isSome then h x else clearBlock) =
      fun x => if start ≤ x ∧ x < stop then clearBlock else h x := by
    funext x
    rw [hmapped]
    by_cases hx : start ≤ x ∧ x < stop
    · simp [hx]
    · rw [if_neg hx, if_neg hx]
      cases hframe : s.frameOf x with
      | none => simp [hr x hframe]
      | some f => simp
  refine ⟨pages, s', ?_, hs', ?_, ?_, ?_⟩
  · dsimp only
    rw [hloop, Option.map_some, hheap]
  · rw [← hheap]
    intro x hx
    simp [hx]
  · intro page hpage
    obtain ⟨hp, hlow, hhigh⟩ := hpages page hpage
    exact ⟨hp, by omega, by omega⟩
  · intro x hx
    rw [hmapped, if_neg (by omega)]

/-- What `kfree` leaves behind in a heap whose blocks are now `pre`, the free block `c` and
`post`: it was called with the address space `s`. -/
structure Released (mMagic : Nat) (s : Space F) (pre : List Block) (c : Block)
    (post : List Block) (pages : List Nat) (h' : Heap) (s' : Space F) : Prop where
  /-- The pages that were handed back lie in the payload of the free block. -/
  inside : ∀ page ∈ pages, pageSize ∣ page ∧ headerOf pre + sizeofMemBlock ≤ page ∧
    page + pageSize ≤ headerOf pre + c.len
  /-- A header and the bytes of an allocated block are mapped as before. -/
  kept : ∀ x d a, (x, d) ∈ places Block.len kHeapStart (pre ++ c :: post) → x ≤ a →
    a < x + sizeofMemBlock ∨ d.alloc = true ∧ a < x + d.len → s'.frameOf a = s.frameOf a
  /-- The headers can be read. -/
  headers : Layout mMagic h' (pre ++ c :: post)
  /-- A `kmalloc` for which the block is the first that fits finds its header and takes it. -/
  reused : ∀ pid size mflag, size < 2 ^ 32 → size ≠ 0 → Fits (roundSize size) c →
    (∀ d ∈ pre, ¬Fits (roundSize size) d) →
      Describes mMagic h' (headerOf pre) c ∧
      ∃ h'', kmalloc mMagic pid size mflag h' = some (headerOf pre + sizeofMemBlock, h'') ∧
        Layout mMagic h'' (pre ++ takeHole c (roundSize size) ++ post)

/-- Outside of the payload of the free block only its own neighbours lie. -/
theorem outside_of_place {x : Nat} {d : Block} (hfree : c.alloc = false)
    (hmem : (x, d) ∈ places Block.len kHeapStart (pre ++ c :: post)) (hlow : x ≤ a)
    (hhigh : a < x + sizeofMemBlock ∨ d.alloc = true ∧ a < x + d.len) :
    a < headerOf pre + 16 ∨ headerOf pre + 16 + c.size ≤ a := by
  have hlen := d.len_eq
  have hclen := c.len_eq
  have h16 : sizeofMemBlock = 16 := rfl
  rw [places_append, places_cons, List.mem_append, List.mem_cons] at hmem
  unfold headerOf
  rcases hmem with hpre | heq | hpost
  · have hbounds := place_bounds hpre
    omega
  · obtain ⟨rfl, rfl⟩ := Prod.mk.inj heq
    rcases hhigh with hheader | ⟨halloc, -⟩
    · exact Or.inl (by omega)
    · exact absurd halloc (by simp [hfree])
  · have hbounds := place_bounds hpost
    omega

/-- `kfree` of an allocated block returns. It makes one free block out of the freed one and its
free neighbours, and the pages it hands back lie in the payload of that block. -/
theorem kfree_releases_payload {mem : Nat → PtIndex → Bool} (hmagic : mMagic ≠ null)
    (hl : Layout mMagic h (pre ++ b :: post)) (halloc : b.alloc = true) (hs : s.Private)
    (hr : Reads h s) :
    ∃ pages h' s' pre' c post',
      kfree mMagic managed mem (headerOf pre + sizeofMemBlock) h s = some (pages, h', s') ∧
      pre' ++ c :: post' = freeAt pre b post ∧ c.alloc = false ∧
      headerOf pre' ≤ headerOf pre ∧ headerOf pre + b.len ≤ headerOf pre' + c.len ∧
      Released mMagic s pre' c post' pages h' s' ∧ s'.Private ∧ Reads h' s' := by
  obtain ⟨hnull, hheader, hcheck⟩ := hl.kfree_eq halloc
  have hfreed := hl.freeHeader
  obtain ⟨pre', c, post', h', hmerge, hcfree, hlow, hhigh, hlast, heq⟩ := hfreed.merge rfl
  have hreads : Reads h' s := by
    intro a ha
    have hclear := hr a ha
    have hp : a ≠ headerOf pre := by
      rintro rfl
      exact describes_ne_clearBlock hl.describes hmagic hclear
    have hfirst : freeHeader h (headerOf pre) a = clearBlock := by
      rw [freeHeader, Function.update_of_ne hp, hclear]
    obtain ⟨d, post'', hjoin, -, -⟩ := joinNext_eq_cons (b := ⟨b.size, false⟩) rfl post
    have hnext := hfreed.mergeNext rfl
    rw [hjoin] at hnext
    exact mergePrev_clear hmagic hnext hmerge (mergeNext_clear hmagic hfreed hfirst)
  obtain ⟨pages, s', hret, hs', hr', hpages, hmapped⟩ :=
    deallocate_spec hlast hs hreads
  have hheaders := hlast.deallocate
  refine ⟨pages, _, s', pre', c, post', ?_, heq, hcfree, hlow, hhigh, ?_, hs', hr'⟩
  · change kfree mMagic managed mem (headerOf pre + 16) h s = _
    simp only [kfree, if_neg hnull, hheader, if_neg hcheck]
    rw [← freeHeader, hmerge, Option.bind_some, hret]
  · constructor
    · intro page hpage
      rw [c.len_eq, ← Nat.add_assoc]
      exact hpages page hpage
    · intro x d a hmem hx ha
      exact hmapped a (outside_of_place hcfree hmem hx ha)
    · exact hheaders
    · intro pid size mflag hsize hzero hfit hfirst
      exact ⟨hheaders.describes, kmalloc_first hheaders hsize hzero hfit hfirst pid mflag⟩

/-- The heap of `kmalloc_init` after one allocation of 8192 bytes. -/
def oneBlock : Heap :=
  takeWrites 1 null 8192 (kmallocInit 1 fun _ => clearBlock) kHeapStart

/-- Every page is mapped. -/
def allMapped : Space Nat where
  dirs i := some ⟨i, true⟩
  tables t j := some ⟨t * 1024 + j, true⟩
  cow _ := none
  freeFrames := []
  popped := 0
  pdbrUpdateCounter := 0

/-- The only block is freed: the heap is one block again, and keeps its first page. -/
theorem only_block_freed : ∃ pages h' s' pre' c post',
    kfree 1 (fun _ => true) (fun _ _ => true) (headerOf [] + sizeofMemBlock) oneBlock allMapped =
      some (pages, h', s') ∧
    pre' ++ c :: post' = [⟨kHeapEnd - kHeapStart - sizeofMemBlock, false⟩] ∧
    Released 1 allMapped pre' c post' pages h' s' := by
  have hinit : Layout 1 (kmallocInit 1 fun _ => clearBlock)
      ([] ++ ⟨kHeapEnd - kHeapStart - sizeofMemBlock, false⟩ :: []) :=
    (Inv.init 1 (fun _ _ => True) fun _ => clearBlock).layout
  have hlayout : Layout 1 oneBlock
      ([] ++ ⟨8192, true⟩ :: [⟨kHeapEnd - kHeapStart - sizeofMemBlock - 8192 - 16, false⟩]) :=
    hinit.take (n := 8192) ⟨rfl, by decide⟩ (by decide) null
  have hprivate : allMapped.Private := by
    constructor
    · intro i pde hi
      rfl
    · intro i j pde pde' hi hj heq
      obtain rfl := Option.some.inj hi
      obtain rfl := Option.some.inj hj
      exact heq
  have hreads : Reads oneBlock allMapped := by
    intro a ha
    cases ha
  obtain ⟨pages, h', s', pre', c, post', hret, heq, -, -, -, hreleased, -⟩ :=
    kfree_releases_payload (by decide)
      hlayout rfl hprivate hreads
  exact ⟨pages, h', s', pre', c, post', hret, heq, hreleased⟩

end OsdevArchive.Minirighi.KmallocPages
