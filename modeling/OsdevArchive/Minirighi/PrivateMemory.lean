import OsdevArchive.Minirighi.PageViews

/-!
The user memory of the processes under copy-on-write paging, against memories that each of
them has for itself (`arch/i386/kernel/paging.c`, `kernel/task.c`, `kernel/kpagerd.c`). `O`
names the places in a page, and `D` is what a place holds.
-/

namespace OsdevArchive.Minirighi.Paging

open Function OsdevArchive.Lib.Runs

-- The loops over whole tables are not to be unrolled.
attribute [local irreducible] List.finRange

/-- The address spaces, and what the frames hold as pages. -/
structure Mem (A F O D : Type*) where
  st : St A F
  data : F → O → D

/-- What happens: a process writes to its memory where it is writable, or the kernel works on
an address space. -/
inductive Act (A F O D : Type*) where
  | write (a : A) (i : PdIndex) (j : PtIndex) (o : O) (d : D)
  | kernel (op : Op A F)

variable {A F O D : Type*}

namespace Mem

/-- Before the first address space, with whatever the frames hold. -/
def boot (freeFrames : List F) (tables : F → PtIndex → Option (Entry F)) (data : F → O → D) :
    Mem A F O D :=
  ⟨St.boot freeFrames tables, data⟩

/-- The kernel writes a whole page at its address. -/
def setPage [DecidableEq F] (s : Mem A F O D) (x : A × PdIndex × PtIndex) (page : O → D) :
    Mem A F O D :=
  match s.st.view x with
  | none => s
  | some f => { s with data := update s.data f page }

theorem setPage_st [DecidableEq F] (s : Mem A F O D) (x : A × PdIndex × PtIndex) (p : O → D) :
    (s.setPage x p).st = s.st := by
  unfold setPage
  split <;> rfl

variable [Zero D]

/-- A page as an address space reads it. One that is not mapped is cleared by the page fault
handler before it is read. -/
def page (s : Mem A F O D) (x : A × PdIndex × PtIndex) : O → D :=
  (s.st.view x).elim 0 s.data

variable [DecidableEq A] [DecidableEq F] [DecidableEq O]

/-- `page_fault_handler`, with the clearing of the page. -/
def pageFaultHandler (s : Mem A F O D) (a : A) (i : PdIndex) (j : PtIndex) (null : Bool) :
    Mem A F O D × Ret :=
  match s.st.pageFaultHandler a i j null with
  | (st, .ok) => (setPage { s with st } (a, i, j) 0, .ok)
  | (st, ret) => ({ s with st }, ret)

/-- The second half of `page_fault_cow_handler`, with the copy of a shared page by way of
`tmp_page`. -/
def cowPage (s : Mem A F O D) (a : A) (i : PdIndex) (j : PtIndex) (t : F) (pte : Entry F) :
    Mem A F O D × Ret :=
  let tmpPage := s.page (a, i, j)
  match s.st.cowPage a i j t pte with
  | (st, .ok) =>
    if s.st.cow.count pte.frame = 0 then ({ s with st }, .ok)
    else (setPage { s with st } (a, i, j) tmpPage, .ok)
  | (st, ret) => ({ s with st }, ret)

/-- `page_fault_cow_handler` for a user address that is mapped. -/
def pageFaultCowHandler (s : Mem A F O D) (mem : PtIndex → Bool) (a : A) (i : PdIndex)
    (j : PtIndex) (null : Bool) (pde : Entry F) : Mem A F O D × Ret :=
  if null then (s, .efault)
  else
    match s.st.cowTable mem a i pde with
    | (st, .ok) =>
      match st.entries a i j with
      | none => ({ s with st }, .panic)
      | some (pde, pte) => cowPage { s with st } a i j pde.frame pte
    | (st, ret) => ({ s with st }, ret)

/-- One step. A write is a fault where an entry is missing or not writable, and comes again
behind the handler. -/
def exec (managed : F → Bool) (s : Mem A F O D) : Act A F O D → Option (Mem A F O D)
  | .write a i j o d =>
    match s.st.entries a i j with
    | none => none
    | some (pde, pte) =>
      if pde.write && pte.write then
        some { s with data := update s.data pte.frame (update (s.data pte.frame) o d) }
      else none
  | .kernel (.fault a i j null) =>
    if (s.st.pdbr a).isSome && (s.st.entries a i j).isNone then
      some (s.pageFaultHandler a i j null).1
    else none
  | .kernel (.cowFault a i j null mem) =>
    match s.st.entries a i j with
    | none => none
    | some (pde, pte) =>
      if pde.write && pte.write then none
      else some (s.pageFaultCowHandler mem a i j null pde).1
  | .kernel op => (s.st.exec managed op).map fun st => { s with st }

end Mem

variable [Zero D]

/-! ### Memories of their own -/

/-- The user memory of each process. -/
abbrev Memories (A O D : Type*) := A → Option (PdIndex × PtIndex → O → D)

/-- The memories that the page tables make. -/
def Mem.memory (s : Mem A F O D) : Memories A O D :=
  fun a => (s.st.pdbr a).map fun _ y => s.page (a, y)

/-- What happens to the memories. Only a process itself changes its memory, or the kernel for
it. -/
def Memories.Step [DecidableEq A] [DecidableEq O] (m : Memories A O D) :
    Act A F O D → Memories A O D → Prop
  | .write a i j o d, m' => ∃ v, m a = some v ∧
      m' = update m a (some (update v (i, j) (update (v (i, j)) o d)))
  | .kernel (.create a _), m' => m a = none ∧ (m' = m ∨ m' = update m a (some 0))
  | .kernel (.fork father child _ _), m' =>
    m child = none ∧ (m' = m ∨ m' = update m child (m father))
  | .kernel (.mapPage a i j _ _), m' => ∃ v, m a = some v ∧
      (m' = m ∨ ∃ page, m' = update m a (some (update v (i, j) page)))
  | .kernel (.deletePage a i j _), m' => ∃ v, m a = some v ∧
      m' = update m a (some (update v (i, j) 0))
  | .kernel (.deletePageDir a _), m' => m' = update m a none
  | .kernel _, m' => m' = m

/-- The process that writes is the only one with the frame, or the write changes nothing. -/
def Mem.Alone (s : Mem A F O D) : Act A F O D → Prop
  | .write a i j o d => ∀ f, s.st.view (a, i, j) = some f → s.st.cow.count f = 0 ∨ s.data f o = d
  | .kernel _ => True

/-- No operation of the kernel runs out of memory in the middle, and `map_page` is given a frame
of its own. -/
def Mem.Fits [DecidableEq A] [DecidableEq F] (managed : F → Bool) (s : Mem A F O D) :
    Act A F O D → Prop
  | .write .. => True
  | .kernel op => s.st.Fits managed op

/-! ### What the processes see -/

section

variable {s t : Mem A F O D} {a : A} {f : F} {x : A × PdIndex × PtIndex}

theorem page_none (hview : s.st.view x = none) : s.page x = 0 := by
  rw [Mem.page, hview, Option.elim_none]

theorem page_some (hview : s.st.view x = some f) : s.page x = s.data f := by
  rw [Mem.page, hview, Option.elim_some]

theorem page_congr (hview : t.st.view x = s.st.view x)
    (hdata : ∀ f, s.st.view x = some f → t.data f = s.data f) : t.page x = s.page x := by
  cases hx : s.st.view x with
  | none => rw [page_none hx, page_none (hview.trans hx)]
  | some f => rw [page_some hx, page_some (hview.trans hx), hdata f hx]

theorem memory_eq_none : s.memory a = none ↔ s.st.pdbr a = none :=
  Option.map_eq_none_iff

theorem memory_some (ha : s.st.pdbr a = some f) : s.memory a = some fun y => s.page (a, y) := by
  rw [Mem.memory, ha, Option.map_some]

/-- Every process sees the same pages. -/
theorem memory_same (hpdbr : t.st.pdbr = s.st.pdbr) (hpage : t.page = s.page) :
    t.memory = s.memory := by
  funext a
  rw [Mem.memory, Mem.memory, hpdbr, hpage]

/-- No process sees a difference. -/
structure Unseen (s t : Mem A F O D) : Prop where
  sealed : Sealed t.st
  pdbr : t.st.pdbr = s.st.pdbr
  page : t.page = s.page

theorem Unseen.trans {u : Mem A F O D} (h : Unseen s t) (h' : Unseen t u) : Unseen s u :=
  ⟨h'.sealed, h'.pdbr.trans h.pdbr, h'.page.trans h.page⟩

theorem Unseen.memory (h : Unseen s t) : t.memory = s.memory :=
  memory_same h.pdbr h.page

/-- The page tables change, and every address space keeps its frames. -/
theorem Unseen.of_view {st : St A F} (hst : Sealed st) (hpdbr : st.pdbr = s.st.pdbr)
    (hview : st.view = s.st.view) : Unseen s { s with st } where
  sealed := hst
  pdbr := hpdbr
  page := funext fun x => page_congr (congrFun hview x) fun _ _ => rfl

/-- Only the stack and the frames of the kernel change. -/
theorem Unseen.of_same {st : St A F} (h : Sealed s.st) (hkept : Kept st)
    (hdirs : st.dirs = s.st.dirs) (htables : st.tables = s.st.tables) (hcow : st.cow = s.st.cow)
    (hpdbr : st.pdbr = s.st.pdbr) : Unseen s { s with st } :=
  .of_view (h.of_le hkept (fun x p hx => by rwa [hdirs] at hx) fun g => by rw [hcow]) hpdbr
    (view_congr hdirs htables)

theorem Unseen.of_remaps {st : St A F} (h : Remaps s.st st s.st.view) : Unseen s { s with st } :=
  .of_view h.sealed h.pdbr h.view_eq

variable [DecidableEq A]

/-- One process sees other pages. -/
theorem memory_update {w : PdIndex × PtIndex → O → D} (ha : t.st.pdbr a = some f)
    (hpdbr : ∀ b, b ≠ a → t.st.pdbr b = s.st.pdbr b)
    (hhere : ∀ y, t.page (a, y) = w y) (hother : ∀ x, x.1 ≠ a → t.page x = s.page x) :
    t.memory = update s.memory a (some w) := by
  funext b
  by_cases hb : b = a
  · subst hb
    rw [update_self, memory_some ha]
    exact congrArg some (funext hhere)
  · rw [update_of_ne hb, Mem.memory, Mem.memory, hpdbr b hb]
    exact congrArg (fun v => (s.st.pdbr b).map fun _ => v) (funext fun y => hother (b, y) hb)

theorem memory_newVspace (h : Sealed s.st) (ha : s.st.pdbr a = none) (table : Bool) :
    Mem.memory { s with st := (s.st.newVspace a table).1 } = s.memory ∨
      Mem.memory { s with st := (s.st.newVspace a table).1 } = update s.memory a (some 0) := by
  obtain ⟨hsealed, hview, ⟨-, -, f, hf⟩ | ⟨-, -, hpdbr⟩⟩ := h.newVspace ha table
  · right
    apply memory_update (f := f)
    · exact (congrFun hf a).trans (update_self ..)
    · exact fun b hb => (congrFun hf b).trans (update_of_ne hb ..)
    · intro y
      apply page_none
      rw [hview]
      exact view_none (h.dirs_none ha y.1) y.2
    · exact fun x _ => page_congr (congrFun hview x) fun _ _ => rfl
  · exact Or.inl (Unseen.of_view hsealed hpdbr hview).memory

/-- The frame of one page changes. -/
theorem memory_remaps {i : PdIndex} {j : PtIndex} {st : St A F} {p : O → D} {g : Option F}
    (ha : s.st.pdbr a = some f)
    (h : Remaps s.st st (update s.st.view (a, i, j) g))
    (hp : g.elim 0 s.data = p) :
    Mem.memory { s with st } =
      update s.memory a (some (update (fun y => s.page (a, y)) (i, j) p)) := by
  apply memory_update (f := f)
  · exact (congrFun h.pdbr a).trans ha
  · exact fun b _ => congrFun h.pdbr b
  · intro y
    unfold Mem.page
    rw [h.view_eq]
    by_cases hy : y = (i, j)
    · subst hy
      rw [update_self, update_self]
      exact hp
    · have hne : (a, y) ≠ (a, i, j) := fun heq => hy (Prod.mk.inj heq).2
      rw [update_of_ne hy, update_of_ne hne]
  · intro x hx
    refine page_congr ?_ fun _ _ => rfl
    rw [h.view_eq, update_of_ne]
    rintro rfl
    exact hx rfl

variable [DecidableEq F]

/-- The kernel writes a page into a frame that no address space had. -/
theorem page_setPage {st : St A F} {p : O → D} (hview : st.view = update s.st.view x (some f))
    (hf : ∀ y, s.st.view y ≠ some f) :
    (Mem.setPage { s with st } x p).page = update s.page x p := by
  have hx : st.view x = some f := by rw [hview, update_self]
  have hset : Mem.setPage { s with st } x p = ⟨st, update s.data f p⟩ := by
    rw [Mem.setPage, hx]
  rw [hset]
  funext y
  by_cases hy : y = x
  · subst hy
    rw [update_self, page_some (s := ⟨st, update s.data f p⟩) hx]
    exact update_self ..
  · rw [update_of_ne hy]
    apply page_congr
    · rw [hview, update_of_ne hy]
    · intro g hg
      apply update_of_ne
      rintro rfl
      exact hf y hg

/-- The page that an address space had already, in a frame that no address space had. -/
theorem Unseen.of_copy {st : St A F} {p : O → D} (hp : s.page x = p)
    (hf : ∀ y, s.st.view y ≠ some f) (h : Remaps s.st st (update s.st.view x (some f))) :
    Unseen s (Mem.setPage { s with st } x p) where
  sealed := by
    rw [Mem.setPage_st]
    exact h.sealed
  pdbr := by
    rw [Mem.setPage_st]
    exact h.pdbr
  page := by
    rw [page_setPage h.view_eq hf, ← hp, update_eq_self]

variable {i : PdIndex} {j : PtIndex}

/-- A page fault maps a page that reads as it did before. -/
theorem Unseen.pageFaultHandler (h : Sealed s.st) (ha : s.st.pdbr a ≠ none)
    (hentries : s.st.entries a i j = none) (null : Bool) :
    Unseen s (s.pageFaultHandler a i j null).1 := by
  have hzero : s.page (a, i, j) = 0 := page_none (by rw [St.view, hentries, Option.map_none])
  have hcases := h.pageFaultHandler ha hentries null
  unfold Mem.pageFaultHandler
  generalize s.st.pageFaultHandler a i j null = r at hcases ⊢
  obtain ⟨st, ret⟩ := r
  dsimp only at hcases ⊢
  rcases hcases with ⟨rfl, f, hf, hmap⟩ | ⟨hret, hmap⟩
  · exact .of_copy hzero hf hmap
  · have hsame : Unseen s { s with st } := .of_remaps hmap
    cases ret with
    | ok => exact absurd rfl hret
    | enomem => exact hsame
    | efault => exact hsame
    | panic => exact hsame

/-- So does the second half of the copy-on-write fault. -/
theorem Unseen.cowPage {pde pte : Entry F} (h : Sealed s.st) (hdir : s.st.dirs (a, i) = some pde)
    (hwrite : pde.write = true) (hpte : s.st.tables pde.frame j = some pte) :
    Unseen s (s.cowPage a i j pde.frame pte).1 := by
  have hcases := h.cowPage hdir hwrite hpte
  unfold Mem.cowPage
  generalize s.st.cowPage a i j pde.frame pte = r at hcases ⊢
  obtain ⟨st, ret⟩ := r
  dsimp only at hcases ⊢
  rcases hcases with ⟨rfl, hcount, hmap⟩ | ⟨rfl, hcount, f, hf, hmap⟩ | ⟨hret, hmap⟩
  · dsimp only
    rw [if_pos hcount]
    exact .of_remaps hmap
  · dsimp only
    rw [if_neg hcount]
    exact .of_copy rfl hf hmap
  · have hsame : Unseen s { s with st } := .of_remaps hmap
    cases ret with
    | ok => exact absurd rfl hret
    | enomem => exact hsame
    | efault => exact hsame
    | panic => exact hsame

theorem Unseen.pageFaultCowHandler {pde : Entry F} {mem : PtIndex → Bool} {null : Bool}
    (h : Sealed s.st) (hdir : s.st.dirs (a, i) = some pde)
    (hfits : null = false → pde.write = false → s.st.freeFrames ≠ [] →
      s.st.cow.count pde.frame ≠ 0 → s.st.CountersFor mem pde.frame) :
    Unseen s (s.pageFaultCowHandler mem a i j null pde).1 := by
  unfold Mem.pageFaultCowHandler
  split
  · exact ⟨h, rfl, rfl⟩
  · rename_i hnull
    rcases h.cowTable hdir (hfits (Bool.not_eq_true _ ▸ hnull)) with
      ⟨u, pde', hcow, hmap, hdir', hwrite⟩ | hcow
    · have hsame : Unseen s { s with st := u } := .of_remaps hmap
      rw [hcow]
      dsimp only
      cases hentries : u.entries a i j with
      | none => exact hsame
      | some e =>
        obtain ⟨p, pte⟩ := e
        obtain ⟨hp, hpte⟩ := entries_eq_some.mp hentries
        rw [hdir'] at hp
        obtain rfl := Option.some.inj hp
        exact hsame.trans (.cowPage hmap.sealed hdir' hwrite hpte)
    · rw [hcow]
      exact ⟨h, rfl, rfl⟩

/-! ### Address spaces -/

theorem memory_doFork {father child : A} {mem : PdIndex → Bool} {table : Bool} (h : Sealed s.st)
    (hfather : s.st.pdbr father ≠ none) (hchild : s.st.pdbr child = none)
    (hfits : (if table then 1 else 2) ≤ s.st.freeFrames.length →
      ∀ i pde, s.st.dirs (father, i) = some pde → s.st.cow pde.frame = none → mem i = true) :
    Mem.memory { s with st := (s.st.doFork mem father child table).1 } =
      if (if table then 1 else 2) ≤ s.st.freeFrames.length then
        update s.memory child (s.memory father)
      else s.memory := by
  obtain ⟨hsealed, hother, ⟨hfree, -, ⟨f, hf⟩, hview⟩ | ⟨hfree, -, hpdbr, hview⟩⟩ :=
    h.doFork hfather hchild hfits
  · obtain ⟨g, hg⟩ := Option.ne_none_iff_exists'.mp hfather
    rw [if_pos hfree, memory_some hg]
    apply memory_update (f := f)
    · exact (congrFun hf child).trans (update_self ..)
    · exact fun b hb => (congrFun hf b).trans (update_of_ne hb ..)
    · intro y
      unfold Mem.page
      rw [hview]
    · exact fun x hx => page_congr (hother x hx) fun _ _ => rfl
  · rw [if_neg (Nat.not_le.mpr hfree)]
    exact (Unseen.of_view hsealed hpdbr hview).memory

theorem memory_deletePageDir {managed : F → Bool} {mem : PdIndex → PtIndex → PtIndex → Bool}
    (h : Sealed s.st) (ha : s.st.pdbr a = some f)
    (hfits : St.SweepFits managed mem a (List.finRange 768) s.st) :
    Mem.memory { s with st := s.st.deletePageDir managed mem a } = update s.memory a none := by
  obtain ⟨-, hpdbr, hview⟩ := h.deletePageDir ha hfits
  funext b
  rw [Mem.memory, hpdbr]
  by_cases hb : b = a
  · subst hb
    rw [update_self, update_self]
    rfl
  · rw [update_of_ne hb, update_of_ne hb, Mem.memory]
    have hpage : ∀ y, Mem.page { s with st := s.st.deletePageDir managed mem a } (b, y) =
        s.page (b, y) := fun y => page_congr (hview (b, y) hb) fun _ _ => rfl
    simp only [hpage]

/-! ### Writes -/

variable [DecidableEq O] {o : O} {d : D}

/-- A write goes to the memory of the process alone if nobody else has the frame. -/
theorem write_iff {pde pte : Entry F} (h : Sealed s.st) (hdir : s.st.dirs (a, i) = some pde)
    (hpte : s.st.tables pde.frame j = some pte) (hwrite : pde.write = true) :
    Memories.Step (F := F) s.memory (.write a i j o d) (Mem.memory { s with
        data := update s.data pte.frame (update (s.data pte.frame) o d) }) ↔
      s.Alone (.write a i j o d) := by
  have hview : s.st.view (a, i, j) = some pte.frame :=
    view_entries (entries_eq_some.mpr ⟨hdir, hpte⟩)
  obtain ⟨f, hlive⟩ := Option.ne_none_iff_exists'.mp (h.live a i pde.frame (slot_dir hdir))
  have hmemory := memory_some hlive
  obtain ⟨t, ht⟩ : ∃ t : Mem A F O D, t = { s with
    data := update s.data pte.frame (update (s.data pte.frame) o d) } := ⟨_, rfl⟩
  have htst : t.st = s.st := by rw [ht]
  have htdata : t.data = update s.data pte.frame (update (s.data pte.frame) o d) := by rw [ht]
  rw [← ht]
  constructor
  · rintro ⟨v, hv, hstep⟩ g hg
    obtain rfl := Option.some.inj (hview.symm.trans hg)
    by_contra hboth
    obtain ⟨hcount, hdata⟩ := not_or.mp hboth
    obtain ⟨⟨b, k, l⟩, hne, hx, hb⟩ := h.toAccounted.view_another hdir hpte hcount
    obtain ⟨g, hg⟩ := Option.ne_none_iff_exists'.mp hb
    -- The other page holds what was written.
    have hnew : t.page (b, k, l) o = d := by
      rw [page_some (htst ▸ hx), htdata, update_self, update_self]
    have hold : s.page (b, k, l) o ≠ d := by
      rw [page_some hx]
      exact hdata
    have hsame : t.page (b, k, l) = s.page (b, k, l) := by
      have hat := congrFun hstep b
      rw [memory_some (htst ▸ hg), update_apply] at hat
      split at hat
      · rename_i hba
        subst hba
        rw [hmemory] at hv
        obtain rfl := Option.some.inj hv
        have hkl : (k, l) ≠ (i, j) := by
          rintro ⟨⟩
          exact hne rfl
        have hpage := congrFun (Option.some.inj hat) (k, l)
        rw [update_of_ne hkl] at hpage
        exact hpage
      · rw [memory_some hg] at hat
        exact congrFun (Option.some.inj hat) (k, l)
    rw [hsame] at hnew
    exact hold hnew
  · intro halone
    refine ⟨_, hmemory, ?_⟩
    rw [page_some hview]
    rcases halone pte.frame hview with hcount | hdata
    · refine memory_update (f := f) (htst ▸ hlive) (fun b _ => by rw [htst]) ?_ ?_
      · rintro ⟨k, l⟩
        by_cases hkl : (k, l) = (i, j)
        · obtain ⟨rfl, rfl⟩ := Prod.mk.inj hkl
          rw [update_self, page_some (htst ▸ hview), htdata, update_self]
        · rw [update_of_ne hkl]
          refine page_congr (by rw [htst]) fun g hg => ?_
          rw [htdata, update_of_ne]
          rintro rfl
          have hx := h.view_only hdir hpte hwrite hcount hg
          obtain ⟨-, hx⟩ := Prod.mk.inj hx
          exact hkl hx
      · intro x hx
        refine page_congr (by rw [htst]) fun g hg => ?_
        rw [htdata, update_of_ne]
        rintro rfl
        rw [h.view_only hdir hpte hwrite hcount hg] at hx
        exact hx rfl
    · have hsame : t = s := by
        rw [ht, ← hdata, update_eq_self, update_eq_self]
      rw [hsame, ← hdata, update_eq_self, ← page_some hview]
      have hown := update_eq_self (i, j) fun y => s.page (a, y)
      rw [hown, ← hmemory, update_eq_self]

/-! ### Steps -/

/-- Every operation keeps the memories apart, and a write does if nobody else has the frame. -/
theorem Mem.exec_spec {managed : F → Bool} {act : Act A F O D} (h : Sealed s.st)
    (hfits : s.Fits managed act) (hstep : s.exec managed act = some t) :
    Sealed t.st ∧ (Memories.Step s.memory act t.memory ↔ s.Alone act) := by
  have hkernel : ∀ {op : Op A F}, act = .kernel op → Memories.Step s.memory act t.memory →
      (Memories.Step s.memory act t.memory ↔ s.Alone act) := by
    rintro op rfl hdone
    exact ⟨fun _ => trivial, fun _ => hdone⟩
  rcases act with ⟨a, i, j, o, d⟩ | op
  · rw [Mem.exec] at hstep
    cases hentries : s.st.entries a i j with
    | none =>
      rw [hentries] at hstep
      cases hstep
    | some e =>
      obtain ⟨pde, pte⟩ := e
      rw [hentries] at hstep
      obtain ⟨hwrite, rfl⟩ := Option.ite_some_none_eq_some.mp hstep
      obtain ⟨hdir, hpte⟩ := entries_eq_some.mp hentries
      exact ⟨h, write_iff h hdir hpte (Bool.and_eq_true_iff.mp hwrite).1⟩
  · cases op with
    | create a table =>
      obtain ⟨st, hst, rfl⟩ := Option.map_eq_some_iff.mp hstep
      obtain ⟨ha, rfl⟩ := Option.ite_some_none_eq_some.mp hst
      have ha := Option.isNone_iff_eq_none.mp ha
      exact ⟨(h.newVspace ha table).1,
        hkernel rfl ⟨memory_eq_none.mpr ha, memory_newVspace h ha table⟩⟩
    | fork father child mem table =>
      obtain ⟨st, hst, rfl⟩ := Option.map_eq_some_iff.mp hstep
      obtain ⟨ha, rfl⟩ := Option.ite_some_none_eq_some.mp hst
      obtain ⟨hfather, hchild⟩ := Bool.and_eq_true_iff.mp ha
      have hfather := Option.isSome_iff_ne_none.mp hfather
      have hchild := Option.isNone_iff_eq_none.mp hchild
      refine ⟨(h.doFork hfather hchild hfits).1, hkernel rfl ⟨memory_eq_none.mpr hchild, ?_⟩⟩
      rw [memory_doFork h hfather hchild hfits]
      exact (ite_eq_or_eq ..).symm
    | fault a i j null =>
      obtain ⟨ha, rfl⟩ := Option.ite_some_none_eq_some.mp hstep
      obtain ⟨ha, hentries⟩ := Bool.and_eq_true_iff.mp ha
      have hsame := Unseen.pageFaultHandler h (Option.isSome_iff_ne_none.mp ha)
        (Option.isNone_iff_eq_none.mp hentries) null
      exact ⟨hsame.sealed, hkernel rfl hsame.memory⟩
    | cowFault a i j null mem =>
      rw [Mem.exec] at hstep
      cases hentries : s.st.entries a i j with
      | none =>
        rw [hentries] at hstep
        cases hstep
      | some e =>
        obtain ⟨pde, pte⟩ := e
        rw [hentries] at hstep
        obtain ⟨-, ht⟩ := Option.ite_none_left_eq_some.mp hstep
        obtain rfl := Option.some.inj ht
        have hdir := (entries_eq_some.mp hentries).1
        have hsame := Unseen.pageFaultCowHandler (j := j) h hdir fun hnull => hfits hnull pde hdir
        exact ⟨hsame.sealed, hkernel rfl hsame.memory⟩
    | mapPage a i j f write =>
      obtain ⟨st, hst, rfl⟩ := Option.map_eq_some_iff.mp hstep
      obtain ⟨ha, rfl⟩ := Option.ite_some_none_eq_some.mp hst
      obtain ⟨g, hg⟩ := Option.isSome_iff_exists.mp (Bool.and_eq_true_iff.mp ha).1
      have hlive : s.st.pdbr a ≠ none := by
        rw [hg]
        exact Option.some_ne_none g
      rcases h.mapPage hlive hfits write with ⟨-, hmap⟩ | ⟨-, hmap⟩
      · exact ⟨hmap.sealed,
          hkernel rfl ⟨_, memory_some hg, Or.inr ⟨_, memory_remaps hg hmap rfl⟩⟩⟩
      · exact ⟨hmap.sealed,
          hkernel rfl ⟨_, memory_some hg, Or.inl (Unseen.of_remaps hmap).memory⟩⟩
    | deletePage a i j mem =>
      obtain ⟨st, hst, rfl⟩ := Option.map_eq_some_iff.mp hstep
      obtain ⟨ha, rfl⟩ := Option.ite_some_none_eq_some.mp hst
      obtain ⟨g, hg⟩ := Option.isSome_iff_exists.mp ha
      have hmap := h.deletePage hfits managed j
      exact ⟨hmap.sealed, hkernel rfl ⟨_, memory_some hg, memory_remaps hg hmap rfl⟩⟩
    | deletePageDir a mem =>
      obtain ⟨st, hst, rfl⟩ := Option.map_eq_some_iff.mp hstep
      obtain ⟨ha, rfl⟩ := Option.ite_some_none_eq_some.mp hst
      obtain ⟨g, hg⟩ := Option.isSome_iff_exists.mp ha
      exact ⟨(h.deletePageDir hg hfits).1, hkernel rfl (memory_deletePageDir h hg hfits)⟩
    | takeFrame =>
      obtain ⟨st, hst, rfl⟩ := Option.map_eq_some_iff.mp hstep
      have hfits : s.st.Fits managed .takeFrame := hfits
      have hkept : Kept st := h.toKept.exec hfits hst
      rw [St.exec] at hst
      cases hpop : s.st.popFrame with
      | none =>
        rw [hpop] at hst
        obtain rfl := Option.some.inj hst
        exact ⟨h, hkernel rfl rfl⟩
      | some r =>
        rw [hpop] at hst
        obtain rfl := Option.some.inj hst
        obtain ⟨rest, -, heq⟩ := popFrame_eq hpop
        have hsame : Unseen s { s with st := { r.2 with kernel := r.1 :: r.2.kernel } } :=
          .of_same h hkept (by rw [heq]) (by rw [heq]) (by rw [heq]) (by rw [heq])
        exact ⟨hsame.sealed, hkernel rfl hsame.memory⟩
    | giveFrame f table =>
      obtain ⟨st, hst, rfl⟩ := Option.map_eq_some_iff.mp hstep
      have hfits : s.st.Fits managed (.giveFrame f table) := hfits
      have hkept : Kept st := h.toKept.exec hfits hst
      obtain ⟨-, rfl⟩ := Option.ite_some_none_eq_some.mp hst
      have hsame : Unseen s _ := .of_same h hkept
        (by split; exacts [dirs_pushFrame .., rfl])
        (by split; exacts [tables_pushFrame .., rfl])
        (by split; exacts [cow_pushFrame .., rfl])
        (by split; exacts [pdbr_pushFrame .., rfl])
      exact ⟨hsame.sealed, hkernel rfl hsame.memory⟩

end

/-! ### Runs -/

theorem Sealed.boot {stack : List F} (hnodup : stack.Nodup)
    (tables : F → PtIndex → Option (Entry F)) : Sealed (St.boot (A := A) stack tables) :=
  ⟨.boot hnodup tables, nofun⟩

/-- The steps that fit into memory. -/
abbrev Mem.Steps [DecidableEq A] [DecidableEq F] [DecidableEq O] (managed : F → Bool) :
    Mem A F O D → Act A F O D → Mem A F O D → Prop :=
  Guarded (Mem.Fits managed) (Computes (Mem.exec managed))

/-- In the runs that fit into memory, the processes have memories of their own as long as
nobody writes to a frame that somebody else has, and no longer. -/
theorem memories_private_iff [DecidableEq A] [DecidableEq O] {physMemDim : BitVec 32}
    {dmaMemoryEnd : Nat} {stack : List Nat} {tables : Nat → PtIndex → Option (Entry Nat)}
    {data : Nat → O → D} {acts : List (Act A Nat O D)} {s : Mem A Nat O D}
    (hend : dmaSetupMemoryEnd physMemDim.toNat = some dmaMemoryEnd)
    (hinit : Initial physMemDim.toNat dmaMemoryEnd stack) :
    Run (fun s act t => Mem.Steps (managed physMemDim.toNat dmaMemoryEnd) s act t ∧
        Memories.Step s.memory act t.memory) (Mem.boot stack tables data) acts s ↔
      Run (Guarded Mem.Alone (Mem.Steps (managed physMemDim.toNat dmaMemoryEnd)))
        (Mem.boot stack tables data) acts s := by
  apply Run.meets_iff_guarded (I := fun s => Sealed s.st)
  · exact fun s act t h hstep => (Mem.exec_spec h hstep.1 hstep.2).2
  · exact fun s act t h hstep _ => (Mem.exec_spec h hstep.1 hstep.2).1
  · exact Sealed.boot (Initial.nodup hend hinit) tables

/-- With 32 MB there is a first stack for such runs. -/
theorem memories_private_iff_32 : ∃ stack, Initial (0x2000000#32).toNat 0x1000000 stack ∧
    ∀ (acts : List (Act Nat Nat (Fin 4096) Nat)) (s : Mem Nat Nat (Fin 4096) Nat),
      Run (fun s act t => Mem.Steps (managed (0x2000000#32).toNat 0x1000000) s act t ∧
          Memories.Step s.memory act t.memory)
        (Mem.boot stack (fun _ _ => none) fun _ _ => 0) acts s ↔
      Run (Guarded Mem.Alone (Mem.Steps (managed (0x2000000#32).toNat 0x1000000)))
        (Mem.boot stack (fun _ _ => none) fun _ _ => 0) acts s := by
  obtain ⟨fuel, stack, hstack⟩ :=
    initFreeFrames_ends 0x1000000 (show 0x2000000 ≤ 2 ^ 32 - pageSize by decide)
  exact ⟨stack, ⟨fuel, hstack⟩, fun acts s => memories_private_iff (by decide) ⟨fuel, hstack⟩⟩

end OsdevArchive.Minirighi.Paging
