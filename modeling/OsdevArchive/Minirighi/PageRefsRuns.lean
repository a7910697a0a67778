import OsdevArchive.Minirighi.PageFaults

/-!
The reference counts of the frames over the runs of the kernel: what deletion, the copy and
the end of an address space do to them.
-/

namespace OsdevArchive.Minirighi.Paging

open Function OsdevArchive.Lib.References OsdevArchive.Lib.Runs

variable {A F : Type*} {s s' : St A F} {a : A} {i : PdIndex} {j : PtIndex} {f t : F}
variable {pde pte : Entry F}

-- The loops over whole tables are not to be unrolled.
attribute [local irreducible] List.finRange

/-! ### Where memory may run out -/

/-- `delete_page` gets a frame and the counters for the copy of a shared page table. -/
def St.DeleteFits (s : St A F) (mem : PtIndex → Bool) (a : A) (i : PdIndex) : Prop :=
  ∀ pde, s.dirs (a, i) = some pde → s.cow.count pde.frame ≠ 0 →
    s.freeFrames ≠ [] ∧ s.CountersFor mem pde.frame

section

variable [DecidableEq A] [DecidableEq F]

/-- So do the calls of `delete_page` for one page table. -/
def St.TableSweepFits (managed : F → Bool) (mem : PtIndex → PtIndex → Bool) (a : A)
    (i : PdIndex) : List PtIndex → St A F → Prop
  | [], _ => True
  | j :: rest, s =>
    s.dirs (a, i) = none ∨ s.DeleteFits (mem j) a i ∧
      St.TableSweepFits managed mem a i rest (s.deletePage managed (mem j) a i j)

/-- So do all calls of `delete_page` for the end of an address space. -/
def St.SweepFits (managed : F → Bool) (mem : PdIndex → PtIndex → PtIndex → Bool) (a : A) :
    List PdIndex → St A F → Prop
  | [], _ => True
  | i :: rest, s =>
    St.TableSweepFits managed (mem i) a i (List.finRange 1024) s ∧
      St.SweepFits managed mem a rest (s.sweepTable managed (mem i) a i (List.finRange 1024))

/-- Where an operation does not run out of memory in the middle of a change, and `map_page`
is given a frame of its own. -/
def St.Fits (managed : F → Bool) (s : St A F) : Op A F → Prop
  | .fork father _ mem table =>
    (if table then 1 else 2) ≤ s.freeFrames.length →
      ∀ i pde, s.dirs (father, i) = some pde → s.cow pde.frame = none → mem i = true
  | .cowFault a i _ null mem =>
    null = false → ∀ pde, s.dirs (a, i) = some pde → pde.write = false →
      s.freeFrames ≠ [] → s.cow.count pde.frame ≠ 0 → s.CountersFor mem pde.frame
  | .mapPage a i j f _ => s.MapFits a i j f
  | .deletePage a i _ mem => s.DeleteFits mem a i
  | .deletePageDir a mem => St.SweepFits managed mem a (List.finRange 768) s
  | _ => True

end

section

variable [DecidableEq A] [DecidableEq F]

/-! ### Deletion -/

/-- A page is taken out of its page table, and its frame is given back behind the last
reference. -/
theorem Accounted.releasePage (h : Accounted s) (ht : s.IsTable t) (hpte : s.tables t j = some pte)
    (managed : F → Bool) :
    ∃ u, (s.releasePage managed pte.frame).setPte t j none = u ∧ Accounted u ∧
      u.dirs = s.dirs ∧ u.tables = (s.setPte t j none).tables ∧
      ∀ g, u.cow.count g = if g = pte.frame then s.cow.count pte.frame - 1 else s.cow.count g := by
  have hx : s.slot (.inr (t, j)) = some pte.frame := by
    rw [slot_page ht, hpte, Option.map_some]
  obtain ⟨v, hv⟩ : ∃ v, v = St.setPte { s with cow := (s.cow.unsetSharedPage pte.frame).1 } t j
      none := ⟨_, rfl⟩
  have hslot : v.slot = update s.slot (.inr (t, j)) none := by
    rw [hv]
    exact slot_setPte (s := { s with cow := (s.cow.unsetSharedPage pte.frame).1 }) ht j none
  have hsame : SameHolders s v := by
    rw [hv]
    exact ⟨rfl, rfl, rfl⟩
  have hcow : ∀ g, v.cow.count g =
      if g = pte.frame then s.cow.count pte.frame - 1 else s.cow.count g := by
    rw [hv]
    exact Cow.unsetSharedPage_count
  have hacc : Accounted v := h.drop hslot hx hcow hsame
  have hdirs : v.dirs = s.dirs := by rw [hv]; rfl
  have htables : v.tables = (s.setPte t j none).tables := by rw [hv]; rfl
  unfold St.releasePage
  by_cases hcount : s.cow.count pte.frame = 0
  · obtain ⟨cow, hunset, -⟩ := Cow.unsetSharedPage_last hcount
    rw [hunset] at hv ⊢
    dsimp only at hv ⊢
    split
    · refine ⟨_, rfl, ?_⟩
      rw [setPte_pushFrame, ← hv, dirs_pushFrame, tables_pushFrame, cow_pushFrame]
      exact ⟨hacc.push (h.fresh_drop hslot hx hcount hsame), hdirs, htables, hcow⟩
    · exact ⟨_, rfl, hv ▸ hacc, hv ▸ hdirs, hv ▸ htables, hv ▸ hcow⟩
  · obtain ⟨n, hn⟩ := Cow.unsetSharedPage_shared hcount
    rw [hn]
    exact ⟨_, rfl, hv ▸ hacc, hv ▸ hdirs, hv ▸ htables, hv ▸ hcow⟩

/-- The part of `delete_page` behind the check of the page table, which is not shared. -/
theorem Kept.deletePte (h : Kept s) (hdir : s.dirs (a, i) = some pde)
    (hcount : s.cow.count pde.frame = 0) (managed : F → Bool) (j : PtIndex) :
    Kept (s.deletePte managed a i j pde.frame) := by
  unfold St.deletePte
  cases hpte : s.tables pde.frame j with
  | none => exact h
  | some pte =>
    obtain ⟨u, hu, hacc, hdirs, htables, hcow⟩ :=
      h.toAccounted.releasePage (isTable_of_dir hdir) hpte managed
    dsimp only
    rw [hu]
    have hudir : u.dirs (a, i) = some pde := by rw [hdirs, hdir]
    have hfull : ∀ t, t ≠ pde.frame → u.IsTable t → ∃ k, u.tables t k ≠ none := by
      intro t ht htable
      rw [htables, tables_setPte_of_ne ht]
      refine h.full t ?_
      rwa [St.IsTable, ← hdirs]
    split
    · rename_i hall
      have hempty : ∀ k, u.tables pde.frame k = none := fun k =>
        Option.isNone_iff_eq_none.mp (List.all_eq_true.mp hall k (List.mem_finRange k))
      have hne : pde.frame ≠ pte.frame := by
        intro heq
        have hkind := h.kinds _ _ _ (slot_pte hdir hpte) (heq ▸ slot_dir hdir)
        cases hkind
      have hzero : u.cow.count pde.frame = 0 := by rw [hcow, if_neg hne, hcount]
      have hslot := slot_setPde_none hudir (Or.inr hempty)
      have hfresh := hacc.fresh_drop hslot (slot_dir hudir) hzero ⟨rfl, rfl, rfl⟩
      rw [setPde_pushFrame]
      apply Kept.push
      · refine ⟨hacc.drop hslot (slot_dir hudir) (count_same hzero) ⟨rfl, rfl, rfl⟩, ?_⟩
        intro t ht
        have htne : t ≠ pde.frame := by
          rintro rfl
          exact hfresh.not_isTable ht
        refine hfull t htne ?_
        rcases (isTable_setPde u a i none).mp ht with ⟨p, hp, -⟩ | hother
        · cases hp
        · exact (isTable_split u a i).mpr (Or.inr hother)
      · exact hfresh
    · rename_i hsome
      refine ⟨hacc, fun t ht => ?_⟩
      by_cases heq : t = pde.frame
      · subst heq
        by_contra hnone
        apply hsome
        rw [List.all_eq_true]
        intro k _
        rw [Option.isNone_iff_eq_none]
        by_contra hk
        exact hnone ⟨k, hk⟩
      · exact hfull t heq ht

/-- `delete_page` makes the page table private before it deletes the page. -/
theorem Kept.deletePage_split {mem : PtIndex → Bool} (h : Kept s) (hdir : s.dirs (a, i) = some pde)
    (hfits : s.DeleteFits mem a i) (managed : F → Bool) (j : PtIndex) :
    ∃ u pde', s.deletePage managed mem a i j = u.deletePte managed a i j pde'.frame ∧
      Split s u a i pde pde' := by
  unfold St.deletePage
  rw [hdir]
  dsimp only
  by_cases hcount : s.cow.count pde.frame = 0
  · obtain ⟨cow, hunset, hsame⟩ := Cow.unsetSharedPage_last hcount
    rw [hunset]
    exact ⟨_, { pde with write := true }, rfl, h.split_last hdir hcount hsame⟩
  · obtain ⟨n, hn⟩ := Cow.unsetSharedPage_shared hcount
    obtain ⟨hfree, hcounters⟩ := hfits pde hdir hcount
    obtain ⟨new, rest, hrest⟩ := List.exists_cons_of_ne_nil hfree
    obtain ⟨hu, hnew⟩ := h.pop (popFrame_cons hrest)
    obtain ⟨u, hcopy, hsplit⟩ := hu.split_copy hdir hcount hnew hcounters
    rw [hn]
    dsimp only at hcopy ⊢
    rw [popFrame_cons (s := { s with cow := (s.cow.unsetSharedPage pde.frame).1 }) hrest]
    dsimp only
    rw [hcopy]
    exact ⟨u, _, rfl, hsplit.kept, hsplit.dirs, hsplit.write, hsplit.alone, hsplit.pdbr,
      hsplit.table⟩

/-- `delete_page`. -/
theorem Kept.deletePage {mem : PtIndex → Bool} (h : Kept s) (hfits : s.DeleteFits mem a i)
    (managed : F → Bool) (j : PtIndex) : Kept (s.deletePage managed mem a i j) := by
  cases hdir : s.dirs (a, i) with
  | none =>
    unfold St.deletePage
    rw [hdir]
    exact h
  | some pde =>
    obtain ⟨u, pde', heq, hsplit⟩ := h.deletePage_split hdir hfits managed j
    rw [heq]
    exact hsplit.kept.deletePte hsplit.dir hsplit.alone managed j

/-- The entry of the page is gone, and that of the page table with the last page. -/
theorem deletePte_spec (s : St A F) (managed : F → Bool) (a : A) (i : PdIndex) (j : PtIndex)
    (t : F) :
    (s.deletePte managed a i j t).pdbr = s.pdbr ∧
      (s.deletePte managed a i j t).tables = update s.tables t (update (s.tables t) j none) ∧
      ((s.deletePte managed a i j t).dirs = s.dirs ∨
        (s.deletePte managed a i j t).dirs = update s.dirs (a, i) none ∧
          ∀ k, (s.deletePte managed a i j t).tables t k = none) := by
  unfold St.deletePte
  cases hpte : s.tables t j with
  | none =>
    have hsame : update (s.tables t) j none = s.tables t := by rw [← hpte, update_eq_self]
    refine ⟨rfl, ?_, Or.inl rfl⟩
    rw [hsame, update_eq_self]
  | some pte =>
    obtain ⟨hdirs, htables, hpdbr⟩ := releasePage_spec s managed pte.frame
    have hset : ((s.releasePage managed pte.frame).setPte t j none).tables =
        update s.tables t (update (s.tables t) j none) := by
      rw [St.setPte, St.setTable, htables]
    dsimp only
    split
    · rename_i hall
      refine ⟨?_, ?_, Or.inr ⟨?_, fun k => ?_⟩⟩
      · rw [show (St.setPde _ a i none).pdbr = _ from pdbr_pushFrame ..]
        exact hpdbr
      · rw [← hset]
        exact tables_pushFrame ..
      · rw [St.setPde, dirs_pushFrame, ← hdirs]
        rfl
      · rw [show (St.setPde _ a i none).tables = _ from tables_pushFrame ..]
        exact Option.isNone_iff_eq_none.mp (List.all_eq_true.mp hall k (List.mem_finRange k))
    · exact ⟨hpdbr, hset, Or.inl hdirs⟩

/-- The page is gone, and no entry comes. -/
theorem Kept.deletePage_spec {mem : PtIndex → Bool} (h : Kept s) (hfits : s.DeleteFits mem a i)
    (managed : F → Bool) (j : PtIndex) :
    (s.deletePage managed mem a i j).pdbr = s.pdbr ∧
      (∀ x, x ≠ (a, i) → (s.deletePage managed mem a i j).dirs x = s.dirs x) ∧
      ∀ k, k = j ∨ s.entries a i k = none →
        (s.deletePage managed mem a i j).entries a i k = none := by
  cases hdir : s.dirs (a, i) with
  | none =>
    have hnone : ∀ k, s.entries a i k = none := by
      intro k
      rw [St.entries, hdir, Option.bind_none]
    unfold St.deletePage
    rw [hdir]
    exact ⟨rfl, fun x _ => rfl, fun k _ => hnone k⟩
  | some pde =>
    obtain ⟨u, pde', heq, hsplit⟩ := h.deletePage_split hdir hfits managed j
    obtain ⟨hpdbr, htables, hdirs⟩ := deletePte_spec u managed a i j pde'.frame
    rw [heq]
    refine ⟨hpdbr.trans hsplit.pdbr, fun x hx => ?_, fun k hk => ?_⟩
    · rcases hdirs with hdirs | ⟨hdirs, -⟩
      · rw [hdirs, hsplit.dirs, update_of_ne hx]
      · rw [hdirs, update_of_ne hx, hsplit.dirs, update_of_ne hx]
    · rcases hdirs with hdirs | ⟨hdirs, -⟩
      · have hkey : update (u.tables pde'.frame) j none k = none := by
          by_cases hkj : k = j
          · rw [hkj, update_self]
          · rw [update_of_ne hkj]
            have hold : s.tables pde.frame k = none := by
              have hentries := hk.resolve_left hkj
              rw [St.entries, hdir, Option.bind_some, Option.map_eq_none_iff] at hentries
              exact hentries
            rcases hsplit.table with ⟨hframe, hsame, -⟩ | ⟨-, -, hcopy, -⟩
            · rw [hsame, hframe, hold]
            · rw [hcopy, update_self, St.readOnly, hold, Option.map_none]
        rw [St.entries, hdirs, hsplit.dir, Option.bind_some, htables, update_self, hkey,
          Option.map_none]
      · rw [St.entries, hdirs, update_self, Option.bind_none]

/-- The loop over one page table frees it. -/
theorem Kept.sweepTable {managed : F → Bool} {mem : PtIndex → PtIndex → Bool} {l : List PtIndex}
    (h : Kept s) (hfits : St.TableSweepFits managed mem a i l s)
    (hrest : ∀ k, k ∈ l ∨ s.entries a i k = none) :
    Kept (St.sweepTable managed mem a i l s) ∧
      (St.sweepTable managed mem a i l s).dirs (a, i) = none ∧
      (St.sweepTable managed mem a i l s).pdbr = s.pdbr ∧
      ∀ x, x ≠ (a, i) → (St.sweepTable managed mem a i l s).dirs x = s.dirs x := by
  induction l generalizing s with
  | nil =>
    unfold St.sweepTable
    refine ⟨h, ?_, rfl, fun x _ => rfl⟩
    by_contra hsome
    obtain ⟨pde, hdir⟩ := Option.ne_none_iff_exists'.mp hsome
    obtain ⟨k, hk⟩ := h.full pde.frame (isTable_of_dir hdir)
    have hnone : s.entries a i k = none := (hrest k).resolve_left List.not_mem_nil
    rw [St.entries, hdir, Option.bind_some, Option.map_eq_none_iff] at hnone
    exact hk hnone
  | cons j rest ih =>
    unfold St.sweepTable
    split
    · rename_i hnone
      exact ⟨h, Option.isNone_iff_eq_none.mp hnone, rfl, fun x _ => rfl⟩
    · rename_i hsome
      obtain ⟨hdelete, hnext⟩ :=
        hfits.resolve_left fun hnone => hsome (Option.isNone_iff_eq_none.mpr hnone)
      obtain ⟨hpdbr, hdirs, hentries⟩ := h.deletePage_spec hdelete managed j
      have hrest' : ∀ k, k ∈ rest ∨
          (s.deletePage managed (mem j) a i j).entries a i k = none := by
        intro k
        rcases hrest k with hk | hk
        · rcases List.mem_cons.mp hk with hkj | hk
          · exact Or.inr (hentries k (Or.inl hkj))
          · exact Or.inl hk
        · exact Or.inr (hentries k (Or.inr hk))
      obtain ⟨hkept, hgone, hpdbr', hdirs'⟩ := ih (h.deletePage hdelete managed j) hnext hrest'
      exact ⟨hkept, hgone, hpdbr'.trans hpdbr, fun x hx => (hdirs' x hx).trans (hdirs x hx)⟩

/-- The loop over the user half frees all page tables. -/
theorem Kept.sweep {managed : F → Bool} {mem : PdIndex → PtIndex → PtIndex → Bool}
    {l : List PdIndex} (h : Kept s) (hfits : St.SweepFits managed mem a l s)
    (hrest : ∀ k, k ∈ l ∨ s.dirs (a, k) = none) :
    Kept (St.sweep managed mem a l s) ∧ (St.sweep managed mem a l s).pdbr = s.pdbr ∧
      (∀ k, (St.sweep managed mem a l s).dirs (a, k) = none) ∧
      ∀ x, x.1 ≠ a → (St.sweep managed mem a l s).dirs x = s.dirs x := by
  induction l generalizing s with
  | nil => exact ⟨h, rfl, fun k => (hrest k).resolve_left List.not_mem_nil, fun x _ => rfl⟩
  | cons i rest ih =>
    rw [St.SweepFits] at hfits
    have hall : ∀ k, k ∈ List.finRange 1024 ∨ s.entries a i k = none :=
      fun k => Or.inl (List.mem_finRange k)
    obtain ⟨hkept, hgone, hpdbr, hdirs⟩ := h.sweepTable hfits.1 hall
    have hrest' : ∀ k, k ∈ rest ∨
        (s.sweepTable managed (mem i) a i (List.finRange 1024)).dirs (a, k) = none := by
      intro k
      by_cases hki : k = i
      · rw [hki]
        exact Or.inr hgone
      · have hne : (a, k) ≠ (a, i) := by
          rintro ⟨⟩
          exact hki rfl
        rw [hdirs _ hne]
        exact (hrest k).imp_left fun hk => List.mem_of_ne_of_mem hki hk
    obtain ⟨hkept', hpdbr', hnone, hother⟩ := ih hkept hfits.2 hrest'
    refine ⟨hkept', hpdbr'.trans hpdbr, hnone, fun x hx => ?_⟩
    refine (hother x hx).trans (hdirs x ?_)
    rintro rfl
    exact hx rfl

/-! ### Address spaces -/

/-- The end of an address space. -/
theorem Kept.deletePageDir {managed : F → Bool} {mem : PdIndex → PtIndex → PtIndex → Bool}
    (h : Kept s) (ha : s.pdbr a = some f)
    (hfits : St.SweepFits managed mem a (List.finRange 768) s) :
    Kept (s.deletePageDir managed mem a) := by
  obtain ⟨hkept, hpdbr, hdirs, -⟩ := h.sweep hfits fun k => Or.inl (List.mem_finRange k)
  unfold St.deletePageDir
  generalize St.sweep managed mem a (List.finRange 768) s = u at hkept hpdbr hdirs ⊢
  dsimp only
  rw [hpdbr, ha]
  dsimp only
  rw [clearDir_eq hdirs, ← hpdbr]
  obtain ⟨hacc, hfresh⟩ := hkept.toAccounted.endDir (hpdbr ▸ ha) hdirs
  have hend : Kept { u with pdbr := update u.pdbr a none } := ⟨hacc, hkept.full⟩
  split
  · exact hend.push hfresh
  · exact hend

/-- The directory entries of father and child for a page table that they share. -/
theorem Kept.shareTable {father child : A} {cow : Cow F} {mem : Bool} (h : Kept s)
    (hne : father ≠ child) (hfather : s.dirs (father, i) = some pde)
    (hchild : s.dirs (child, i) = none) (hlive : s.pdbr child ≠ none)
    (hcow : s.cow.setSharedPage pde.frame mem = some cow) :
    Kept { (s.setPde father i (some { pde with write := false })).setPde child i
      (some { pde with write := false }) with cow } := by
  obtain ⟨u, hu⟩ : ∃ u, u = s.setPde father i (some { pde with write := false }) := ⟨_, rfl⟩
  have huslot : u.slot = s.slot := hu ▸ slot_setPde_keep hfather false
  have hufather : u.dirs (father, i) = some { pde with write := false } := by
    rw [hu, dirs_setPde]
  have huchild : u.dirs (child, i) = none := by
    rw [hu, dirs_setPde_of_ne, hchild]
    rintro ⟨⟩
    exact hne rfl
  have hx : s.slot (.inl (child, i)) = none := by rw [St.slot, hchild, Option.map_none]
  have hy := slot_dir hfather
  have hslot : (u.setPde child i (some { pde with write := false })).slot =
      update u.slot (.inl (child, i)) (some pde.frame) :=
    slot_setPde_some huchild (Or.inl ⟨(father, i), _, hufather, rfl⟩)
  rw [huslot] at hslot
  rw [← hu]
  constructor
  · refine h.toAccounted.share hslot hx hy rfl ?_
      (Cow.setSharedPage_count hcow) ?_
    · rintro b k ⟨⟩
      exact hlive
    · rw [hu]
      exact ⟨rfl, rfl, rfl⟩
  · intro t ht
    have htables : u.tables = s.tables := by rw [hu]; rfl
    rw [show ({ u.setPde child i _ with cow } : St A F).tables = u.tables from rfl, htables]
    refine h.full t ?_
    rcases (isTable_setPde u child i (some { pde with write := false })).mp ht with
      ⟨p, hp, hframe⟩ | ⟨x, -, p, hp, hframe⟩
    · obtain rfl := Option.some.inj hp
      exact ⟨_, pde, hfather, hframe⟩
    · rw [isTable_iff, ← huslot, ← isTable_iff]
      exact ⟨x, p, hp, hframe⟩

/-- The loop of `do_fork` makes every page table of the father shared. -/
theorem Kept.forkLoop {mem : PdIndex → Bool} {father child : A} (hne : father ≠ child)
    {l : List PdIndex} (h : Kept s) (hnodup : l.Nodup) (hlive : s.pdbr child ≠ none)
    (hdirs : ∀ i ∈ l, s.dirs (child, i) = none)
    (hfits : ∀ i ∈ l, ∀ pde, s.dirs (father, i) = some pde → s.cow pde.frame = none →
      mem i = true) :
    Kept (St.forkLoop mem father child l s).1 := by
  induction l generalizing s with
  | nil => exact h
  | cons i rest ih =>
    obtain ⟨hi, hrest⟩ := List.nodup_cons.mp hnodup
    have hchild := hdirs i List.mem_cons_self
    unfold St.forkLoop
    cases hfather : s.dirs (father, i) with
    | none =>
      have hsame : (s.setPde father i none).setPde child i none = s := by
        rw [← hfather, setPde_self, hfather, ← hchild, setPde_self]
      rw [Option.map_none]
      dsimp only
      rw [hsame]
      exact ih h hrest hlive (fun k hk => hdirs k (List.mem_cons_of_mem i hk))
        fun k hk => hfits k (List.mem_cons_of_mem i hk)
    | some pde =>
      have hother : ∀ b k, k ∈ rest → ((s.setPde father i (some { pde with write := false })).setPde
          child i (some { pde with write := false })).dirs (b, k) = s.dirs (b, k) := by
        intro b k hk
        have hki : k ≠ i := by
          rintro rfl
          exact hi hk
        rw [dirs_setPde_of_ne, dirs_setPde_of_ne]
        · rintro ⟨⟩
          exact hki rfl
        · rintro ⟨⟩
          exact hki rfl
      obtain ⟨cow, hcow, hkeep⟩ := setSharedPage_fits (hfits i List.mem_cons_self pde hfather)
      rw [Option.map_some]
      dsimp only
      have hsame : ((s.setPde father i (some { pde with write := false })).setPde child i
          (some { pde with write := false })).cow = s.cow := rfl
      rw [hsame, hcow]
      apply ih (h.shareTable hne hfather hchild hlive hcow) hrest hlive
      · intro k hk
        exact (hother child k hk).trans (hdirs k (List.mem_cons_of_mem i hk))
      · intro k hk p hp hnone
        refine hfits k (List.mem_cons_of_mem i hk) p ?_ (hkeep _ hnone)
        rw [← hother father k hk]
        exact hp

/-- `do_fork`. -/
theorem Kept.doFork {mem : PdIndex → Bool} {father child : A} {table : Bool} (h : Kept s)
    (hfather : s.pdbr father ≠ none) (hchild : s.pdbr child = none)
    (hfits : (if table then 1 else 2) ≤ s.freeFrames.length →
      ∀ i pde, s.dirs (father, i) = some pde → s.cow pde.frame = none → mem i = true) :
    Kept (s.doFork mem father child table).1 := by
  have hne : father ≠ child := by
    rintro rfl
    exact hfather hchild
  obtain ⟨hu, hdirs, -, hcow, hok⟩ := h.newVspace hchild table
  unfold St.doFork
  split
  · rename_i u heq
    rw [heq] at hu hdirs hcow hok
    obtain ⟨hlive, hfree⟩ := hok rfl
    dsimp only at hu hdirs hcow hlive
    apply hu.forkLoop hne (List.nodup_finRange 768) hlive
    · intro i _
      rw [hdirs]
      exact h.toAccounted.dirs_none hchild i
    · intro i _ pde hpde hnone
      rw [hdirs] at hpde
      rw [hcow] at hnone
      exact hfits hfree i pde hpde hnone
  · rename_i heq
    rw [heq] at hu
    exact hu

/-! ### Runs -/

/-- One step. -/
theorem Kept.exec {managed : F → Bool} {op : Op A F} (h : Kept s) (hfits : s.Fits managed op)
    (hstep : s.exec managed op = some s') : Kept s' := by
  have hlive : ∀ {a}, (s.pdbr a).isSome = true → s.pdbr a ≠ none := fun ha =>
    Option.isSome_iff_ne_none.mp ha
  cases op with
  | create a table =>
    obtain ⟨ha, rfl⟩ := Option.ite_some_none_eq_some.mp hstep
    exact (h.newVspace (Option.isNone_iff_eq_none.mp ha) table).1
  | fork father child mem table =>
    obtain ⟨ha, rfl⟩ := Option.ite_some_none_eq_some.mp hstep
    obtain ⟨hfather, hchild⟩ := Bool.and_eq_true_iff.mp ha
    exact h.doFork (hlive hfather) (Option.isNone_iff_eq_none.mp hchild) hfits
  | fault a i j null =>
    obtain ⟨ha, rfl⟩ := Option.ite_some_none_eq_some.mp hstep
    obtain ⟨ha, hentries⟩ := Bool.and_eq_true_iff.mp ha
    exact h.pageFaultHandler (hlive ha) (Option.isNone_iff_eq_none.mp hentries) null
  | cowFault a i j null mem =>
    rw [St.exec] at hstep
    cases hentries : s.entries a i j with
    | none =>
      rw [hentries] at hstep
      cases hstep
    | some e =>
      obtain ⟨pde, pte⟩ := e
      rw [hentries] at hstep
      obtain ⟨-, hs'⟩ := Option.ite_none_left_eq_some.mp hstep
      obtain rfl := Option.some.inj hs'
      have hdir := (entries_eq_some.mp hentries).1
      exact h.pageFaultCowHandler hdir fun hnull => hfits hnull pde hdir
  | mapPage a i j f write =>
    obtain ⟨ha, rfl⟩ := Option.ite_some_none_eq_some.mp hstep
    obtain ⟨ha, -⟩ := Bool.and_eq_true_iff.mp ha
    exact h.mapPage (hlive ha) hfits write
  | deletePage a i j mem =>
    obtain ⟨-, rfl⟩ := Option.ite_some_none_eq_some.mp hstep
    exact h.deletePage hfits managed j
  | deletePageDir a mem =>
    obtain ⟨ha, rfl⟩ := Option.ite_some_none_eq_some.mp hstep
    obtain ⟨f, hf⟩ := Option.isSome_iff_exists.mp ha
    exact h.deletePageDir hf hfits
  | takeFrame =>
    rw [St.exec] at hstep
    cases hpop : s.popFrame with
    | none =>
      rw [hpop] at hstep
      obtain rfl := Option.some.inj hstep
      exact h
    | some r =>
      rw [hpop] at hstep
      obtain rfl := Option.some.inj hstep
      obtain ⟨hu, hf⟩ := h.pop hpop
      exact ⟨hu.toAccounted.take hf, hu.full⟩
  | giveFrame f table =>
    obtain ⟨hf, rfl⟩ := Option.ite_some_none_eq_some.mp hstep
    obtain ⟨hacc, hfresh⟩ := h.toAccounted.give hf
    have hgiven : Kept { s with kernel := s.kernel.erase f } := ⟨hacc, h.full⟩
    split
    · exact hgiven.push hfresh
    · exact hgiven

end

variable {physMemDim : BitVec 32} {dmaMemoryEnd : Nat} {stack : List Nat}

/-- The first stack has every frame once. -/
theorem Initial.nodup (hend : dmaSetupMemoryEnd physMemDim.toNat = some dmaMemoryEnd)
    (hinit : Initial physMemDim.toNat dmaMemoryEnd stack) : stack.Nodup := by
  obtain ⟨halign, hlow⟩ := dmaSetupMemoryEnd_spec hend
  have hsize : physMemDim.toNat ≤ 2 ^ 32 - pageSize := by
    obtain ⟨fuel, hfuel⟩ := hinit
    apply Nat.le_of_not_lt
    intro hlarge
    have hword := physMemDim.isLt
    rw [initFreeFrames_never hlarge halign (by omega)] at hfuel
    cases hfuel
  exact (initial_cases hsize hlow hinit).1

/-- Every run that fits into memory keeps the counter of each frame one less than the entries
that refer to it, and no entry refers to a free frame. -/
theorem references_exact [DecidableEq A] {tables : Nat → PtIndex → Option (Entry Nat)}
    {ops : List (Op A Nat)} {s : St A Nat}
    (hend : dmaSetupMemoryEnd physMemDim.toNat = some dmaMemoryEnd)
    (hinit : Initial physMemDim.toNat dmaMemoryEnd stack)
    (hrun : Run (Guarded (St.Fits (managed physMemDim.toNat dmaMemoryEnd))
      (Computes (St.exec (managed physMemDim.toNat dmaMemoryEnd)))) (St.boot stack tables) ops s) :
    s.RefsExact := by
  have hkept : Kept s := by
    apply hrun.guarded_invariant
    · exact fun s op t h hfits hstep => h.exec hfits hstep
    · exact Kept.boot (Initial.nodup hend hinit) tables
  exact hkept.refsExact

/-- With 32 MB, a process with one page forks. -/
theorem references_exact_fork : ∃ (stack : List Nat) (s : St Nat Nat),
    Run (Computes (St.exec (managed 0x2000000 0x1000000))) (St.boot stack fun _ _ => none)
      [.create 0 true, .fault 0 0 0 false, .fork 0 1 (fun _ => true) true] s ∧ s.RefsExact := by
  have hend : dmaSetupMemoryEnd (0x2000000#32).toNat = some 0x1000000 := by decide
  obtain ⟨fuel, stack, hstack⟩ :=
    initFreeFrames_ends 0x1000000 (show 0x2000000 ≤ 2 ^ 32 - pageSize by decide)
  have hinit : Initial (0x2000000#32).toNat 0x1000000 stack := ⟨fuel, hstack⟩
  obtain ⟨-, f₀, f, t, mid, last, rfl, -⟩ := initial_cases (by decide) (by decide) hinit
  obtain ⟨u, hrun, hu⟩ := OnePage.start (managed 0x2000000 0x1000000) (fun _ _ => none) 0 f₀ f t
    (mid ++ [last])
  have hfork : St.exec (managed 0x2000000 0x1000000) u (.fork 0 1 (fun _ => true) true) =
      some (u.doFork (fun _ => true) 0 1 true).1 := by
    rw [St.exec, hu.pdbr]
    rfl
  have hall := hrun.append (Run.single hfork)
  refine ⟨_, _, hall, ?_⟩
  apply references_exact hend hinit
  refine hall.labelled.mono fun s op t hstep => ⟨?_, hstep.2⟩
  have hop := hstep.1
  simp only [List.cons_append, List.nil_append, List.mem_cons, List.not_mem_nil, or_false] at hop
  rcases hop with rfl | rfl | rfl
  · trivial
  · trivial
  · exact fun _ _ _ _ _ => rfl

end OsdevArchive.Minirighi.Paging
