import OsdevArchive.Minirighi.PageRefsRuns

/-!
Which frame an address space has at each page of its user half, and how each operation on the
address spaces changes that (`arch/i386/kernel/paging.c`, `kernel/task.c`,
`kernel/kpagerd.c`).
-/

namespace OsdevArchive.Minirighi.Paging

open Function OsdevArchive.Lib.References

variable {A F : Type*} {s u : St A F} {a : A} {i : PdIndex} {j : PtIndex} {f t : F}
variable {pde pde' pte : Entry F}

-- The loops over whole tables are not to be unrolled.
attribute [local irreducible] List.finRange

/-- The frame that an address space has at a page. -/
def St.view (s : St A F) (x : A × PdIndex × PtIndex) : Option F :=
  (s.entries x.1 x.2.1 x.2.2).map fun e => e.2.frame

/-- A page table that a writable directory entry refers to is not shared. -/
structure Sealed (s : St A F) : Prop extends Kept s where
  alone : ∀ x pde, s.dirs x = some pde → pde.write = true → s.cow.count pde.frame = 0

/-- The address spaces are the same, with these frames. -/
structure Remaps (s u : St A F) (view : A × PdIndex × PtIndex → Option F) : Prop where
  sealed : Sealed u
  pdbr : u.pdbr = s.pdbr
  view_eq : u.view = view

theorem Remaps.trans {v : St A F} {w w' : A × PdIndex × PtIndex → Option F} (h : Remaps s v w)
    (h' : Remaps v u w') : Remaps s u w' :=
  ⟨h'.sealed, h'.pdbr.trans h.pdbr, h'.view_eq⟩

/-! ### Views -/

theorem view_dir (hdir : s.dirs (a, i) = some pde) (j : PtIndex) :
    s.view (a, i, j) = (s.tables pde.frame j).map Entry.frame := by
  rw [St.view, St.entries, hdir, Option.bind_some, Option.map_map]
  rfl

theorem view_none (hdir : s.dirs (a, i) = none) (j : PtIndex) : s.view (a, i, j) = none := by
  rw [St.view, St.entries, hdir, Option.bind_none, Option.map_none]

theorem view_entries (hentries : s.entries a i j = some (pde, pte)) :
    s.view (a, i, j) = some pte.frame := by
  rw [St.view, hentries, Option.map_some]

theorem view_congr (hdirs : u.dirs = s.dirs) (htables : u.tables = s.tables) :
    u.view = s.view := by
  funext x
  rw [St.view, St.view, St.entries, St.entries, hdirs, htables]

/-- A page that is seen is an entry of a page table in use. -/
theorem slot_view (hview : s.view (a, i, j) = some f) :
    ∃ t, s.slot (.inl (a, i)) = some t ∧ s.slot (.inr (t, j)) = some f := by
  cases hdir : s.dirs (a, i) with
  | none =>
    rw [view_none hdir] at hview
    cases hview
  | some pde =>
    refine ⟨pde.frame, slot_dir hdir, ?_⟩
    rw [slot_page (isTable_of_dir hdir), ← view_dir hdir, hview]

theorem St.Fresh.view_ne (hf : s.Fresh f) (x : A × PdIndex × PtIndex) : s.view x ≠ some f := by
  intro hx
  obtain ⟨t, -, hslot⟩ := slot_view hx
  exact hf.slot_ne _ hslot

/-- No other directory entry refers to a page table that is not shared. -/
theorem Accounted.only_dir (h : Accounted s) (hdir : s.dirs (a, i) = some pde)
    (hcount : s.cow.count pde.frame = 0) {x : A × PdIndex} {p : Entry F} (hx : s.dirs x = some p)
    (hframe : p.frame = pde.frame) : x = (a, i) := by
  have hslot : s.slot (.inl x) = some pde.frame := by
    rw [← hframe]
    exact slot_dir (a := x.1) (i := x.2) hx
  exact Sum.inl_injective (h.counted.only (slot_dir hdir) hcount hslot)

/-- Two address spaces that have one frame refer to it twice. -/
theorem Sealed.view_only {x : A × PdIndex × PtIndex} (h : Sealed s)
    (hdir : s.dirs (a, i) = some pde) (hpte : s.tables pde.frame j = some pte)
    (hwrite : pde.write = true) (hcount : s.cow.count pte.frame = 0)
    (hx : s.view x = some pte.frame) : x = (a, i, j) := by
  obtain ⟨b, k, l⟩ := x
  obtain ⟨t, hdir', hpage⟩ := slot_view hx
  have hsame := h.counted.only (slot_pte hdir hpte) hcount hpage
  obtain ⟨rfl, rfl⟩ := Prod.mk.inj (Sum.inr_injective hsame)
  have hbk := h.counted.only (slot_dir hdir) (h.alone _ pde hdir hwrite) hdir'
  obtain ⟨rfl, rfl⟩ := Prod.mk.inj (Sum.inl_injective hbk)
  rfl

/-- A frame that is shared is seen at another page. -/
theorem Accounted.view_another (h : Accounted s)
    (hdir : s.dirs (a, i) = some pde) (hpte : s.tables pde.frame j = some pte)
    (hcount : s.cow.count pte.frame ≠ 0) :
    ∃ x, x ≠ (a, i, j) ∧ s.view x = some pte.frame ∧ s.pdbr x.1 ≠ none := by
  obtain ⟨y, hne, hy⟩ := h.counted.another (slot_pte hdir hpte) hcount
  have hkind := h.kinds _ y _ (slot_pte hdir hpte) hy
  rcases y with y | ⟨t, l⟩
  · cases hkind
  · have ht : s.IsTable t := by
      by_contra hnone
      rw [slot_none hnone] at hy
      cases hy
    rw [slot_page ht] at hy
    obtain ⟨⟨b, k⟩, p, hp, rfl⟩ := ht
    refine ⟨(b, k, l), ?_, ?_, h.live b k p.frame (slot_dir hp)⟩
    · rintro ⟨⟩
      rw [hdir] at hp
      obtain rfl := Option.some.inj hp
      exact hne rfl
    · rw [view_dir hp, hy]

/-- One directory entry and its page table change. -/
theorem view_eq_of {w : A × PdIndex × PtIndex → Option F}
    (hdirs : ∀ x, x ≠ (a, i) → u.dirs x = s.dirs x)
    (htables : ∀ x p, x ≠ (a, i) → s.dirs x = some p → u.tables p.frame = s.tables p.frame)
    (hhere : ∀ k, u.view (a, i, k) = w (a, i, k))
    (hother : ∀ b l k, (b, l) ≠ (a, i) → w (b, l, k) = s.view (b, l, k)) : u.view = w := by
  funext ⟨b, l, k⟩
  by_cases hx : (b, l) = (a, i)
  · obtain ⟨rfl, rfl⟩ := Prod.mk.inj hx
    exact hhere k
  · rw [hother b l k hx]
    cases hdir : s.dirs (b, l) with
    | none => rw [view_none hdir, view_none ((hdirs _ hx).trans hdir)]
    | some p => rw [view_dir hdir, view_dir ((hdirs _ hx).trans hdir), htables _ p hx hdir]

theorem view_same (hdirs : ∀ x, x ≠ (a, i) → u.dirs x = s.dirs x)
    (htables : ∀ x p, x ≠ (a, i) → s.dirs x = some p → u.tables p.frame = s.tables p.frame)
    (hhere : ∀ k, u.view (a, i, k) = s.view (a, i, k)) : u.view = s.view :=
  view_eq_of hdirs htables hhere fun _ _ _ _ => rfl

theorem Sealed.pop (h : Sealed s) (hpop : s.popFrame = some (f, u)) :
    Remaps s u s.view ∧ u.Fresh f := by
  obtain ⟨hkept, hf⟩ := h.toKept.pop hpop
  obtain ⟨rest, -, rfl⟩ := popFrame_eq hpop
  exact ⟨⟨⟨hkept, h.alone⟩, rfl, rfl⟩, hf⟩

/-- No counter and no writable directory entry comes. -/
theorem Sealed.of_le (h : Sealed s) (hkept : Kept u)
    (hdirs : ∀ x p, u.dirs x = some p → s.dirs x = some p)
    (hcount : ∀ g, u.cow.count g ≤ s.cow.count g) : Sealed u where
  toKept := hkept
  alone := fun x p hx hwrite => by
    have hzero := h.alone x p (hdirs x p hx) hwrite
    have hle := hcount p.frame
    omega

variable [DecidableEq A]

theorem view_update {g : Option F} (hdirs : ∀ x, x ≠ (a, i) → u.dirs x = s.dirs x)
    (htables : ∀ x p, x ≠ (a, i) → s.dirs x = some p → u.tables p.frame = s.tables p.frame)
    (hhere : ∀ k, u.view (a, i, k) = if k = j then g else s.view (a, i, k)) :
    u.view = update s.view (a, i, j) g := by
  apply view_eq_of hdirs htables
  · intro k
    rw [hhere, update_apply]
    simp only [Prod.mk.injEq, true_and]
  · intro b l k hx
    apply update_of_ne
    rintro ⟨⟩
    exact hx rfl

/-- `new_vspace`: with the frames that it needs there is another address space, without pages. -/
theorem Sealed.newVspace (h : Sealed s) (ha : s.pdbr a = none) (table : Bool) :
    Sealed (s.newVspace a table).1 ∧ (s.newVspace a table).1.view = s.view ∧
      ((if table then 1 else 2) ≤ s.freeFrames.length ∧ (s.newVspace a table).2 = .ok ∧
          (∃ f, (s.newVspace a table).1.pdbr = update s.pdbr a (some f)) ∨
        s.freeFrames.length < (if table then 1 else 2) ∧ (s.newVspace a table).2 ≠ .ok ∧
          (s.newVspace a table).1.pdbr = s.pdbr) := by
  obtain ⟨hkept, hdirs, htables, hcow, -⟩ := h.toKept.newVspace ha table
  refine ⟨⟨hkept, ?_⟩, view_congr hdirs htables, ?_⟩
  · rw [hdirs, hcow]
    exact h.alone
  · unfold St.newVspace
    cases hfree : s.freeFrames with
    | nil =>
      have hpop : s.popFrame = none := by rw [St.popFrame, hfree]
      rw [hpop]
      exact Or.inr ⟨by split <;> exact Nat.succ_pos _, Ret.noConfusion, rfl⟩
    | cons f rest =>
      rw [popFrame_cons hfree]
      cases table with
      | true => exact Or.inl ⟨Nat.succ_le_succ (Nat.zero_le _), rfl, f, rfl⟩
      | false =>
        cases rest with
        | nil => exact Or.inr ⟨Nat.lt_succ_self _, Ret.noConfusion, rfl⟩
        | cons t rest =>
          exact Or.inl ⟨Nat.succ_le_succ (Nat.succ_le_succ (Nat.zero_le _)), rfl, f, rfl⟩

/-! ### One entry -/

variable [DecidableEq F]

theorem view_setPte {p : Option (Entry F)} (h : Accounted s) (hdir : s.dirs (a, i) = some pde)
    (hcount : s.cow.count pde.frame = 0) (hdirs : u.dirs = s.dirs)
    (htables : u.tables = (s.setPte pde.frame j p).tables) :
    u.view = update s.view (a, i, j) (p.map Entry.frame) := by
  apply view_update
  · exact fun x _ => by rw [hdirs]
  · intro x q hx hq
    rw [htables, tables_setPte_of_ne]
    intro hframe
    exact hx (h.only_dir hdir hcount hq hframe)
  · intro k
    rw [view_dir (hdirs ▸ hdir), view_dir hdir, htables, tables_setPte, update_apply]
    split <;> rfl

/-- The page table of a directory entry becomes private, and every address space keeps its
frames. -/
theorem Split.view (h : Split s u a i pde pde') (hdir : s.dirs (a, i) = some pde) :
    u.view = s.view := by
  have hold : ∀ t, t ≠ pde'.frame → u.tables t = s.tables t := by
    intro t ht
    rcases h.table with ⟨-, htables, -⟩ | ⟨-, -, htables, -⟩
    · rw [htables]
    · rw [htables, update_of_ne ht]
  apply view_same (a := a) (i := i)
  · intro x hx
    rw [h.dirs, update_of_ne hx]
  · intro x p hx hp
    rcases h.table with ⟨-, htables, -⟩ | ⟨-, hnew, -⟩
    · rw [htables]
    · apply hold
      intro hframe
      exact hnew (Or.inl ⟨x, p, hp, Or.inl hframe⟩)
  · intro k
    rw [view_dir h.dir, view_dir hdir]
    rcases h.table with ⟨hframe, htables, -⟩ | ⟨-, -, htables, -⟩
    · rw [hframe, htables]
    · rw [htables, update_self, St.readOnly, Option.map_map]
      rfl

theorem Split.sealed (h : Split s u a i pde pde') (hs : Sealed s)
    (hdir : s.dirs (a, i) = some pde) : Sealed u where
  toKept := h.kept
  alone := fun x p hx hwrite => by
    rw [h.dirs, update_apply] at hx
    split at hx
    · obtain rfl := Option.some.inj hx
      exact h.alone
    · have hzero := hs.alone x p hx hwrite
      rcases h.table with ⟨-, -, hcow⟩ | ⟨hshared, -, -, hcount⟩
      · rw [hcow, hzero]
      · rw [hcount, hzero]
        · intro hframe
          rw [hframe] at hzero
          exact hshared hzero
        · intro k q hq hframe
          have hkind := hs.kinds _ _ _ (slot_pte hdir hq)
            (hframe ▸ slot_dir (a := x.1) (i := x.2) hx)
          cases hkind

theorem Split.remaps (h : Split s u a i pde pde') (hs : Sealed s)
    (hdir : s.dirs (a, i) = some pde) : Remaps s u s.view :=
  ⟨h.sealed hs hdir, h.pdbr, h.view hdir⟩

/-! ### Mapping -/

theorem view_newTable (hdir : s.dirs (a, i) = none) (ht : s.Fresh t) (f : F) (write : Bool) :
    (((s.setPde a i (some ⟨t, true⟩)).setTable t fun _ => none).setPte t j
      (some ⟨f, write⟩)).view = update s.view (a, i, j) (some f) := by
  have htable : ∀ t', t' ≠ t → (((s.setPde a i (some ⟨t, true⟩)).setTable t fun _ => none).setPte
      t j (some ⟨f, write⟩)).tables t' = s.tables t' := by
    intro t' ht'
    rw [tables_setPte_of_ne ht']
    exact update_of_ne ht' ..
  apply view_update
  · exact fun x hx => dirs_setPde_of_ne hx ..
  · intro x p _ hp
    apply htable
    rintro rfl
    exact ht.not_isTable ⟨x, p, hp, rfl⟩
  · intro k
    have hnew : (((s.setPde a i (some ⟨t, true⟩)).setTable t fun _ => none).setPte t j
        (some ⟨f, write⟩)).dirs (a, i) = some ⟨t, true⟩ := dirs_setPde ..
    rw [view_dir hnew, tables_setPte, tables_setTable,
      view_none hdir, update_apply]
    split <;> rfl

/-- `map_page` maps the page, or no page changes. -/
theorem Sealed.mapPage (h : Sealed s) (ha : s.pdbr a ≠ none) (hfits : s.MapFits a i j f)
    (write : Bool) :
    (s.mapPage a i j f write).2 = .ok ∧
        Remaps s (s.mapPage a i j f write).1 (update s.view (a, i, j) (some f)) ∨
      (s.mapPage a i j f write).2 ≠ .ok ∧ Remaps s (s.mapPage a i j f write).1 s.view := by
  have hkept := h.toKept.mapPage ha hfits write
  unfold St.mapPage at hkept ⊢
  cases hdir : s.dirs (a, i) with
  | none =>
    rw [hdir] at hkept
    cases hpop : s.popFrame with
    | none => exact Or.inr ⟨nofun, h, rfl, rfl⟩
    | some r =>
      obtain ⟨t, v⟩ := r
      rw [hpop] at hkept
      obtain ⟨hv, ht⟩ := h.toKept.pop hpop
      obtain ⟨rest, -, rfl⟩ := popFrame_eq hpop
      refine Or.inl ⟨rfl, ⟨hkept, ?_⟩, rfl, view_newTable (s := { s with
        freeFrames := rest, popped := s.popped + 1 }) hdir ht f write⟩
      intro x p hx hwrite
      by_cases hxa : x = (a, i)
      · subst hxa
        obtain rfl := Option.some.inj ((dirs_setPde ..).symm.trans hx)
        exact hv.toAccounted.count_fresh ht
      · exact h.alone x p ((dirs_setPde_of_ne hxa ..).symm.trans hx) hwrite
  | some pde =>
    rw [hdir] at hkept
    dsimp only at hkept ⊢
    split
    · rename_i hwrite
      rw [if_pos hwrite] at hkept
      have hcount := h.alone (a, i) pde hdir hwrite
      exact Or.inl ⟨rfl, h.of_le hkept (fun _ _ hx => hx) fun _ => Nat.le_refl _, rfl,
        view_setPte (p := some ⟨f, write⟩) h.toAccounted hdir hcount rfl rfl⟩
    · exact Or.inr ⟨nofun, h, rfl, rfl⟩

/-! ### Page faults -/

/-- `page_fault_handler` maps a frame that no address space had. -/
theorem Sealed.pageFaultHandler (h : Sealed s) (ha : s.pdbr a ≠ none)
    (hentries : s.entries a i j = none) (null : Bool) :
    (s.pageFaultHandler a i j null).2 = .ok ∧ (∃ f, (∀ x, s.view x ≠ some f) ∧
        Remaps s (s.pageFaultHandler a i j null).1 (update s.view (a, i, j) (some f))) ∨
      (s.pageFaultHandler a i j null).2 ≠ .ok ∧
        Remaps s (s.pageFaultHandler a i j null).1 s.view := by
  unfold St.pageFaultHandler
  split
  · exact Or.inr ⟨nofun, h, rfl, rfl⟩
  · cases hpop : s.popFrame with
    | none => exact Or.inr ⟨nofun, h, rfl, rfl⟩
    | some r =>
      obtain ⟨f, v⟩ := r
      obtain ⟨hv, hf⟩ := h.pop hpop
      have hfits : v.MapFits a i j f := by
        refine Or.inr (Or.inr ⟨hf, fun pde pte hmapped => ?_⟩)
        have hview := view_entries hmapped
        rw [hv.view_eq, St.view, hentries, Option.map_none] at hview
        cases hview
      rw [← hv.pdbr] at ha
      dsimp only
      rcases hv.sealed.mapPage ha hfits true with ⟨hret, hmap⟩ | ⟨hret, hmap⟩
      · rw [hv.view_eq] at hmap
        refine Or.inl ⟨hret, f, ?_, hv.trans hmap⟩
        rw [← hv.view_eq]
        exact hf.view_ne
      · rw [hv.view_eq] at hmap
        exact Or.inr ⟨hret, hv.trans hmap⟩

theorem unsetSharedPage_le (cow : Cow F) (f g : F) :
    (cow.unsetSharedPage f).1.count g ≤ cow.count g := by
  rw [Cow.unsetSharedPage_count]
  split
  · rename_i hg
    rw [hg]
    exact Nat.sub_le ..
  · exact Nat.le_refl _

/-- The first half of `page_fault_cow_handler`. -/
theorem Sealed.cowTable {mem : PtIndex → Bool} (h : Sealed s) (hdir : s.dirs (a, i) = some pde)
    (hfits : pde.write = false → s.freeFrames ≠ [] → s.cow.count pde.frame ≠ 0 →
      s.CountersFor mem pde.frame) :
    (∃ u pde', s.cowTable mem a i pde = (u, .ok) ∧ Remaps s u s.view ∧
        u.dirs (a, i) = some pde' ∧ pde'.write = true) ∨
      s.cowTable mem a i pde = (s, .enomem) := by
  rcases h.toKept.cowTable hdir hfits with ⟨hcow, hwrite⟩ | hcow | ⟨-, u, pde', hcow, hsplit⟩
  · exact Or.inl ⟨s, pde, hcow, ⟨h, rfl, rfl⟩, hdir, hwrite⟩
  · exact Or.inr hcow
  · exact Or.inl ⟨u, pde', hcow, hsplit.remaps h hdir, hsplit.dir, hsplit.write⟩

/-- The second half makes the page writable, or maps a frame that no address space had. -/
theorem Sealed.cowPage (h : Sealed s) (hdir : s.dirs (a, i) = some pde) (hwrite : pde.write = true)
    (hpte : s.tables pde.frame j = some pte) :
    (s.cowPage a i j pde.frame pte).2 = .ok ∧ s.cow.count pte.frame = 0 ∧
        Remaps s (s.cowPage a i j pde.frame pte).1 s.view ∨
      (s.cowPage a i j pde.frame pte).2 = .ok ∧ s.cow.count pte.frame ≠ 0 ∧
        (∃ f, (∀ x, s.view x ≠ some f) ∧
          Remaps s (s.cowPage a i j pde.frame pte).1 (update s.view (a, i, j) (some f))) ∨
      (s.cowPage a i j pde.frame pte).2 ≠ .ok ∧
        Remaps s (s.cowPage a i j pde.frame pte).1 s.view := by
  have hkept := h.toKept.cowPage hdir hwrite hpte
  have hpde := h.alone (a, i) pde hdir hwrite
  unfold St.cowPage at hkept ⊢
  cases hpop : s.popFrame with
  | none => exact Or.inr (Or.inr ⟨nofun, h, rfl, rfl⟩)
  | some r =>
    obtain ⟨new, v⟩ := r
    obtain ⟨-, hnew⟩ := h.pop hpop
    obtain ⟨rest, -, rfl⟩ := popFrame_eq hpop
    rw [hpop] at hkept
    dsimp only at hkept ⊢
    by_cases hcount : s.cow.count pte.frame = 0
    · obtain ⟨cow, hunset, hsame⟩ := Cow.unsetSharedPage_last hcount
      rw [hunset] at hkept ⊢
      dsimp only at hkept ⊢
      refine Or.inl ⟨rfl, hcount, h.of_le hkept ?_ ?_, ?_, ?_⟩
      · intro x p hx
        rw [dirs_pushFrame] at hx
        exact hx
      · intro g
        rw [cow_pushFrame, show (St.setPte _ pde.frame j _).cow = cow from rfl, hsame]
      · exact pdbr_pushFrame ..
      · refine (view_congr (dirs_pushFrame ..) (tables_pushFrame ..)).trans ?_
        have hset := view_setPte (u := St.setPte { s with
          freeFrames := rest, popped := s.popped + 1, cow } pde.frame j
            (some { pte with write := true })) h.toAccounted hdir hpde rfl rfl
        refine hset.trans ?_
        rw [Option.map_some, ← view_entries (entries_eq_some.mpr ⟨hdir, hpte⟩), update_eq_self]
    · obtain ⟨n, hn⟩ := Cow.unsetSharedPage_shared hcount
      rw [hn] at hkept ⊢
      dsimp only at hkept ⊢
      rw [mapPage_mapped (s := { s with
        freeFrames := rest, popped := s.popped + 1, cow := _ }) hdir hwrite] at hkept ⊢
      refine Or.inr (Or.inl ⟨rfl, hcount, new, hnew.view_ne, ?_, rfl, ?_⟩)
      · exact h.of_le hkept (fun _ _ hx => hx) fun g => unsetSharedPage_le ..
      · exact view_setPte (p := some ⟨new, true⟩) h.toAccounted hdir hpde rfl rfl

/-! ### Deletion -/

theorem deletePte_count_le (s : St A F) (managed : F → Bool) (a : A) (i : PdIndex) (j : PtIndex)
    (t g : F) : (s.deletePte managed a i j t).cow.count g ≤ s.cow.count g := by
  have hrelease : ∀ f, (s.releasePage managed f).cow = (s.cow.unsetSharedPage f).1 := by
    intro f
    unfold St.releasePage
    rcases hunset : s.cow.unsetSharedPage f with ⟨cow, _ | n⟩
    · dsimp only
      split
      · rw [cow_pushFrame]
      · rfl
    · rfl
  unfold St.deletePte
  cases s.tables t j with
  | none => exact Nat.le_refl _
  | some pte =>
    have hcow : ((s.releasePage managed pte.frame).setPte t j none).cow =
        (s.cow.unsetSharedPage pte.frame).1 := hrelease pte.frame
    dsimp only
    split
    · rw [show (St.setPde _ a i none).cow = _ from cow_pushFrame .., hcow]
      exact unsetSharedPage_le ..
    · rw [hcow]
      exact unsetSharedPage_le ..

/-- The page is gone. -/
theorem Sealed.deletePte (h : Sealed s) (hdir : s.dirs (a, i) = some pde)
    (hcount : s.cow.count pde.frame = 0) (managed : F → Bool) (j : PtIndex) :
    Remaps s (s.deletePte managed a i j pde.frame) (update s.view (a, i, j) none) := by
  obtain ⟨hpdbr, htables, hdirs⟩ := deletePte_spec s managed a i j pde.frame
  refine ⟨h.of_le (h.toKept.deletePte hdir hcount managed j) (fun x p hx => ?_)
    (fun g => deletePte_count_le ..), hpdbr, ?_⟩
  · rcases hdirs with hdirs | ⟨hdirs, -⟩
    · rwa [hdirs] at hx
    · rw [hdirs, update_apply] at hx
      split at hx
      · cases hx
      · exact hx
  · rcases hdirs with hdirs | ⟨hdirs, hempty⟩
    · exact view_setPte h.toAccounted hdir hcount hdirs htables
    · apply view_update
      · intro x hx
        rw [hdirs, update_of_ne hx]
      · intro x q hx hq
        rw [htables, update_of_ne]
        intro hframe
        exact hx (h.toAccounted.only_dir hdir hcount hq hframe)
      · intro k
        have hdir' : (s.deletePte managed a i j pde.frame).dirs (a, i) = none := by
          rw [hdirs, update_self]
        rw [view_none hdir', view_dir hdir]
        split
        · rfl
        · rename_i hk
          have hgone := hempty k
          rw [htables, update_self, update_of_ne hk] at hgone
          rw [hgone, Option.map_none]

/-- `delete_page`. -/
theorem Sealed.deletePage {mem : PtIndex → Bool} (h : Sealed s) (hfits : s.DeleteFits mem a i)
    (managed : F → Bool) (j : PtIndex) :
    Remaps s (s.deletePage managed mem a i j) (update s.view (a, i, j) none) := by
  cases hdir : s.dirs (a, i) with
  | none =>
    have hsame : update s.view (a, i, j) none = s.view := by
      rw [← view_none hdir j, update_eq_self]
    unfold St.deletePage
    rw [hdir, hsame]
    exact ⟨h, rfl, rfl⟩
  | some pde =>
    obtain ⟨u, pde', heq, hsplit⟩ := h.toKept.deletePage_split hdir hfits managed j
    have hu := hsplit.remaps h hdir
    have hdelete := hu.sealed.deletePte hsplit.dir hsplit.alone managed j
    rw [hu.view_eq] at hdelete
    rw [heq]
    exact hu.trans hdelete

/-- The loop over one page table leaves the other pages alone. -/
theorem Sealed.sweepTable {managed : F → Bool} {mem : PtIndex → PtIndex → Bool} {l : List PtIndex}
    (h : Sealed s) (hfits : St.TableSweepFits managed mem a i l s) :
    Sealed (St.sweepTable managed mem a i l s) ∧
      ∀ x, x.1 ≠ a → (St.sweepTable managed mem a i l s).view x = s.view x := by
  induction l generalizing s with
  | nil => exact ⟨h, fun x _ => rfl⟩
  | cons j rest ih =>
    unfold St.sweepTable
    split
    · exact ⟨h, fun x _ => rfl⟩
    · rename_i hsome
      obtain ⟨hdelete, hnext⟩ :=
        hfits.resolve_left fun hnone => hsome (Option.isNone_iff_eq_none.mpr hnone)
      have hone := h.deletePage hdelete managed j
      obtain ⟨hsealed, hview⟩ := ih hone.sealed hnext
      refine ⟨hsealed, fun x hx => ?_⟩
      rw [hview x hx, hone.view_eq, update_of_ne]
      rintro rfl
      exact hx rfl

/-- So does the loop over the user half. -/
theorem Sealed.sweep {managed : F → Bool} {mem : PdIndex → PtIndex → PtIndex → Bool}
    {l : List PdIndex} (h : Sealed s) (hfits : St.SweepFits managed mem a l s) :
    Sealed (St.sweep managed mem a l s) ∧
      ∀ x, x.1 ≠ a → (St.sweep managed mem a l s).view x = s.view x := by
  induction l generalizing s with
  | nil => exact ⟨h, fun x _ => rfl⟩
  | cons i rest ih =>
    rw [St.SweepFits] at hfits
    obtain ⟨hone, hfirst⟩ := h.sweepTable hfits.1
    obtain ⟨hsealed, hview⟩ := ih hone hfits.2
    exact ⟨hsealed, fun x hx => (hview x hx).trans (hfirst x hx)⟩

/-! ### Address spaces -/

/-- The end of an address space. -/
theorem Sealed.deletePageDir {managed : F → Bool} {mem : PdIndex → PtIndex → PtIndex → Bool}
    (h : Sealed s) (ha : s.pdbr a = some f)
    (hfits : St.SweepFits managed mem a (List.finRange 768) s) :
    Sealed (s.deletePageDir managed mem a) ∧
      (s.deletePageDir managed mem a).pdbr = update s.pdbr a none ∧
      ∀ x, x.1 ≠ a → (s.deletePageDir managed mem a).view x = s.view x := by
  have hkept := h.toKept.deletePageDir ha hfits
  obtain ⟨hswept, hview⟩ := h.sweep hfits
  obtain ⟨-, hpdbr, hdirs, -⟩ := h.toKept.sweep hfits fun k => Or.inl (List.mem_finRange k)
  unfold St.deletePageDir at hkept ⊢
  generalize St.sweep managed mem a (List.finRange 768) s = v at hkept hswept hview hpdbr hdirs ⊢
  dsimp only at hkept ⊢
  rw [hpdbr, ha] at hkept ⊢
  dsimp only at hkept ⊢
  rw [clearDir_eq hdirs] at hkept ⊢
  have hend : ∀ w : St A F, w.dirs = v.dirs → w.tables = v.tables → w.cow = v.cow → Kept w →
      Sealed w ∧ ∀ x, x.1 ≠ a → w.view x = s.view x := by
    intro w hwdirs hwtables hwcow hw
    refine ⟨⟨hw, ?_⟩, fun x hx => ?_⟩
    · rw [hwdirs, hwcow]
      exact hswept.alone
    · rw [view_congr hwdirs hwtables, hview x hx]
  split
  · rename_i hmanaged
    rw [if_pos hmanaged] at hkept
    obtain ⟨hsealed, hsame⟩ := hend (St.pushFrame { v with pdbr := update s.pdbr a none } f)
      (dirs_pushFrame ..) (tables_pushFrame ..) (cow_pushFrame ..) hkept
    exact ⟨hsealed, pdbr_pushFrame .., hsame⟩
  · rename_i hmanaged
    rw [if_neg hmanaged] at hkept
    obtain ⟨hsealed, hsame⟩ := hend { v with pdbr := update s.pdbr a none } rfl rfl rfl hkept
    exact ⟨hsealed, rfl, hsame⟩

/-- The child sees the pages of a page table that the father shares with it. -/
theorem Sealed.shareTable {father child : A} {cow : Cow F} {mem : Bool} (h : Sealed s)
    (hne : father ≠ child) (hfather : s.dirs (father, i) = some pde)
    (hchild : s.dirs (child, i) = none) (hlive : s.pdbr child ≠ none)
    (hcow : s.cow.setSharedPage pde.frame mem = some cow) {u : St A F}
    (hu : u = { (s.setPde father i (some { pde with write := false })).setPde child i
      (some { pde with write := false }) with cow }) :
    Sealed u ∧ u.pdbr = s.pdbr ∧ (∀ x, x ≠ (child, i) → ∀ j, u.view (x.1, x.2, j) =
      s.view (x.1, x.2, j)) ∧ ∀ j, u.view (child, i, j) = s.view (father, i, j) := by
  have hudirs : u.dirs = update (update s.dirs (father, i) (some { pde with write := false }))
      (child, i) (some { pde with write := false }) := by rw [hu]; rfl
  have hutables : u.tables = s.tables := by rw [hu]; rfl
  have hucow : ∀ g, u.cow.count g = s.cow.count g + if g = pde.frame then 1 else 0 := by
    rw [hu]
    exact Cow.setSharedPage_count hcow
  have huchild : u.dirs (child, i) = some { pde with write := false } := by
    rw [hudirs, update_self]
  have hufather : u.dirs (father, i) = some { pde with write := false } := by
    rw [hudirs, update_of_ne, update_self]
    rintro ⟨⟩
    exact hne rfl
  refine ⟨⟨hu ▸ h.toKept.shareTable hne hfather hchild hlive hcow, ?_⟩, hu ▸ rfl, ?_, ?_⟩
  · intro x p hx hwrite
    rw [hudirs, update_apply, update_apply] at hx
    split at hx
    · obtain rfl := Option.some.inj hx
      cases hwrite
    · split at hx
      · obtain rfl := Option.some.inj hx
        cases hwrite
      · rename_i hxfather
        have hzero := h.alone x p hx hwrite
        rw [hucow, hzero, if_neg]
        intro hframe
        exact hxfather (h.toAccounted.only_dir (a := x.1) (i := x.2) hx hzero hfather
          hframe.symm).symm
  · rintro ⟨b, k⟩ hx j
    by_cases hxf : (b, k) = (father, i)
    · obtain ⟨rfl, rfl⟩ := Prod.mk.inj hxf
      rw [view_dir hufather, view_dir hfather, hutables]
    · have hsame : u.dirs (b, k) = s.dirs (b, k) := by
        rw [hudirs, update_of_ne hx, update_of_ne hxf]
      rw [St.view, St.view, St.entries, St.entries, hsame, hutables]
  · intro j
    rw [view_dir huchild, view_dir hfather, hutables]

/-- The loop of `do_fork` gives the child the frames of the father. -/
theorem Sealed.forkLoop {mem : PdIndex → Bool} {father child : A} (hne : father ≠ child)
    {l : List PdIndex} (h : Sealed s) (hnodup : l.Nodup) (hlive : s.pdbr child ≠ none)
    (hdirs : ∀ i ∈ l, s.dirs (child, i) = none)
    (hfits : ∀ i ∈ l, ∀ pde, s.dirs (father, i) = some pde → s.cow pde.frame = none →
      mem i = true) :
    (St.forkLoop mem father child l s).2 = .ok ∧
      Sealed (St.forkLoop mem father child l s).1 ∧
      (St.forkLoop mem father child l s).1.pdbr = s.pdbr ∧
      (∀ x, x.1 ≠ child → (St.forkLoop mem father child l s).1.view x = s.view x) ∧
      ∀ i j, (St.forkLoop mem father child l s).1.view (child, i, j) =
        if i ∈ l then s.view (father, i, j) else s.view (child, i, j) := by
  induction l generalizing s with
  | nil =>
    refine ⟨rfl, h, rfl, fun x _ => rfl, fun i j => ?_⟩
    rw [if_neg List.not_mem_nil]
    rfl
  | cons i rest ih =>
    obtain ⟨hi, hrest⟩ := List.nodup_cons.mp hnodup
    have hchild := hdirs i List.mem_cons_self
    unfold St.forkLoop
    cases hfather : s.dirs (father, i) with
    | none =>
      have hsame : (s.setPde father i none).setPde child i none = s := by
        rw [← hfather, setPde_self, hfather, ← hchild, setPde_self]
      rw [Option.map_none]
      dsimp only
      rw [hsame]
      obtain ⟨hok, hsealed, hpdbr, hother, hview⟩ := ih h hrest hlive
        (fun k hk => hdirs k (List.mem_cons_of_mem i hk))
        fun k hk => hfits k (List.mem_cons_of_mem i hk)
      refine ⟨hok, hsealed, hpdbr, hother, fun k j => ?_⟩
      rw [hview]
      by_cases hk : k = i
      · subst hk
        rw [if_neg hi, if_pos List.mem_cons_self, view_none hfather, view_none hchild]
      · simp only [List.mem_cons, hk, false_or]
    | some pde =>
      obtain ⟨cow, hcow, hkeep⟩ := setSharedPage_fits (hfits i List.mem_cons_self pde hfather)
      obtain ⟨u, hu⟩ : ∃ u : St A F, u = { (s.setPde father i (some { pde with
        write := false })).setPde child i (some { pde with write := false }) with cow } := ⟨_, rfl⟩
      obtain ⟨hsealed, hupdbr, huother, huchild⟩ :=
        h.shareTable hne hfather hchild hlive hcow hu
      have hudirs : ∀ b k, k ∈ rest → u.dirs (b, k) = s.dirs (b, k) := by
        intro b k hk
        have hki : ∀ c, (b, k) ≠ (c, i) := by
          rintro c ⟨⟩
          exact hi hk
        rw [hu]
        exact (update_of_ne (hki child) ..).trans (update_of_ne (hki father) ..)
      have hsame : ((s.setPde father i (some { pde with write := false })).setPde child i
          (some { pde with write := false })).cow = s.cow := rfl
      rw [Option.map_some]
      dsimp only
      rw [hsame, hcow]
      dsimp only
      rw [← hu]
      have hcounts : ∀ g, u.cow g = none → s.cow g = none := by
        rw [hu]
        exact hkeep
      obtain ⟨hok, hlast, hpdbr, hother, hview⟩ := ih hsealed hrest (by rwa [hupdbr])
        (fun k hk => (hudirs child k hk).trans (hdirs k (List.mem_cons_of_mem i hk)))
        fun k hk p hp hnone => hfits k (List.mem_cons_of_mem i hk) p
          ((hudirs father k hk).symm.trans hp) (hcounts _ hnone)
      refine ⟨hok, hlast, hpdbr.trans hupdbr, fun x hx => ?_, fun k j => ?_⟩
      · rw [hother x hx]
        apply huother (x.1, x.2.1)
        rintro ⟨⟩
        exact hx rfl
      · rw [hview]
        by_cases hk : k = i
        · subst hk
          rw [if_neg hi, if_pos List.mem_cons_self, huchild]
        · have hki : ∀ c, (c, k) ≠ (child, i) := by
            rintro c ⟨⟩
            exact hk rfl
          have hmem : k ∈ i :: rest ↔ k ∈ rest := by simp only [List.mem_cons, hk, false_or]
          rw [huother _ (hki father), huother _ (hki child)]
          simp only [hmem]

/-- `do_fork`: with the frames that it needs there is a child with the frames of the father. -/
theorem Sealed.doFork {mem : PdIndex → Bool} {father child : A} {table : Bool} (h : Sealed s)
    (hfather : s.pdbr father ≠ none) (hchild : s.pdbr child = none)
    (hfits : (if table then 1 else 2) ≤ s.freeFrames.length →
      ∀ i pde, s.dirs (father, i) = some pde → s.cow pde.frame = none → mem i = true) :
    Sealed (s.doFork mem father child table).1 ∧
      (∀ x, x.1 ≠ child → (s.doFork mem father child table).1.view x = s.view x) ∧
      ((if table then 1 else 2) ≤ s.freeFrames.length ∧
          (s.doFork mem father child table).2 = .ok ∧
          (∃ f, (s.doFork mem father child table).1.pdbr = update s.pdbr child (some f)) ∧
          (∀ y, (s.doFork mem father child table).1.view (child, y) = s.view (father, y)) ∨
        s.freeFrames.length < (if table then 1 else 2) ∧
          (s.doFork mem father child table).2 ≠ .ok ∧
          (s.doFork mem father child table).1.pdbr = s.pdbr ∧
          (s.doFork mem father child table).1.view = s.view) := by
  have hne : father ≠ child := by
    rintro rfl
    exact hfather hchild
  obtain ⟨-, hdirs, -, hcow, -⟩ := h.toKept.newVspace hchild table
  obtain ⟨hmade, hsame, hret⟩ := h.newVspace hchild table
  unfold St.doFork
  rcases hret with ⟨hfree, hok, f, hf⟩ | ⟨hfree, hfail, hpdbr⟩
  · rcases hnew : s.newVspace child table with ⟨u, ret⟩
    rw [hnew] at hdirs hcow hmade hsame hok hf
    dsimp only at hdirs hcow hmade hsame hok hf
    subst hok
    dsimp only
    obtain ⟨hok, hsealed, hpdbr, hother, hview⟩ := hmade.forkLoop hne
      (List.nodup_finRange 768) (by rw [hf, update_self]; exact Option.some_ne_none f)
      (fun i _ => (congrFun hdirs _).trans (h.toAccounted.dirs_none hchild i))
      fun i _ pde hpde hnone => hfits hfree i pde (by rwa [hdirs] at hpde) (by rwa [hcow] at hnone)
    refine ⟨hsealed, fun x hx => ?_, Or.inl ⟨hfree, hok, ⟨f, hpdbr.trans hf⟩, fun ⟨i, j⟩ => ?_⟩⟩
    · rw [hother x hx, hsame]
    · rw [hview, if_pos (List.mem_finRange i), hsame]
  · rcases hnew : s.newVspace child table with ⟨u, ret⟩
    rw [hnew] at hmade hsame hfail hpdbr
    cases ret with
    | ok => exact absurd rfl hfail
    | enomem => exact ⟨hmade, fun x _ => congrFun hsame x, Or.inr ⟨hfree, nofun, hpdbr, hsame⟩⟩
    | efault => exact ⟨hmade, fun x _ => congrFun hsame x, Or.inr ⟨hfree, nofun, hpdbr, hsame⟩⟩
    | panic => exact ⟨hmade, fun x _ => congrFun hsame x, Or.inr ⟨hfree, nofun, hpdbr, hsame⟩⟩

end OsdevArchive.Minirighi.Paging
