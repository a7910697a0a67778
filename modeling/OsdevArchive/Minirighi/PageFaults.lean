import OsdevArchive.Minirighi.PageRefs

/-!
What `map_page`, the copy of a shared page table and the two page fault handlers
(`arch/i386/kernel/paging.c`) do to the reference counts of the frames, where memory does not
run out in the middle.
-/

namespace OsdevArchive.Minirighi.Paging

open Function OsdevArchive.Lib.References

variable {A F : Type*} {s s' : St A F} {a : A} {i : PdIndex} {j : PtIndex} {f t : F}
variable {pde pte : Entry F}

-- The loops over whole tables are not to be unrolled.
attribute [local irreducible] List.finRange

/-! ### Where memory may run out -/

/-- There is memory for the counters of those pages of a page table that have none. -/
def St.CountersFor (s : St A F) (mem : PtIndex → Bool) (t : F) : Prop :=
  ∀ k pte, s.tables t k = some pte → s.cow pte.frame = none → mem k = true

/-- `map_page` does not get to the page table; or the page is mapped there already; or nobody
has the frame, and it does not take the place of a shared one. -/
def St.MapFits (s : St A F) (a : A) (i : PdIndex) (j : PtIndex) (f : F) : Prop :=
  (∃ pde, s.dirs (a, i) = some pde ∧ pde.write = false) ∨
    (∃ pde pte, s.entries a i j = some (pde, pte) ∧ pte.frame = f) ∨
      s.Fresh f ∧ ∀ pde pte, s.entries a i j = some (pde, pte) → s.cow.count pte.frame = 0

/-! ### Page tables in use -/

/-- Every frame is accounted for, and every page table in use maps a page. -/
structure Kept (s : St A F) : Prop extends Accounted s where
  full : ∀ t, s.IsTable t → ∃ j, s.tables t j ≠ none

theorem entries_eq_some : s.entries a i j = some (pde, pte) ↔
    s.dirs (a, i) = some pde ∧ s.tables pde.frame j = some pte := by
  unfold St.entries
  cases s.dirs (a, i) with
  | none => simp
  | some p =>
    simp only [Option.bind_some, Option.map_eq_some_iff, Prod.mk.injEq, Option.some.injEq]
    constructor
    · rintro ⟨q, hq, rfl, rfl⟩
      exact ⟨rfl, hq⟩
    · rintro ⟨rfl, hq⟩
      exact ⟨pte, hq, rfl, rfl⟩

theorem slot_pte (hpde : s.dirs (a, i) = some pde) (hpte : s.tables pde.frame j = some pte) :
    s.slot (.inr (pde.frame, j)) = some pte.frame := by
  rw [slot_page (isTable_of_dir hpde), hpte, Option.map_some]

theorem tables_setTable [DecidableEq F] (s : St A F) (t : F) (table : PtIndex → Option (Entry F)) :
    (s.setTable t table).tables t = table :=
  update_self ..

theorem tables_setPte [DecidableEq F] (s : St A F) (t : F) (j : PtIndex) (p : Option (Entry F)) :
    (s.setPte t j p).tables t = update (s.tables t) j p :=
  update_self ..

theorem tables_setPte_of_ne [DecidableEq F] {t' : F} (h : t' ≠ t) (j : PtIndex)
    (p : Option (Entry F)) : (s.setPte t j p).tables t' = s.tables t' :=
  update_of_ne h ..

/-- An entry of a page table is set. -/
theorem full_setPte [DecidableEq F] (h : ∀ t, s.IsTable t → ∃ j, s.tables t j ≠ none) (t : F)
    (j : PtIndex) (pte : Entry F) (t' : F) (ht' : (s.setPte t j (some pte)).IsTable t') :
    ∃ k, (s.setPte t j (some pte)).tables t' k ≠ none := by
  by_cases heq : t' = t
  · subst heq
    refine ⟨j, ?_⟩
    rw [tables_setPte, update_self]
    exact Option.some_ne_none pte
  · rw [tables_setPte_of_ne heq]
    exact h t' ht'

theorem Kept.pop (h : Kept s) (hpop : s.popFrame = some (f, s')) : Kept s' ∧ s'.Fresh f := by
  obtain ⟨hacc, hfresh⟩ := h.toAccounted.pop hpop
  obtain ⟨rest, -, rfl⟩ := popFrame_eq hpop
  exact ⟨⟨hacc, h.full⟩, hfresh⟩

theorem Kept.push (h : Kept s) (hf : s.Fresh f) : Kept (s.pushFrame f) := by
  refine ⟨h.toAccounted.push hf, ?_⟩
  unfold St.pushFrame
  split
  · exact h.full
  · exact h.full

/-- Neither the entries nor the counters change. -/
theorem Kept.same (h : Kept s) (hslot : s'.slot = s.slot) (hcow : s'.cow.count = s.cow.count)
    (hsame : SameHolders s s') (htables : s'.tables = s.tables) : Kept s' := by
  refine ⟨h.toAccounted.same hslot hcow hsame, fun t ht => ?_⟩
  rw [htables]
  rw [isTable_iff, hslot] at ht
  exact h.full t (isTable_iff.mpr ht)

theorem St.Fresh.same (hf : s.Fresh f) (hslot : s'.slot = s.slot) (hsame : SameHolders s s') :
    s'.Fresh f :=
  hsame.fresh hf fun x => by
    rw [hslot]
    exact hf.slot_ne x

theorem dirs_pushFrame (s : St A F) (f : F) : (s.pushFrame f).dirs = s.dirs := by
  unfold St.pushFrame
  split <;> rfl

theorem tables_pushFrame (s : St A F) (f : F) : (s.pushFrame f).tables = s.tables := by
  unfold St.pushFrame
  split <;> rfl

theorem pdbr_pushFrame (s : St A F) (f : F) : (s.pushFrame f).pdbr = s.pdbr := by
  unfold St.pushFrame
  split <;> rfl

theorem setPte_pushFrame [DecidableEq F] (s : St A F) (f t : F) (j : PtIndex)
    (p : Option (Entry F)) :
    (s.pushFrame f).setPte t j p = (s.setPte t j p).pushFrame f := by
  have hpopped : (s.setPte t j p).popped = s.popped := rfl
  unfold St.pushFrame
  rw [hpopped]
  split <;> rfl

theorem setPde_pushFrame [DecidableEq A] (s : St A F) (f : F) (a : A) (i : PdIndex)
    (p : Option (Entry F)) :
    (s.pushFrame f).setPde a i p = (s.setPde a i p).pushFrame f := by
  have hpopped : (s.setPde a i p).popped = s.popped := rfl
  unfold St.pushFrame
  rw [hpopped]
  split <;> rfl

theorem cow_pushFrame (s : St A F) (f : F) : (s.pushFrame f).cow = s.cow := by
  unfold St.pushFrame
  split <;> rfl

theorem releasePage_spec [DecidableEq F] (s : St A F) (managed : F → Bool) (f : F) :
    (s.releasePage managed f).dirs = s.dirs ∧ (s.releasePage managed f).tables = s.tables ∧
      (s.releasePage managed f).pdbr = s.pdbr := by
  unfold St.releasePage
  split
  · split
    · unfold St.pushFrame
      split <;> exact ⟨rfl, rfl, rfl⟩
    · exact ⟨rfl, rfl, rfl⟩
  · exact ⟨rfl, rfl, rfl⟩

/-- The counter of a frame that nobody had. -/
theorem Accounted.count_fresh (h : Accounted s) (hf : s.Fresh f) : s.cow.count f = 0 :=
  h.counted.of_empty (referers_eq_empty.mpr hf.slot_ne)

theorem count_same [DecidableEq F] (hzero : s.cow.count f = 0) (g : F) :
    s.cow.count g = if g = f then s.cow.count f - 1 else s.cow.count g := by
  split
  · rename_i hg
    subst hg
    omega
  · rfl

/-- A page table that is not in use yet. -/
theorem Accounted.setTable [DecidableEq F] (h : Accounted s) (ht : ¬ s.IsTable t)
    (table : PtIndex → Option (Entry F)) : Accounted (s.setTable t table) :=
  h.same (slot_setTable ht) rfl ⟨rfl, rfl, rfl⟩

theorem St.Fresh.setTable [DecidableEq F] (hf : s.Fresh f) (ht : ¬ s.IsTable t)
    (table : PtIndex → Option (Entry F)) : (s.setTable t table).Fresh f :=
  hf.same (slot_setTable ht) ⟨rfl, rfl, rfl⟩

/-- `new_vspace`: the new address space has no pages. -/
theorem Kept.newVspace [DecidableEq A] (h : Kept s) (ha : s.pdbr a = none) (table : Bool) :
    Kept (s.newVspace a table).1 ∧ (s.newVspace a table).1.dirs = s.dirs ∧
      (s.newVspace a table).1.tables = s.tables ∧ (s.newVspace a table).1.cow = s.cow ∧
      ((s.newVspace a table).2 = .ok → (s.newVspace a table).1.pdbr a ≠ none ∧
        (if table then 1 else 2) ≤ s.freeFrames.length) := by
  unfold St.newVspace
  cases hpop : s.popFrame with
  | none => exact ⟨h, rfl, rfl, rfl, nofun⟩
  | some r =>
    obtain ⟨f, u⟩ := r
    obtain ⟨hu, hf⟩ := h.pop hpop
    obtain ⟨rest, hrest, rfl⟩ := popFrame_eq hpop
    dsimp only
    rw [clearDir_eq (hu.toAccounted.dirs_none ha)]
    have hmade := hu.toAccounted.newDir ha hf
    split
    · refine ⟨⟨hmade, h.full⟩, rfl, rfl, rfl, fun _ => ⟨?_, ?_⟩⟩
      · dsimp only
        rw [update_self]
        exact Option.some_ne_none f
      · rw [hrest]
        exact Nat.succ_le_succ (Nat.zero_le _)
    · cases hpop' : St.popFrame { s with
          freeFrames := rest, popped := s.popped + 1, pdbr := update s.pdbr a (some f) } with
      | none => exact ⟨hu, rfl, rfl, rfl, nofun⟩
      | some r' =>
        obtain ⟨t, v⟩ := r'
        obtain ⟨hv, ht⟩ := hmade.pop hpop'
        obtain ⟨rest', hrest', rfl⟩ := popFrame_eq hpop'
        refine ⟨⟨hv.take ht, h.full⟩, rfl, rfl, rfl, fun _ => ⟨?_, ?_⟩⟩
        · dsimp only
          rw [update_self]
          exact Option.some_ne_none f
        · rw [hrest, show rest = t :: rest' from hrest']
          exact Nat.succ_le_succ (Nat.succ_le_succ (Nat.zero_le _))

theorem Kept.boot {stack : List F} (hnodup : stack.Nodup)
    (tables : F → PtIndex → Option (Entry F)) : Kept (St.boot (A := A) stack tables) := by
  have htable : ∀ t, ¬ (St.boot (A := A) stack tables).IsTable t := by
    rintro t ⟨x, pde, hx, -⟩
    cases hx
  have hslot : ∀ x, (St.boot (A := A) stack tables).slot x = none := by
    rintro (x | ⟨t, j⟩)
    · rfl
    · exact slot_none (htable t) j
  have href : ∀ f, ¬ (St.boot (A := A) stack tables).Referenced f := by
    intro f
    rw [referenced_iff]
    rintro (⟨x, hx⟩ | ⟨a, ha⟩ | hkernel)
    · rw [hslot] at hx
      cases hx
    · cases ha
    · cases hkernel
  refine ⟨⟨?_, ?_, ?_, ?_, ?_, ?_, List.nodup_nil, fun f _ => href f, hnodup⟩, ?_⟩
  · rw [funext hslot]
    exact counted_none
  · intro x y f hx
    rw [hslot] at hx
    cases hx
  · intro a i f hx
    rw [hslot] at hx
    cases hx
  · intro f _ x hx
    rw [hslot] at hx
    cases hx
  · rintro a b f ⟨⟩
  · rintro f ⟨⟩
  · exact fun t ht => (htable t ht).elim

/-! ### Mapping -/

section

variable [DecidableEq A] [DecidableEq F]

/-- A page of a page table in use, for a frame that nobody had. -/
theorem Accounted.setPte (h : Accounted s) (ht : s.IsTable t) (hf : s.Fresh f) (write : Bool)
    (hold : ∀ pte, s.tables t j = some pte → s.cow.count pte.frame = 0) :
    Accounted (s.setPte t j (some ⟨f, write⟩)) := by
  have hslot := slot_setPte ht j (some ⟨f, write⟩)
  cases hpte : s.tables t j with
  | none =>
    have hx : s.slot (.inr (t, j)) = none := by rw [slot_page ht, hpte, Option.map_none]
    exact h.place hslot hx hf nofun rfl ⟨rfl, rfl, rfl⟩
  | some pte =>
    have hx : s.slot (.inr (t, j)) = some pte.frame := by
      rw [slot_page ht, hpte, Option.map_some]
    exact h.replace hslot hx hf nofun (count_same (hold pte hpte)) ⟨rfl, rfl, rfl⟩

/-- A new page table with one page. -/
theorem Kept.newTable (h : Kept s) (hdir : s.dirs (a, i) = none) (ha : s.pdbr a ≠ none)
    (ht : s.Fresh t) (hf : s.Fresh f) (hne : f ≠ t) (write : Bool) :
    Kept (((s.setPde a i (some ⟨t, true⟩)).setTable t fun _ => none).setPte t j
      (some ⟨f, write⟩)) := by
  -- The order of the first two changes does not matter.
  obtain ⟨u, hu⟩ : ∃ u, u = s.setTable t fun _ => none := ⟨_, rfl⟩
  have hcomm : (s.setPde a i (some ⟨t, true⟩)).setTable t (fun _ => none) =
      u.setPde a i (some ⟨t, true⟩) := by
    rw [hu]
    rfl
  have hudir : u.dirs (a, i) = none := by
    rw [hu]
    exact hdir
  have hempty : ∀ k, u.tables t k = none := by
    intro k
    rw [hu, tables_setTable]
  have hx : u.slot (.inl (a, i)) = none := by rw [St.slot, hudir, Option.map_none]
  have hslot : (u.setPde a i (some ⟨t, true⟩)).slot = update u.slot (.inl (a, i)) (some t) :=
    slot_setPde_some hudir (Or.inr hempty)
  have hacc : Accounted u := hu ▸ h.toAccounted.setTable ht.not_isTable _
  have hft : u.Fresh t := hu ▸ ht.setTable ht.not_isTable _
  have hff : u.Fresh f := hu ▸ hf.setTable ht.not_isTable _
  have hlive : ∀ b k, (Sum.inl (a, i) : (A × PdIndex) ⊕ (F × PtIndex)) = .inl (b, k) →
      u.pdbr b ≠ none := by
    rintro b k ⟨⟩
    rw [hu]
    exact ha
  rw [hcomm]
  have hsame : SameHolders u (u.setPde a i (some ⟨t, true⟩)) := ⟨rfl, rfl, rfl⟩
  constructor
  · apply (hacc.place hslot hx hft hlive rfl hsame).setPte
    · exact isTable_of_dir (dirs_setPde u a i (some ⟨t, true⟩))
    · refine hsame.fresh hff fun x hx => ?_
      rw [hslot, update_apply] at hx
      split at hx
      · exact hne (Option.some.inj hx).symm
      · exact hff.slot_ne x hx
    · intro pte hpte
      rw [show (u.setPde a i (some ⟨t, true⟩)).tables t j = none from hempty j] at hpte
      cases hpte
  · intro t' ht'
    by_cases heq : t' = t
    · subst heq
      refine ⟨j, ?_⟩
      rw [tables_setPte, update_self]
      exact Option.some_ne_none _
    · rw [tables_setPte_of_ne heq]
      have hold : s.IsTable t' := by
        rcases (isTable_setPde u a i (some ⟨t, true⟩)).mp ht' with ⟨pde, hpde, hframe⟩ | hother
        · obtain rfl := Option.some.inj hpde
          exact absurd hframe.symm heq
        · rw [hu] at hother
          exact (isTable_split s a i).mpr (Or.inr hother)
      obtain ⟨k, hk⟩ := h.full t' hold
      refine ⟨k, ?_⟩
      rw [hu]
      change update s.tables t (fun _ => none) t' k ≠ none
      rwa [update_of_ne heq]

/-- `map_page`. -/
theorem Kept.mapPage (h : Kept s) (ha : s.pdbr a ≠ none) (hfits : s.MapFits a i j f)
    (write : Bool) : Kept (s.mapPage a i j f write).1 := by
  unfold St.mapPage
  cases hdir : s.dirs (a, i) with
  | none =>
    have hmap : ¬ ∃ pde pte, s.entries a i j = some (pde, pte) := by
      rintro ⟨pde, pte, hentries⟩
      rw [(entries_eq_some.mp hentries).1] at hdir
      cases hdir
    cases hpop : s.popFrame with
    | none => exact h
    | some r =>
      obtain ⟨t, u⟩ := r
      obtain ⟨hu, ht⟩ := h.pop hpop
      obtain ⟨hf, -⟩ : s.Fresh f ∧ _ := by
        rcases hfits with ⟨pde, hpde, -⟩ | ⟨pde, pte, hentries, -⟩ | hfresh
        · rw [hpde] at hdir
          cases hdir
        · exact absurd ⟨pde, pte, hentries⟩ hmap
        · exact hfresh
      obtain ⟨hfu, hne⟩ := hf.pop hpop
      obtain ⟨rest, -, rfl⟩ := popFrame_eq hpop
      exact hu.newTable hdir ha ht hfu hne write
  | some pde =>
    dsimp only
    split
    · rename_i hwrite
      refine ⟨?_, fun t' => full_setPte h.full pde.frame j ⟨f, write⟩ t'⟩
      rcases hfits with ⟨pde', hpde', hro⟩ | ⟨pde', pte, hentries, rfl⟩ | ⟨hf, hold⟩
      · rw [hdir] at hpde'
        obtain rfl := Option.some.inj hpde'
        rw [hro] at hwrite
        cases hwrite
      · obtain ⟨hpde', hpte⟩ := entries_eq_some.mp hentries
        rw [hdir] at hpde'
        obtain rfl := Option.some.inj hpde'
        refine h.toAccounted.same ?_ rfl ⟨rfl, rfl, rfl⟩
        rw [slot_setPte (isTable_of_dir hdir), Option.map_some, ← slot_pte hdir hpte,
          update_eq_self]
      · exact h.toAccounted.setPte (isTable_of_dir hdir) hf write
          fun pte hpte => hold pde pte (entries_eq_some.mpr ⟨hdir, hpte⟩)
    · exact h

/-! ### The copy of a page table -/

/-- There is memory for the counter where one is missing, and no counter goes. -/
theorem setSharedPage_fits {cow : Cow F} {mem : Bool} (h : cow f = none → mem = true) :
    ∃ next, cow.setSharedPage f mem = some next ∧ ∀ g, next g = none → cow g = none := by
  have hkeep : ∀ n g, update cow f (some n) g = none → cow g = none := by
    intro n g hg
    rw [update_apply] at hg
    split at hg
    · cases hg
    · exact hg
  unfold Cow.setSharedPage
  cases hcow : cow f with
  | some n => exact ⟨_, rfl, hkeep (n + 1)⟩
  | none =>
    rw [if_pos (h hcow)]
    exact ⟨_, rfl, hkeep 1⟩

/-- Every page gets a counter. -/
theorem shareEntries_fits {mem : PtIndex → Bool} {table : PtIndex → Option (Entry F)}
    {l : List PtIndex} {cow : Cow F}
    (h : ∀ k ∈ l, ∀ pte, table k = some pte → cow pte.frame = none → mem k = true) :
    ∃ cow', St.shareEntries mem table l cow = (cow', true) := by
  induction l generalizing cow with
  | nil => exact ⟨cow, rfl⟩
  | cons k rest ih =>
    unfold St.shareEntries
    cases hk : table k with
    | none => exact ih fun k' hk' => h k' (List.mem_cons_of_mem k hk')
    | some pte =>
      obtain ⟨next, hnext, hkeep⟩ := setSharedPage_fits (h k List.mem_cons_self pte hk)
      dsimp only
      rw [hnext]
      apply ih
      intro k' hk' pte' hpte' hnone
      exact h k' (List.mem_cons_of_mem k hk') pte' hpte' (hkeep _ hnone)

/-- The counter of a frame that the page table does not map. -/
theorem shareEntries_count_of_ne {mem : PtIndex → Bool} {table : PtIndex → Option (Entry F)}
    {l : List PtIndex} {cow cow' : Cow F} (h : St.shareEntries mem table l cow = (cow', true))
    (hf : ∀ k pte, table k = some pte → pte.frame ≠ f) : cow'.count f = cow.count f := by
  induction l generalizing cow with
  | nil =>
    obtain ⟨rfl, -⟩ := Prod.mk.inj h
    rfl
  | cons k rest ih =>
    unfold St.shareEntries at h
    cases hk : table k with
    | none =>
      rw [hk] at h
      exact ih h
    | some pte =>
      rw [hk] at h
      dsimp only at h
      cases hnext : cow.setSharedPage pte.frame (mem k) with
      | none =>
        rw [hnext] at h
        cases h
      | some next =>
        rw [hnext] at h
        rw [ih h, Cow.setSharedPage_count hnext, if_neg (hf k pte hk).symm, Nat.add_zero]

/-- The entries of the copy are counted one by one. -/
theorem shareEntries_counted {mem : PtIndex → Bool} {table : PtIndex → Option (Entry F)}
    {l : List PtIndex} {cow cow' : Cow F} {slot slot' : (A × PdIndex) ⊕ (F × PtIndex) → Option F}
    (h : St.shareEntries mem table l cow = (cow', true)) (hcounted : Counted slot cow.count)
    (hnodup : l.Nodup) (hnew : ∀ k ∈ l, slot (.inr (t, k)) = none)
    (hrefs : ∀ k pte, table k = some pte → ∃ y, slot y = some pte.frame)
    (hslot : ∀ k ∈ l, slot' (.inr (t, k)) = (table k).map Entry.frame)
    (hother : ∀ y, (∀ k ∈ l, y ≠ .inr (t, k)) → slot' y = slot y) :
    Counted slot' cow'.count := by
  induction l generalizing cow slot with
  | nil =>
    obtain ⟨rfl, -⟩ := Prod.mk.inj h
    rwa [funext fun y => hother y nofun]
  | cons k rest ih =>
    obtain ⟨hk', hrest⟩ := List.nodup_cons.mp hnodup
    have hx := hnew k List.mem_cons_self
    have hslot' : ∀ k' ∈ rest, slot' (.inr (t, k')) = (table k').map Entry.frame :=
      fun k' hmem => hslot k' (List.mem_cons_of_mem k hmem)
    unfold St.shareEntries at h
    cases hk : table k with
    | none =>
      rw [hk] at h
      refine ih h hcounted hrest (fun k' hmem => hnew k' (List.mem_cons_of_mem k hmem)) hrefs
        hslot' fun y hy => ?_
      by_cases hyk : y = .inr (t, k)
      · rw [hyk, hslot k List.mem_cons_self, hk, hx, Option.map_none]
      · exact hother y (List.forall_mem_cons.mpr ⟨hyk, hy⟩)
    | some pte =>
      rw [hk] at h
      dsimp only at h
      cases hnext : cow.setSharedPage pte.frame (mem k) with
      | none =>
        rw [hnext] at h
        cases h
      | some next =>
        rw [hnext] at h
        refine ih h (hcounted.share hx (hrefs k pte hk) (Cow.setSharedPage_count hnext)) hrest
          (fun k' hmem => ?_) (fun k' pte' hpte' => ?_) hslot' fun y hy => ?_
        · have hne : (Sum.inr (t, k') : (A × PdIndex) ⊕ (F × PtIndex)) ≠ .inr (t, k) := by
            rintro ⟨⟩
            exact hk' hmem
          rw [update_of_ne hne]
          exact hnew k' (List.mem_cons_of_mem k hmem)
        · obtain ⟨y, hy⟩ := hrefs k' pte' hpte'
          refine ⟨y, ?_⟩
          rw [update_of_ne, hy]
          rintro rfl
          rw [hx] at hy
          cases hy
        · by_cases hyk : y = .inr (t, k)
          · rw [hyk, hslot k List.mem_cons_self, hk, update_self, Option.map_some]
          · rw [update_of_ne hyk]
            exact hother y (List.forall_mem_cons.mpr ⟨hyk, hy⟩)

/-- A shared page table is copied: the directory entry refers to the copy, whose pages are
read-only. -/
structure Copied (s u : St A F) (a : A) (i : PdIndex) (t new : F) : Prop where
  dirs : u.dirs = update s.dirs (a, i) (some ⟨new, true⟩)
  tables : u.tables = update s.tables new (St.readOnly (s.tables t))

variable {new : F} {u : St A F}

/-- The page table is still in use. -/
theorem Copied.isTable (hu : Copied s u a i pde.frame new) (h : Accounted s)
    (hdir : s.dirs (a, i) = some pde) (hshared : s.cow.count pde.frame ≠ 0) :
    u.IsTable t ↔ t = new ∨ s.IsTable t := by
  have hset : u.IsTable t ↔ (s.setPde a i (some ⟨new, true⟩)).IsTable t := by
    unfold St.IsTable
    rw [hu.dirs]
    rfl
  rw [hset, isTable_setPde, isTable_split s a i]
  constructor
  · rintro (⟨p, hp, hframe⟩ | hother)
    · obtain rfl := Option.some.inj hp
      exact Or.inl hframe.symm
    · exact Or.inr (Or.inr hother)
  · rintro (rfl | ⟨p, hp, hframe⟩ | hother)
    · exact Or.inl ⟨_, rfl, rfl⟩
    · rw [hdir] at hp
      obtain rfl := Option.some.inj hp
      obtain ⟨y, hne, hy⟩ := h.counted.another (slot_dir hdir) hshared
      have hkind := h.kinds _ y pde.frame (slot_dir hdir) hy
      rcases y with x | x
      · obtain ⟨q, hq, hqframe⟩ := Option.map_eq_some_iff.mp hy
        refine Or.inr ⟨x, ?_, q, hq, hqframe.trans hframe⟩
        rintro rfl
        exact hne rfl
      · cases hkind
    · exact Or.inr hother

theorem Copied.slot_new (hu : Copied s u a i pde.frame new) (h : Accounted s)
    (hdir : s.dirs (a, i) = some pde) (hshared : s.cow.count pde.frame ≠ 0) (k : PtIndex) :
    u.slot (.inr (new, k)) = (s.tables pde.frame k).map Entry.frame := by
  rw [slot_page ((hu.isTable h hdir hshared).mpr (Or.inl rfl)), hu.tables, update_self,
    St.readOnly, Option.map_map]
  rfl

theorem Copied.slot_old (hu : Copied s u a i pde.frame new) (h : Accounted s)
    (hdir : s.dirs (a, i) = some pde) (hshared : s.cow.count pde.frame ≠ 0)
    {y : (A × PdIndex) ⊕ (F × PtIndex)} (hy : ∀ k, y ≠ .inr (new, k)) :
    u.slot y = update s.slot (.inl (a, i)) (some new) y := by
  rcases y with x | ⟨t, k⟩
  · rw [St.slot, hu.dirs]
    by_cases hx : x = (a, i)
    · subst hx
      rw [update_self, update_self, Option.map_some]
    · rw [update_of_ne hx, update_of_ne (Sum.inl_injective.ne hx), St.slot]
  · have ht : t ≠ new := by
      rintro rfl
      exact hy k rfl
    have htable : u.IsTable t ↔ s.IsTable t := by
      rw [hu.isTable h hdir hshared, or_iff_right ht]
    have hsame : u.tables t = s.tables t := by rw [hu.tables, update_of_ne ht]
    rw [update_of_ne Sum.inr_ne_inl]
    by_cases hs : s.IsTable t
    · rw [slot_page hs, slot_page (htable.mpr hs), hsame]
    · rw [slot_none hs, slot_none (mt htable.mp hs)]

/-- What the entries refer to was referred to before, or is the copy. -/
theorem Copied.slot_cases (hu : Copied s u a i pde.frame new) (h : Accounted s)
    (hdir : s.dirs (a, i) = some pde) (hshared : s.cow.count pde.frame ≠ 0)
    {y : (A × PdIndex) ⊕ (F × PtIndex)} {g : F} (hy : u.slot y = some g) :
    (y = .inl (a, i) ∧ g = new) ∨ s.slot y = some g ∨
      ∃ k, y = .inr (new, k) ∧ s.slot (.inr (pde.frame, k)) = some g := by
  by_cases hcopy : ∃ k, y = .inr (new, k)
  · obtain ⟨k, rfl⟩ := hcopy
    rw [hu.slot_new h hdir hshared, ← slot_page (isTable_of_dir hdir)] at hy
    exact Or.inr (Or.inr ⟨k, rfl, hy⟩)
  · rw [hu.slot_old h hdir hshared (not_exists.mp hcopy), update_apply] at hy
    split at hy
    · rename_i hya
      exact Or.inl ⟨hya, (Option.some.inj hy).symm⟩
    · exact Or.inr (Or.inl hy)

theorem copyTable_eq {mem : PtIndex → Bool} {cow : Cow F}
    (h : St.shareEntries mem (s.tables t) (List.finRange 1024) s.cow = (cow, true)) :
    s.copyTable mem a i t new =
      (({ s.setPde a i (some ⟨new, true⟩) with cow }).setTable new (St.readOnly (s.tables t)),
        .ok) := by
  have hcow : (s.setPde a i (some ⟨new, true⟩)).cow = s.cow := rfl
  unfold St.copyTable
  dsimp only
  rw [hcow, h]

/-- The page table of a directory entry becomes private: it was not shared any more, or the
entry gets a copy of it. -/
structure Split (s u : St A F) (a : A) (i : PdIndex) (pde pde' : Entry F) : Prop where
  kept : Kept u
  dirs : u.dirs = update s.dirs (a, i) (some pde')
  write : pde'.write = true
  alone : u.cow.count pde'.frame = 0
  pdbr : u.pdbr = s.pdbr
  table : pde'.frame = pde.frame ∧ u.tables = s.tables ∧ u.cow.count = s.cow.count ∨
    s.cow.count pde.frame ≠ 0 ∧ ¬ s.Referenced pde'.frame ∧
      u.tables = update s.tables pde'.frame (St.readOnly (s.tables pde.frame)) ∧
      ∀ g, g ≠ pde.frame → (∀ k pte, s.tables pde.frame k = some pte → pte.frame ≠ g) →
        u.cow.count g = s.cow.count g

variable {pde' : Entry F}

theorem Split.dir (h : Split s u a i pde pde') : u.dirs (a, i) = some pde' := by
  rw [h.dirs, update_self]

theorem Split.push (h : Split s u a i pde pde') (hf : u.Fresh f) :
    Split s (u.pushFrame f) a i pde pde' where
  kept := h.kept.push hf
  dirs := by rw [dirs_pushFrame, h.dirs]
  write := h.write
  alone := by rw [cow_pushFrame, h.alone]
  pdbr := by rw [pdbr_pushFrame, h.pdbr]
  table := by
    rw [tables_pushFrame, cow_pushFrame]
    exact h.table

/-- The page table is not shared any more. -/
theorem Kept.split_last {cow : Cow F} (h : Kept s) (hdir : s.dirs (a, i) = some pde)
    (hcount : s.cow.count pde.frame = 0) (hcow : cow.count = s.cow.count) :
    Split s (St.setPde { s with cow } a i (some { pde with write := true })) a i pde
      { pde with write := true } where
  kept := h.same (slot_setPde_keep (s := { s with cow }) hdir true) hcow ⟨rfl, rfl, rfl⟩ rfl
  dirs := rfl
  write := rfl
  alone := (congrFun hcow pde.frame).trans hcount
  pdbr := rfl
  table := Or.inl ⟨rfl, rfl, hcow⟩

/-- The copy of a shared page table succeeds, and all frames are counted again. -/
theorem Kept.split_copy {mem : PtIndex → Bool} (h : Kept s) (hdir : s.dirs (a, i) = some pde)
    (hshared : s.cow.count pde.frame ≠ 0) (hnew : s.Fresh new)
    (hfits : s.CountersFor mem pde.frame) :
    ∃ u, St.copyTable { s with cow := (s.cow.unsetSharedPage pde.frame).1 } mem a i pde.frame
        new = (u, .ok) ∧ Split s u a i pde ⟨new, true⟩ := by
  obtain ⟨cow₁, hcow₁⟩ : ∃ cow₁, cow₁ = (s.cow.unsetSharedPage pde.frame).1 := ⟨_, rfl⟩
  have hcount₁ : ∀ g, cow₁.count g =
      if g = pde.frame then s.cow.count pde.frame - 1 else s.cow.count g := by
    rw [hcow₁]
    exact Cow.unsetSharedPage_count
  have hpages : ∀ k pte, s.tables pde.frame k = some pte → pte.frame ≠ pde.frame := by
    intro k pte hpte heq
    have hkind := h.kinds _ _ pte.frame (slot_pte hdir hpte) (heq ▸ slot_dir hdir)
    cases hkind
  have hfits₁ : ∀ k ∈ List.finRange 1024, ∀ pte, s.tables pde.frame k = some pte →
      cow₁ pte.frame = none → mem k = true := by
    intro k _ pte hpte hnone
    refine hfits k pte hpte ?_
    rwa [hcow₁, Cow.unsetSharedPage_of_ne (hpages k pte hpte)] at hnone
  obtain ⟨cow₂, hcow₂⟩ := shareEntries_fits hfits₁
  obtain ⟨u, hu⟩ : ∃ u : St A F, u = { s with
      dirs := update s.dirs (a, i) (some ⟨new, true⟩)
      tables := update s.tables new (St.readOnly (s.tables pde.frame))
      cow := cow₂ } := ⟨_, rfl⟩
  have hcopied : Copied s u a i pde.frame new := by
    rw [hu]
    exact ⟨rfl, rfl⟩
  have hsame : SameHolders s u := by
    rw [hu]
    exact ⟨rfl, rfl, rfl⟩
  have hcow : u.cow = cow₂ := by rw [hu]
  have hcounted : Counted u.slot cow₂.count := by
    have hmoved := h.counted.move (slot_dir hdir) hcount₁ hnew.slot_ne
    apply shareEntries_counted hcow₂ hmoved (List.nodup_finRange 1024)
    · intro k _
      rw [update_of_ne Sum.inr_ne_inl, slot_none hnew.not_isTable]
    · intro k pte hpte
      refine ⟨.inr (pde.frame, k), ?_⟩
      rw [update_of_ne Sum.inr_ne_inl, slot_pte hdir hpte]
    · exact fun k _ => hcopied.slot_new h.toAccounted hdir hshared k
    · exact fun y hy =>
        hcopied.slot_old h.toAccounted hdir hshared fun k => hy k (List.mem_finRange k)
  have hcounts : ∀ g, g ≠ pde.frame →
      (∀ k pte, s.tables pde.frame k = some pte → pte.frame ≠ g) →
        u.cow.count g = s.cow.count g := by
    intro g hg hpage
    rw [hcow, shareEntries_count_of_ne hcow₂ hpage, hcount₁, if_neg hg]
  refine ⟨u, ?_, ⟨?_, ?_⟩, hcopied.dirs, rfl, ?_, hsame.pdbr,
    Or.inr ⟨hshared, hnew.1, hcopied.tables, hcounts⟩⟩
  · rw [← hcow₁, copyTable_eq (s := { s with cow := cow₁ }) hcow₂, hu]
    rfl
  · have hcases {y : (A × PdIndex) ⊕ (F × PtIndex)} {g : F} (hy : u.slot y = some g) :=
      hcopied.slot_cases h.toAccounted hdir hshared hy
    apply h.toAccounted.change hsame
    · rw [hcow]
      exact hcounted
    · intro y z g hy hz
      have hkind : ∀ {y}, u.slot y = some g →
          y = .inl (a, i) ∧ g = new ∨ ∃ w, w.isLeft = y.isLeft ∧ s.slot w = some g := by
        intro y hy
        rcases hcases hy with hdir | hold | ⟨k, rfl, hold⟩
        · exact Or.inl hdir
        · exact Or.inr ⟨y, rfl, hold⟩
        · exact Or.inr ⟨.inr (pde.frame, k), rfl, hold⟩
      rcases hkind hy with ⟨rfl, rfl⟩ | ⟨w, hwy, hw⟩
      · rcases hkind hz with ⟨rfl, -⟩ | ⟨v, -, hv⟩
        · rfl
        · exact absurd hv (hnew.slot_ne v)
      · rcases hkind hz with ⟨-, rfl⟩ | ⟨v, hvz, hv⟩
        · exact absurd hw (hnew.slot_ne w)
        · rw [← hwy, ← hvz]
          exact h.kinds w v g hw hv
    · intro b k g hy
      rcases hcases hy with ⟨hdir', -⟩ | hold | ⟨k, hcopy, -⟩
      · obtain ⟨rfl, rfl⟩ := Prod.mk.inj (Sum.inl.inj hdir')
        exact h.live b k pde.frame (slot_dir hdir)
      · exact h.live b k g hold
      · cases hcopy
    · intro y g hy
      rcases hcases hy with ⟨-, rfl⟩ | hold | ⟨k, -, hold⟩
      · exact Or.inr hnew
      · exact Or.inl ⟨y, hold⟩
      · exact Or.inl ⟨_, hold⟩
  · intro t ht
    by_cases hnewt : t = new
    · obtain ⟨k, hk⟩ := h.full pde.frame (isTable_of_dir hdir)
      refine ⟨k, ?_⟩
      rw [hnewt, hcopied.tables, update_self, St.readOnly]
      exact Option.map_eq_none_iff.not.mpr hk
    · rw [hcopied.tables, update_of_ne hnewt]
      exact h.full t (((hcopied.isTable h.toAccounted hdir hshared).mp ht).resolve_left hnewt)
  · rw [hcounts new]
    · exact h.toAccounted.count_fresh hnew
    · rintro rfl
      exact hnew.not_isTable (isTable_of_dir hdir)
    · rintro k pte hpte rfl
      exact hnew.slot_ne _ (slot_pte hdir hpte)

/-! ### Page faults -/

/-- `page_fault_handler`. -/
theorem Kept.pageFaultHandler (h : Kept s) (ha : s.pdbr a ≠ none)
    (hentries : s.entries a i j = none) (null : Bool) :
    Kept (s.pageFaultHandler a i j null).1 := by
  unfold St.pageFaultHandler
  split
  · exact h
  · cases hpop : s.popFrame with
    | none => exact h
    | some r =>
      obtain ⟨f, u⟩ := r
      obtain ⟨hu, hf⟩ := h.pop hpop
      obtain ⟨rest, -, rfl⟩ := popFrame_eq hpop
      refine hu.mapPage ha (Or.inr (Or.inr ⟨hf, fun pde pte hmapped => ?_⟩)) true
      have hmapped : s.entries a i j = some (pde, pte) := hmapped
      rw [hentries] at hmapped
      cases hmapped

/-- The first half of `page_fault_cow_handler`. -/
theorem Kept.cowTable {mem : PtIndex → Bool} (h : Kept s) (hdir : s.dirs (a, i) = some pde)
    (hfits : pde.write = false → s.freeFrames ≠ [] → s.cow.count pde.frame ≠ 0 →
      s.CountersFor mem pde.frame) :
    s.cowTable mem a i pde = (s, .ok) ∧ pde.write = true ∨
      s.cowTable mem a i pde = (s, .enomem) ∨
      pde.write = false ∧ ∃ u pde', s.cowTable mem a i pde = (u, .ok) ∧
        Split s u a i pde pde' := by
  unfold St.cowTable
  cases hwrite : pde.write with
  | true => exact Or.inl ⟨rfl, rfl⟩
  | false =>
    refine Or.inr ?_
    rw [if_neg Bool.false_ne_true]
    cases hpop : s.popFrame with
    | none => exact Or.inl rfl
    | some r =>
      obtain ⟨new, v⟩ := r
      obtain ⟨hv, hnew⟩ := h.pop hpop
      obtain ⟨rest, hfree, rfl⟩ := popFrame_eq hpop
      refine Or.inr ⟨rfl, ?_⟩
      dsimp only
      by_cases hcount : s.cow.count pde.frame = 0
      · obtain ⟨cow, hunset, hsame⟩ := Cow.unsetSharedPage_last hcount
        rw [hunset]
        have hsplit := hv.split_last hdir hcount hsame
        have hpush := hsplit.push (hnew.same (slot_setPde_keep (s := { s with
          freeFrames := rest, popped := s.popped + 1, cow }) hdir true) ⟨rfl, rfl, rfl⟩)
        exact ⟨_, _, rfl, hpush.kept, hpush.dirs, hpush.write, hpush.alone, hpush.pdbr, hpush.table⟩
      · obtain ⟨n, hn⟩ := Cow.unsetSharedPage_shared hcount
        rw [hn]
        obtain ⟨u, hu, hsplit⟩ := hv.split_copy hdir hcount hnew
          (hfits hwrite (hfree ▸ List.cons_ne_nil new rest) hcount)
        exact ⟨u, _, hu, hsplit.kept, hsplit.dirs, hsplit.write, hsplit.alone, hsplit.pdbr,
          hsplit.table⟩

theorem mapPage_mapped (hdir : s.dirs (a, i) = some pde) (hwrite : pde.write = true) (j : PtIndex)
    (f : F) (write : Bool) :
    s.mapPage a i j f write = (s.setPte pde.frame j (some ⟨f, write⟩), .ok) := by
  unfold St.mapPage
  rw [hdir]
  exact if_pos hwrite

/-- The write bit of a page changes. -/
theorem slot_setPte_keep (hdir : s.dirs (a, i) = some pde)
    (hpte : s.tables pde.frame j = some pte) (write : Bool) :
    (s.setPte pde.frame j (some { pte with write })).slot = s.slot := by
  rw [slot_setPte (isTable_of_dir hdir), Option.map_some, ← slot_pte hdir hpte, update_eq_self]

/-- The second half. -/
theorem Kept.cowPage (h : Kept s) (hdir : s.dirs (a, i) = some pde) (hwrite : pde.write = true)
    (hpte : s.tables pde.frame j = some pte) : Kept (s.cowPage a i j pde.frame pte).1 := by
  unfold St.cowPage
  cases hpop : s.popFrame with
  | none => exact h
  | some r =>
    obtain ⟨new, u⟩ := r
    obtain ⟨hu, hnew⟩ := h.pop hpop
    obtain ⟨rest, -, rfl⟩ := popFrame_eq hpop
    dsimp only
    by_cases hcount : s.cow.count pte.frame = 0
    · obtain ⟨cow, hunset, hsame⟩ := Cow.unsetSharedPage_last hcount
      rw [hunset]
      dsimp only
      have hslot := slot_setPte_keep (s := { s with
        freeFrames := rest, popped := s.popped + 1, cow }) hdir hpte true
      apply Kept.push
      · exact ⟨hu.toAccounted.same hslot hsame ⟨rfl, rfl, rfl⟩,
          fun t => full_setPte hu.full _ j _ t⟩
      · exact hnew.same hslot ⟨rfl, rfl, rfl⟩
    · obtain ⟨n, hn⟩ := Cow.unsetSharedPage_shared hcount
      rw [hn]
      dsimp only
      rw [mapPage_mapped (s := { s with
        freeFrames := rest, popped := s.popped + 1, cow := _ }) hdir hwrite]
      refine ⟨?_, fun t => full_setPte hu.full _ j _ t⟩
      have hslot := slot_setPte (s := { s with
          freeFrames := rest, popped := s.popped + 1, cow := (s.cow.unsetSharedPage pte.frame).1 })
        (isTable_of_dir hdir) j (some ⟨new, true⟩)
      exact hu.toAccounted.replace hslot (slot_pte hdir hpte) hnew nofun
        Cow.unsetSharedPage_count ⟨rfl, rfl, rfl⟩

/-- `page_fault_cow_handler`. -/
theorem Kept.pageFaultCowHandler {mem : PtIndex → Bool} {null : Bool} (h : Kept s)
    (hdir : s.dirs (a, i) = some pde)
    (hfits : null = false → pde.write = false → s.freeFrames ≠ [] →
      s.cow.count pde.frame ≠ 0 → s.CountersFor mem pde.frame) :
    Kept (s.pageFaultCowHandler mem a i j null pde).1 := by
  unfold St.pageFaultCowHandler
  split
  · exact h
  · rename_i hnull
    have hsecond : ∀ {u : St A F} {p pde' pte : Entry F}, Kept u → u.dirs (a, i) = some p →
        p.write = true → u.entries a i j = some (pde', pte) →
          Kept (u.cowPage a i j pde'.frame pte).1 := by
      intro u p pde' pte hu hp hwrite hentries
      obtain ⟨hdir', hpte⟩ := entries_eq_some.mp hentries
      rw [hp] at hdir'
      obtain rfl := Option.some.inj hdir'
      exact hu.cowPage hp hwrite hpte
    rcases h.cowTable hdir (hfits (Bool.not_eq_true _ ▸ hnull)) with
      ⟨hcow, hwrite⟩ | hcow | ⟨-, u, pde', hcow, hsplit⟩
    · rw [hcow]
      dsimp only
      split
      · exact h
      · exact hsecond h hdir hwrite ‹_›
    · rw [hcow]
      exact h
    · rw [hcow]
      dsimp only
      split
      · exact hsplit.kept
      · exact hsecond hsplit.kept hsplit.dir hsplit.write ‹_›

end

end OsdevArchive.Minirighi.Paging
