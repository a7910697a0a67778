import OsdevArchive.Lib.References
import OsdevArchive.Minirighi.FreeFrames

/-!
How often the entries of page directories and page tables refer to a frame of user memory,
against its counter among the shared pages. The counter is one less in every state that is
reached without running out of memory in the middle of a change (`arch/i386/kernel/paging.c`,
`kernel/task.c`, `kernel/kpagerd.c`).
-/

namespace OsdevArchive.Minirighi.Paging

open Function OsdevArchive.Lib.References OsdevArchive.Lib.Runs

variable {A F : Type*} {s s' : St A F} {a : A} {i : PdIndex} {j : PtIndex} {f t : F}
variable {pde : Entry F}

/-! ### Entries as references -/

/-- A page table in use: an entry of a page directory refers to it. -/
def St.IsTable (s : St A F) (t : F) : Prop := ∃ x pde, s.dirs x = some pde ∧ pde.frame = t

open Classical in
/-- What an entry of a page directory, or of a page table in use, refers to. A page table that
is shared has its entries once. -/
noncomputable def St.slot (s : St A F) : (A × PdIndex) ⊕ (F × PtIndex) → Option F
  | .inl x => (s.dirs x).map Entry.frame
  | .inr (t, j) => if s.IsTable t then (s.tables t j).map Entry.frame else none

/-- The references to each frame of user memory are one more than its counter, and no frame
on the stack is referred to. -/
structure St.RefsExact (s : St A F) : Prop where
  counted : ∀ f, (referers s.slot f).Nonempty →
    (referers s.slot f).encard = s.cow.count f + 1
  apart : ∀ f ∈ s.freeFrames, ¬ s.Referenced f

theorem slot_page (h : s.IsTable t) (j : PtIndex) :
    s.slot (.inr (t, j)) = (s.tables t j).map Entry.frame :=
  if_pos h

theorem slot_none (h : ¬ s.IsTable t) (j : PtIndex) : s.slot (.inr (t, j)) = none :=
  if_neg h

theorem slot_dir (h : s.dirs (a, i) = some pde) : s.slot (.inl (a, i)) = some pde.frame := by
  rw [St.slot, h, Option.map_some]

theorem isTable_of_dir (h : s.dirs (a, i) = some pde) : s.IsTable pde.frame :=
  ⟨(a, i), pde, h, rfl⟩

theorem isTable_iff : s.IsTable t ↔ ∃ x, s.slot (.inl x) = some t := by
  simp only [St.IsTable, St.slot, Option.map_eq_some_iff]

theorem referenced_iff :
    s.Referenced f ↔ (∃ x, s.slot x = some f) ∨ (∃ a, s.pdbr a = some f) ∨ f ∈ s.kernel := by
  rw [St.Referenced]
  apply or_congr_left
  constructor
  · rintro ⟨x, pde, hx, rfl | ⟨j, pte, hj, rfl⟩⟩
    · exact ⟨.inl x, slot_dir hx⟩
    · refine ⟨.inr (pde.frame, j), ?_⟩
      rw [slot_page (isTable_of_dir hx), hj, Option.map_some]
  · rintro ⟨x | ⟨t, j⟩, hx⟩
    · obtain ⟨pde, hpde, hframe⟩ := Option.map_eq_some_iff.mp hx
      exact ⟨x, pde, hpde, Or.inl hframe⟩
    · by_cases ht : s.IsTable t
      · rw [slot_page ht] at hx
        obtain ⟨pte, hpte, hframe⟩ := Option.map_eq_some_iff.mp hx
        obtain ⟨x, pde, hpde, rfl⟩ := ht
        exact ⟨x, pde, hpde, Or.inr ⟨j, pte, hpte, hframe⟩⟩
      · rw [slot_none ht] at hx
        cases hx

theorem slot_setTable [DecidableEq F] {table : PtIndex → Option (Entry F)} (h : ¬ s.IsTable t) :
    (s.setTable t table).slot = s.slot := by
  funext x
  rcases x with x | ⟨t', j⟩
  · rfl
  · by_cases ht' : t' = t
    · subst ht'
      rw [slot_none h]
      exact slot_none (s := s.setTable t' table) h j
    · have hsame : (s.setTable t table).tables t' = s.tables t' := update_of_ne ht' ..
      simp only [St.slot, hsame]
      rfl

section

variable [DecidableEq A]

theorem dirs_setPde (s : St A F) (a : A) (i : PdIndex) (pde : Option (Entry F)) :
    (s.setPde a i pde).dirs (a, i) = pde :=
  update_self ..

theorem dirs_setPde_of_ne {x : A × PdIndex} (h : x ≠ (a, i)) (pde : Option (Entry F)) :
    (s.setPde a i pde).dirs x = s.dirs x :=
  update_of_ne h ..

theorem isTable_setPde (s : St A F) (a : A) (i : PdIndex) (p : Option (Entry F)) :
    (s.setPde a i p).IsTable t ↔ (∃ pde, p = some pde ∧ pde.frame = t) ∨
      ∃ x, x ≠ (a, i) ∧ ∃ pde, s.dirs x = some pde ∧ pde.frame = t := by
  constructor
  · rintro ⟨x, pde, hx, hframe⟩
    by_cases hax : x = (a, i)
    · subst hax
      rw [dirs_setPde] at hx
      exact Or.inl ⟨pde, hx, hframe⟩
    · rw [dirs_setPde_of_ne hax] at hx
      exact Or.inr ⟨x, hax, pde, hx, hframe⟩
  · rintro (⟨pde, rfl, hframe⟩ | ⟨x, hax, pde, hx, hframe⟩)
    · exact ⟨(a, i), pde, dirs_setPde .., hframe⟩
    · exact ⟨x, pde, by rw [dirs_setPde_of_ne hax, hx], hframe⟩

theorem setPde_self (s : St A F) (a : A) (i : PdIndex) : s.setPde a i (s.dirs (a, i)) = s := by
  rw [St.setPde, update_eq_self]

theorem isTable_split (s : St A F) (a : A) (i : PdIndex) :
    s.IsTable t ↔ (∃ pde, s.dirs (a, i) = some pde ∧ pde.frame = t) ∨
      ∃ x, x ≠ (a, i) ∧ ∃ pde, s.dirs x = some pde ∧ pde.frame = t := by
  rw [← isTable_setPde, setPde_self]

variable [DecidableEq F]

theorem slot_setPte (h : s.IsTable t) (j : PtIndex) (pte : Option (Entry F)) :
    (s.setPte t j pte).slot = update s.slot (.inr (t, j)) (pte.map Entry.frame) := by
  funext x
  rcases x with x | ⟨t', k⟩
  · rw [update_of_ne Sum.inl_ne_inr]
    rfl
  · by_cases ht' : t' = t
    · subst ht'
      have htable : (s.setPte t' j pte).tables t' = update (s.tables t') j pte := update_self ..
      rw [slot_page (s := s.setPte t' j pte) h, htable]
      by_cases hk : k = j
      · subst hk
        rw [update_self, update_self]
      · have hne : (Sum.inr (t', k) : (A × PdIndex) ⊕ (F × PtIndex)) ≠ .inr (t', j) := by
          rintro ⟨⟩
          exact hk rfl
        rw [update_of_ne hk, update_of_ne hne, slot_page h]
    · have hne : (Sum.inr (t', k) : (A × PdIndex) ⊕ (F × PtIndex)) ≠ .inr (t, j) := by
        rintro ⟨⟩
        exact ht' rfl
      have hsame : (s.setPte t j pte).tables t' = s.tables t' := update_of_ne ht' ..
      rw [update_of_ne hne]
      simp only [St.slot, hsame]
      rfl

/-- A page table that is in use before or behind a change of an entry, and not both, is
empty. -/
theorem slot_setPde (a : A) (i : PdIndex) (pde : Option (Entry F))
    (h : ∀ t, (s.IsTable t ↔ (s.setPde a i pde).IsTable t) ∨ ∀ j, s.tables t j = none) :
    (s.setPde a i pde).slot = update s.slot (.inl (a, i)) (pde.map Entry.frame) := by
  funext x
  rcases x with x | ⟨t, j⟩
  · by_cases hx : x = (a, i)
    · subst hx
      rw [update_self, St.slot, dirs_setPde]
    · have hne : (Sum.inl x : (A × PdIndex) ⊕ (F × PtIndex)) ≠ .inl (a, i) := by
        rintro ⟨⟩
        exact hx rfl
      rw [update_of_ne hne, St.slot, St.slot, dirs_setPde_of_ne hx]
  · rw [update_of_ne Sum.inr_ne_inl]
    have hsame : (s.setPde a i pde).tables = s.tables := rfl
    simp only [St.slot, hsame]
    rcases h t with hiff | hempty
    · rw [hiff]
    · rw [hempty, Option.map_none, ite_self, ite_self]

/-- A directory entry that still refers to the same page table. -/
theorem slot_setPde_keep (h : s.dirs (a, i) = some pde) (write : Bool) :
    (s.setPde a i (some { pde with write })).slot = s.slot := by
  rw [slot_setPde, Option.map_some, ← slot_dir h, update_eq_self]
  intro t
  left
  rw [isTable_setPde, isTable_split s a i, h]
  simp

/-- A new directory entry, for a page table that is empty or in use. -/
theorem slot_setPde_some (h : s.dirs (a, i) = none)
    (ht : s.IsTable pde.frame ∨ ∀ j, s.tables pde.frame j = none) :
    (s.setPde a i (some pde)).slot = update s.slot (.inl (a, i)) (some pde.frame) := by
  rw [slot_setPde, Option.map_some]
  intro t
  by_cases hframe : pde.frame = t
  · subst hframe
    refine ht.imp_left fun htable => ?_
    exact ⟨fun _ => isTable_of_dir (dirs_setPde ..), fun _ => htable⟩
  · left
    rw [isTable_setPde, isTable_split s a i, h]
    simp [hframe]

/-- A directory entry less, for a page table that is empty or still in use. -/
theorem slot_setPde_none (h : s.dirs (a, i) = some pde)
    (ht : (s.setPde a i none).IsTable pde.frame ∨ ∀ j, s.tables pde.frame j = none) :
    (s.setPde a i none).slot = update s.slot (.inl (a, i)) none := by
  rw [slot_setPde, Option.map_none]
  intro t
  by_cases hframe : pde.frame = t
  · subst hframe
    refine ht.imp_left fun htable => ?_
    exact ⟨fun _ => htable, fun _ => isTable_of_dir h⟩
  · left
    rw [isTable_setPde, isTable_split s a i, h]
    simp [hframe]

end

/-! ### The invariant -/

/-- A frame that nobody has. -/
def St.Fresh (s : St A F) (f : F) : Prop := ¬ s.Referenced f ∧ f ∉ s.freeFrames

/-- Every frame is counted, and has one use: as a page table, as a page, as a page directory,
in the kernel or on the stack. -/
structure Accounted (s : St A F) : Prop where
  counted : Counted s.slot s.cow.count
  kinds : ∀ x y f, s.slot x = some f → s.slot y = some f → x.isLeft = y.isLeft
  live : ∀ a i f, s.slot (.inl (a, i)) = some f → s.pdbr a ≠ none
  taken_apart : ∀ f, (∃ a, s.pdbr a = some f) ∨ f ∈ s.kernel → ∀ x, s.slot x ≠ some f
  dirs_apart : ∀ a b f, s.pdbr a = some f → s.pdbr b = some f → a = b
  kernel_apart : ∀ f ∈ s.kernel, ∀ a, s.pdbr a ≠ some f
  kernel_nodup : s.kernel.Nodup
  free_apart : ∀ f ∈ s.freeFrames, ¬ s.Referenced f
  free_nodup : s.freeFrames.Nodup

theorem Accounted.refsExact (h : Accounted s) : s.RefsExact where
  counted := fun _ ⟨_, hx⟩ => h.counted.of_ref hx
  apart := h.free_apart

/-- The page directories, the frames of the kernel and the stack are the same. -/
structure SameHolders (s s' : St A F) : Prop where
  pdbr : s'.pdbr = s.pdbr
  kernel : s'.kernel = s.kernel
  freeFrames : s'.freeFrames = s.freeFrames

theorem SameHolders.referenced (h : SameHolders s s') (hf : s'.Referenced f) :
    s.Referenced f ∨ ∃ x, s'.slot x = some f := by
  rw [referenced_iff] at hf ⊢
  rw [h.pdbr, h.kernel] at hf
  rcases hf with hslot | htaken
  · exact Or.inr hslot
  · exact Or.inl (Or.inr htaken)

theorem SameHolders.fresh (h : SameHolders s s') (hf : s.Fresh f) (hnew : ∀ x, s'.slot x ≠ some f) :
    s'.Fresh f := by
  refine ⟨fun href => ?_, by rw [h.freeFrames]; exact hf.2⟩
  rcases h.referenced href with hold | ⟨x, hx⟩
  · exact hf.1 hold
  · exact hnew x hx

theorem St.Fresh.slot_ne (h : s.Fresh f) (x : (A × PdIndex) ⊕ (F × PtIndex)) : s.slot x ≠ some f :=
  fun hx => h.1 (referenced_iff.mpr (Or.inl ⟨x, hx⟩))

theorem St.Fresh.not_isTable (h : s.Fresh f) : ¬ s.IsTable f := fun ht => by
  obtain ⟨x, hx⟩ := isTable_iff.mp ht
  exact h.slot_ne _ hx

/-- The entries change, and refer to frames that were referred to or that nobody had. -/
theorem Accounted.change (h : Accounted s) (hsame : SameHolders s s')
    (hcounted : Counted s'.slot s'.cow.count)
    (hkinds : ∀ x y f, s'.slot x = some f → s'.slot y = some f → x.isLeft = y.isLeft)
    (hlive : ∀ a i f, s'.slot (.inl (a, i)) = some f → s.pdbr a ≠ none)
    (hnew : ∀ x f, s'.slot x = some f → (∃ y, s.slot y = some f) ∨ s.Fresh f) :
    Accounted s' where
  counted := hcounted
  kinds := hkinds
  live := fun a i f hx => by
    rw [hsame.pdbr]
    exact hlive a i f hx
  taken_apart := fun f htaken x hx => by
    rw [hsame.pdbr, hsame.kernel] at htaken
    rcases hnew x f hx with ⟨y, hy⟩ | hfresh
    · exact h.taken_apart f htaken y hy
    · exact hfresh.1 (referenced_iff.mpr (Or.inr htaken))
  dirs_apart := by
    rw [hsame.pdbr]
    exact h.dirs_apart
  kernel_apart := by
    rw [hsame.pdbr, hsame.kernel]
    exact h.kernel_apart
  kernel_nodup := by
    rw [hsame.kernel]
    exact h.kernel_nodup
  free_apart := fun f hf href => by
    rw [hsame.freeFrames] at hf
    rcases hsame.referenced href with hold | ⟨x, hx⟩
    · exact h.free_apart f hf hold
    · rcases hnew x f hx with ⟨y, hy⟩ | hfresh
      · exact h.free_apart f hf (referenced_iff.mpr (Or.inl ⟨y, hy⟩))
      · exact hfresh.2 hf
  free_nodup := by
    rw [hsame.freeFrames]
    exact h.free_nodup

/-- Neither the entries nor the counters change. -/
theorem Accounted.same (h : Accounted s) (hslot : s'.slot = s.slot)
    (hcow : s'.cow.count = s.cow.count) (hsame : SameHolders s s') : Accounted s' := by
  apply h.change hsame
  · rw [hslot, hcow]
    exact h.counted
  · rw [hslot]
    exact h.kinds
  · rw [hslot]
    exact h.live
  · rw [hslot]
    exact fun x f hx => Or.inl ⟨x, hx⟩

/-! ### The stack -/

theorem popFrame_eq (h : s.popFrame = some (f, s')) : ∃ rest, s.freeFrames = f :: rest ∧
    s' = { s with freeFrames := rest, popped := s.popped + 1 } := by
  unfold St.popFrame at h
  split at h
  · cases h
  · rename_i g rest hfree
    obtain ⟨rfl, rfl⟩ := Prod.mk.inj (Option.some.inj h)
    exact ⟨rest, hfree, rfl⟩

theorem popFrame_cons {rest : List F} (h : s.freeFrames = f :: rest) :
    s.popFrame = some (f, { s with freeFrames := rest, popped := s.popped + 1 }) := by
  unfold St.popFrame
  rw [h]

theorem Accounted.pop (h : Accounted s) (hpop : s.popFrame = some (f, s')) :
    Accounted s' ∧ s'.Fresh f := by
  obtain ⟨rest, hfree, rfl⟩ := popFrame_eq hpop
  have hmem : ∀ g ∈ f :: rest, ¬ s.Referenced g := by
    rw [← hfree]
    exact h.free_apart
  obtain ⟨hnew, hrest⟩ := List.nodup_cons.mp (hfree ▸ h.free_nodup)
  refine ⟨⟨h.counted, h.kinds, h.live, h.taken_apart, h.dirs_apart, h.kernel_apart,
    h.kernel_nodup, fun g hg => hmem g (List.mem_cons_of_mem f hg), hrest⟩, ?_, hnew⟩
  exact hmem f List.mem_cons_self

theorem St.Fresh.pop {g : F} (hf : s.Fresh f) (hpop : s.popFrame = some (g, s')) :
    s'.Fresh f ∧ f ≠ g := by
  obtain ⟨rest, hfree, rfl⟩ := popFrame_eq hpop
  have hnot : f ∉ g :: rest := by
    rw [← hfree]
    exact hf.2
  exact ⟨⟨hf.1, fun hrest => hnot (List.mem_cons_of_mem g hrest)⟩,
    List.ne_of_not_mem_cons hnot⟩

theorem Accounted.push (h : Accounted s) (hf : s.Fresh f) : Accounted (s.pushFrame f) := by
  unfold St.pushFrame
  split
  · exact h
  · refine ⟨h.counted, h.kinds, h.live, h.taken_apart, h.dirs_apart, h.kernel_apart,
      h.kernel_nodup, fun g hg => ?_, List.nodup_cons.mpr ⟨hf.2, h.free_nodup⟩⟩
    rcases List.mem_cons.mp hg with rfl | hold
    · exact hf.1
    · exact h.free_apart g hold

/-- The kernel has a frame that nobody had. -/
theorem Accounted.take (h : Accounted s) (hf : s.Fresh f) :
    Accounted { s with kernel := f :: s.kernel } where
  counted := h.counted
  kinds := h.kinds
  live := h.live
  taken_apart := by
    rintro g (hdir | hkernel) x
    · exact h.taken_apart g (Or.inl hdir) x
    · rcases List.mem_cons.mp hkernel with rfl | hold
      · exact hf.slot_ne x
      · exact h.taken_apart g (Or.inr hold) x
  dirs_apart := h.dirs_apart
  kernel_apart := fun g hg a hdir => by
    rcases List.mem_cons.mp hg with rfl | hold
    · exact hf.1 (referenced_iff.mpr (Or.inr (Or.inl ⟨a, hdir⟩)))
    · exact h.kernel_apart g hold a hdir
  kernel_nodup := List.nodup_cons.mpr
    ⟨fun hold => hf.1 (referenced_iff.mpr (Or.inr (Or.inr hold))), h.kernel_nodup⟩
  free_apart := fun g hg href => by
    rcases referenced_iff.mp href with hslot | hdir | hkernel
    · exact h.free_apart g hg (referenced_iff.mpr (Or.inl hslot))
    · exact h.free_apart g hg (referenced_iff.mpr (Or.inr (Or.inl hdir)))
    · rcases List.mem_cons.mp hkernel with rfl | hold
      · exact hf.2 hg
      · exact h.free_apart g hg (referenced_iff.mpr (Or.inr (Or.inr hold)))
  free_nodup := h.free_nodup

/-- The kernel gives a frame back. -/
theorem Accounted.give [DecidableEq F] (h : Accounted s) (hf : f ∈ s.kernel) :
    Accounted { s with kernel := s.kernel.erase f } ∧
      St.Fresh { s with kernel := s.kernel.erase f } f := by
  have hsub : ∀ g, St.Referenced { s with kernel := s.kernel.erase f } g → s.Referenced g := by
    intro g
    rw [referenced_iff, referenced_iff]
    exact Or.imp_right (Or.imp_right List.mem_of_mem_erase)
  refine ⟨⟨h.counted, h.kinds, h.live, ?_, h.dirs_apart, ?_, ?_, ?_, h.free_nodup⟩, ?_, ?_⟩
  · exact fun g hg => h.taken_apart g (hg.imp_right List.mem_of_mem_erase)
  · exact fun g hg => h.kernel_apart g (List.mem_of_mem_erase hg)
  · exact h.kernel_nodup.erase f
  · exact fun g hg href => h.free_apart g hg (hsub g href)
  · rw [referenced_iff]
    rintro (⟨x, hx⟩ | ⟨a, ha⟩ | hkernel)
    · exact h.taken_apart f (Or.inr hf) x hx
    · exact h.kernel_apart f hf a ha
    · exact h.kernel_nodup.not_mem_erase hkernel
  · exact fun hfree => h.free_apart f hfree (referenced_iff.mpr (Or.inr (Or.inr hf)))

/-! ### Page directories -/

theorem clearDir_eq [DecidableEq A] (h : ∀ i, s.dirs (a, i) = none) : s.clearDir a = s := by
  have hdirs : (fun x => if x.1 = a then none else s.dirs x) = s.dirs := by
    funext ⟨b, i⟩
    split
    · rename_i hb
      subst hb
      exact (h i).symm
    · rfl
  rw [St.clearDir, hdirs]

theorem Accounted.dirs_none (h : Accounted s) (ha : s.pdbr a = none) (i : PdIndex) :
    s.dirs (a, i) = none := by
  cases hx : s.dirs (a, i) with
  | none => rfl
  | some pde => exact absurd ha (h.live a i pde.frame (slot_dir hx))

/-- A frame that nobody had becomes a page directory. -/
theorem Accounted.newDir [DecidableEq A] (h : Accounted s) (ha : s.pdbr a = none)
    (hf : s.Fresh f) : Accounted { s with pdbr := update s.pdbr a (some f) } := by
  have hcases : ∀ b g, update s.pdbr a (some f) b = some g → b = a ∧ g = f ∨
      s.pdbr b = some g := by
    intro b g hb
    rw [update_apply] at hb
    split at hb
    · rename_i hba
      exact Or.inl ⟨hba, (Option.some.inj hb).symm⟩
    · exact Or.inr hb
  have hdir : ∀ b, s.pdbr b ≠ some f := fun b hb =>
    hf.1 (referenced_iff.mpr (Or.inr (Or.inl ⟨b, hb⟩)))
  constructor
  · exact h.counted
  · exact h.kinds
  · intro b i g hx
    dsimp only
    rw [update_apply]
    split
    · exact Option.some_ne_none f
    · exact h.live b i g hx
  · rintro g (⟨b, hb⟩ | hkernel) x
    · rcases hcases b g hb with ⟨-, rfl⟩ | hold
      · exact hf.slot_ne x
      · exact h.taken_apart g (Or.inl ⟨b, hold⟩) x
    · exact h.taken_apart g (Or.inr hkernel) x
  · intro b c g hb hc
    rcases hcases b g hb with ⟨rfl, rfl⟩ | hold
    · rcases hcases c g hc with ⟨rfl, -⟩ | hold
      · rfl
      · exact (hdir c hold).elim
    · rcases hcases c g hc with ⟨rfl, rfl⟩ | hold'
      · exact (hdir b hold).elim
      · exact h.dirs_apart b c g hold hold'
  · intro g hg b hb
    rcases hcases b g hb with ⟨-, rfl⟩ | hold
    · exact hf.1 (referenced_iff.mpr (Or.inr (Or.inr hg)))
    · exact h.kernel_apart g hg b hold
  · exact h.kernel_nodup
  · intro g hg href
    rcases referenced_iff.mp href with hslot | ⟨b, hb⟩ | hkernel
    · exact h.free_apart g hg (referenced_iff.mpr (Or.inl hslot))
    · rcases hcases b g hb with ⟨-, rfl⟩ | hold
      · exact hf.2 hg
      · exact h.free_apart g hg (referenced_iff.mpr (Or.inr (Or.inl ⟨b, hold⟩)))
    · exact h.free_apart g hg (referenced_iff.mpr (Or.inr (Or.inr hkernel)))
  · exact h.free_nodup

/-- The page directory of an address space without pages is given up. -/
theorem Accounted.endDir [DecidableEq A] (h : Accounted s) (ha : s.pdbr a = some f)
    (hdirs : ∀ i, s.dirs (a, i) = none) :
    Accounted { s with pdbr := update s.pdbr a none } ∧
      St.Fresh { s with pdbr := update s.pdbr a none } f := by
  have hold : ∀ b g, update s.pdbr a none b = some g → b ≠ a ∧ s.pdbr b = some g := by
    intro b g hb
    rw [update_apply] at hb
    split at hb
    · cases hb
    · rename_i hba
      exact ⟨hba, hb⟩
  have hsub : ∀ g, St.Referenced { s with pdbr := update s.pdbr a none } g → s.Referenced g := by
    intro g
    rw [referenced_iff, referenced_iff]
    exact Or.imp_right (Or.imp_left fun ⟨b, hb⟩ => ⟨b, (hold b g hb).2⟩)
  refine ⟨⟨h.counted, h.kinds, ?_, ?_, ?_, ?_, h.kernel_nodup, ?_, h.free_nodup⟩, ?_, ?_⟩
  · intro b i g hx
    have hba : b ≠ a := by
      rintro rfl
      rw [St.slot, hdirs i] at hx
      cases hx
    dsimp only
    rw [update_of_ne hba]
    exact h.live b i g hx
  · exact fun g hg => h.taken_apart g (hg.imp_left fun ⟨b, hb⟩ => ⟨b, (hold b g hb).2⟩)
  · exact fun b c g hb hc => h.dirs_apart b c g (hold b g hb).2 (hold c g hc).2
  · exact fun g hg b hb => h.kernel_apart g hg b (hold b g hb).2
  · exact fun g hg href => h.free_apart g hg (hsub g href)
  · rw [referenced_iff]
    rintro (⟨x, hx⟩ | ⟨b, hb⟩ | hkernel)
    · exact h.taken_apart f (Or.inl ⟨a, ha⟩) x hx
    · obtain ⟨hba, hb⟩ := hold b f hb
      exact hba (h.dirs_apart b a f hb ha)
    · exact h.kernel_apart f hkernel a ha
  · exact fun hfree => h.free_apart f hfree (referenced_iff.mpr (Or.inr (Or.inl ⟨a, ha⟩)))

/-! ### One entry -/

section

variable [DecidableEq A] [DecidableEq F] {x : (A × PdIndex) ⊕ (F × PtIndex)}

/-- One entry comes to refer to a frame. -/
theorem Accounted.set (h : Accounted s) (hsame : SameHolders s s')
    (hslot : s'.slot = update s.slot x (some f)) (hcounted : Counted s'.slot s'.cow.count)
    (hkind : ∀ y, s.slot y = some f → x.isLeft = y.isLeft)
    (hlive : ∀ a i, x = .inl (a, i) → s.pdbr a ≠ none)
    (hnew : (∃ y, s.slot y = some f) ∨ s.Fresh f) : Accounted s' := by
  have hcases : ∀ y g, s'.slot y = some g → y = x ∧ g = f ∨ s.slot y = some g := by
    intro y g hy
    rw [hslot, update_apply] at hy
    split at hy
    · rename_i hyx
      exact Or.inl ⟨hyx, (Option.some.inj hy).symm⟩
    · exact Or.inr hy
  apply h.change hsame hcounted
  · intro y z g hy hz
    rcases hcases y g hy with ⟨rfl, rfl⟩ | hy
    · rcases hcases z g hz with ⟨rfl, -⟩ | hz
      · rfl
      · exact hkind z hz
    · rcases hcases z g hz with ⟨rfl, rfl⟩ | hz
      · exact (hkind y hy).symm
      · exact h.kinds y z g hy hz
  · intro a i g hy
    rcases hcases _ g hy with ⟨hyx, -⟩ | hy
    · exact hlive a i hyx.symm
    · exact h.live a i g hy
  · intro y g hy
    rcases hcases y g hy with ⟨-, rfl⟩ | hy
    · exact hnew
    · exact Or.inl ⟨y, hy⟩

/-- An entry comes to refer to a frame that nobody had. -/
theorem Accounted.place (h : Accounted s) (hslot : s'.slot = update s.slot x (some f))
    (hx : s.slot x = none) (hf : s.Fresh f) (hlive : ∀ a i, x = .inl (a, i) → s.pdbr a ≠ none)
    (hcow : s'.cow = s.cow) (hsame : SameHolders s s') : Accounted s' := by
  refine h.set hsame hslot ?_ (fun y hy => absurd hy (hf.slot_ne y)) hlive (Or.inr hf)
  rw [hslot, hcow]
  exact h.counted.place hx (referers_eq_empty.mpr hf.slot_ne)

/-- A further entry comes to refer to a frame. -/
theorem Accounted.share {y : (A × PdIndex) ⊕ (F × PtIndex)} (h : Accounted s)
    (hslot : s'.slot = update s.slot x (some f)) (hx : s.slot x = none) (hy : s.slot y = some f)
    (hkind : x.isLeft = y.isLeft) (hlive : ∀ a i, x = .inl (a, i) → s.pdbr a ≠ none)
    (hcow : ∀ g, s'.cow.count g = s.cow.count g + if g = f then 1 else 0)
    (hsame : SameHolders s s') : Accounted s' := by
  refine h.set hsame hslot ?_ (fun z hz => hkind.trans (h.kinds y z f hy hz)) hlive
    (Or.inl ⟨y, hy⟩)
  rw [hslot]
  exact h.counted.share hx ⟨y, hy⟩ hcow

/-- An entry stops to refer to a frame. -/
theorem Accounted.drop (h : Accounted s) (hslot : s'.slot = update s.slot x none)
    (hx : s.slot x = some f)
    (hcow : ∀ g, s'.cow.count g = if g = f then s.cow.count f - 1 else s.cow.count g)
    (hsame : SameHolders s s') : Accounted s' := by
  have hold : ∀ y g, s'.slot y = some g → s.slot y = some g := by
    intro y g hy
    rw [hslot, update_apply] at hy
    split at hy
    · cases hy
    · exact hy
  apply h.change hsame
  · rw [hslot]
    exact h.counted.drop hx hcow
  · exact fun y z g hy hz => h.kinds y z g (hold y g hy) (hold z g hz)
  · exact fun a i g hy => h.live a i g (hold _ g hy)
  · exact fun y g hy => Or.inl ⟨y, hold y g hy⟩

/-- An entry comes to refer to a frame that nobody had, in place of another one. -/
theorem Accounted.replace {g : F} (h : Accounted s) (hslot : s'.slot = update s.slot x (some g))
    (hx : s.slot x = some f) (hg : s.Fresh g) (hlive : ∀ a i, x = .inl (a, i) → s.pdbr a ≠ none)
    (hcow : ∀ g, s'.cow.count g = if g = f then s.cow.count f - 1 else s.cow.count g)
    (hsame : SameHolders s s') : Accounted s' := by
  refine h.set hsame hslot ?_ (fun y hy => absurd hy (hg.slot_ne y)) hlive (Or.inr hg)
  rw [hslot]
  exact h.counted.move hx hcow hg.slot_ne

/-- After the last reference nobody has the frame. -/
theorem Accounted.fresh_drop (h : Accounted s) (hslot : s'.slot = update s.slot x none)
    (hx : s.slot x = some f) (hlast : s.cow.count f = 0) (hsame : SameHolders s s') :
    s'.Fresh f := by
  have href : s.Referenced f := referenced_iff.mpr (Or.inl ⟨x, hx⟩)
  have hnone : ∀ y, s'.slot y ≠ some f := by
    intro y hy
    rw [hslot, update_apply] at hy
    split at hy
    · cases hy
    · rename_i hne
      exact hne (h.counted.only hx hlast hy)
  refine ⟨fun hagain => ?_, fun hfree => ?_⟩
  · rw [referenced_iff, hsame.pdbr, hsame.kernel] at hagain
    rcases hagain with ⟨y, hy⟩ | htaken
    · exact hnone y hy
    · exact h.taken_apart f htaken x hx
  · rw [hsame.freeFrames] at hfree
    exact h.free_apart f hfree href

end

end OsdevArchive.Minirighi.Paging
