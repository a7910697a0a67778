import OsdevArchive.ItaliOs3.Memory
import OsdevArchive.Lib.Stretches
import Mathlib.Algebra.Group.Nat.Defs

/-!
What the tables of pages say. The kernel has tables for the first 40 megabytes of its
addresses, in the frames 1 to 10, and reaches them and its directory in frame 0 at the addresses
of these frames.
-/

namespace OsdevArchive.ItaliOs3

open OsdevArchive.Lib.Stretches

/-- The number of the pages that there are tables for. -/
def tablePages : Nat := 10 * 1024

/-- The entry of the page `v`. -/
def entry (k : Kernel) (v : Nat) : Nat := k.words (v / 1024 + 1) (v % 1024)

def Kernel.setEntry (k : Kernel) (v e : Nat) : Kernel :=
  { k with
    words := Function.update k.words (v / 1024 + 1)
      (Function.update (k.words (v / 1024 + 1)) (v % 1024) e) }

/-- The tables map the pages in `mapped` to frames that are in use, a frame for each of them. -/
structure Paged (k : Kernel) (mapped : Nat → Prop) : Prop where
  pd : k.pd = 0
  room : k.numPages < 2 ^ 20
  dir : ∀ i < 10, k.words 0 i = (i + 1) * 4096 + 3
  noDir : ∀ i, 10 ≤ i → i < 1024 → k.words 0 i = 0
  own : ∀ i < 11, entry k i = i * 4096 + 3
  present : ∀ v < tablePages, (isPresente (entry k v) ↔ mapped v)
  frame : ∀ v < tablePages, mapped v →
    ∃ f < k.numPages, entry k v = f * 4096 + 3 ∧ k.pageBitmap f = true
  inj : ∀ u < tablePages, ∀ v < tablePages, mapped u → mapped v →
    getAddr (entry k u) = getAddr (entry k v) → u = v

variable {k : Kernel} {mapped : Nat → Prop} {u v e f n i : Nat}

/-! ### Entries -/

theorem getAddr_entry (f : Nat) : getAddr (f * 4096 + 3) = f * 4096 := by
  unfold getAddr
  omega

theorem isPresente_entry (f : Nat) : isPresente (f * 4096 + 3) := by
  unfold isPresente presente
  omega

theorem creaPage_eq (f : Nat) :
    creaPage (f * 4096) (scritturaLettura + presente) = f * 4096 + 3 := by
  unfold creaPage scritturaLettura presente
  omega

theorem setAssent_entry (f : Nat) : ¬ isPresente (setAssent (f * 4096 + 3)) := by
  unfold isPresente setAssent presente
  omega

theorem entry_setEntry (k : Kernel) (v e u : Nat) :
    entry (k.setEntry v e) u = if u = v then e else entry k u := by
  change Function.update k.words (v / 1024 + 1) _ (u / 1024 + 1) (u % 1024) = _
  rw [Function.update_apply]
  split
  · rename_i htable
    rw [Function.update_apply]
    split
    · rw [if_pos (by omega)]
    · rw [if_neg (by rintro rfl; contradiction)]
      unfold entry
      rw [htable]
  · rename_i htable
    rw [if_neg (by rintro rfl; exact htable rfl)]
    rfl

theorem setEntry_dir (k : Kernel) (v e : Nat) : (k.setEntry v e).words 0 = k.words 0 := by
  unfold Kernel.setEntry
  dsimp only
  rw [Function.update_of_ne (Nat.zero_ne_add_one _)]

/-! ### Where pages are -/

theorem Paged.pde (h : Paged k mapped) (hv : v < tablePages) :
    k.words (k.pd / dimPage) (v / 1024) = (v / 1024 + 1) * 4096 + 3 := by
  unfold tablePages at hv
  rw [h.pd]
  exact h.dir (v / 1024) (by omega)

/-- The processor finds the pages that are mapped, and no others. -/
theorem Paged.frameAt_eq (h : Paged k mapped) (hpaging : k.paging = true) (hv : v < 2 ^ 20) :
    frameAt k v = if v < tablePages ∧ isPresente (entry k v) then some (getAddr (entry k v) / 4096)
      else none := by
  unfold frameAt
  rw [if_pos hpaging]
  dsimp only
  obtain hlow | hhigh := Nat.lt_or_ge v tablePages
  · have htable : getAddr ((v / 1024 + 1) * 4096 + 3) / dimPage = v / 1024 + 1 := by
      unfold getAddr dimPage
      omega
    rw [h.pde hlow, htable]
    have hpde := isPresente_entry (v / 1024 + 1)
    exact if_congr ⟨fun hp => ⟨hlow, hp.2⟩, fun hp => ⟨hpde, hp.2⟩⟩ rfl rfl
  · unfold tablePages at hhigh
    have hpde : k.words (k.pd / dimPage) (v / 1024) = 0 := by
      rw [h.pd]
      exact h.noDir (v / 1024) (by omega) (by omega)
    rw [hpde, if_neg fun hp => absurd hp.1 (by decide), if_neg fun hp => absurd hp.1 ?_]
    unfold tablePages
    omega

/-- The directory and the tables are where the kernel looks for them. -/
theorem Paged.frameAt_own (h : Paged k mapped) (hi : i < 11) : frameAt k i = some i := by
  cases hpaging : k.paging with
  | true =>
    have hlow : i < tablePages := by
      unfold tablePages
      omega
    rw [h.frameAt_eq hpaging (by omega), h.own i hi, if_pos ⟨hlow, isPresente_entry i⟩,
      getAddr_entry, Nat.mul_div_cancel i (by decide)]
  | false =>
    unfold frameAt
    rw [if_neg (by rw [hpaging]; decide)]

theorem Paged.load_dir (h : Paged k mapped) (i : Nat) : load k k.pd i = some (k.words 0 i) := by
  unfold load
  rw [h.pd, Nat.zero_div, h.frameAt_own (by decide)]
  rfl

theorem Paged.load_table (h : Paged k mapped) (hv : v < tablePages) :
    load k ((v / 1024 + 1) * 4096) (v % 1024) = some (entry k v) := by
  unfold tablePages at hv
  unfold load dimPage
  rw [Nat.mul_div_cancel _ (by decide), h.frameAt_own (by omega)]
  rfl

theorem Paged.store_table (h : Paged k mapped) (hv : v < tablePages) (e : Nat) :
    store k ((v / 1024 + 1) * 4096) (v % 1024) e = some (k.setEntry v e) := by
  unfold tablePages at hv
  unfold store dimPage
  rw [Nat.mul_div_cancel _ (by decide), h.frameAt_own (by omega)]
  rfl

/-! ### Mapping and unmapping a page -/

theorem pde_index (v : Nat) : v * 4096 / 2 ^ 22 = v / 1024 := by omega

theorem pte_index (v : Nat) : v * 4096 / 2 ^ 12 % 2 ^ 10 = v % 1024 := by omega

/-- A page with a table gets a frame. -/
theorem settaPagina_eq {k' : Kernel} {dir : Nat}
    (hdir : load k dir (v / 1024) = some ((v / 1024 + 1) * 4096 + 3))
    (hstore : store k ((v / 1024 + 1) * 4096) (v % 1024) (f * 4096 + 3) = some k') :
    settaPaginaVirtuale k dir (v * 4096) (f * 4096) = some k' := by
  unfold settaPaginaVirtuale
  rw [pde_index, pte_index]
  simp only [hdir, isPresente_entry, getAddr_entry, hstore, creaPage_eq, Option.bind_eq_bind,
    Option.bind_some, not_true_eq_false, if_false]

theorem Paged.settaPagina (h : Paged k mapped) (hv : v < tablePages) (f : Nat) :
    settaPaginaVirtuale k k.pd (v * 4096) (f * 4096) = some (k.setEntry v (f * 4096 + 3)) := by
  apply settaPagina_eq
  · unfold tablePages at hv
    rw [h.load_dir, h.dir (v / 1024) (by omega)]
  · exact h.store_table hv _

theorem Paged.liberaPagina (h : Paged k mapped) (hv : v < tablePages)
    (he : entry k v = f * 4096 + 3) :
    liberaPaginaVirtuale k (v * 4096) =
      some { k.setEntry v (setAssent (f * 4096 + 3)) with
        pagineVirtualiLibere := Function.update k.pagineVirtualiLibere v false
        pageBitmap := Function.update k.pageBitmap f false } := by
  have hpde : k.words 0 (v / 1024) = (v / 1024 + 1) * 4096 + 3 := by
    unfold tablePages at hv
    exact h.dir (v / 1024) (by omega)
  have hframe : f * 4096 / dimPage = f := Nat.mul_div_cancel f (by decide)
  have hpage : v * 4096 / 4096 = v := Nat.mul_div_cancel v (by decide)
  have haligned : ¬ f * 4096 % dimPage ≠ 0 := not_not.mpr (Nat.mul_mod_left f 4096)
  unfold liberaPaginaVirtuale
  rw [pde_index, pte_index]
  simp only [h.load_dir, hpde, getAddr_entry, h.load_table hv, he, h.store_table hv,
    Option.bind_eq_bind, Option.bind_some, rilasciaPagina, haligned, if_false, hframe, hpage,
    liberaPaginaVirtualeLibera]
  rfl

/-- The bits of a map do not matter for the tables, as far as the frames in use stay in use. -/
theorem Paged.congr {k' : Kernel} {mapped' : Nat → Prop} (h : Paged k mapped)
    (hpd : k'.pd = k.pd) (hnum : k'.numPages = k.numPages) (hwords : k'.words = k.words)
    (hbits : ∀ f, k.pageBitmap f = true → k'.pageBitmap f = true)
    (hmapped : ∀ v < tablePages, (mapped' v ↔ mapped v)) : Paged k' mapped' := by
  have hentry (v : Nat) : entry k' v = entry k v := by
    unfold entry
    rw [hwords]
  refine ⟨hpd.trans h.pd, ?_, ?_, ?_, fun i hi => ?_, fun v hv => ?_, fun v hv hm => ?_, ?_⟩
  · rw [hnum]
    exact h.room
  · rw [hwords]
    exact h.dir
  · rw [hwords]
    exact h.noDir
  · rw [hentry]
    exact h.own i hi
  · rw [hentry, hmapped v hv]
    exact h.present v hv
  · obtain ⟨f, hf, he, hused⟩ := h.frame v hv ((hmapped v hv).mp hm)
    rw [hentry, hnum]
    exact ⟨f, hf, he, hbits f hused⟩
  · intro u hu v hv hmu hmv heq
    rw [hentry, hentry] at heq
    exact h.inj u hu v hv ((hmapped u hu).mp hmu) ((hmapped v hv).mp hmv) heq

/-- The pages of the directory and of the tables are mapped. -/
theorem Paged.mapped_own (h : Paged k mapped) (hi : i < 11) : mapped i := by
  have hlow : i < tablePages := by
    unfold tablePages
    omega
  rw [← h.present i hlow, h.own i hi]
  exact isPresente_entry i

/-- The entry of one page is written. -/
theorem Paged.write {k' : Kernel} {mapped' : Nat → Prop} (h : Paged k mapped) (hv : 11 ≤ v)
    (hk' : k'.pd = k.pd ∧ k'.numPages = k.numPages ∧ k'.words 0 = k.words 0)
    (hsame : ∀ u, u ≠ v → entry k' u = entry k u) (hself : isPresente (entry k' v) ↔ mapped' v)
    (hothers : ∀ u, u ≠ v → (mapped' u ↔ mapped u))
    (hframe : ∀ u < tablePages, mapped' u →
      ∃ f < k.numPages, entry k' u = f * 4096 + 3 ∧ k'.pageBitmap f = true)
    (hinj : ∀ u < tablePages, u ≠ v → mapped u → mapped' v →
      getAddr (entry k u) ≠ getAddr (entry k' v)) : Paged k' mapped' := by
  obtain ⟨hpd, hnum, hdir⟩ := hk'
  refine ⟨hpd.trans h.pd, ?_, ?_, ?_, fun i hi => ?_, fun u hu => ?_, ?_, ?_⟩
  · rw [hnum]
    exact h.room
  · rw [hdir]
    exact h.dir
  · rw [hdir]
    exact h.noDir
  · rw [hsame i (by omega)]
    exact h.own i hi
  · by_cases huv : u = v
    · rw [huv]
      exact hself
    · rw [hsame u huv, h.present u hu, hothers u huv]
  · rw [hnum]
    exact hframe
  · intro a ha b hb hma hmb heq
    by_cases hav : a = v
    · by_cases hbv : b = v
      · exact hav.trans hbv.symm
      · rw [hav] at hma heq
        rw [hsame b hbv] at heq
        exact absurd heq.symm (hinj b hb hbv ((hothers b hbv).mp hmb) hma)
    · rw [hsame a hav] at heq
      by_cases hbv : b = v
      · rw [hbv] at hmb heq
        exact absurd heq (hinj a ha hav ((hothers a hav).mp hma) hmb)
      · rw [hsame b hbv] at heq
        exact h.inj a ha b hb ((hothers a hav).mp hma) ((hothers b hbv).mp hmb) heq

/-- A page gets a frame that was free. -/
theorem Paged.map {k' : Kernel} (h : Paged k mapped) (hnew : ¬ mapped v) (hf : f < k.numPages)
    (hfree : k.pageBitmap f = false)
    (hk' : k' = { k.setEntry v (f * 4096 + 3) with
      pageBitmap := Function.update k.pageBitmap f true }) :
    Paged k' fun u => mapped u ∨ u = v := by
  have hentry (u : Nat) : entry k' u = if u = v then f * 4096 + 3 else entry k u := by
    rw [hk']
    exact entry_setEntry k v (f * 4096 + 3) u
  have hself : entry k' v = f * 4096 + 3 := (hentry v).trans (if_pos rfl)
  have hsame (u : Nat) (hu : u ≠ v) : entry k' u = entry k u := (hentry u).trans (if_neg hu)
  have hv : 11 ≤ v := Nat.le_of_not_lt fun hlt => hnew (h.mapped_own hlt)
  have hbits : k'.pageBitmap = Function.update k.pageBitmap f true := by rw [hk']
  have hapart (u : Nat) (hu : u < tablePages) (hm : mapped u) :
      ∃ g < k.numPages, g ≠ f ∧ entry k u = g * 4096 + 3 ∧ k.pageBitmap g = true := by
    obtain ⟨g, hg, he, hused⟩ := h.frame u hu hm
    refine ⟨g, hg, ?_, he, hused⟩
    rintro rfl
    rw [hfree] at hused
    cases hused
  refine h.write hv ⟨?_, ?_, ?_⟩ hsame ?_ (fun u hu => or_iff_left hu) (fun u hu hm => ?_) ?_
  · rw [hk']
    rfl
  · rw [hk']
    rfl
  · rw [hk']
    exact setEntry_dir k v (f * 4096 + 3)
  · rw [hself]
    exact iff_of_true (isPresente_entry f) (.inr rfl)
  · rw [hbits]
    by_cases huv : u = v
    · rw [huv]
      exact ⟨f, hf, hself, by rw [Function.update_self]⟩
    · obtain ⟨g, hg, hne, he, hused⟩ := hapart u hu (hm.resolve_right huv)
      rw [hsame u huv]
      exact ⟨g, hg, he, by rw [Function.update_of_ne hne, hused]⟩
  · intro u hu huv hm _ heq
    obtain ⟨g, -, hne, he, -⟩ := hapart u hu hm
    rw [hself, he, getAddr_entry, getAddr_entry] at heq
    exact hne (Nat.eq_of_mul_eq_mul_right (by decide) heq)

/-- A page loses its frame, which is free from then on. -/
theorem Paged.unmap {k' : Kernel} (h : Paged k mapped) (hv : v < tablePages) (hm : mapped v)
    (hown : 11 ≤ v) (he : entry k v = f * 4096 + 3)
    (hk' : k' = { k.setEntry v (setAssent (f * 4096 + 3)) with
      pagineVirtualiLibere := Function.update k.pagineVirtualiLibere v false
      pageBitmap := Function.update k.pageBitmap f false }) :
    Paged k' fun u => mapped u ∧ u ≠ v := by
  have hentry (u : Nat) : entry k' u = if u = v then setAssent (f * 4096 + 3) else entry k u := by
    rw [hk']
    exact entry_setEntry k v (setAssent (f * 4096 + 3)) u
  have hsame (u : Nat) (hu : u ≠ v) : entry k' u = entry k u := (hentry u).trans (if_neg hu)
  have hbits : k'.pageBitmap = Function.update k.pageBitmap f false := by rw [hk']
  refine h.write hown ⟨?_, ?_, ?_⟩ hsame ?_ (fun u hu => and_iff_left hu) (fun u hu hmu => ?_) ?_
  · rw [hk']
    rfl
  · rw [hk']
    rfl
  · rw [hk']
    exact setEntry_dir k v (setAssent (f * 4096 + 3))
  · rw [hentry, if_pos rfl]
    exact iff_of_false (setAssent_entry f) fun hboth => hboth.2 rfl
  · obtain ⟨g, hg, heg, hused⟩ := h.frame u hu hmu.1
    have hne : g ≠ f := by
      rintro rfl
      refine hmu.2 (h.inj u hu v hv hmu.1 hm ?_)
      rw [heg, he]
    rw [hsame u hmu.2, hbits]
    exact ⟨g, hg, heg, by rw [Function.update_of_ne hne, hused]⟩
  · exact fun u _ _ _ hmv => absurd rfl hmv.2

end OsdevArchive.ItaliOs3
