import OsdevArchive.ItaliOs3.Allocation

/-!
The initialization of the memory of the kernel. The paging is switched off until its end, so
that all frames are reached at their addresses.
-/

namespace OsdevArchive.ItaliOs3

open OsdevArchive.Lib.Stretches

variable {k : Kernel} {u v f n i j : Nat}

/-! ### Without paging -/

theorem load_plain (h : k.paging = false) (p i : Nat) :
    load k (p * 4096) i = some (k.words p i) := by
  unfold load frameAt
  rw [if_neg (by rw [h]; decide)]
  unfold dimPage
  rw [Nat.mul_div_cancel p (by decide)]
  rfl

def Kernel.setWord (k : Kernel) (p i e : Nat) : Kernel :=
  { k with words := Function.update k.words p (Function.update (k.words p) i e) }

theorem store_plain (h : k.paging = false) (p i e : Nat) :
    store k (p * 4096) i e = some (k.setWord p i e) := by
  unfold store frameAt
  rw [if_neg (by rw [h]; decide)]
  unfold dimPage
  rw [Nat.mul_div_cancel p (by decide)]
  rfl

theorem clearTable_plain (h : k.paging = false) (p : Nat) : clearTable k (p * 4096) =
    some { k with words := Function.update k.words p fun _ => 0 } := by
  unfold clearTable frameAt
  rw [if_neg (by rw [h]; decide)]
  unfold dimPage
  rw [Nat.mul_div_cancel p (by decide)]
  rfl

/-! ### The directory and its tables -/

/-- The directory and `i` tables have been made, in the first frames. -/
structure TablesMade (numPages : Nat) (k : Kernel) (i : Nat) : Prop where
  paging : k.paging = false
  numPages : k.numPages = numPages
  pd : k.pd = 0
  bits : ∀ f, k.pageBitmap f = true ↔ f < i + 1
  dir : ∀ j < i, k.words 0 j = (j + 1) * 4096 + 3
  clear : ∀ t, 1 ≤ t → t ≤ i → ∀ j, k.words t j = 0
  virt : ∀ v, k.pagineVirtualiLibere v = false

/-- Where the frames below `m` are in use, the next one is taken. -/
theorem prendi_next {m : Nat} (hbits : ∀ f, k.pageBitmap f = true ↔ f < m) (hm : m < k.numPages)
    (hroom : k.numPages < 2 ^ 20) :
    ∃ k', prendiPaginaFisica k = (m * 4096, k') ∧
      k' = { k with pageBitmap := Function.update k.pageBitmap m true } ∧
      ∀ f, k'.pageBitmap f = true ↔ f < m + 1 := by
  have hclear : k.pageBitmap m = false := by
    rw [← Bool.not_eq_true, hbits]
    exact Nat.lt_irrefl m
  have hfree : 0 < freeFrames k := freeCount_pos hm hclear
  obtain ⟨f, hf, hfclear, hfirst, hprendi⟩ := prendiPaginaFisica_free hroom hfree
  obtain rfl : f = m := by
    rw [← Bool.not_eq_true, hbits] at hfclear
    obtain hlt | hle := Nat.lt_or_ge m f
    · rw [hfirst m hlt] at hclear
      cases hclear
    · omega
  refine ⟨_, hprendi, rfl, fun g => ?_⟩
  dsimp only
  rw [Function.update_apply]
  split
  · rename_i heq
    exact iff_of_true rfl (by omega)
  · rw [hbits]
    omega

/-- One round takes the next frame for a table, enters it and clears it. -/
theorem TablesMade.next {numPages : Nat} (h : TablesMade numPages k i) (hn : i + 1 < numPages)
    (hroom : numPages < 2 ^ 20) :
    ∃ k₁ k₂ k₃, prendiPaginaFisica k = ((i + 1) * 4096, k₁) ∧
      store k₁ k₁.pd i ((i + 1) * 4096 + 3) = some k₂ ∧
      clearTable k₂ ((i + 1) * 4096) = some k₃ ∧ TablesMade numPages k₃ (i + 1) := by
  have hnum := h.numPages
  obtain ⟨k₁, hprendi, hk₁, hbits⟩ := prendi_next h.bits (by omega) (by omega)
  have hpaging : k₁.paging = false := by
    rw [hk₁]
    exact h.paging
  have hpd : k₁.pd = 0 * 4096 := by
    rw [hk₁, Nat.zero_mul]
    exact h.pd
  obtain ⟨k₂, hk₂⟩ : ∃ w : Kernel, w = k₁.setWord 0 i ((i + 1) * 4096 + 3) := ⟨_, rfl⟩
  have hstore := store_plain hpaging 0 i ((i + 1) * 4096 + 3)
  rw [← hk₂, ← hpd] at hstore
  have hpaging₂ : k₂.paging = false := by
    rw [hk₂]
    exact hpaging
  obtain ⟨k₃, hk₃⟩ : ∃ w : Kernel,
    w = { k₂ with words := Function.update k₂.words (i + 1) fun _ => 0 } := ⟨_, rfl⟩
  have hclear := clearTable_plain hpaging₂ (i + 1)
  rw [← hk₃] at hclear
  have hwords (t j : Nat) : k₃.words t j = if t = i + 1 then 0
      else if t = 0 ∧ j = i then (i + 1) * 4096 + 3 else k.words t j := by
    rw [hk₃, hk₂, hk₁]
    unfold Kernel.setWord
    dsimp only
    rw [Function.update_apply]
    split
    · rfl
    · rw [Function.update_apply]
      split
      · rename_i ht
        rw [ht, Function.update_apply]
        exact if_congr (by simp) rfl rfl
      · rename_i ht
        rw [if_neg fun hboth => ht hboth.1]
  refine ⟨k₁, k₂, k₃, hprendi, hstore, hclear, ?_⟩
  refine ⟨?_, ?_, ?_, fun f => ?_, fun j hj => ?_, fun t ht hti j => ?_, fun v => ?_⟩
  · rw [hk₃]
    exact hpaging₂
  · rw [hk₃, hk₂, hk₁]
    exact h.numPages
  · rw [hk₃, hk₂, hk₁]
    exact h.pd
  · rw [hk₃, hk₂]
    exact hbits f
  · rw [hwords, if_neg (by omega)]
    split
    · rename_i heq
      rw [heq.2]
    · exact h.dir j (by omega)
  · rw [hwords]
    split
    · rfl
    · rw [if_neg (by omega)]
      exact h.clear t ht (by omega) j
  · rw [hk₃, hk₂, hk₁]
    exact h.virt v

theorem initTables_made {numPages : Nat} (h : TablesMade numPages k i) (hn : i + n + 1 ≤ numPages)
    (hroom : numPages < 2 ^ 20) :
    ∃ k', initTables n i k = some ((List.range' (i + 1) n).map (· * 4096), k') ∧
      TablesMade numPages k' (i + n) := by
  induction n generalizing k i with
  | zero => exact ⟨k, rfl, h⟩
  | succ n ih =>
    obtain ⟨k₁, k₂, k₃, hprendi, hstore, hclear, hmade⟩ := h.next (by omega) hroom
    obtain ⟨k', hrun, hrest⟩ := ih hmade (by omega)
    have hplace : i + (n + 1) = i + 1 + n := by omega
    refine ⟨k', ?_, ?_⟩
    · unfold initTables
      rw [hprendi]
      dsimp only
      rw [creaPage_eq, hstore]
      dsimp only [Option.bind_eq_bind, Option.bind_some]
      rw [hclear]
      dsimp only [Option.bind_some]
      rw [hrun, List.range'_succ, List.map_cons]
      rfl
    · rw [hplace]
      exact hrest

/-! ### The first pages -/

/-- The pages below `i` are mapped to the frames of the directory and of the tables. -/
structure PagesMade (numPages : Nat) (k : Kernel) (i : Nat) : Prop where
  paging : k.paging = false
  numPages : k.numPages = numPages
  pd : k.pd = 0
  bits : ∀ f, k.pageBitmap f = true ↔ f < 11
  dir : ∀ j < 10, k.words 0 j = (j + 1) * 4096 + 3
  entries : ∀ v < tablePages, entry k v = if v < i then v * 4096 + 3 else 0
  virt : ∀ v, k.pagineVirtualiLibere v = true ↔ v < i

/-- One round maps the page `i` to its frame. -/
theorem PagesMade.next {numPages : Nat} (h : PagesMade numPages k i) (hi : i < tablePages) :
    ∃ k', settaPaginaVirtuale (prendiPaginaVirtuale k i) k.pd (i * 4096) (i * 4096) = some k' ∧
      PagesMade numPages k' (i + 1) := by
  have hlow : i / 1024 < 10 := by
    unfold tablePages at hi
    omega
  obtain ⟨k₁, hk₁⟩ : ∃ w, w = prendiPaginaVirtuale k i := ⟨_, rfl⟩
  have hpaging : k₁.paging = false := by
    rw [hk₁]
    exact h.paging
  have hpd : k₁.pd = 0 * 4096 := by
    rw [hk₁, Nat.zero_mul]
    exact h.pd
  have hdir : load k₁ k₁.pd (i / 1024) = some ((i / 1024 + 1) * 4096 + 3) := by
    rw [hpd, load_plain hpaging, hk₁]
    exact congrArg some (h.dir _ hlow)
  obtain ⟨k₂, hk₂⟩ : ∃ w : Kernel, w = k₁.setEntry i (i * 4096 + 3) := ⟨_, rfl⟩
  have hstore : store k₁ ((i / 1024 + 1) * 4096) (i % 1024) (i * 4096 + 3) = some k₂ := by
    rw [store_plain hpaging, hk₂]
    rfl
  have hentry (v : Nat) : entry k₂ v = if v = i then i * 4096 + 3 else entry k v := by
    rw [hk₂, entry_setEntry, hk₁]
    rfl
  refine ⟨k₂, ?_, ?_, ?_, ?_, ?_, ?_, fun v hv => ?_, fun v => ?_⟩
  · have hpdEq : (prendiPaginaVirtuale k i).pd = k.pd := rfl
    rw [← hk₁] at hpdEq ⊢
    rw [← hpdEq]
    exact settaPagina_eq hdir hstore
  · rw [hk₂]
    exact hpaging
  · rw [hk₂, hk₁]
    exact h.numPages
  · rw [hk₂, hk₁]
    exact h.pd
  · rw [hk₂, hk₁]
    exact h.bits
  · rw [hk₂, setEntry_dir, hk₁]
    exact h.dir
  · rw [hentry]
    split
    · rename_i heq
      rw [if_pos (by omega), heq]
    · rw [h.entries v hv]
      exact if_congr (by omega) rfl rfl
  · rw [hk₂, hk₁]
    change Function.update k.pagineVirtualiLibere i true v = true ↔ _
    rw [Function.update_apply]
    split
    · exact iff_of_true rfl (by omega)
    · rw [h.virt]
      omega

theorem initPages_made {numPages : Nat} (h : PagesMade numPages k i) (hn : i + n ≤ tablePages) :
    ∃ k', initPages ((List.range' i n).map (· * 4096)) i k = some k' ∧
      PagesMade numPages k' (i + n) := by
  induction n generalizing k i with
  | zero => exact ⟨k, rfl, h⟩
  | succ n ih =>
    obtain ⟨k₁, hsetta, hmade⟩ := h.next (by omega)
    obtain ⟨k', hrun, hrest⟩ := ih hmade (by omega)
    have hplace : i + (n + 1) = i + 1 + n := by omega
    refine ⟨k', ?_, ?_⟩
    · rw [List.range'_succ, List.map_cons]
      unfold initPages
      rw [hsetta]
      exact hrun
    · rw [hplace]
      exact hrest

theorem clearDir_clears (h : k.paging = false) (hpd : k.pd = 0) :
    ∃ k', clearDir n i k = some k' ∧
      k' = { k with words := k'.words } ∧
      ∀ p j, k'.words p j = if p = 0 ∧ i ≤ j ∧ j < i + n then 0 else k.words p j := by
  induction n generalizing k i with
  | zero =>
    refine ⟨k, rfl, rfl, fun p j => ?_⟩
    rw [if_neg (by omega)]
  | succ n ih =>
    have hstore : store k k.pd i 0 = some (k.setWord 0 i 0) := by
      have hpdEq : k.pd = 0 * 4096 := hpd
      rw [hpdEq]
      exact store_plain h 0 i 0
    obtain ⟨k', hrun, hk', hwords⟩ := @ih (k.setWord 0 i 0) (i + 1) h hpd
    refine ⟨k', ?_, ?_, fun p j => ?_⟩
    · unfold clearDir
      rw [hstore]
      exact hrun
    · exact hk'
    · rw [hwords]
      unfold Kernel.setWord
      dsimp only
      rw [Function.update_apply]
      split
      · rw [if_pos (by omega)]
      · split
        · rename_i hp
          rw [hp, Function.update_apply]
          split
          · rw [if_pos (by omega)]
          · rw [if_neg (by omega)]
        · rw [if_neg (by omega)]

/-- After the first two loops, with the rest of the directory cleared. -/
theorem paged_of_made {numPages : Nat} {k' : Kernel} (h : PagesMade numPages k 11)
    (hroom : numPages < 2 ^ 20) (hleast : 11 ≤ numPages) (hk' : k' = { k with words := k'.words })
    (hwords : ∀ p j, k'.words p j = if p = 0 ∧ 10 ≤ j ∧ j < 10 + (1024 - 10) then 0
      else k.words p j) : Agrees k' := by
  have hentry (v : Nat) (hv : v < tablePages) :
      entry k' v = if v < 11 then v * 4096 + 3 else 0 := by
    rw [← h.entries v hv]
    unfold entry
    rw [hwords, if_neg (by omega)]
  have hnum : k'.numPages = numPages := by
    rw [hk']
    exact h.numPages
  have hvirt (v : Nat) : k'.pagineVirtualiLibere v = true ↔ v < 11 := by
    rw [hk']
    exact h.virt v
  have hbits (f : Nat) : k'.pageBitmap f = true ↔ f < 11 := by
    rw [hk']
    exact h.bits f
  refine ⟨?_, ?_, fun j hj => ?_, fun j hle hlt => ?_, fun j hj => ?_, fun v hv => ?_,
    fun v hv hm => ?_, fun a ha b hb hma hmb heq => ?_⟩
  · rw [hk']
    exact h.pd
  · rw [hnum]
    exact hroom
  · rw [hwords, if_neg (by omega)]
    exact h.dir j hj
  · rw [hwords, if_pos ⟨rfl, hle, by omega⟩]
  · rw [hentry j (by unfold tablePages; omega), if_pos hj]
  · rw [hentry v hv, hvirt]
    split
    · rename_i hlt
      exact iff_of_true (isPresente_entry v) hlt
    · rename_i hle
      exact iff_of_false (by decide) hle
  · have hlt := (hvirt v).mp hm
    rw [hentry v hv, if_pos hlt, hnum]
    exact ⟨v, by omega, rfl, (hbits v).mpr hlt⟩
  · rw [hentry a ha, hentry b hb, if_pos ((hvirt a).mp hma), if_pos ((hvirt b).mp hmb),
      getAddr_entry, getAddr_entry] at heq
    exact Nat.eq_of_mul_eq_mul_right (by decide) heq

/-- Eleven frames and pages are in use after `init_spazio_virtuale`. -/
theorem initSpazioVirtuale_agrees {numPages : Nat} (hpaging : k.paging = false)
    (hnum : k.numPages = numPages) (hbits : ∀ f, k.pageBitmap f = false)
    (hvirt : ∀ v, k.pagineVirtualiLibere v = false) (hleast : 11 ≤ numPages)
    (hroom : numPages < 2 ^ 20) :
    ∃ k', initSpazioVirtuale k = some k' ∧ Agrees k' ∧ k'.paging = false ∧
      k'.numPages = numPages ∧ (∀ f, k'.pageBitmap f = true ↔ f < 11) ∧
      ∀ v, k'.pagineVirtualiLibere v = true ↔ v < 11 := by
  have hnone (f : Nat) : k.pageBitmap f = true ↔ f < 0 :=
    iff_of_false (by rw [hbits]; decide) (Nat.not_lt_zero f)
  obtain ⟨k₁, hprendi, hk₁, hbits₁⟩ := prendi_next hnone (by omega) (by omega)
  have hstart : TablesMade numPages { k₁ with pd := 0 } 0 := by
    refine ⟨?_, ?_, rfl, hbits₁, fun j hj => absurd hj (Nat.not_lt_zero j),
      fun t ht hle => absurd ht (by omega), ?_⟩
    · rw [hk₁]
      exact hpaging
    · rw [hk₁]
      exact hnum
    · rw [hk₁]
      exact hvirt
  obtain ⟨k₂, htables, hmade⟩ := @initTables_made _ 10 0 numPages hstart (by omega) hroom
  have hpages : PagesMade numPages k₂ 0 := by
    refine ⟨hmade.paging, hmade.numPages, hmade.pd, hmade.bits, hmade.dir, fun v hv => ?_,
      fun v => iff_of_false (by rw [hmade.virt]; decide) (Nat.not_lt_zero v)⟩
    rw [if_neg (Nat.not_lt_zero v)]
    unfold tablePages at hv
    exact hmade.clear _ (by omega) (by omega) _
  obtain ⟨k₃, hinit, hdone⟩ := @initPages_made k₂ 11 0 numPages hpages (by decide)
  obtain ⟨k', hclear, hk', hwords⟩ := @clearDir_clears k₃ (1024 - 10) 10 hdone.paging hdone.pd
  refine ⟨k', ?_, paged_of_made hdone hroom hleast hk' hwords, ?_, ?_, ?_, ?_⟩
  · unfold initSpazioVirtuale
    rw [hprendi]
    dsimp only
    rw [Nat.zero_mul, htables]
    dsimp only [Option.bind_eq_bind, Option.bind_some]
    have hlist : 0 :: (List.range' (0 + 1) 10).map (· * 4096) = (List.range' 0 11).map (· * 4096) :=
      rfl
    rw [hlist, hinit, Option.bind_some]
    exact hclear
  · rw [hk']
    exact hdone.paging
  · rw [hk']
    exact hdone.numPages
  · rw [hk']
    exact hdone.bits
  · rw [hk']
    exact hdone.virt

/-! ### The kernel's memory -/

theorem freeFrames_of_bits {m : Nat} (hbits : ∀ f, k.pageBitmap f = true ↔ f < m)
    (hm : m ≤ k.numPages) : freeFrames k + m = k.numPages := by
  have hall : freeCount (fun _ => True) k.numPages = k.numPages := by
    unfold freeCount
    rw [Finset.filter_true, Finset.card_range]
  refine Eq.trans (freeCount_stretch (a := 0) ?_ (fun _ _ _ => trivial) fun f => ?_) hall
  · rw [Nat.zero_add]
    exact hm
  · have hbit := not_congr (hbits f)
    rw [Bool.not_eq_true] at hbit
    rw [hbit, Nat.zero_add, true_and, and_iff_right (Nat.zero_le f)]

/-- The memory of the kernel: the directory with its tables, a table of descriptors, and a
megabyte. -/
def kernelPages : Nat := 11 + 1 + 256

/-- The kernel starts with its pages in use, and with the descriptor of the first ones. -/
theorem initKernelMmu_packed (words : Nat → Nat → Nat) {numPages : Nat}
    (hleast : kernelPages ≤ numPages) (hroom : numPages < 2 ^ 20) :
    ∃ k, initKernelMmu (initSpazioFisico words numPages) = some k ∧
      Packed k kernelPages (numPages - kernelPages) ∧ k.paging = true ∧ k.numPages = numPages ∧
      k.tmem = [⟨11 * 4096, [⟨0, 257⟩]⟩] := by
  obtain ⟨room, rfl⟩ : ∃ room, numPages = kernelPages + room :=
    ⟨numPages - kernelPages, by omega⟩
  unfold kernelPages at hroom
  obtain ⟨k₁, hinit, hagrees, hpaging, hnum, hbits, hvirt⟩ := @initSpazioVirtuale_agrees
    { initSpazioFisico words (kernelPages + room) with
      paging := false
      pagineVirtualiLibere := fun _ => false } (kernelPages + room) rfl rfl (fun _ => rfl)
    (fun _ => rfl) (by unfold kernelPages; omega) (by unfold kernelPages; omega)
  unfold kernelPages at hnum
  have hcount := freeFrames_of_bits hbits (by omega)
  have hpacked : Packed k₁ 11 (room + 256 + 1) := ⟨hagrees, hvirt, by omega⟩
  -- the table of descriptors
  obtain ⟨a₁, k₂, hprendi, hsetta, htaken, hpacked₂⟩ := hpacked.space_taken (by decide) (by decide)
  obtain ⟨k₃, hk₃⟩ : ∃ w : Kernel, w = { k₂ with tmem := [⟨11 * 4096, []⟩] } := ⟨_, rfl⟩
  obtain ⟨k₄, hk₄⟩ : ∃ w : Kernel,
    w = { k₃ with tmem := [⟨11 * 4096, [⟨0, 257⟩]⟩] } := ⟨_, rfl⟩
  have hdesc : settaDescMem descDepth k₃ 0 257 = some k₄ := by
    rw [hk₄]
    apply settaDescMem_found
    rw [hk₃]
    rfl
  have hpacked₄ : Packed k₄ 12 (room + 256) := by
    refine ⟨hpacked₂.agrees.congr ?_ ?_ ?_ (fun f hf => ?_) fun u _ => ?_, fun u => ?_, ?_⟩
    · rw [hk₄, hk₃]
    · rw [hk₄, hk₃]
    · rw [hk₄, hk₃]
    · rw [hk₄, hk₃]
      exact hf
    · rw [hk₄, hk₃]
    · rw [hk₄, hk₃]
      exact hpacked₂.virt u
    · have hframes : freeFrames k₄ = freeFrames k₂ := by
        rw [hk₄, hk₃]
        rfl
      rw [hframes]
      exact hpacked₂.room
  -- the first megabyte
  obtain ⟨a₂, k₅, hprendi₂, hsetta₂, htaken₂, hpacked₅⟩ :=
    hpacked₄.space_taken (by decide) (by decide)
  refine ⟨{ k₅ with paging := true }, ?_, ⟨?_, hpacked₅.virt, ?_⟩, rfl, ?_, ?_⟩
  · unfold initKernelMmu initDescMem
    rw [hinit]
    dsimp only [Option.bind_eq_bind, Option.bind_some]
    rw [hprendi]
    dsimp only [Option.bind_some]
    rw [hsetta]
    dsimp only [Option.bind_some]
    rw [← hk₃]
    have hpages : (2 ^ 20 + 0x1000) / 4096 = 257 := rfl
    have hmega : 2 ^ 20 / 4096 = 256 := rfl
    rw [hpages, hmega, hdesc]
    dsimp only [Option.bind_some]
    rw [hprendi₂]
    dsimp only [Option.bind_some]
    rw [hsetta₂]
    rfl
  · exact hpacked₅.agrees.congr rfl rfl rfl (fun _ hf => hf) fun _ _ => Iff.rfl
  · rw [Nat.add_sub_cancel_left]
    exact hpacked₅.room
  · have hnum₄ : k₄.numPages = k₂.numPages := by rw [hk₄, hk₃]
    exact (htaken₂.numPages.trans hnum₄).trans (htaken.numPages.trans hnum)
  · have htmem : k₅.tmem = k₄.tmem := htaken₂.tmem
    exact htmem.trans (by rw [hk₄])

end OsdevArchive.ItaliOs3
