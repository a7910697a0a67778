import OsdevArchive.ItaliOs3.Paging

/-!
Frames and pages that are taken and given back: the search for a frame and for a stretch of
pages, and the loops over the pages of a stretch.
-/

namespace OsdevArchive.ItaliOs3

open OsdevArchive.Lib.Stretches

variable {k : Kernel} {mapped : Nat → Prop} {u v f n i : Nat}

/-! ### Frames -/

/-- The number of the frames that are free. -/
def freeFrames (k : Kernel) : Nat := freeCount (fun f => k.pageBitmap f = false) k.numPages

theorem findFirstZeroBit_cases (bits : Bits) (size : Nat) :
    (∃ p < size, findFirstZeroBit bits size = p ∧ bits p = false ∧ ∀ q < p, bits q = true) ∨
      findFirstZeroBit bits size = size ∧ ∀ p < size, bits p = true := by
  unfold findFirstZeroBit
  cases hfind : (List.range size).find? fun nr => !bits nr with
  | none =>
    refine .inr ⟨rfl, fun p hp => ?_⟩
    have hset := List.find?_eq_none.mp hfind p (List.mem_range.mpr hp)
    simpa using hset
  | some p =>
    obtain ⟨hclear, hmem, hfirst⟩ := List.find?_range_eq_some.mp hfind
    refine .inl ⟨p, List.mem_range.mp hmem, rfl, by simpa using hclear, fun q hq => ?_⟩
    simpa using hfirst q hq

/-- As long as a frame is free, the first one that is free is taken. -/
theorem prendiPaginaFisica_free (hroom : k.numPages < 2 ^ 20) (h : 0 < freeFrames k) :
    ∃ f < k.numPages, k.pageBitmap f = false ∧ (∀ g < f, k.pageBitmap g = true) ∧
      prendiPaginaFisica k =
        (f * 4096, { k with pageBitmap := Function.update k.pageBitmap f true }) := by
  obtain ⟨f, hf, hfind, hclear, hfirst⟩ | ⟨-, hfull⟩ :=
    findFirstZeroBit_cases k.pageBitmap k.numPages
  · refine ⟨f, hf, hclear, hfirst, ?_⟩
    have hsmall : f * dimPage % 2 ^ 32 = f * 4096 := by
      unfold dimPage
      omega
    unfold prendiPaginaFisica
    dsimp only
    rw [hfind, if_neg (by omega), hsmall]
  · obtain ⟨f, hf, hfree⟩ := exists_free h
    rw [hfull f hf] at hfree
    cases hfree

theorem freeFrames_take {k' : Kernel} (hf : f < k.numPages) (hfree : k.pageBitmap f = false)
    (hnum : k'.numPages = k.numPages)
    (hbits : k'.pageBitmap = Function.update k.pageBitmap f true) :
    freeFrames k' + 1 = freeFrames k := by
  unfold freeFrames
  rw [hnum]
  apply freeCount_take hf hfree
  intro p
  rw [hbits, Function.update_apply]
  split
  · rename_i heq
    exact iff_of_false (by decide) fun hboth => hboth.2 heq
  · rename_i hne
    exact ⟨fun hp => ⟨hp, hne⟩, fun hp => hp.1⟩

/-! ### Stretches of pages -/

/-- Nothing but the tables and the frames in use has changed. -/
structure Kept (k k' : Kernel) : Prop where
  paging : k'.paging = k.paging
  numPages : k'.numPages = k.numPages
  virt : k'.pagineVirtualiLibere = k.pagineVirtualiLibere
  tmem : k'.tmem = k.tmem

/-- Each page of a stretch gets a frame. -/
theorem settaSpazio_maps (h : Paged k mapped) (hv : v + n ≤ tablePages)
    (hnew : ∀ u, v ≤ u → u < v + n → ¬ mapped u) (hroom : n ≤ freeFrames k) :
    ∃ k', settaSpazioVirtuale k.pd n k (v * 4096) = some k' ∧
      Paged k' (fun u => mapped u ∨ v ≤ u ∧ u < v + n) ∧ Kept k k' ∧
      freeFrames k' + n = freeFrames k := by
  induction n generalizing k v mapped with
  | zero =>
    refine ⟨k, rfl, h.congr rfl rfl rfl (fun _ hf => hf) fun u _ => ?_, ⟨rfl, rfl, rfl, rfl⟩, rfl⟩
    exact or_iff_left (by omega)
  | succ n ih =>
    obtain ⟨f, hf, hfree, -, hprendi⟩ :=
      prendiPaginaFisica_free h.room (Nat.lt_of_lt_of_le (Nat.succ_pos n) hroom)
    obtain ⟨taken, htaken⟩ : ∃ w : Kernel,
      w = { k with pageBitmap := Function.update k.pageBitmap f true } := ⟨_, rfl⟩
    have hpagedTaken : Paged taken mapped := by
      rw [htaken]
      refine h.congr rfl rfl rfl (fun g hg => ?_) fun _ _ => Iff.rfl
      dsimp only
      rw [Function.update_apply, hg, ite_self]
    have hsetta := hpagedTaken.settaPagina (v := v) (by omega) f
    obtain ⟨next, hnext⟩ : ∃ w : Kernel, w = taken.setEntry v (f * 4096 + 3) := ⟨_, rfl⟩
    have hpaged : Paged next fun u => mapped u ∨ u = v := by
      apply h.map (hnew v (Nat.le_refl v) (by omega)) hf hfree
      rw [hnext, htaken]
      rfl
    have hkept : Kept k next := by
      rw [hnext, htaken]
      exact ⟨rfl, rfl, rfl, rfl⟩
    have hcount : freeFrames next + 1 = freeFrames k := by
      apply freeFrames_take hf hfree hkept.numPages
      rw [hnext, htaken]
      rfl
    have hpd : taken.pd = k.pd := by rw [htaken]
    rw [hpd] at hsetta
    have hunmapped (u : Nat) (hle : v + 1 ≤ u) (hlt : u < v + 1 + n) : ¬ (mapped u ∨ u = v) := by
      rintro (hold | rfl)
      · exact hnew u (by omega) (by omega) hold
      · omega
    obtain ⟨k', hrun, hmapped, hrest, hfew⟩ :=
      ih hpaged (v := v + 1) (by omega) hunmapped (by omega)
    refine ⟨k', ?_, ?_, ⟨hrest.paging.trans hkept.paging, hrest.numPages.trans hkept.numPages,
      hrest.virt.trans hkept.virt, hrest.tmem.trans hkept.tmem⟩, by omega⟩
    · have haddr : v * 4096 + 4096 = (v + 1) * 4096 := by omega
      have hdir : k.pd = next.pd := h.pd.trans hpaged.pd.symm
      unfold settaSpazioVirtuale
      rw [hprendi]
      dsimp only
      rw [← htaken, hsetta, ← hnext, haddr, hdir]
      exact hrun
    · refine hmapped.congr rfl rfl rfl (fun _ hg => hg) fun u _ => ?_
      rw [or_assoc]
      apply or_congr_right
      omega

/-- What remains after the pages from `v` on have lost their frames. -/
structure Released (k k' : Kernel) (v n : Nat) : Prop where
  paging : k'.paging = k.paging
  numPages : k'.numPages = k.numPages
  tmem : k'.tmem = k.tmem
  virt : ∀ u, k'.pagineVirtualiLibere u = true ↔
    k.pagineVirtualiLibere u = true ∧ ¬ (v ≤ u ∧ u < v + n)
  entries : ∀ u, ¬ (v ≤ u ∧ u < v + n) → entry k' u = entry k u
  frames : ∀ f, k'.pageBitmap f = true ↔
    k.pageBitmap f = true ∧ ∀ u, v ≤ u → u < v + n → getAddr (entry k u) ≠ f * 4096

/-- Each page of a stretch gives its frame back. -/
theorem liberaSpazio_unmaps (h : Paged k mapped) (hown : 11 ≤ v) (hv : v + n ≤ tablePages)
    (hmapped : ∀ u, v ≤ u → u < v + n → mapped u) :
    ∃ k', liberaSpazioVirtuale n k (v * 4096) = some k' ∧
      Paged k' (fun u => mapped u ∧ ¬ (v ≤ u ∧ u < v + n)) ∧ Released k k' v n := by
  induction n generalizing k v mapped with
  | zero =>
    refine ⟨k, rfl, h.congr rfl rfl rfl (fun _ hf => hf) fun u _ => and_iff_left (by omega),
      rfl, rfl, rfl, fun u => (and_iff_left (by omega)).symm, fun _ _ => rfl, fun f => ?_⟩
    exact (and_iff_left fun u hle hlt => absurd hlt (by omega)).symm
  | succ n ih =>
    have hm := hmapped v (Nat.le_refl v) (by omega)
    obtain ⟨f, hf, he, hused⟩ := h.frame v (by omega) hm
    have hlibera := h.liberaPagina (by omega) he
    obtain ⟨next, hnext⟩ : ∃ w : Kernel, w = { k.setEntry v (setAssent (f * 4096 + 3)) with
      pagineVirtualiLibere := Function.update k.pagineVirtualiLibere v false
      pageBitmap := Function.update k.pageBitmap f false } := ⟨_, rfl⟩
    have hpaged := h.unmap (by omega) hm hown he hnext
    have hentries (u : Nat) (hu : u ≠ v) : entry next u = entry k u := by
      rw [hnext]
      exact (entry_setEntry k v _ u).trans (if_neg hu)
    obtain ⟨k', hrun, hrest, hreleased⟩ := @ih next _ (v + 1) hpaged (by omega) (by omega)
      fun u hle hlt => ⟨hmapped u (by omega) (by omega), by omega⟩
    refine ⟨k', ?_, ?_, ?_, ?_, ?_, fun u => ?_, fun u hu => ?_, fun g => ?_⟩
    · have haddr : v * 4096 + 4096 = (v + 1) * 4096 := by omega
      unfold liberaSpazioVirtuale
      rw [hlibera, ← hnext, haddr]
      exact hrun
    · refine hrest.congr rfl rfl rfl (fun _ hg => hg) fun u _ => ?_
      rw [and_assoc]
      apply and_congr_right
      omega
    · rw [hreleased.paging, hnext]
      rfl
    · rw [hreleased.numPages, hnext]
      rfl
    · rw [hreleased.tmem, hnext]
      rfl
    · rw [hreleased.virt, hnext]
      dsimp only
      rw [Function.update_apply]
      split
      · rename_i heq
        exact iff_of_false (fun hb => Bool.false_ne_true hb.1) fun hb => hb.2 (by omega)
      · apply and_congr_right
        omega
    · rw [hreleased.entries u (by omega), hentries u (by omega)]
    · rw [hreleased.frames, hnext]
      dsimp only
      rw [← hnext, Function.update_apply]
      constructor
      · rintro ⟨hbit, hothers⟩
        split at hbit
        · cases hbit
        · rename_i hne
          refine ⟨hbit, fun u hle hlt heq => ?_⟩
          obtain rfl | hgt := Nat.eq_or_lt_of_le hle
          · rw [he, getAddr_entry] at heq
            exact hne (Nat.eq_of_mul_eq_mul_right (by decide) heq).symm
          · rw [← hentries u (by omega)] at heq
            exact hothers u hgt (by omega) heq
      · rintro ⟨hbit, hothers⟩
        have hne : g ≠ f := by
          rintro rfl
          refine hothers v (Nat.le_refl v) (by omega) ?_
          rw [he, getAddr_entry]
        rw [if_neg hne]
        refine ⟨hbit, fun u hle hlt => ?_⟩
        rw [hentries u (by omega)]
        exact hothers u (by omega) (by omega)

/-! ### The search for a stretch -/

/-- Page `v` is free. -/
abbrev FreePage (k : Kernel) (v : Nat) : Prop := k.pagineVirtualiLibere v = false

def Kernel.mark (k : Kernel) (v n : Nat) : Kernel :=
  { k with
    pagineVirtualiLibere := fun u => decide (v ≤ u ∧ u < v + n) || k.pagineVirtualiLibere u }

/-- The search finds a stretch that ends no later than any other one. -/
theorem cercaSpazio_finds {bits : Bits} {a left count ptrov : Nat} (hptrov : ptrov ≤ count)
    (hfew : ptrov < n) (hlast : Stretch (fun v => bits v = false) (count - ptrov) ptrov)
    (ha : Stretch (fun v => bits v = false) a n) (hbefore : count - ptrov ≤ a)
    (hleft : a + n ≤ count + left) :
    ∃ c, cercaSpazio bits n left count ptrov = some c ∧ c < a + n ∧ n ≤ c + 1 ∧
      Stretch (fun v => bits v = false) (c + 1 - n) n := by
  induction left generalizing count ptrov with
  | zero => omega
  | succ left ih =>
    unfold cercaSpazio
    dsimp only
    cases hbit : bits count with
    | false =>
      have hnext : Stretch (fun v => bits v = false) (count - ptrov) (ptrov + 1) := by
        intro v hle hlt
        obtain hin | rfl := Nat.lt_or_eq_of_le (show v ≤ count by omega)
        · exact hlast v hle (by omega)
        · exact hbit
      have hcount : (if !false then ptrov + 1 else 0) = ptrov + 1 := rfl
      rw [hcount]
      split
      · rename_i hall
        refine ⟨count, rfl, by omega, by omega, ?_⟩
        have hstart : count + 1 - n = count - ptrov := by omega
        rw [hstart, ← hall]
        exact hnext
      · have hstart : count + 1 - (ptrov + 1) = count - ptrov := by omega
        apply ih
        · omega
        · omega
        · rw [hstart]
          exact hnext
        · omega
        · omega
    | true =>
      have haside := ha.aside (show ¬ bits count = false by rw [hbit]; decide)
      have hcount : (if !true then ptrov + 1 else 0) = 0 := rfl
      rw [hcount, if_neg (by omega)]
      apply ih
      · omega
      · omega
      · exact stretch_zero _ _
      · omega
      · omega

theorem foldl_prendiPaginaVirtuale (k : Kernel) (v n : Nat) :
    (List.range' v n).foldl prendiPaginaVirtuale k = k.mark v n := by
  induction n generalizing k v with
  | zero =>
    have hnone : k.mark v 0 = k := by
      have hbits : (fun u => decide (v ≤ u ∧ u < v + 0) || k.pagineVirtualiLibere u) =
          k.pagineVirtualiLibere := by
        funext u
        rw [decide_eq_false (by omega), Bool.false_or]
      unfold Kernel.mark
      rw [hbits]
    exact hnone.symm
  | succ n ih =>
    rw [List.range'_succ, List.foldl_cons, ih]
    unfold Kernel.mark prendiPaginaVirtuale
    dsimp only
    congr 1
    funext u
    rw [Function.update_apply]
    by_cases hu : u = v
    · rw [if_pos hu, Bool.or_true, decide_eq_true (by omega), Bool.true_or]
    · rw [if_neg hu]
      congr 1
      exact decide_eq_decide.mpr (by omega)

theorem prendiSpazio_takes (h : HasStretch (FreePage k) tablePages n) (hn : 0 < n)
    (hzero : ¬ FreePage k 0) :
    ∃ v, prendiSpazioVirtuale k n = some (v * 4096, k.mark v n) ∧ v + n ≤ tablePages ∧
      Stretch (FreePage k) v n ∧
      ∀ a, a + n ≤ tablePages → Stretch (FreePage k) a n → v ≤ a := by
  obtain ⟨a, hle, ha⟩ := h
  have htables : tablePages ≤ bitmapPages := by decide
  obtain ⟨c, hfind, hc, hcn, hstretch⟩ := @cercaSpazio_finds n k.pagineVirtualiLibere a bitmapPages
    0 0 (Nat.le_refl 0) hn (stretch_zero _ _) ha (Nat.zero_le a) (by omega)
  obtain ⟨v, rfl⟩ : ∃ v, c = v + (n - 1) := ⟨c - (n - 1), by omega⟩
  have hstart : v + (n - 1) + 1 - n = v := by omega
  have hback : v + (n - 1) - (n - 1) = v := by omega
  rw [hstart] at hstretch
  have hpos : v ≠ 0 := by
    rintro rfl
    exact hzero (hstretch 0 (Nat.le_refl 0) (by omega))
  refine ⟨v, ?_, by omega, hstretch, fun b hbe hb => ?_⟩
  · unfold prendiSpazioVirtuale
    rw [hfind]
    dsimp only [Option.bind_eq_bind, Option.bind_some]
    rw [hback, foldl_prendiPaginaVirtuale, if_pos (by omega), Nat.mul_comm]
    split
    · rename_i hone
      rw [hone, Nat.sub_self, Nat.add_zero, Nat.mul_comm]
    · rw [Nat.mul_comm]
  · obtain ⟨d, hfound, hd, -⟩ := @cercaSpazio_finds n k.pagineVirtualiLibere b bitmapPages
      0 0 (Nat.le_refl 0) hn (stretch_zero _ _) hb (Nat.zero_le b) (by omega)
    obtain rfl : v + (n - 1) = d := Option.some.inj (hfind.symm.trans hfound)
    omega

end OsdevArchive.ItaliOs3
