import OsdevArchive.Lib.Runs
import OsdevArchive.ItaliOs3.Spaces

/-!
Runs of `alloca` and `dealloca`. The bitmap of pages and the tables agree on what is in use;
a run keeps a list of the ranges that are live.
-/

namespace OsdevArchive.ItaliOs3

open OsdevArchive.Lib.Runs OsdevArchive.Lib.Stretches

variable {k : Kernel} {u v f n i addr : Nat}

/-- The pages that are in use are those that the tables map. -/
def Agrees (k : Kernel) : Prop := Paged k fun v => k.pagineVirtualiLibere v = true

/-- The number of the pages with a table that are free. -/
def freePages (k : Kernel) : Nat := freeCount (FreePage k) tablePages

theorem Agrees.used_own (h : Agrees k) (hi : i < 11) : ¬ FreePage k i := by
  have hmapped : k.pagineVirtualiLibere i = true := h.mapped_own hi
  rw [FreePage, hmapped]
  decide

/-- What the taking of a stretch of pages leaves behind. -/
structure Taken (k k' : Kernel) (v n : Nat) : Prop where
  agrees : Agrees k'
  inTables : v + n ≤ tablePages
  wasFree : Stretch (FreePage k) v n
  first : ∀ a, a + n ≤ tablePages → Stretch (FreePage k) a n → v ≤ a
  paging : k'.paging = k.paging
  numPages : k'.numPages = k.numPages
  tmem : k'.tmem = k.tmem
  used : ∀ u, k'.pagineVirtualiLibere u = true ↔
    k.pagineVirtualiLibere u = true ∨ v ≤ u ∧ u < v + n
  frames : freeFrames k' + n = freeFrames k
  pages : freePages k' + n = freePages k

/-- A stretch of pages is taken, and gets frames. -/
theorem space_taken (h : Agrees k) (hn : 0 < n) (hpages : HasStretch (FreePage k) tablePages n)
    (hframes : n ≤ freeFrames k) :
    ∃ v k₁ k', prendiSpazioVirtuale k n = some (v * 4096, k₁) ∧
      settaSpazioVirtuale k₁.pd n k₁ (v * 4096) = some k' ∧ Taken k k' v n := by
  obtain ⟨v, hprendi, hv, hfree, hfirst⟩ :=
    prendiSpazio_takes hpages hn (h.used_own (by decide))
  have hpaged : Paged (k.mark v n) fun u => k.pagineVirtualiLibere u = true :=
    h.congr rfl rfl rfl (fun _ hf => hf) fun _ _ => Iff.rfl
  obtain ⟨k', hsetta, hmapped, hkept, hfew⟩ := settaSpazio_maps hpaged hv
    (fun u hle hlt hu => by rw [hfree u hle hlt] at hu; cases hu) hframes
  have hused (u : Nat) : k'.pagineVirtualiLibere u = true ↔
      k.pagineVirtualiLibere u = true ∨ v ≤ u ∧ u < v + n := by
    rw [hkept.virt]
    change (decide (v ≤ u ∧ u < v + n) || k.pagineVirtualiLibere u) = true ↔ _
    rw [Bool.or_eq_true, decide_eq_true_iff, or_comm]
  refine ⟨v, k.mark v n, k', hprendi, hsetta, hmapped.congr rfl rfl rfl (fun _ hf => hf)
    fun u _ => hused u, hv, hfree, hfirst, hkept.paging, hkept.numPages, hkept.tmem, hused, hfew,
    ?_⟩
  apply freeCount_stretch hv hfree
  intro u
  have hnot := not_congr (hused u)
  rw [Bool.not_eq_true, not_or, Bool.not_eq_true] at hnot
  exact hnot

/-- The pages below `m` are in use and no others, and there are `room` frames. -/
structure Packed (k : Kernel) (m room : Nat) : Prop where
  agrees : Agrees k
  virt : ∀ v, k.pagineVirtualiLibere v = true ↔ v < m
  room : room ≤ freeFrames k

theorem Packed.free_iff {m room : Nat} (h : Packed k m room) (v : Nat) :
    FreePage k v ↔ m ≤ v := by
  rw [FreePage, ← Bool.not_eq_true, h.virt]
  exact Nat.not_lt

theorem Packed.stretch {m room : Nat} (h : Packed k m room) : Stretch (FreePage k) m n := by
  intro v hle hlt
  exact (h.free_iff v).mpr hle

/-- The next pages are taken. -/
theorem Packed.space_taken {m room : Nat} (h : Packed k m (room + n)) (hn : 0 < n)
    (hm : m + n ≤ tablePages) :
    ∃ k₁ k', prendiSpazioVirtuale k n = some (m * 4096, k₁) ∧
      settaSpazioVirtuale k₁.pd n k₁ (m * 4096) = some k' ∧ Taken k k' m n ∧
      Packed k' (m + n) room := by
  have hroom := h.room
  obtain ⟨v, k₁, k', hprendi, hsetta, htaken⟩ :=
    ItaliOs3.space_taken h.agrees hn ⟨m, hm, h.stretch⟩ (by omega)
  have hle : m ≤ v :=
    (h.free_iff v).mp (htaken.wasFree v (Nat.le_refl v) (Nat.lt_add_of_pos_right hn))
  obtain rfl : v = m := Nat.le_antisymm (htaken.first m hm h.stretch) hle
  have hframes := htaken.frames
  refine ⟨k₁, k', hprendi, hsetta, htaken, htaken.agrees, fun u => ?_, by omega⟩
  rw [htaken.used, h.virt]
  omega

/-! ### Descriptors -/

/-- All tables of descriptors are full. -/
def Full (k : Kernel) : Prop := ∀ cmem ∈ k.tmem, cmem.descLiberi = 0

instance instDecidableFull (k : Kernel) : Decidable (Full k) :=
  inferInstanceAs (Decidable (∀ cmem ∈ k.tmem, cmem.descLiberi = 0))

theorem cercaDesc_cases (d : VmMemDesc) (areas : List VmMemArea) :
    (∀ cmem ∈ areas, cmem.descLiberi = 0) ∧ cercaDesc d areas = none ∨
      ¬ (∀ cmem ∈ areas, cmem.descLiberi = 0) ∧ ∃ areas', cercaDesc d areas = some areas' := by
  induction areas with
  | nil => exact .inl ⟨fun _ hmem => absurd hmem List.not_mem_nil, rfl⟩
  | cons cmem next ih =>
    unfold cercaDesc
    by_cases hfull : cmem.descLiberi = 0
    · rw [if_neg (not_not.mpr hfull)]
      obtain ⟨hall, hnone⟩ | ⟨hnot, areas', hsome⟩ := ih
      · rw [hnone]
        refine .inl ⟨fun a ha => ?_, rfl⟩
        obtain rfl | ha := List.mem_cons.mp ha
        · exact hfull
        · exact hall a ha
      · rw [hsome]
        exact .inr ⟨fun hall => hnot fun a ha => hall a (List.mem_cons_of_mem _ ha), _, rfl⟩
    · rw [if_pos hfull]
      exact .inr ⟨fun hall => hfull (hall cmem List.mem_cons_self), _, rfl⟩

/-- Behind full tables, a new one gets the descriptor. -/
theorem cercaDesc_append {areas : List VmMemArea} (d : VmMemDesc)
    (hfull : ∀ cmem ∈ areas, cmem.descLiberi = 0) {cmem : VmMemArea}
    (hroom : cmem.descLiberi ≠ 0) :
    cercaDesc d (areas ++ [cmem]) = some (areas ++ [{ cmem with mem := cmem.mem ++ [d] }]) := by
  induction areas with
  | nil =>
    change cercaDesc d [cmem] = _
    unfold cercaDesc
    rw [if_pos hroom]
    rfl
  | cons a areas ih =>
    rw [List.cons_append]
    unfold cercaDesc
    rw [if_neg (not_not.mpr (hfull a List.mem_cons_self)),
      ih fun cmem hmem => hfull cmem (List.mem_cons_of_mem a hmem)]
    rfl

/-- The pages and frames that a descriptor may need, in a table of its own. -/
def descNeed (k : Kernel) : Nat := if Full k then 1 else 0

/-- What `setta_desc_mem` leaves as it was. -/
structure Described (k k' : Kernel) : Prop where
  agrees : Agrees k'
  paging : k'.paging = k.paging
  numPages : k'.numPages = k.numPages
  used : ∀ u, k.pagineVirtualiLibere u = true → k'.pagineVirtualiLibere u = true

theorem descLiberi_ne {a : Nat} {mem : List VmMemDesc} (h : mem.length < numDesc) :
    (VmMemArea.mk a mem).descLiberi ≠ 0 :=
  Nat.sub_ne_zero_of_lt h

theorem settaDescMem_found {depth : Nat} {areas : List VmMemArea}
    (h : cercaDesc ⟨addr, n⟩ k.tmem = some areas) :
    settaDescMem (depth + 1) k addr n = some { k with tmem := areas } := by
  unfold settaDescMem
  rw [h]

theorem settaDescMem_new {depth c : Nat} {k₁ k₂ : Kernel}
    (h : cercaDesc ⟨addr, n⟩ k.tmem = none) (hprendi : prendiSpazioVirtuale k 1 = some (c, k₁))
    (hsetta : settaSpazioVirtuale k₁.pd 1 k₁ c = some k₂) :
    settaDescMem (depth + 1) k addr n =
      (settaDescMem depth { k₂ with tmem := k₂.tmem ++ [⟨c, []⟩] } c 1).bind fun k =>
        settaDescMem depth k addr n := by
  conv =>
    lhs
    unfold settaDescMem
  rw [h]
  dsimp only
  rw [hprendi]
  dsimp only [Option.bind_eq_bind, Option.bind_some]
  rw [hsetta]
  rfl

theorem settaDescMem_describes (h : Agrees k) (hframes : descNeed k ≤ freeFrames k)
    (hpages : descNeed k ≤ freePages k) (addr n : Nat) :
    ∃ k', settaDescMem descDepth k addr n = some k' ∧ Described k k' := by
  obtain ⟨hfull, hnone⟩ | ⟨hnot, areas, hsome⟩ := cercaDesc_cases ⟨addr, n⟩ k.tmem
  · have hneed : descNeed k = 1 := if_pos hfull
    rw [hneed] at hframes hpages
    obtain ⟨q, hq, hfree⟩ := exists_free hpages
    have hone : HasStretch (FreePage k) tablePages 1 :=
      ⟨q, hq, (stretch_zero _ _).cons hfree⟩
    obtain ⟨v, k₁, k₂, hprendi, hsetta, htaken⟩ := space_taken h (by decide) hone hframes
    -- the new table gets a descriptor of itself, and then the one that there was no room for
    obtain ⟨k₃, hk₃⟩ : ∃ w : Kernel,
      w = { k₂ with tmem := k₂.tmem ++ [⟨v * 4096, []⟩] } := ⟨_, rfl⟩
    obtain ⟨k₄, hk₄⟩ : ∃ w : Kernel,
      w = { k₃ with tmem := k.tmem ++ [⟨v * 4096, [⟨v * 4096, 1⟩]⟩] } := ⟨_, rfl⟩
    have hself : cercaDesc ⟨v * 4096, 1⟩ k₃.tmem =
        some (k.tmem ++ [⟨v * 4096, [⟨v * 4096, 1⟩]⟩]) := by
      rw [hk₃, htaken.tmem]
      exact cercaDesc_append _ hfull (descLiberi_ne (by decide))
    have hthis : cercaDesc ⟨addr, n⟩ k₄.tmem =
        some (k.tmem ++ [⟨v * 4096, [⟨v * 4096, 1⟩, ⟨addr, n⟩]⟩]) := by
      rw [hk₄]
      exact cercaDesc_append _ hfull (descLiberi_ne (show 1 < numDesc by decide))
    have hrun := @settaDescMem_new k n addr 1 (v * 4096) k₁ k₂ hnone hprendi hsetta
    rw [← hk₃, settaDescMem_found hself, ← hk₄, Option.bind_some, settaDescMem_found hthis] at hrun
    refine ⟨_, hrun, ?_, ?_, ?_, fun u hu => ?_⟩
    · refine htaken.agrees.congr ?_ ?_ ?_ (fun f hf => ?_) fun u _ => ?_
      · rw [hk₄, hk₃]
      · rw [hk₄, hk₃]
      · rw [hk₄, hk₃]
      · rw [hk₄, hk₃]
        exact hf
      · rw [hk₄, hk₃]
    · rw [hk₄, hk₃]
      exact htaken.paging
    · rw [hk₄, hk₃]
      exact htaken.numPages
    · rw [hk₄, hk₃]
      exact (htaken.used u).mpr (.inl hu)
  · refine ⟨_, settaDescMem_found hsome, ?_, rfl, rfl, fun _ hu => hu⟩
    exact h.congr rfl rfl rfl (fun _ hf => hf) fun _ _ => Iff.rfl

end OsdevArchive.ItaliOs3
