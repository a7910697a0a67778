import OsdevArchive.ItaliOs3.MemoryInit

/-!
Runs of `alloca` and `dealloca`, with the ranges that are live.
-/

namespace OsdevArchive.ItaliOs3

open OsdevArchive.Lib.Runs OsdevArchive.Lib.Stretches

/-- A range of pages that `alloca` has returned. -/
structure Range where
  page : Nat
  pages : Nat
deriving DecidableEq

/-- Page `v` belongs to the range. -/
abbrev Range.Has (r : Range) (v : Nat) : Prop := r.page ≤ v ∧ v < r.page + r.pages

structure Machine where
  kernel : Kernel
  live : List Range

inductive Event where
  | alloca (len : Nat)
  | dealloca (addr : Nat)

def perform (s : Machine) : Event → Option Machine
  | .alloca len => do
    let (addr, k) ← alloca s.kernel len
    some ⟨k, ⟨addr / 4096, pagineFor len⟩ :: s.live⟩
  | .dealloca addr => do
    let r ← s.live.find? fun r => r.page * 4096 = addr
    let k ← dealloca s.kernel addr
    some ⟨k, s.live.erase r⟩

/-- The descriptors, table by table. -/
def records (k : Kernel) : List VmMemDesc := k.tmem.flatMap VmMemArea.mem

/-- The first descriptor of the address is for `n` pages. -/
def FirstRecord (k : Kernel) (addr n : Nat) : Prop :=
  ∃ d, (records k).find? (fun d => d.addr = addr) = some d ∧ d.size = n

/-- There are pages with a table in one piece, and pages and frames for a table of descriptors
where a new one is needed; a range was not recorded before with another length. -/
def Allowed (s : Machine) : Event → Prop
  | .alloca len => 0 < len ∧ HasStretch (FreePage s.kernel) tablePages (pagineFor len) ∧
    pagineFor len + descNeed s.kernel ≤ freeFrames s.kernel ∧
    pagineFor len + descNeed s.kernel ≤ freePages s.kernel
  | .dealloca addr => ∃ r ∈ s.live, r.page * 4096 = addr ∧ FirstRecord s.kernel addr r.pages

/-- No page belongs to two live ranges, and each one has a frame of its own. -/
structure Sound (s : Machine) : Prop where
  disjoint : s.live.Pairwise fun r q => ∀ v, r.Has v → ¬ q.Has v
  mapped : ∀ r ∈ s.live, ∀ v, r.Has v → ∃ f < s.kernel.numPages, frameAt s.kernel v = some f ∧
    ∀ u < 2 ^ 20, frameAt s.kernel u = some f → u = v

/-- The pages of the range are not mapped any more, and are free, as are their frames; nothing
else has changed. -/
structure Freed (k k' : Kernel) (r : Range) : Prop where
  pages : ∀ v < 2 ^ 20, frameAt k' v = if r.Has v then none else frameAt k v
  virt : ∀ v, k'.pagineVirtualiLibere v = true ↔ k.pagineVirtualiLibere v = true ∧ ¬ r.Has v
  frames : ∀ f, k'.pageBitmap f = true ↔
    k.pageBitmap f = true ∧ ∀ v, r.Has v → frameAt k v ≠ some f

/-- `dealloca` releases the range that it is called for. -/
def Meets (s : Machine) (e : Event) (t : Machine) : Prop :=
  ∀ addr, e = .dealloca addr → ∀ r ∈ s.live, r.page * 4096 = addr → Freed s.kernel t.kernel r

/-- The live ranges are in pages that the tables map. -/
structure Lived (s : Machine) : Prop where
  agrees : Agrees s.kernel
  paging : s.kernel.paging = true
  disjoint : s.live.Pairwise fun r q => ∀ v, r.Has v → ¬ q.Has v
  pos : ∀ r ∈ s.live, 0 < r.pages
  own : ∀ r ∈ s.live, 11 ≤ r.page
  inTables : ∀ r ∈ s.live, r.page + r.pages ≤ tablePages
  used : ∀ r ∈ s.live, ∀ v, r.Has v → s.kernel.pagineVirtualiLibere v = true

variable {s t : Machine} {e : Event} {r : Range} {k : Kernel} {addr n v f : Nat}

/-! ### Frames of pages -/

theorem Agrees.frameAt_iff (h : Agrees k) (hpaging : k.paging = true) (hv : v < 2 ^ 20) :
    frameAt k v = some f ↔
      v < tablePages ∧ k.pagineVirtualiLibere v = true ∧ getAddr (entry k v) = f * 4096 := by
  rw [h.frameAt_eq hpaging hv]
  constructor
  · intro hframe
    split at hframe
    · rename_i hboth
      obtain ⟨g, -, he, -⟩ := h.frame v hboth.1 ((h.present v hboth.1).mp hboth.2)
      have heq := Option.some.inj hframe
      rw [he, getAddr_entry, Nat.mul_div_cancel g (by decide)] at heq
      rw [he, getAddr_entry, heq]
      exact ⟨hboth.1, (h.present v hboth.1).mp hboth.2, rfl⟩
    · cases hframe
  · rintro ⟨hlow, hused, haddr⟩
    rw [if_pos ⟨hlow, (h.present v hlow).mpr hused⟩, haddr, Nat.mul_div_cancel f (by decide)]

theorem Lived.sound (h : Lived s) : Sound s := by
  refine ⟨h.disjoint, fun r hr v hv => ?_⟩
  have hlow : v < tablePages := Nat.lt_of_lt_of_le hv.2 (h.inTables r hr)
  have hsmall : v < 2 ^ 20 := Nat.lt_trans hlow (by decide)
  have hused := h.used r hr v hv
  obtain ⟨f, hf, he, -⟩ := h.agrees.frame v hlow hused
  refine ⟨f, hf, ?_, fun u hu hframe => ?_⟩
  · rw [h.agrees.frameAt_iff h.paging hsmall, he, getAddr_entry]
    exact ⟨hlow, hused, rfl⟩
  · obtain ⟨hulow, huused, haddr⟩ := (h.agrees.frameAt_iff h.paging hu).mp hframe
    apply h.agrees.inj u hulow v hlow huused hused
    rw [haddr, he, getAddr_entry]

/-- The frame of the directory is in use. -/
theorem Agrees.first_frame (h : Agrees k) : k.pageBitmap 0 = true := by
  obtain ⟨f, -, he, hused⟩ := h.frame 0 (by decide) (h.mapped_own (by decide))
  have hzero := h.own 0 (by decide)
  obtain rfl : f = 0 := by omega
  exact hused

/-! ### Steps -/

theorem pagineFor_pos {len : Nat} (h : 0 < len) : 0 < pagineFor len := by
  unfold pagineFor
  split
  · exact Nat.succ_pos _
  · omega

theorem liberaDescMem_first (addr : Nat) (areas : List VmMemArea) :
    liberaDescMem addr areas =
      (((areas.flatMap VmMemArea.mem).find? fun d => d.addr = addr).map VmMemDesc.size).getD 0 := by
  induction areas with
  | nil => rfl
  | cons cmem next ih =>
    rw [List.flatMap_cons, List.find?_append]
    unfold liberaDescMem
    split
    · rename_i d hfound
      rw [hfound]
      rfl
    · rename_i hnone
      rw [hnone, Option.none_or]
      exact ih

/-- `alloca` returns a range of its own. -/
theorem alloca_step (h : Lived s) (hok : Allowed s (.alloca n)) :
    ∃ t, perform s (.alloca n) = some t ∧ Lived t := by
  obtain ⟨hlen, hpages, hframes, hfree⟩ := hok
  obtain ⟨v, k₁, k₂, hprendi, hsetta, htaken⟩ :=
    space_taken h.agrees (pagineFor_pos hlen) hpages (by omega)
  have hneed : descNeed k₂ = descNeed s.kernel := by
    unfold descNeed
    refine if_congr ?_ rfl rfl
    unfold Full
    rw [htaken.tmem]
  have hfewFrames := htaken.frames
  have hfewPages := htaken.pages
  obtain ⟨k', hdesc, hk'⟩ := settaDescMem_describes htaken.agrees (by omega) (by omega)
    (v * 4096) (pagineFor n)
  have hrange : v * 4096 / 4096 = v := Nat.mul_div_cancel v (by decide)
  have hunused (u : Nat) (hu : (Range.mk v (pagineFor n)).Has u) :
      s.kernel.pagineVirtualiLibere u = false := htaken.wasFree u hu.1 hu.2
  refine ⟨⟨k', ⟨v, pagineFor n⟩ :: s.live⟩, ?_, hk'.agrees, ?_, ?_, ?_, ?_, ?_, ?_⟩
  · unfold perform alloca
    dsimp only
    rw [hprendi]
    dsimp only [Option.bind_eq_bind, Option.bind_some]
    rw [hsetta]
    dsimp only [Option.bind_some]
    rw [hdesc]
    dsimp only [Option.bind_some]
    rw [hrange]
  · exact hk'.paging.trans (htaken.paging.trans h.paging)
  · refine List.pairwise_cons.mpr ⟨fun q hq u hu hqu => ?_, h.disjoint⟩
    have hused := h.used q hq u hqu
    rw [hunused u hu] at hused
    cases hused
  · intro q hq
    obtain rfl | hq := List.mem_cons.mp hq
    · exact pagineFor_pos hlen
    · exact h.pos q hq
  · intro q hq
    obtain rfl | hq := List.mem_cons.mp hq
    · refine Nat.le_of_not_lt fun hlt => h.agrees.used_own hlt ?_
      exact hunused v ⟨Nat.le_refl v, Nat.lt_add_of_pos_right (pagineFor_pos hlen)⟩
    · exact h.own q hq
  · intro q hq
    obtain rfl | hq := List.mem_cons.mp hq
    · exact htaken.inTables
    · exact h.inTables q hq
  · intro q hq u hu
    apply hk'.used
    rw [htaken.used]
    obtain rfl | hq := List.mem_cons.mp hq
    · exact .inr hu
    · exact .inl (h.used q hq u hu)

/-- `dealloca` gives back the pages of a range and their frames. -/
theorem dealloca_step (h : Lived s) (hok : Allowed s (.dealloca addr)) :
    ∃ t, perform s (.dealloca addr) = some t ∧ Lived t ∧ Meets s (.dealloca addr) t := by
  obtain ⟨r, hr, haddr, d, hfind, hsize⟩ := hok
  have hcount : liberaDescMem addr s.kernel.tmem = r.pages := by
    rw [liberaDescMem_first]
    unfold records at hfind
    rw [hfind]
    exact hsize
  have hin (v : Nat) (hv : r.Has v) : v < tablePages :=
    Nat.lt_of_lt_of_le hv.2 (h.inTables r hr)
  obtain ⟨k', hlibera, hpaged, hreleased⟩ := liberaSpazio_unmaps h.agrees (h.own r hr)
    (h.inTables r hr) fun u hle hlt => h.used r hr u ⟨hle, hlt⟩
  have hagrees : Agrees k' :=
    hpaged.congr rfl rfl rfl (fun _ hf => hf) fun u _ => hreleased.virt u
  have hpaging : k'.paging = true := hreleased.paging.trans h.paging
  have hfreed : Freed s.kernel k' r := by
    refine ⟨fun v hv => ?_, hreleased.virt, fun f => ?_⟩
    · apply Option.ext
      intro f
      rw [hagrees.frameAt_iff hpaging hv, hreleased.virt]
      split
      · rename_i hhas
        exact iff_of_false (fun hall => hall.2.1.2 hhas) (Option.some_ne_none f ∘ Eq.symm)
      · rename_i hnot
        rw [h.agrees.frameAt_iff h.paging hv, hreleased.entries v hnot, and_iff_left hnot]
    · rw [hreleased.frames]
      apply and_congr_right
      intro _
      constructor
      · intro hothers v hv hframe
        have hsmall : v < 2 ^ 20 := Nat.lt_trans (hin v hv) (by decide)
        exact hothers v hv.1 hv.2 ((h.agrees.frameAt_iff h.paging hsmall).mp hframe).2.2
      · intro hothers v hle hlt haddr
        have hsmall : v < 2 ^ 20 := Nat.lt_trans (hin v ⟨hle, hlt⟩) (by decide)
        refine hothers v ⟨hle, hlt⟩ ((h.agrees.frameAt_iff h.paging hsmall).mpr ?_)
        exact ⟨hin v ⟨hle, hlt⟩, h.used r hr v ⟨hle, hlt⟩, haddr⟩
  -- there is only one live range with the address
  have hall : (r :: s.live.erase r).Pairwise fun r q => ∀ v, r.Has v → ¬ q.Has v :=
    h.disjoint.perm (List.perm_cons_erase hr) fun hrq v hq hr => hrq v hr hq
  obtain ⟨hapart, hdisjoint⟩ := List.pairwise_cons.mp hall
  have honly (q : Range) (hq : q ∈ s.live) (hqaddr : q.page * 4096 = addr) : q = r := by
    by_contra hne
    have hpage : q.page = r.page :=
      Nat.eq_of_mul_eq_mul_right (by decide) (hqaddr.trans haddr.symm)
    have hmem := List.mem_cons.mp ((List.perm_cons_erase hr).mem_iff.mp hq)
    have hpos := h.pos r hr
    have hqpos := h.pos q hq
    exact hapart q (hmem.resolve_left hne) r.page ⟨Nat.le_refl _, by omega⟩ ⟨by omega, by omega⟩
  have hlive : s.live.find? (fun r => r.page * 4096 = addr) = some r := by
    cases hfound : s.live.find? fun r => r.page * 4096 = addr with
    | none =>
      have hnone := List.find?_eq_none.mp hfound r hr
      simp [haddr] at hnone
    | some q =>
      have hq : q.page * 4096 = addr := by simpa using List.find?_some hfound
      rw [honly q (List.mem_of_find?_eq_some hfound) hq]
  have hrest (q : Range) (hq : q ∈ s.live.erase r) : q ∈ s.live := List.mem_of_mem_erase hq
  refine ⟨⟨k', s.live.erase r⟩, ?_, ⟨hagrees, hpaging, hdisjoint,
    fun q hq => h.pos q (hrest q hq), fun q hq => h.own q (hrest q hq),
    fun q hq => h.inTables q (hrest q hq), fun q hq v hv => ?_⟩, ?_⟩
  · unfold perform dealloca
    dsimp only
    rw [hlive, hcount, ← haddr]
    dsimp only [Option.bind_eq_bind, Option.bind_some]
    rw [hlibera]
    rfl
  · rw [hreleased.virt]
    exact ⟨h.used q (hrest q hq) v hv, fun hhas => hapart q hq v hhas hv⟩
  · rintro _ ⟨⟩ q hq hqaddr
    rw [honly q hq hqaddr]
    exact hfreed

/-! ### Runs -/

/-- No frame is NULL, and NULL says that there is none. -/
def NullWhenFull (k : Kernel) : Prop :=
  (prendiPaginaFisica k).1 = 0 ↔ ∀ f < k.numPages, k.pageBitmap f = true

theorem nullWhenFull_iff (hpos : 0 < k.numPages) (hroom : k.numPages < 2 ^ 20) :
    NullWhenFull k ↔ (∃ f < k.numPages, k.pageBitmap f = false) ∧ k.pageBitmap 0 = true := by
  unfold NullWhenFull
  obtain ⟨f, hf, hfind, hclear, hfirst⟩ | ⟨hnone, hfull⟩ :=
    findFirstZeroBit_cases k.pageBitmap k.numPages
  · have hsome : ∃ f < k.numPages, k.pageBitmap f = false := ⟨f, hf, hclear⟩
    have hnot : ¬ ∀ f < k.numPages, k.pageBitmap f = true := by
      intro hfull
      rw [hfull f hf] at hclear
      cases hclear
    have haddr : (prendiPaginaFisica k).1 = f * 4096 := by
      unfold prendiPaginaFisica dimPage
      dsimp only
      rw [hfind, if_neg (by omega)]
      exact Nat.mod_eq_of_lt (by omega)
    rw [haddr, and_iff_right hsome, iff_false_right hnot, Nat.mul_eq_zero,
      or_iff_left (by decide : ¬ 4096 = 0)]
    constructor
    · intro hne
      exact hfirst 0 (Nat.pos_of_ne_zero hne)
    · rintro hused rfl
      rw [hused] at hclear
      cases hclear
  · have haddr : (prendiPaginaFisica k).1 = k.numPages * 4096 := by
      unfold prendiPaginaFisica dimPage
      dsimp only
      rw [hnone, if_neg (Nat.lt_irrefl _)]
      exact Nat.mod_eq_of_lt (by omega)
    rw [haddr, iff_true_right hfull]
    refine iff_of_false (by omega) ?_
    rintro ⟨⟨f, hf, hclear⟩, -⟩
    rw [hfull f hf] at hclear
    cases hclear

theorem perform_step (h : Lived s) (hok : Allowed s e) :
    ∃ t, perform s e = some t ∧ Lived t ∧ Meets s e t := by
  cases e with
  | alloca len =>
    obtain ⟨t, hperform, ht⟩ := alloca_step h hok
    exact ⟨t, hperform, ht, fun _ heq => nomatch heq⟩
  | dealloca addr => exact dealloca_step h hok

theorem Lived.run {es : List Event} (h : Lived s)
    (hrun : Run (Guarded Allowed (Computes perform)) s es t) :
    Lived t ∧ Run (fun s e t => Computes perform s e t ∧ Meets s e t) s es t := by
  induction hrun with
  | nil s => exact ⟨h, .nil s⟩
  | cons hfirst _ ih =>
    obtain ⟨u, hperform, hu, hmeets⟩ := perform_step h hfirst.1
    obtain rfl := Option.some.inj (hperform.symm.trans hfirst.2)
    obtain ⟨hlived, hrest⟩ := ih hu
    exact ⟨hlived, .cons ⟨hfirst.2, hmeets⟩ hrest⟩

theorem Packed.lived {m room : Nat} (h : Packed k m room) (hpaging : k.paging = true) :
    Lived ⟨k, []⟩ := by
  refine ⟨h.agrees, hpaging, .nil, ?_, ?_, ?_, ?_⟩
  all_goals
    intro r hr
    exact absurd hr List.not_mem_nil

/-- In every run that keeps to the guard the ranges stay apart, each page has a frame of its own,
and `dealloca` releases the pages of its range; NULL says that no frame is free only where one
is. -/
theorem ranges_kept_when_allowed (k : Kernel) :
    (0 < k.numPages → k.numPages < 2 ^ 20 →
      (NullWhenFull k ↔ (∃ f < k.numPages, k.pageBitmap f = false) ∧ k.pageBitmap 0 = true)) ∧
    ∀ words numPages, kernelPages ≤ numPages → numPages < 2 ^ 20 →
      ∃ k, initKernelMmu (initSpazioFisico words numPages) = some k ∧
        ∀ es t, Run (Guarded Allowed (Computes perform)) ⟨k, []⟩ es t →
          Sound t ∧
          Run (fun s e t => Computes perform s e t ∧ Meets s e t) ⟨k, []⟩ es t ∧
          (∀ e, Allowed t e → ∃ u, perform t e = some u) ∧
          (NullWhenFull t.kernel ↔ ∃ f < t.kernel.numPages, t.kernel.pageBitmap f = false) := by
  refine ⟨nullWhenFull_iff, fun words numPages hleast hroom => ?_⟩
  obtain ⟨k, hinit, hpacked, hpaging, hnum, -⟩ := initKernelMmu_packed words hleast hroom
  refine ⟨k, hinit, fun es t hrun => ?_⟩
  obtain ⟨hlived, hmeets⟩ := (hpacked.lived hpaging).run hrun
  refine ⟨hlived.sound, hmeets, fun e hok => ?_, ?_⟩
  · obtain ⟨u, hperform, -⟩ := perform_step hlived hok
    exact ⟨u, hperform⟩
  · have hpos : 0 < t.kernel.numPages := by
      obtain ⟨f, hf, -⟩ := hlived.agrees.frame 0 (by decide) (hlived.agrees.mapped_own (by decide))
      exact Nat.zero_lt_of_lt hf
    rw [nullWhenFull_iff hpos hlived.agrees.room]
    exact and_iff_left hlived.agrees.first_frame

/-! ### A range that is recorded twice -/

/-- `alloca` takes the next pages, and records them in the one table that there is. -/
theorem alloca_packed {m room c len : Nat} {mem : List VmMemDesc}
    (h : Packed k m (room + pagineFor len)) (hlen : 0 < len) (hm : m + pagineFor len ≤ tablePages)
    (htmem : k.tmem = [⟨c, mem⟩]) (hfew : mem.length < numDesc) :
    ∃ k', alloca k len = some (m * 4096, k') ∧ Packed k' (m + pagineFor len) room ∧
      k'.tmem = [⟨c, mem ++ [⟨m * 4096, pagineFor len⟩]⟩] ∧ k'.paging = k.paging := by
  obtain ⟨k₁, k₂, hprendi, hsetta, htaken, hpacked⟩ := h.space_taken (pagineFor_pos hlen) hm
  have hfound : cercaDesc ⟨m * 4096, pagineFor len⟩ k₂.tmem =
      some [⟨c, mem ++ [⟨m * 4096, pagineFor len⟩]⟩] := by
    rw [htaken.tmem, htmem]
    exact @cercaDesc_append [] _ (fun _ hmem => absurd hmem List.not_mem_nil) _
      (descLiberi_ne hfew)
  refine ⟨{ k₂ with tmem := [⟨c, mem ++ [⟨m * 4096, pagineFor len⟩]⟩] }, ?_,
    ⟨?_, hpacked.virt, hpacked.room⟩, rfl, htaken.paging⟩
  · unfold alloca
    dsimp only
    rw [hprendi]
    dsimp only [Option.bind_eq_bind, Option.bind_some]
    rw [hsetta]
    dsimp only [Option.bind_some]
    unfold descDepth
    rw [settaDescMem_found hfound]
    rfl
  · exact hpacked.agrees.congr rfl rfl rfl (fun _ hf => hf) fun _ _ => Iff.rfl

/-- `dealloca` of pages that end where the free ones start. -/
theorem dealloca_packed {m room : Nat} (h : Packed k (m + n) room) (hown : 11 ≤ m)
    (hm : m + n ≤ tablePages) (hcount : liberaDescMem (m * 4096) k.tmem = n) :
    ∃ k', dealloca k (m * 4096) = some k' ∧ Packed k' m room ∧ k'.tmem = k.tmem ∧
      k'.paging = k.paging := by
  obtain ⟨k', hlibera, hpaged, hreleased⟩ := liberaSpazio_unmaps h.agrees hown hm
    fun u _ hlt => (h.virt u).mpr hlt
  refine ⟨k', ?_, ⟨?_, fun u => ?_, ?_⟩, hreleased.tmem, hreleased.paging⟩
  · unfold dealloca
    rw [hcount]
    exact hlibera
  · exact hpaged.congr rfl rfl rfl (fun _ hf => hf) fun u _ => hreleased.virt u
  · rw [hreleased.virt, h.virt]
    omega
  · refine Nat.le_trans h.room ?_
    unfold freeFrames freeCount
    rw [hreleased.numPages]
    apply Finset.card_le_card
    apply Finset.monotone_filter_right
    intro f _ hclear
    rw [← Bool.not_eq_true, hreleased.frames, not_and_or, Bool.not_eq_true]
    exact .inl hclear

theorem perform_alloca {k' : Kernel} {live : List Range} {len : Nat}
    (h : alloca k len = some (n * 4096, k')) :
    perform ⟨k, live⟩ (.alloca len) = some ⟨k', ⟨n, pagineFor len⟩ :: live⟩ := by
  have hpage : n * 4096 / 4096 = n := Nat.mul_div_cancel n (by decide)
  unfold perform
  dsimp only
  rw [h, Option.bind_eq_bind, Option.bind_some, hpage]

theorem perform_dealloca {k' : Kernel} {live : List Range}
    (hlive : live.find? (fun r => r.page * 4096 = addr) = some r)
    (h : dealloca k addr = some k') :
    perform ⟨k, live⟩ (.dealloca addr) = some ⟨k', live.erase r⟩ := by
  unfold perform
  dsimp only
  rw [hlive]
  dsimp only [Option.bind_eq_bind, Option.bind_some]
  rw [h]
  rfl

theorem range_kept_after_release :
    ∃ k t, initKernelMmu (initSpazioFisico (fun _ _ => 0) 600) = some k ∧
      Run (Guarded Allowed (Computes perform)) ⟨k, []⟩ [.alloca 4096, .dealloca 1097728] t ∧
      Run (fun s e t => Computes perform s e t ∧ Meets s e t) ⟨k, []⟩
        [.alloca 4096, .dealloca 1097728] t := by
  obtain ⟨k, hinit, hall⟩ :=
    (ranges_kept_when_allowed (initSpazioFisico (fun _ _ => 0) 600)).2 (fun _ _ => 0) 600
      (by decide) (by decide)
  obtain ⟨k₀, hinit₀, hpacked, -, -, htmem⟩ :=
    @initKernelMmu_packed (fun _ _ => 0) 600 (by decide) (by decide)
  obtain rfl := Option.some.inj (hinit.symm.trans hinit₀)
  have hneed : descNeed k = 0 := by
    apply if_neg
    unfold Full
    rw [htmem]
    decide
  have hone : pagineFor 4096 = 1 := by decide
  have hpage : 0 < freePages k :=
    freeCount_pos (by decide) ((hpacked.free_iff kernelPages).mpr (Nat.le_refl _))
  have hroom : 332 ≤ freeFrames k := hpacked.room
  obtain ⟨k₁, halloca, hpacked₁, htmem₁, -⟩ := @alloca_packed k kernelPages 331 _ 4096 _ hpacked
    (by decide) (by decide) htmem (by decide)
  obtain ⟨k₂, hdealloca, -⟩ := @dealloca_packed k₁ 1 kernelPages 331 hpacked₁ (by decide)
    (by decide) (by rw [htmem₁]; decide)
  have haddr : kernelPages * 4096 = 1097728 := by decide
  have hperform : perform ⟨k₁, [⟨kernelPages, 1⟩]⟩ (.dealloca 1097728) = some ⟨k₂, []⟩ := by
    rw [haddr] at hdealloca
    exact perform_dealloca (r := ⟨kernelPages, 1⟩) (by decide) hdealloca
  have hrun : Run (Guarded Allowed (Computes perform)) ⟨k, []⟩
      [.alloca 4096, .dealloca 1097728] ⟨k₂, []⟩ := by
    refine .cons ⟨⟨by decide, ⟨kernelPages, by decide, hpacked.stretch⟩, ?_, ?_⟩,
      perform_alloca halloca⟩ (.cons ⟨⟨⟨kernelPages, 1⟩, ?_, haddr, ?_⟩, hperform⟩ (.nil _))
    · dsimp only
      omega
    · dsimp only
      omega
    · rw [hone]
      exact List.mem_singleton_self _
    · refine ⟨⟨kernelPages * 4096, 1⟩, ?_, rfl⟩
      unfold records
      dsimp only
      rw [htmem₁, ← haddr, hone]
      rfl
  exact ⟨k, ⟨k₂, []⟩, hinit, hrun, (hall _ _ hrun).2.1⟩

/-- The address of two pages is used again for one; its release takes the page behind it from
the range that has it. -/
theorem reused_address_releases_more :
    ∃ k t, initKernelMmu (initSpazioFisico (fun _ _ => 0) 600) = some k ∧
      Run (Computes perform) ⟨k, []⟩ [.alloca 8192, .dealloca 1097728, .alloca 4096,
        .alloca 4096, .dealloca 1097728] t ∧
      t.live = [⟨269, 1⟩] ∧ frameAt t.kernel 269 = none := by
  obtain ⟨k, hinit, hpacked, hpaging, -, htmem⟩ :=
    @initKernelMmu_packed (fun _ _ => 0) 600 (by decide) (by decide)
  obtain ⟨k₁, halloca₁, hpacked₁, htmem₁, hpaging₁⟩ := @alloca_packed k kernelPages 330 _ 8192 _
    hpacked (by decide) (by decide) htmem (by decide)
  obtain ⟨k₂, hdealloca₂, hpacked₂, htmem₂, hpaging₂⟩ := @dealloca_packed k₁ 2 kernelPages 330
    hpacked₁ (by decide) (by decide) (by rw [htmem₁]; decide)
  rw [htmem₁] at htmem₂
  obtain ⟨k₃, halloca₃, hpacked₃, htmem₃, hpaging₃⟩ := @alloca_packed k₂ kernelPages 329 _ 4096 _
    hpacked₂ (by decide) (by decide) htmem₂ (by decide)
  obtain ⟨k₄, halloca₄, hpacked₄, htmem₄, hpaging₄⟩ := @alloca_packed k₃ (kernelPages + 1) 328 _
    4096 _ hpacked₃ (by decide) (by decide) htmem₃ (by decide)
  obtain ⟨k₅, hdealloca₅, hpacked₅, -, hpaging₅⟩ := @dealloca_packed k₄ 2 kernelPages 328
    hpacked₄ (by decide) (by decide) (by rw [htmem₄]; decide)
  have haddr : kernelPages * 4096 = 1097728 := by decide
  rw [haddr] at hdealloca₂ hdealloca₅
  have hfirst : perform ⟨k₁, [⟨kernelPages, 2⟩]⟩ (.dealloca 1097728) = some ⟨k₂, []⟩ :=
    perform_dealloca (r := ⟨kernelPages, 2⟩) (by decide) hdealloca₂
  have hlast : perform ⟨k₄, [⟨kernelPages + 1, 1⟩, ⟨kernelPages, 1⟩]⟩ (.dealloca 1097728) =
      some ⟨k₅, [⟨kernelPages + 1, 1⟩]⟩ :=
    perform_dealloca (r := ⟨kernelPages, 1⟩) (by decide) hdealloca₅
  refine ⟨k, ⟨k₅, [⟨269, 1⟩]⟩, hinit, ?_, rfl, ?_⟩
  · exact .cons (perform_alloca halloca₁) (.cons hfirst (.cons (perform_alloca halloca₃)
      (.cons (perform_alloca halloca₄) (.cons hlast (.nil _)))))
  · have hon : k₅.paging = true := by rw [hpaging₅, hpaging₄, hpaging₃, hpaging₂, hpaging₁, hpaging]
    apply Option.eq_none_iff_forall_ne_some.mpr
    intro f hframe
    have hused := ((hpacked₅.agrees.frameAt_iff hon (by decide)).mp hframe).2.1
    rw [hpacked₅.virt] at hused
    exact absurd hused (by decide)

end OsdevArchive.ItaliOs3
