import OsdevArchive.Lib.Runs
import OsdevArchive.Silvios.Mem

/-!
Runs of `kmalloc` and `kfree`. A run keeps a list of the allocations that are live, each with
the colour that it got, and counts the calls of `kmalloc`.
-/

namespace OsdevArchive.Silvios.Mem

open OsdevArchive.Lib.Runs OsdevArchive.Lib.Stretches

structure Allocation where
  first : Nat
  size : Nat
  color : BitVec 32
deriving DecidableEq

/-- Page `q` belongs to the allocation. -/
def Allocation.Has (a : Allocation) (q : Nat) : Prop := a.first ≤ q ∧ q < a.first + taken a.size

structure Heap where
  mem : Memory
  live : List Allocation
  calls : Nat

inductive Event where
  | kmalloc (size : Nat)
  | kfree (pointer : Nat)

def start (memEnd : Nat) : Heap := ⟨initmem memEnd, [], 0⟩

/-- Sizes are those of the memory at most, fewer than `2 ^ 32` calls are made, and only live
pointers are freed. -/
def perform (s : Heap) : Event → Option Heap
  | .kmalloc size =>
    if size ≤ dimPage * s.mem.numPages ∧ s.calls + 1 < 2 ^ 32 then
      match kmalloc s.mem size with
      | (some pointer, mem) =>
        some ⟨mem, ⟨pointer / dimPage, size, mem.color⟩ :: s.live, s.calls + 1⟩
      | (none, mem) => some ⟨mem, s.live, s.calls + 1⟩
    else none
  | .kfree pointer => do
    let a ← s.live.find? fun a => dimPage * a.first = pointer
    some { s with mem := kfree s.mem pointer, live := s.live.erase a }

/-- No page belongs to two live allocations, which are between the first megabyte and the end of
the memory, have the size that was asked for, and have their pages marked with their colour. -/
structure Sound (s : Heap) : Prop where
  disjoint : s.live.Pairwise fun a b => ∀ q, a.Has q → ¬ b.Has q
  low : ∀ a ∈ s.live, lowPages ≤ a.first
  high : ∀ a ∈ s.live, a.first + taken a.size ≤ s.mem.numPages
  size : ∀ a ∈ s.live, a.size ≤ dimPage * taken a.size
  marked : ∀ a ∈ s.live, ∀ q, a.Has q → s.mem.pageVect q = a.color

/-- A page of the memory that nobody has. -/
def Unused (s : Heap) (q : Nat) : Prop := lowPages ≤ q ∧ ∀ a ∈ s.live, ¬ a.Has q

/-- `kmalloc` returns `NULL` where there are not enough pages in one piece, and only there, and
`kfree` frees the pages of the allocation and no others. -/
def Meets (s : Heap) (e : Event) (t : Heap) : Prop :=
  Sound t ∧
    match e with
    | .kmalloc size => (kmalloc s.mem size).1 = none ↔
        ¬ HasStretch (Unused s) s.mem.numPages (taken size)
    | .kfree pointer => ∀ a ∈ s.live, pointer = dimPage * a.first → ∀ q,
        Free t.mem.pageVect q ↔ Free s.mem.pageVect q ∨ a.Has q

/-- `kmalloc` sees the pages that it needs. -/
def Allowed (s : Heap) : Event → Prop
  | .kmalloc size => Searchable s.mem size
  | .kfree _ => True

/-! ### What the colours say -/

/-- Colours are given away one after the other, and say whose a page is. The last of `2 ^ 32`
colours is that of a free page. -/
structure Coloured (s : Heap) : Prop where
  sound : Sound s
  room : s.mem.numPages < maxPages
  lowRoom : lowPages ≤ s.mem.numPages
  calls : s.calls < 2 ^ 32
  color : s.mem.color.toNat = (s.calls + 1) % 2 ^ 32
  older : ∀ q, (s.mem.pageVect q).toNat ≤ s.calls + 1
  low : ∀ q, q < lowPages → ¬ Free s.mem.pageVect q
  own : ∀ a ∈ s.live, a.color ≠ 0 → ∀ q, s.mem.pageVect q = a.color → a.Has q
  last : ∀ a ∈ s.live, a.color = 0 → s.calls + 1 = 2 ^ 32
  owned : ∀ q, ¬ Free s.mem.pageVect q → q < lowPages ∨ ∃ a ∈ s.live, a.Has q

variable {s t : Heap} {e : Event} {a : Allocation} {size p q : Nat}

theorem Allocation.has_first (a : Allocation) : a.Has a.first := by
  unfold Allocation.Has taken
  omega

/-- As long as another colour is left, a page is free exactly if nobody has it. -/
theorem Coloured.unused_iff (h : Coloured s) (hcalls : s.calls + 1 < 2 ^ 32) :
    Unused s q ↔ Free s.mem.pageVect q := by
  constructor
  · rintro ⟨hlow, hnobody⟩
    by_contra hset
    obtain hlt | ⟨a, ha, hhas⟩ := h.owned q hset
    · omega
    · exact hnobody a ha hhas
  · intro hfree
    refine ⟨Nat.le_of_not_lt fun hlt => h.low q hlt hfree, fun a ha hhas => ?_⟩
    have hcolor : a.color = 0 := (h.sound.marked a ha q hhas).symm.trans hfree
    have hlast := h.last a ha hcolor
    omega

theorem Coloured.hasStretch_iff (h : Coloured s) (hcalls : s.calls + 1 < 2 ^ 32) {n k : Nat} :
    HasStretch (Unused s) n k ↔ HasStretch (Free s.mem.pageVect) n k := by
  constructor
  · rintro ⟨a, hle, hstretch⟩
    exact ⟨a, hle, hstretch.congr fun q _ _ hq => (h.unused_iff hcalls).mp hq⟩
  · rintro ⟨a, hle, hstretch⟩
    exact ⟨a, hle, hstretch.congr fun q _ _ hq => (h.unused_iff hcalls).mpr hq⟩

/-! ### Steps -/

/-- The state after the pages from `p` on have been given away. -/
def Heap.given (s : Heap) (p size : Nat) : Heap :=
  ⟨s.mem.give p size, ⟨p, size, s.mem.color + 1⟩ :: s.live, s.calls + 1⟩

/-- The state after `kmalloc` has returned `NULL`. -/
def Heap.refused (s : Heap) : Heap :=
  ⟨{ s.mem with color := s.mem.color + 1 }, s.live, s.calls + 1⟩

theorem perform_given (hk : kmalloc s.mem size = (some (dimPage * p), s.mem.give p size))
    (h : perform s (.kmalloc size) = some t) : s.calls + 1 < 2 ^ 32 ∧ t = s.given p size := by
  unfold perform at h
  dsimp only at h
  split at h
  · rename_i hok
    rw [hk] at h
    dsimp only at h
    rw [Nat.mul_div_cancel_left p (by decide)] at h
    exact ⟨hok.2, (Option.some.inj h).symm⟩
  · cases h

theorem perform_refused (hk : kmalloc s.mem size = (none, { s.mem with color := s.mem.color + 1 }))
    (h : perform s (.kmalloc size) = some t) : s.calls + 1 < 2 ^ 32 ∧ t = s.refused := by
  unfold perform at h
  dsimp only at h
  split at h
  · rename_i hok
    rw [hk] at h
    exact ⟨hok.2, (Option.some.inj h).symm⟩
  · cases h

theorem perform_kfree (h : perform s (.kfree p) = some t) :
    ∃ a ∈ s.live, p = dimPage * a.first ∧
      t = { s with mem := kfree s.mem p, live := s.live.erase a } := by
  obtain ⟨a, hfind, heq⟩ := Option.bind_eq_some_iff.mp h
  have hpointer : dimPage * a.first = p := by simpa using List.find?_some hfind
  exact ⟨a, List.mem_of_find?_eq_some hfind, hpointer.symm, (Option.some.inj heq).symm⟩

theorem Coloured.next_color (h : Coloured s) :
    (s.mem.color + 1).toNat = (s.calls + 2) % 2 ^ 32 := by
  have hcolor := h.color
  rw [BitVec.toNat_add, hcolor]
  have hone : (1 : BitVec 32).toNat = 1 := rfl
  rw [hone]
  omega

/-- The colour of an allocation is that of its first page. -/
theorem Coloured.color_le (h : Coloured s) (ha : a ∈ s.live) : a.color.toNat ≤ s.calls + 1 := by
  rw [← h.sound.marked a ha a.first a.has_first]
  exact h.older a.first

/-- The allocation that the next call makes. -/
def Heap.next (s : Heap) (p size : Nat) : Allocation := ⟨p, size, s.mem.color + 1⟩

theorem given_inside (hq : (s.next p size).Has q) :
    (s.given p size).mem.pageVect q = (s.next p size).color := if_pos hq

theorem given_outside (hq : ¬ (s.next p size).Has q) :
    (s.given p size).mem.pageVect q = s.mem.pageVect q := if_neg hq

theorem mem_given : a ∈ (s.given p size).live ↔ a = s.next p size ∨ a ∈ s.live := List.mem_cons

/-- Pages that nobody has are given away. -/
theorem Sound.given (h : Sound s) (hle : p + taken size ≤ s.mem.numPages)
    (hunused : ∀ q, (s.next p size).Has q → Unused s q) : Sound (s.given p size) := by
  refine ⟨?_, ?_, ?_, fun a _ => le_taken a.size, ?_⟩
  · exact List.pairwise_cons.mpr ⟨fun b hb q hq => (hunused q hq).2 b hb, h.disjoint⟩
  · intro a ha
    obtain rfl | ha := mem_given.mp ha
    · exact (hunused _ (s.next p size).has_first).1
    · exact h.low a ha
  · intro a ha
    obtain rfl | ha := mem_given.mp ha
    · exact hle
    · exact h.high a ha
  · intro a ha q hq
    obtain rfl | ha := mem_given.mp ha
    · exact given_inside hq
    · rw [given_outside fun hmem => (hunused q hmem).2 a ha hq]
      exact h.marked a ha q hq

/-- The colour of the next allocation is on its pages only. -/
theorem Coloured.own_given (h : Coloured s) (hcalls : s.calls + 1 < 2 ^ 32)
    (ha : a ∈ (s.given p size).live) (hne : a.color ≠ 0)
    (hcolor : (s.given p size).mem.pageVect q = a.color) : a.Has q := by
  have hnext : (s.next p size).color.toNat = (s.calls + 2) % 2 ^ 32 := h.next_color
  have hold := h.older q
  have hpos : a.color.toNat ≠ 0 := fun hzero => hne (BitVec.eq_of_toNat_eq hzero)
  by_cases hq : (s.next p size).Has q
  · obtain rfl | ha := mem_given.mp ha
    · exact hq
    · -- the new colour is none of the old ones
      have hle := h.color_le ha
      rw [given_inside hq] at hcolor
      rw [← hcolor, hnext] at hle hpos
      omega
  · rw [given_outside hq] at hcolor
    obtain rfl | ha := mem_given.mp ha
    · rw [hcolor, hnext] at hold
      rw [hnext] at hpos
      omega
    · exact h.own a ha hne q hcolor

/-- Unused pages are given away. -/
theorem Coloured.given (h : Coloured s) (hcalls : s.calls + 1 < 2 ^ 32)
    (hle : p + taken size ≤ s.mem.numPages) (hfree : Stretch (Free s.mem.pageVect) p (taken size)) :
    Coloured (s.given p size) := by
  have hunused : ∀ q, (s.next p size).Has q → Unused s q :=
    fun q hq => (h.unused_iff hcalls).mpr (hfree q hq.1 hq.2)
  have hcolor : (s.next p size).color.toNat = (s.calls + 2) % 2 ^ 32 := h.next_color
  have hcalls' : (s.given p size).calls = s.calls + 1 := rfl
  refine ⟨h.sound.given hle hunused, h.room, h.lowRoom, hcalls, h.next_color, ?_, ?_,
    fun a ha hne q heq => h.own_given hcalls ha hne heq, ?_, ?_⟩
  · intro q
    rw [hcalls']
    by_cases hq : (s.next p size).Has q
    · rw [given_inside hq, hcolor]
      omega
    · rw [given_outside hq]
      have hold := h.older q
      omega
  · intro q hq
    rw [Free, given_outside fun hmem => absurd (hunused q hmem).1 (by omega)]
    exact h.low q hq
  · intro a ha hzero
    rw [hcalls']
    obtain rfl | ha := mem_given.mp ha
    · rw [hzero] at hcolor
      have hzero' : (0 : BitVec 32).toNat = 0 := rfl
      rw [hzero'] at hcolor
      omega
    · have hlast := h.last a ha hzero
      omega
  · intro q hset
    by_cases hq : (s.next p size).Has q
    · exact .inr ⟨s.next p size, mem_given.mpr (.inl rfl), hq⟩
    · rw [Free, given_outside hq] at hset
      obtain hlow | ⟨a, ha, hhas⟩ := h.owned q hset
      · exact .inl hlow
      · exact .inr ⟨a, mem_given.mpr (.inr ha), hhas⟩

theorem Coloured.refused (h : Coloured s) (hcalls : s.calls + 1 < 2 ^ 32) : Coloured s.refused := by
  refine ⟨⟨h.sound.disjoint, h.sound.low, h.sound.high, h.sound.size, h.sound.marked⟩, h.room,
    h.lowRoom, hcalls, h.next_color, fun q => ?_, h.low, h.own, fun a ha hzero => ?_, h.owned⟩
  · exact Nat.le_succ_of_le (h.older q)
  · have hlast := h.last a ha hzero
    omega

/-- `kfree` clears the pages of a live allocation. -/
theorem Coloured.kfree_pages (h : Coloured s) (ha : a ∈ s.live) (q : Nat) :
    (kfree s.mem (dimPage * a.first)).pageVect q =
      if a.first ≤ q ∧ q < a.first + taken a.size then 0 else s.mem.pageVect q := by
  have hcolor : s.mem.pageVect a.first = a.color := h.sound.marked a ha a.first a.has_first
  change freeColor s.mem.pageVect (s.mem.pageVect (dimPage * a.first / dimPage)) q = _
  rw [Nat.mul_div_cancel_left _ (by decide), hcolor]
  by_cases hzero : a.color = 0
  · rw [hzero, freeColor_zero]
    split
    · rename_i hhas
      exact (h.sound.marked a ha q hhas).trans hzero
    · rfl
  · have hhigh := h.sound.high a ha
    have hroom := h.room
    have hpos : 0 < taken a.size := by
      unfold taken
      omega
    rw [freeColor_stretch hpos (by omega) fun r =>
      ⟨h.own a ha hzero r, fun hhas => h.sound.marked a ha r hhas⟩]

theorem Coloured.freed (h : Coloured s) (ha : a ∈ s.live) :
    Coloured { s with mem := kfree s.mem (dimPage * a.first), live := s.live.erase a } ∧
      ∀ q, Free (kfree s.mem (dimPage * a.first)).pageVect q ↔
        Free s.mem.pageVect q ∨ a.Has q := by
  obtain ⟨mem, hmem⟩ : ∃ m, m = kfree s.mem (dimPage * a.first) := ⟨_, rfl⟩
  have hpages := h.kfree_pages ha
  rw [← hmem] at hpages ⊢
  have hin (q : Nat) (hq : a.Has q) : mem.pageVect q = 0 := (hpages q).trans (if_pos hq)
  have hout (q : Nat) (hq : ¬ a.Has q) : mem.pageVect q = s.mem.pageVect q :=
    (hpages q).trans (if_neg hq)
  have hrest (b : Allocation) (hb : b ∈ s.live.erase a) : b ∈ s.live := List.mem_of_mem_erase hb
  -- the other allocations have other pages
  have hall : (a :: s.live.erase a).Pairwise fun a b => ∀ q, a.Has q → ¬ b.Has q :=
    h.sound.disjoint.perm (List.perm_cons_erase ha) fun hab q hb ha => hab q ha hb
  obtain ⟨hapart, hdisjoint⟩ := List.pairwise_cons.mp hall
  have hkept (b : Allocation) (hb : b ∈ s.live.erase a) (q : Nat) (hq : b.Has q) :
      mem.pageVect q = s.mem.pageVect q := hout q fun hmem => hapart b hb q hmem hq
  have hnum : mem.numPages = s.mem.numPages := by
    rw [hmem]
    rfl
  have hcolor : mem.color = s.mem.color := by
    rw [hmem]
    rfl
  refine ⟨⟨⟨hdisjoint, fun b hb => h.sound.low b (hrest b hb), fun b hb => ?_,
    fun b hb => h.sound.size b (hrest b hb), fun b hb q hq => ?_⟩, ?_, ?_, h.calls, ?_, fun q => ?_,
    fun q hq => ?_, fun b hb hne q heq => ?_, fun b hb => h.last b (hrest b hb), fun q hset => ?_⟩,
    fun q => ?_⟩
  · rw [hnum]
    exact h.sound.high b (hrest b hb)
  · exact (hkept b hb q hq).trans (h.sound.marked b (hrest b hb) q hq)
  · rw [hnum]
    exact h.room
  · rw [hnum]
    exact h.lowRoom
  · rw [hcolor]
    exact h.color
  · by_cases hq : a.Has q
    · rw [hin q hq]
      exact Nat.zero_le _
    · rw [hout q hq]
      exact h.older q
  · have hlow := h.sound.low a ha
    have hnot : ¬ a.Has q := fun hhas => absurd hhas.1 (by omega)
    rw [Free, hout q hnot]
    exact h.low q hq
  · by_cases hq : a.Has q
    · rw [hin q hq] at heq
      exact absurd heq.symm hne
    · rw [hout q hq] at heq
      exact h.own b (hrest b hb) hne q heq
  · by_cases hq : a.Has q
    · exact absurd (hin q hq) hset
    · rw [Free, hout q hq] at hset
      obtain hlow | ⟨b, hb, hhas⟩ := h.owned q hset
      · exact .inl hlow
      · have hne : b ≠ a := by
          rintro rfl
          exact hq hhas
        exact .inr ⟨b, (List.mem_erase_of_ne hne).mpr hb, hhas⟩
  · by_cases hq : a.Has q
    · exact iff_of_true (hin q hq) (.inr hq)
    · rw [Free, Free, hout q hq, or_iff_left hq]

/-! ### Runs -/

theorem step_keeps (h : Coloured s) (hstep : perform s e = some t) (hmeets : Meets s e t) :
    Coloured t := by
  cases e with
  | kmalloc size =>
    obtain ⟨-, hanswers⟩ | ⟨-, hwrong⟩ := kmalloc_cases s.mem size
    · obtain ⟨p, hk, hle, hfree⟩ | ⟨hk, -⟩ := hanswers
      · obtain ⟨hcalls, rfl⟩ := perform_given hk hstep
        exact h.given hcalls hle hfree
      · obtain ⟨hcalls, rfl⟩ := perform_refused hk hstep
        exact h.refused hcalls
    · obtain ⟨p, hk, hbeyond⟩ | ⟨hk, -⟩ := hwrong
      · obtain ⟨hcalls, rfl⟩ := perform_given hk hstep
        have hhigh := hmeets.1.high _ List.mem_cons_self
        exact absurd hbeyond (Nat.not_lt.mpr hhigh)
      · obtain ⟨hcalls, rfl⟩ := perform_refused hk hstep
        exact h.refused hcalls
  | kfree pointer =>
    obtain ⟨a, ha, rfl, rfl⟩ := perform_kfree hstep
    exact (h.freed ha).1

theorem meets_iff_allowed (h : Coloured s) (hstep : perform s e = some t) :
    Meets s e t ↔ Allowed s e := by
  cases e with
  | kmalloc size =>
    unfold Meets Allowed
    dsimp only
    obtain ⟨hok, hanswers⟩ | ⟨hnot, hwrong⟩ := kmalloc_cases s.mem size
    · refine iff_of_true ?_ hok
      obtain ⟨p, hk, hle, hfree⟩ | ⟨hk, hnone⟩ := hanswers
      · obtain ⟨hcalls, rfl⟩ := perform_given hk hstep
        refine ⟨(h.given hcalls hle hfree).sound, ?_⟩
        rw [hk, h.hasStretch_iff hcalls]
        exact iff_of_false (Option.some_ne_none _) (not_not.mpr ⟨p, hle, hfree⟩)
      · obtain ⟨hcalls, rfl⟩ := perform_refused hk hstep
        refine ⟨(h.refused hcalls).sound, ?_⟩
        rw [hk, h.hasStretch_iff hcalls]
        exact iff_of_true rfl hnone
    · refine iff_of_false ?_ hnot
      rintro ⟨hsound, hnull⟩
      obtain ⟨p, hk, hbeyond⟩ | ⟨hk, hhas⟩ := hwrong
      · obtain ⟨hcalls, rfl⟩ := perform_given hk hstep
        exact absurd hbeyond (Nat.not_lt.mpr (hsound.high _ List.mem_cons_self))
      · obtain ⟨hcalls, rfl⟩ := perform_refused hk hstep
        rw [hk, h.hasStretch_iff hcalls] at hnull
        exact hnull.mp rfl hhas
  | kfree pointer =>
    obtain ⟨a, ha, rfl, rfl⟩ := perform_kfree hstep
    obtain ⟨hnext, hpages⟩ := h.freed ha
    refine iff_of_true ⟨hnext.sound, fun b hb hpointer => ?_⟩ trivial
    obtain rfl : b = a := by
      by_contra hne
      have hfirst : a.first = b.first := Nat.eq_of_mul_eq_mul_left (by decide) hpointer
      have hmem := List.mem_cons.mp ((List.perm_cons_erase ha).mem_iff.mp hb)
      have hall := h.sound.disjoint.perm (List.perm_cons_erase ha) fun hab q hb ha => hab q ha hb
      refine (List.pairwise_cons.mp hall).1 b (hmem.resolve_left hne) b.first ?_ b.has_first
      rw [← hfirst]
      exact a.has_first
    exact hpages

/-- At first the pages of the first megabyte have a colour, and no others. -/
theorem initmem_pageVect (memEnd q : Nat) :
    (initmem memEnd).pageVect q = if q < lowPages then 1 else 0 := by
  have hclear (r : Nat) : setbitmapbits (fun _ => 0) 1 (memEnd / dimPage) vuoto r = 0 := by
    have happly := setbitmapbits_apply (fun _ => 0) 0 (memEnd / dimPage) vuoto r
    rw [Nat.zero_add] at happly
    unfold vuoto at happly ⊢
    rw [happly, ite_self]
  have happly := setbitmapbits_apply (setbitmapbits (fun _ => 0) 1 (memEnd / dimPage) vuoto) 0
    lowPages (vuoto + 1) q
  rw [Nat.zero_add, Nat.zero_add, hclear] at happly
  unfold initmem
  dsimp only
  rw [happly]
  exact if_congr (and_iff_right (Nat.zero_le q)) rfl rfl

theorem start_coloured {memEnd : Nat} (hlow : lowPages ≤ memEnd / dimPage)
    (hhigh : memEnd / dimPage < maxPages) : Coloured (start memEnd) := by
  have hvect := initmem_pageVect memEnd
  have hfree (q : Nat) : Free (initmem memEnd).pageVect q ↔ lowPages ≤ q := by
    rw [Free, hvect]
    split
    · rename_i hlt
      exact iff_of_false (by decide) (Nat.not_le.mpr hlt)
    · rename_i hle
      exact iff_of_true rfl (Nat.le_of_not_lt hle)
  refine ⟨⟨.nil, fun a ha => absurd ha List.not_mem_nil, fun a ha => absurd ha List.not_mem_nil,
    fun a ha => absurd ha List.not_mem_nil, fun a ha => absurd ha List.not_mem_nil⟩, hhigh, hlow,
    Nat.two_pow_pos 32, rfl, fun q => ?_, fun q hq => ?_, fun a ha => absurd ha List.not_mem_nil,
    fun a ha => absurd ha List.not_mem_nil, fun q hset => .inl ?_⟩
  · change ((initmem memEnd).pageVect q).toNat ≤ 1
    rw [hvect]
    split
    · exact Nat.le_refl 1
    · exact Nat.zero_le _
  · exact fun hzero => absurd ((hfree q).mp hzero) (Nat.not_le.mpr hq)
  · exact Nat.lt_of_not_le fun hle => hset ((hfree q).mpr hle)

/-- The runs of the allocator that keep allocations apart, and tell whether there is memory, are
those in which each search sees the pages that it needs. -/
theorem runs_meet_iff_allowed {memEnd : Nat} (hlow : lowPages ≤ memEnd / dimPage)
    (hhigh : memEnd / dimPage < maxPages) (es : List Event) (t : Heap) :
    Run (fun s e t => Computes perform s e t ∧ Meets s e t) (start memEnd) es t ↔
      Run (Guarded Allowed (Computes perform)) (start memEnd) es t := by
  refine Run.meets_iff_guarded (I := Coloured) ?_ ?_ (start_coloured hlow hhigh)
  · intro s e t h hstep
    exact meets_iff_allowed h hstep
  · intro s e t h hstep hmeets
    exact step_keeps h hstep hmeets

theorem initmem_eq (memEnd : Nat) :
    initmem memEnd = ⟨fun q => if q < lowPages then 1 else 0, 1, memEnd / dimPage⟩ := by
  have hvect := funext (initmem_pageVect memEnd)
  unfold initmem at hvect ⊢
  dsimp only at hvect ⊢
  rw [hvect]
  rfl

theorem perform_kmalloc (hsize : size ≤ dimPage * s.mem.numPages) (hcalls : s.calls + 1 < 2 ^ 32)
    (hsearch : search s.mem.pageVect (pagesFor size) s.mem.numPages s.mem.numPages 1 0 =
      some (p + 1)) : perform s (.kmalloc size) = some (s.given p size) := by
  unfold perform
  dsimp only
  rw [if_pos ⟨hsize, hcalls⟩, kmalloc_some hsearch]
  dsimp only
  rw [Nat.mul_div_cancel_left p (by decide)]
  rfl

/-- Two megabytes, with nothing given away yet. -/
def twoMegabytes : Heap := ⟨⟨fun q => if q < lowPages then 1 else 0, 1, 512⟩, [], 0⟩

theorem start_twoMegabytes : start (2 ^ 21) = twoMegabytes := by
  unfold start
  rw [initmem_eq]
  rfl

/-- A page is given away in a memory of two megabytes. -/
theorem one_page_meets : Run (fun s e t => Computes perform s e t ∧ Meets s e t)
    (start (2 ^ 21)) [.kmalloc 1] (twoMegabytes.given 256 1) := by
  rw [runs_meet_iff_allowed (by decide) (by decide), start_twoMegabytes]
  refine .single ⟨.inl (by decide), ?_⟩
  apply perform_kmalloc (by decide) (by decide)
  decide +kernel

/-- Of two megabytes, all but three pages are given away, and then three pages are asked for:
what is given away goes beyond the end of the memory. -/
theorem three_pages_beyond_end :
    Run (Computes perform) (start (2 ^ 21)) [.kmalloc (253 * 4096), .kmalloc (3 * 4096)]
      ((twoMegabytes.given 256 (253 * 4096)).given 510 (3 * 4096)) ∧
    ∃ a ∈ ((twoMegabytes.given 256 (253 * 4096)).given 510 (3 * 4096)).live,
      512 < a.first + taken a.size := by
  rw [start_twoMegabytes]
  refine ⟨.cons (t := twoMegabytes.given 256 (253 * 4096)) ?_ (.single ?_), _,
    List.mem_cons_self, by decide⟩
  · apply perform_kmalloc (by decide) (by decide)
    decide +kernel
  · apply perform_kmalloc (by decide) (by decide)
    decide +kernel

end OsdevArchive.Silvios.Mem
