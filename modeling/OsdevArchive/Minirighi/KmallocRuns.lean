import Mathlib.Data.List.Chain
import Mathlib.Data.List.Perm.Basic
import OsdevArchive.Lib.Runs
import OsdevArchive.Minirighi.KmallocRefine

/-!
Runs of the allocator. The invariant ties the memory to an abstract heap in
which no two neighbours are free and whose allocated blocks are exactly the
live allocations. It yields the two properties that the rest of the kernel
relies on: the headers tile the heap and every allocation owns its payload
(`HeapOk`), and freed memory is merged back completely (`Merged`).
-/

namespace OsdevArchive.Minirighi.Kmalloc

open OsdevArchive.Lib.Runs OsdevArchive.Lib.Tiling

/-! ## The properties -/

/-- The headers `ps` that the walk from `p` reaches cover the heap from `p` to
its end, each block starting where the one before it stops. -/
inductive Tiles (h : Heap) : Nat → List Nat → Prop where
  | stop : Tiles h kHeapEnd []
  | block {p : Nat} {ps : List Nat} :
      p + sizeofMemBlock + (h p).size ≤ kHeapEnd →
      nextBlock h p = p + sizeofMemBlock + (h p).size →
      Tiles h (nextBlock h p) ps → Tiles h p (p :: ps)

/-- The size of the payload at `ptr`, as its header records it. -/
def St.payload (s : St) (ptr : Nat) : Nat := (s.heap (ptr - sizeofMemBlock)).size

/-- A payload that `kmalloc(size)` returned has at least `size` bytes. -/
def Op.Covered (op : Op) (payload : Nat) : Prop :=
  match op with
  | .kmalloc _ size _ => size.toNat ≤ payload
  | _ => True

/-- The blocks tile the heap in units of 16 bytes, and the live allocations own
disjoint payloads inside it that are as large as requested. -/
structure HeapOk (s : St) : Prop where
  tiles : ∃ ps, Tiles s.heap kHeapStart ps ∧ (∀ p ∈ ps, 16 ∣ (s.heap p).size) ∧
    ∀ l ∈ s.live, ∃ p ∈ ps, l.ptr = p + sizeofMemBlock
  inside : ∀ l ∈ s.live, kHeapStart ≤ l.ptr ∧ l.ptr + s.payload l.ptr ≤ kHeapEnd
  disjoint : s.live.Pairwise fun l m =>
    l.ptr + s.payload l.ptr ≤ m.ptr ∨ m.ptr + s.payload m.ptr ≤ l.ptr
  covered : ∀ l ∈ s.live, l.op.Covered (s.payload l.ptr)

/-- The headers that a walk from the start of the heap visits. -/
inductive Reached (h : Heap) : Nat → Prop where
  | start : Reached h kHeapStart
  | next {p : Nat} : Reached h p → nextBlock h p < kHeapEnd → Reached h (nextBlock h p)

/-- No two neighbours are free; and once nothing is live the heap is the single
block of `kmalloc_init`. -/
structure Merged (mMagic : Nat) (s : St) : Prop where
  apart : ∀ p, Reached s.heap p → nextBlock s.heap p < kHeapEnd →
    ¬((s.heap p).flags = mFree ∧ (s.heap (nextBlock s.heap p)).flags = mFree)
  restored : s.live = [] →
    s.heap kHeapStart = kmallocInit mMagic s.heap kHeapStart ∧
      ∀ p, Reached s.heap p → p = kHeapStart

/-! ## The conditions on a call -/

/-- A `kmemalign` that cuts its block finds room for the second header. -/
def St.CarvesInside (s : St) : Op → Prop
  | .kmemalign _ alignment size _ => CarveFits s.heap alignment.toNat size.toNat
  | _ => True

/-- A `kmalloc` that takes a block rounds its size up. -/
def St.RoundsUp (s : St) : Op → Prop
  | .kmalloc _ size _ =>
      size.toNat ≤ roundSize size.toNat ∨
        findFree s.heap (roundSize size.toNat) walkFuel kHeapStart = some null
  | _ => True

instance (s : St) (op : Op) : Decidable (s.CarvesInside op) :=
  match op with
  | .kmemalign .. => inferInstanceAs (Decidable (CarveFits _ _ _))
  | .kmalloc .. => isTrue trivial
  | .kfree .. => isTrue trivial

instance (s : St) (op : Op) : Decidable (s.RoundsUp op) :=
  match op with
  | .kmalloc .. => inferInstanceAs (Decidable (_ ∨ _))
  | .kmemalign .. => isTrue trivial
  | .kfree .. => isTrue trivial

/-! ## Allocated blocks and free neighbours of an abstract heap -/

/-- The address and the size of the payload of every allocated block. -/
def owned (a : Nat) (bs : List Block) : List (Nat × Nat) :=
  (places Block.len a bs).filterMap fun (x, b) =>
    if b.alloc then some (x + 16, b.size) else none

/-- No two neighbours are free. -/
def Coalesced (bs : List Block) : Prop :=
  bs.IsChain fun a b => a.alloc = true ∨ b.alloc = true

variable {a n : Nat} {b c : Block} {bs cs pre post : List Block}

@[simp] theorem owned_nil : owned a [] = [] := rfl

@[simp] theorem owned_cons : owned a (b :: bs) =
    (if b.alloc then [(a + 16, b.size)] else []) ++ owned (a + b.len) bs := by
  by_cases halloc : b.alloc = true <;> simp [owned, halloc]

@[simp] theorem owned_append :
    owned a (bs ++ cs) = owned a bs ++ owned (a + extent Block.len bs) cs := by
  simp [owned]

theorem mem_owned_iff {x : Nat} : (x, n) ∈ owned a bs ↔
    ∃ pre b post, bs = pre ++ b :: post ∧ b.alloc = true ∧ b.size = n ∧
      x = a + extent Block.len pre + 16 := by
  constructor
  · intro h
    obtain ⟨⟨y, b⟩, hmem, hsome⟩ := List.mem_filterMap.mp h
    obtain ⟨pre, post, rfl, rfl⟩ := mem_places_iff.mp hmem
    obtain ⟨halloc, rfl, rfl⟩ : b.alloc = true ∧ a + extent Block.len pre + 16 = x ∧
        b.size = n := by simpa using hsome
    exact ⟨pre, b, post, rfl, halloc, rfl, rfl⟩
  · rintro ⟨pre, b, post, rfl, halloc, rfl, rfl⟩
    simp [halloc]

/-- Distinct allocated blocks have disjoint payloads. -/
theorem owned_pairwise : (owned a bs).Pairwise fun p q => p.1 + p.2 < q.1 := by
  induction bs generalizing a with
  | nil => simp
  | cons b bs ih =>
      rw [owned_cons]
      by_cases halloc : b.alloc = true
      · simp only [halloc, if_true, List.singleton_append, List.pairwise_cons]
        refine ⟨?_, ih⟩
        rintro ⟨x, k⟩ hmem
        obtain ⟨pre, c, post, rfl, -, -, rfl⟩ := mem_owned_iff.mp hmem
        simp only [b.len_eq]
        omega
      · simpa [halloc] using ih

theorem owned_takeHole (hn : n ≤ b.size) (hb : 16 ∣ b.size)
    (h16 : 16 ∣ n) : owned a (pre ++ takeHole b n ++ post) =
      owned a pre ++ (a + extent Block.len pre + 16, n) ::
        owned (a + extent Block.len pre + b.len) post := by
  have hextent := extent_takeHole hn hb h16
  have hhole : owned (a + extent Block.len pre) (takeHole b n) =
      [(a + extent Block.len pre + 16, n)] := by
    unfold takeHole
    split <;> simp
  simp [hextent, hhole, Nat.add_assoc]

theorem owned_joinNext (hfree : b.alloc = false) :
    owned a (joinNext b post) = owned a (b :: post) := by
  cases post with
  | nil => rfl
  | cons c post =>
      by_cases halloc : c.alloc = true
      · simp [joinNext, halloc]
      · simp [joinNext, halloc, hfree, Block.len, Nat.add_assoc]

theorem owned_joinPrev (hfree : b.alloc = false) :
    owned a (joinPrev c (b :: post)) = owned a (c :: b :: post) := by
  by_cases halloc : c.alloc = true
  · simp [joinPrev, halloc]
  · simp [joinPrev, halloc, hfree, Block.len, Nat.add_assoc]

/-- Freeing a block removes its payload and no other. -/
theorem owned_freeAt : owned a (freeAt pre b post) =
    owned a pre ++ owned (a + extent Block.len pre + b.len) post := by
  have hnext (x : Nat) : owned x (joinNext ⟨b.size, false⟩ post) = owned (x + b.len) post := by
    rw [owned_joinNext rfl]
    simp [Block.len]
  rcases List.eq_nil_or_concat pre with rfl | ⟨pre, c, rfl⟩
  · simp [freeAt, hnext]
  · obtain ⟨d, post', hjoin, hfree, -⟩ := joinNext_eq_cons (b := ⟨b.size, false⟩) rfl post
    have hprev (x : Nat) : owned x (joinPrev c (joinNext ⟨b.size, false⟩ post)) =
        owned x [c] ++ owned (x + c.len + b.len) post := by
      rw [← hnext, hjoin, owned_joinPrev hfree]
      simp
    simp [freeAt, hprev, Nat.add_assoc]

/-- Beside a free block only allocated ones stand, so the hole may be split. -/
theorem Coalesced.takeHole (hc : Coalesced (pre ++ b :: post)) (hfree : b.alloc = false) :
    Coalesced (pre ++ takeHole b n ++ post) := by
  unfold Coalesced Kmalloc.takeHole at *
  split <;>
    simp_all [List.isChain_append, List.isChain_cons]

theorem Coalesced.joinNext (hc : Coalesced (b :: post)) (hb : b.alloc = true) :
    Coalesced (joinNext ⟨n, false⟩ post) := by
  unfold Coalesced at *
  cases post with
  | nil => simp [Kmalloc.joinNext]
  | cons c post =>
      by_cases halloc : c.alloc = true <;>
        simp_all [Kmalloc.joinNext, List.isChain_cons]

theorem Coalesced.freeAt (hc : Coalesced (pre ++ b :: post)) (hb : b.alloc = true) :
    Coalesced (freeAt pre b post) := by
  have hnext : Coalesced (Kmalloc.joinNext ⟨b.size, false⟩ post) :=
    Coalesced.joinNext (List.isChain_append.mp hc).2.1 hb
  rcases List.eq_nil_or_concat pre with rfl | ⟨pre, c, rfl⟩
  · simpa [Kmalloc.freeAt] using hnext
  · obtain ⟨d, post', hjoin, hfree, -⟩ := joinNext_eq_cons (b := ⟨b.size, false⟩) rfl post
    have hpre : Coalesced (pre ++ [c]) := by
      simpa [Coalesced] using (List.isChain_append.mp hc).1
    simp only [Kmalloc.freeAt, List.getLast?_concat, List.dropLast_concat, hjoin,
      List.concat_eq_append] at hnext ⊢
    unfold Coalesced at *
    by_cases halloc : c.alloc = true <;>
      simp_all [joinPrev, List.isChain_append, List.isChain_cons]

/-! ## The invariant -/

/-- Which live allocation owns which allocated block. `sizes` pairs the live
allocations with the sizes of their payloads; `covers` is what every such pair
meets. -/
structure Inv (mMagic : Nat) (covers : Op → Nat → Prop) (s : St) (bs : List Block)
    (sizes : List (Live × Nat)) : Prop where
  layout : Layout mMagic s.heap bs
  coalesced : Coalesced bs
  live : sizes.map Prod.fst = s.live
  owners : (sizes.map fun (l, n) => (l.ptr, n)).Perm (owned kHeapStart bs)
  covered : ∀ p ∈ sizes, covers p.1.op p.2

variable {mMagic : Nat} {covers : Op → Nat → Prop} {s : St} {sizes : List (Live × Nat)}

theorem Inv.init (mMagic : Nat) (covers : Op → Nat → Prop) (memory : Heap) :
    Inv mMagic covers (St.init mMagic memory)
      [⟨kHeapEnd - kHeapStart - sizeofMemBlock, false⟩] [] where
  layout := by
    refine ⟨?_, by simp [Block.len, kHeapEnd, kHeapStart, sizeofMemBlock], ?_⟩
    · intro x b hmem
      obtain ⟨rfl, rfl⟩ : x = kHeapStart ∧
          b = ⟨kHeapEnd - kHeapStart - sizeofMemBlock, false⟩ := by simpa using hmem
      constructor <;> simp [St.init, kmallocInit, sub32, wrap, kHeapEnd, kHeapStart,
        sizeofMemBlock]
    · simp [kHeapEnd, kHeapStart, sizeofMemBlock]
  coalesced := by simp [Coalesced]
  live := rfl
  owners := by simp
  covered := by simp

theorem Inv.allocate (hi : Inv mMagic covers s bs sizes) {op : Op} {ptr : Nat} {h' : Heap}
    (hnull : ptr ≠ null) (hl : Layout mMagic h' cs) (hc : Coalesced cs)
    (howned : (owned kHeapStart cs).Perm ((ptr, n) :: owned kHeapStart bs))
    (hcovers : covers op n) :
    Inv mMagic covers (s.record op (ptr, h')) cs ((⟨ptr, op⟩, n) :: sizes) where
  layout := hl
  coalesced := hc
  live := by simp [St.record, hnull, hi.live]
  owners := (hi.owners.cons (ptr, n)).trans howned.symm
  covered p hp := by
    rcases List.mem_cons.mp hp with rfl | hp
    · exact hcovers
    · exact hi.covered p hp

theorem St.record_null (s : St) (op : Op) : s.record op (null, s.heap) = s := by
  simp [St.record]

theorem Inv.kmalloc (hi : Inv mMagic covers s bs sizes) (pid size mflag : UInt32)
    (hcovers : ∀ n, roundSize size.toNat = n →
      findFree s.heap n walkFuel kHeapStart ≠ some null →
        covers (.kmalloc pid size mflag) n) :
    ∃ t cs sizes', s.exec mMagic (.kmalloc pid size mflag) = some t ∧
      Inv mMagic covers t cs sizes' := by
  rcases kmalloc_spec hi.layout size.toNat_lt pid.toNat mflag.toNat with
    hfail | ⟨pre, b, post, h', rfl, -, hfit, hfirst, hret, hl⟩
  · refine ⟨s, bs, sizes, ?_, hi⟩
    simp [St.exec, hfail, St.record_null]
  · have hfound := findFree_first hi.layout hfit hfirst
    have hbound := hi.layout.bound
    have h16 := roundSize_dvd size.toNat_lt
    have hb16 : 16 ∣ b.size := hi.layout.aligned b (by simp)
    have hexec : s.exec mMagic (.kmalloc pid size mflag) =
        some (s.record (.kmalloc pid size mflag) (headerOf pre + 16, h')) := by
      simp only [St.exec, hret, Option.map_some]
    refine ⟨_, _, _, hexec, hi.allocate ?_ hl (hi.coalesced.takeHole hfit.1) ?_
      (hcovers _ rfl ?_)⟩
    · unfold null
      omega
    · rw [owned_takeHole hfit.2 hb16 h16]
      simp [hfit.1, headerOf]
    · rw [hfound]
      intro heq
      have hnull : headerOf pre = null := Option.some.inj heq
      unfold null at hnull
      omega

/-- `kmemalign` keeps the invariant when its carve stays inside the block. -/
theorem Inv.kmemalign (hi : Inv mMagic covers s bs sizes)
    (pid alignment size flags : UInt32)
    (hcarve : CarveFits s.heap alignment.toNat size.toNat)
    (hcovers : ∀ n, covers (.kmemalign pid alignment size flags) n) :
    ∃ t cs sizes', s.exec mMagic (.kmemalign pid alignment size flags) = some t ∧
      Inv mMagic covers t cs sizes' := by
  rcases kmemalign_spec hi.layout alignment.toNat_lt hcarve pid.toNat flags.toNat with
    hfail | ⟨pre, b, post, R, h', rfl, hfit, h16, ⟨hret, hl⟩ | ⟨n, hn, hnR, hn16, hret, hl⟩⟩
  · refine ⟨s, bs, sizes, ?_, hi⟩
    simp [St.exec, hfail, St.record_null]
  all_goals
    have hbound := hi.layout.bound
    have hb16 : 16 ∣ b.size := hi.layout.aligned b (by simp)
    have hle := hfit.2
    have htaken : owned kHeapStart (pre ++ takeHole b R ++ post) =
        owned kHeapStart pre ++ (kHeapStart + extent Block.len pre + 16, R) ::
          owned (kHeapStart + extent Block.len pre + b.len) post :=
      owned_takeHole hle hb16 h16
    have hchain := hi.coalesced.takeHole (n := R) hfit.1
  · have hexec : s.exec mMagic (.kmemalign pid alignment size flags) =
        some (s.record (.kmemalign pid alignment size flags) (headerOf pre + 16, h')) := by
      simp only [St.exec, hret, Option.map_some]
    refine ⟨_, _, _, hexec, hi.allocate ?_ hl hchain ?_ (hcovers R)⟩
    · unfold null
      omega
    · rw [htaken]
      simp [hfit.1, headerOf]
  · -- The block is cut into two allocated ones before the first of them is freed.
    have hcut : Coalesced (pre ++ ⟨n, true⟩ :: ⟨R - n - 16, true⟩ ::
        ((takeHole b R).tail ++ post)) := by
      rw [takeHole_eq_cons] at hchain
      unfold Coalesced at *
      simp_all [List.isChain_append, List.isChain_cons]
    have hexec : s.exec mMagic (.kmemalign pid alignment size flags) =
        some (s.record (.kmemalign pid alignment size flags)
          (headerOf pre + 16 + n + 16, h')) := by
      simp only [St.exec, hret, Option.map_some]
    refine ⟨_, _, _, hexec, hi.allocate ?_ hl (hcut.freeAt rfl) ?_ (hcovers (R - n - 16))⟩
    · unfold null
      omega
    · rw [takeHole_eq_cons] at htaken
      simp only [owned_append, owned_cons, List.cons_append, List.append_assoc, if_true,
        List.nil_append, List.append_cancel_left_eq, List.cons.injEq,
        true_and] at htaken
      rw [owned_freeAt]
      have hlen : kHeapStart + extent Block.len pre + (⟨n, true⟩ : Block).len +
          (⟨R - n - 16, true⟩ : Block).len =
            kHeapStart + extent Block.len pre + (⟨R, true⟩ : Block).len := by
        simp only [Block.len_eq]
        omega
      have hptr : kHeapStart + extent Block.len pre + (⟨n, true⟩ : Block).len + 16 =
          headerOf pre + 16 + n + 16 := by
        simp only [Block.len_eq, headerOf]
        omega
      simp only [List.cons_append, owned_cons, if_true, hlen, hptr, List.nil_append]
      rw [owned_append, htaken]
      simp [hfit.1]

theorem Inv.allocated (hi : Inv mMagic covers s bs sizes) {l : Live} (hl : l ∈ s.live) :
    ∃ pre b post, bs = pre ++ b :: post ∧ b.alloc = true ∧ l.ptr = headerOf pre + 16 ∧
      (l, b.size) ∈ sizes := by
  obtain ⟨⟨l, n⟩, hmem, rfl⟩ := List.mem_map.mp (hi.live.symm ▸ hl)
  have howned : (l.ptr, n) ∈ owned kHeapStart bs :=
    hi.owners.subset (List.mem_map.mpr ⟨(l, n), hmem, rfl⟩)
  obtain ⟨pre, b, post, rfl, halloc, rfl, hptr⟩ := mem_owned_iff.mp howned
  exact ⟨pre, b, post, rfl, halloc, hptr, hmem⟩

/-- Freeing the block at `headerOf pre` leaves the payloads at other addresses. -/
theorem filter_owned (b : Block) (pre post : List Block) :
    (owned kHeapStart (pre ++ b :: post)).filter (fun p => p.1 ≠ headerOf pre + 16) =
      owned kHeapStart (freeAt pre b post) := by
  have hpre : ∀ p ∈ owned kHeapStart pre, p.1 ≠ headerOf pre + 16 := by
    rintro ⟨x, k⟩ hmem
    obtain ⟨pre', c, post', rfl, -, -, rfl⟩ := mem_owned_iff.mp hmem
    simp only [headerOf, extent_append, extent_cons, c.len_eq]
    omega
  have hpost : ∀ p ∈ owned (kHeapStart + extent Block.len pre + b.len) post,
      p.1 ≠ headerOf pre + 16 := by
    rintro ⟨x, k⟩ hmem
    obtain ⟨pre', c, post', rfl, -, -, rfl⟩ := mem_owned_iff.mp hmem
    simp only [headerOf, b.len_eq]
    omega
  have hkeep : ∀ ps : List (Nat × Nat), (∀ p ∈ ps, p.1 ≠ headerOf pre + 16) →
      ps.filter (fun p => p.1 ≠ headerOf pre + 16) = ps := fun ps hps =>
    List.filter_eq_self.mpr fun p hp => decide_eq_true (hps p hp)
  rw [owned_freeAt, owned_append, owned_cons, List.filter_append, List.filter_append,
    hkeep _ hpre, hkeep _ hpost]
  by_cases halloc : b.alloc = true <;> simp [halloc, headerOf]

theorem Inv.kfree (hi : Inv mMagic covers s bs sizes) (ptr : UInt32)
    (hlive : s.Allows (.kfree ptr)) :
    ∃ t cs sizes', s.exec mMagic (.kfree ptr) = some t ∧
      Inv mMagic covers t cs sizes' := by
  obtain ⟨l, hl, hptr⟩ := hlive
  obtain ⟨pre, b, post, rfl, halloc, hheader, -⟩ := hi.allocated hl
  obtain ⟨h', hfree, hlayout⟩ := kfree_spec hi.layout halloc
  rw [← hheader, hptr] at hfree
  have hexec : s.exec mMagic (.kfree ptr) =
      some ⟨h', s.live.filter fun l => l.ptr ≠ ptr.toNat⟩ := by
    simp only [St.exec, hfree, Option.map_some]
  refine ⟨_, freeAt pre b post, sizes.filter fun p => p.1.ptr ≠ ptr.toNat, hexec, hlayout,
    hi.coalesced.freeAt halloc, ?_, ?_, ?_⟩
  · rw [← hi.live, List.filter_map]
    rfl
  · rw [← filter_owned, ← hheader, hptr]
    have hfilter := hi.owners.filter fun p => p.1 ≠ ptr.toNat
    rwa [List.filter_map] at hfilter
  · intro p hp
    exact hi.covered p (List.mem_filter.mp hp).1

/-- Every call that meets its conditions returns and keeps the invariant. -/
theorem Inv.exec (hi : Inv mMagic covers s bs sizes) (op : Op) (hallows : s.Allows op)
    (hcarve : s.CarvesInside op)
    (hkmalloc : ∀ pid size mflag n, op = .kmalloc pid size mflag → roundSize size.toNat = n →
      findFree s.heap n walkFuel kHeapStart ≠ some null → covers op n)
    (hkmemalign : ∀ pid alignment size flags n, op = .kmemalign pid alignment size flags →
      covers op n) :
    ∃ t cs sizes', s.exec mMagic op = some t ∧ Inv mMagic covers t cs sizes' := by
  cases op with
  | kmalloc pid size mflag =>
      exact hi.kmalloc pid size mflag fun n => hkmalloc pid size mflag n rfl
  | kmemalign pid alignment size flags =>
      exact hi.kmemalign pid alignment size flags hcarve fun n =>
        hkmemalign pid alignment size flags n rfl
  | kfree ptr => exact hi.kfree ptr hallows

/-! ## Tiling and ownership -/

theorem LaidFrom.tiles {h : Heap} (hl : LaidFrom mMagic h a bs) :
    Tiles h a ((places Block.len a bs).map Prod.fst) := by
  induction bs generalizing a with
  | nil =>
      obtain rfl : a = kHeapEnd := by simpa using hl.covers
      exact .stop
  | cons b bs ih =>
      have hsize := hl.head.size
      have hnext := hl.nextBlock
      have hcovers := hl.covers
      simp only [extent_cons] at hcovers
      rw [b.len_eq] at hnext hcovers
      refine .block ?_ ?_ ?_
      · rw [hsize, sizeofMemBlock]
        omega
      · rw [hnext, hsize, sizeofMemBlock, Nat.add_assoc]
      · rw [hnext, ← b.len_eq]
        exact ih hl.tail

theorem Inv.payload_eq (hi : Inv mMagic covers s (pre ++ b :: post) sizes) :
    s.payload (headerOf pre + 16) = b.size := hi.layout.describes.size

theorem Inv.heapOk (hi : Inv mMagic Op.Covered s bs sizes) : HeapOk s where
  tiles := by
    refine ⟨_, LaidFrom.tiles hi.layout, ?_, ?_⟩
    · intro p hp
      obtain ⟨⟨x, b⟩, hmem, rfl⟩ := List.mem_map.mp hp
      obtain ⟨pre, post, rfl, rfl⟩ := mem_places_iff.mp hmem
      change 16 ∣ (s.heap (headerOf pre)).size
      rw [hi.layout.describes.size]
      exact hi.layout.aligned b (by simp)
    · intro l hl
      obtain ⟨pre, b, post, rfl, -, hptr, -⟩ := hi.allocated hl
      exact ⟨headerOf pre, by simp [headerOf], hptr⟩
  inside l hl := by
    obtain ⟨pre, b, post, rfl, -, hptr, -⟩ := hi.allocated hl
    have hbound := hi.layout.bound
    rw [hptr, hi.payload_eq, kHeapStart, kHeapEnd]
    omega
  disjoint := by
    have hpairs : (sizes.map fun p => (p.1.ptr, p.2)).Pairwise fun p q =>
        p.1 + p.2 < q.1 ∨ q.1 + q.2 < p.1 :=
      (hi.owners.pairwise_iff fun h => h.symm).mpr (owned_pairwise.imp fun h => Or.inl h)
    have hsize : ∀ p ∈ sizes, s.payload p.1.ptr = p.2 := by
      intro p hp
      have howned : (p.1.ptr, p.2) ∈ owned kHeapStart bs :=
        hi.owners.subset (List.mem_map.mpr ⟨p, hp, rfl⟩)
      obtain ⟨pre, b, post, rfl, -, hsize, hptr⟩ := mem_owned_iff.mp howned
      rw [hptr, ← hsize]
      exact hi.payload_eq
    rw [← hi.live, List.pairwise_map]
    refine List.Pairwise.imp_of_mem ?_ (List.pairwise_map.mp hpairs)
    intro p q hp hq hpq
    rw [hsize p hp, hsize q hq]
    exact hpq.imp Nat.le_of_lt Nat.le_of_lt
  covered l hl := by
    obtain ⟨pre, b, post, rfl, -, hptr, hmem⟩ := hi.allocated hl
    rw [hptr, hi.payload_eq]
    exact hi.covered _ hmem

/-! ## Coalescing -/

theorem Layout.reached {h : Heap} (hl : Layout mMagic h bs) {p : Nat} (hp : Reached h p) :
    ∃ pre b post, bs = pre ++ b :: post ∧ p = headerOf pre := by
  induction hp with
  | start =>
      cases bs with
      | nil =>
          have hcovers := hl.covers
          simp [kHeapStart, kHeapEnd] at hcovers
      | cons b post => exact ⟨[], b, post, rfl, rfl⟩
  | @next p _ hlt ih =>
      obtain ⟨pre, b, post, rfl, rfl⟩ := ih
      have hbound := hl.bound
      rw [hl.nextBlock, b.len_eq, kHeapEnd] at hlt
      cases post with
      | nil =>
          rw [extent_nil] at hbound
          omega
      | cons c post =>
          refine ⟨pre ++ [b], c, post, by simp, ?_⟩
          rw [hl.nextBlock, headerOf_concat]

theorem Inv.merged (hi : Inv mMagic covers s bs sizes) : Merged mMagic s where
  apart p hp hlt := by
    rintro ⟨hfree, hfree'⟩
    obtain ⟨pre, b, post, rfl, rfl⟩ := hi.layout.reached hp
    obtain ⟨pre', c, post', hsplit, hnext⟩ := hi.layout.reached (.next hp hlt)
    have hbound := hi.layout.bound
    rw [hi.layout.nextBlock] at hlt hnext hfree'
    cases post with
    | nil =>
        rw [b.len_eq, kHeapEnd] at hlt
        rw [extent_nil] at hbound
        omega
    | cons d post =>
        rw [← headerOf_concat] at hfree'
        have hd : Describes mMagic s.heap (headerOf (pre ++ [b])) d :=
          Layout.describes_next hi.layout
        have hb0 := hi.layout.describes.isFree_iff.mp hfree
        have hd0 := hd.isFree_iff.mp hfree'
        have hcoalesced := hi.coalesced
        unfold Coalesced at hcoalesced
        simp [List.isChain_append, List.isChain_cons, hb0, hd0] at hcoalesced
  restored hnone := by
    have hsizes : sizes = [] := List.map_eq_nil_iff.mp (hi.live.trans hnone)
    have howned : owned kHeapStart bs = [] := by
      simpa [hsizes] using hi.owners.symm
    have hfree : ∀ b ∈ bs, b.alloc = false := by
      intro b hb
      obtain ⟨pre, post, rfl⟩ := List.append_of_mem hb
      by_contra halloc
      simp [Bool.not_eq_false _ ▸ halloc] at howned
    have hsingle : ∃ b, bs = [b] := by
      have hcovers := hi.layout.covers
      have hchain := hi.coalesced
      cases bs with
      | nil => simp [kHeapStart, kHeapEnd] at hcovers
      | cons b rest =>
          cases rest with
          | nil => exact ⟨b, rfl⟩
          | cons c post =>
              have hb := hfree b (by simp)
              have hc := hfree c (by simp)
              simp [Coalesced, hb, hc] at hchain
    obtain ⟨b, rfl⟩ := hsingle
    have hd : Describes mMagic s.heap kHeapStart b := hi.layout.head
    have hb := hfree b (by simp)
    have hcovers := hi.layout.covers
    constructor
    · have hsize : b.size = sub32 (sub32 kHeapEnd kHeapStart) sizeofMemBlock := by
        simp only [extent_cons, extent_nil, b.len_eq] at hcovers
        have hvalue : sub32 (sub32 kHeapEnd kHeapStart) sizeofMemBlock =
            kHeapEnd - kHeapStart - 16 := by decide
        omega
      have heq : s.heap kHeapStart = ⟨(s.heap kHeapStart).magic, (s.heap kHeapStart).flags,
          (s.heap kHeapStart).size, (s.heap kHeapStart).owner⟩ := rfl
      rw [kmallocInit, Function.update_self, heq, hd.magic, hd.flags, hd.size, hd.owner hb,
        hsize, hb]
      rfl
    · intro p hp
      obtain ⟨pre, c, post, hsplit, rfl⟩ := hi.layout.reached hp
      obtain rfl : pre = [] := by
        cases pre with
        | nil => rfl
        | cons d pre => simp at hsplit
      rfl

/-! ## Runs -/

/-- A step of the allocator is a call that is allowed and returns. -/
theorem step_eq_some {t : St} {op : Op} (hstep : Computes (St.step mMagic) s op t) :
    s.Allows op ∧ s.exec mMagic op = some t := by
  unfold Computes St.step at hstep
  split at hstep
  · exact ⟨‹_›, hstep⟩
  · cases hstep

theorem Inv.step (hi : Inv mMagic covers s bs sizes) {op : Op} {t : St}
    (hstep : Computes (St.step mMagic) s op t) (hcarve : s.CarvesInside op)
    (hkmalloc : ∀ pid size mflag n, op = .kmalloc pid size mflag → roundSize size.toNat = n →
      findFree s.heap n walkFuel kHeapStart ≠ some null → covers op n)
    (hkmemalign : ∀ pid alignment size flags n, op = .kmemalign pid alignment size flags →
      covers op n) :
    ∃ cs sizes', Inv mMagic covers t cs sizes' := by
  obtain ⟨hallows, hexec⟩ := step_eq_some hstep
  obtain ⟨u, cs, sizes', hu, hinv⟩ := hi.exec op hallows hcarve hkmalloc hkmemalign
  obtain rfl : u = t := Option.some.inj (hu.symm.trans hexec)
  exact ⟨cs, sizes', hinv⟩

/-- The calls whose arithmetic does not wrap. -/
def St.Sound (s : St) (op : Op) : Prop := s.CarvesInside op ∧ s.RoundsUp op

instance (s : St) (op : Op) : Decidable (s.Sound op) := inferInstanceAs (Decidable (_ ∧ _))

theorem exists_inv {memory : Heap} {ops : List Op} {t : St}
    (hrun : Run (Guarded St.Sound (Computes (St.step mMagic))) (St.init mMagic memory) ops t) :
    ∃ bs sizes, Inv mMagic Op.Covered t bs sizes := by
  refine hrun.guarded_invariant (I := fun s => ∃ bs sizes, Inv mMagic Op.Covered s bs sizes)
    ?_ ⟨_, _, Inv.init mMagic Op.Covered memory⟩
  rintro s op t ⟨bs, sizes, hi⟩ ⟨hcarve, hround⟩ hstep
  refine hi.step hstep hcarve ?_ ?_
  · rintro pid size mflag n rfl rfl hfound
    exact hround.resolve_right hfound
  · rintro pid alignment size flags n rfl
    exact trivial

/-- The heap stays tiled, and every live allocation owns a payload of its own,
in every run whose `kmalloc` calls round up and whose `kmemalign` calls carve
inside their block. -/
theorem heapOk_of_run (mMagic : Nat) (memory : Heap) (ops : List Op) (t : St)
    (hrun : Run (Guarded St.Sound (Computes (St.step mMagic))) (St.init mMagic memory) ops t) :
    HeapOk t := by
  obtain ⟨bs, sizes, hi⟩ := exists_inv hrun
  exact hi.heapOk

/-- The linker's choice of `M_MAGIC` and the memory for the runs below. -/
def magicAddr : Nat := 0xC0100000

def clearMemory : Heap := fun _ => clearBlock

/-- A run with a page-aligned allocation between two plain ones and a free. -/
def soundOps : List Op :=
  [.kmalloc 1 100 1, .kmemalign 1 4096 5000 1, .kmalloc 1 200 1, .kfree 0xD0000010]

theorem heapOk_soundOps :
    ∃ t, t.live.map Live.ptr = [0xD0000090, 0xD0001000] ∧ HeapOk t := by
  have hrun : (soundOps.foldlM (checked St.Sound (St.step magicAddr))
        (St.init magicAddr clearMemory)).map (fun t => t.live.map Live.ptr) =
      some [0xD0000090, 0xD0001000] := by
    decide +kernel
  obtain ⟨t, hsteps, hlive⟩ := Option.map_eq_some_iff.mp hrun
  exact ⟨t, hlive, heapOk_of_run magicAddr clearMemory soundOps t (.of_foldlM_checked hsteps)⟩

/-- No walk over the headers fails to end: behind every such run each further
call returns. -/
theorem step_returns {memory : Heap} {ops : List Op} {t : St}
    (hrun : Run (Guarded St.Sound (Computes (St.step mMagic))) (St.init mMagic memory) ops t)
    {op : Op} (hallows : t.Allows op) (hsound : t.Sound op) :
    ∃ u, t.step mMagic op = some u := by
  obtain ⟨bs, sizes, hi⟩ := exists_inv hrun
  obtain ⟨u, -, -, hexec, -⟩ := hi.exec op hallows hsound.1
    (by rintro pid size mflag n rfl rfl hfound; exact hsound.2.resolve_right hfound)
    (by rintro pid alignment size flags n rfl; exact trivial)
  exact ⟨u, by rw [St.step, if_pos hallows, hexec]⟩

theorem step_returns_soundOps : ∃ t, t.live.map Live.ptr = [0xD0000090, 0xD0001000] ∧
    ∃ u, St.step magicAddr t (.kmalloc 1 100 1) = some u := by
  have hrun : (soundOps.foldlM (checked St.Sound (St.step magicAddr))
        (St.init magicAddr clearMemory)).map (fun t => t.live.map Live.ptr) =
      some [0xD0000090, 0xD0001000] := by
    decide +kernel
  obtain ⟨t, hsteps, hlive⟩ := Option.map_eq_some_iff.mp hrun
  exact ⟨t, hlive, step_returns (.of_foldlM_checked hsteps) trivial ⟨trivial, .inl (by decide)⟩⟩

/-- `kmalloc(0xFFFFFFF0)` returns a pointer to a payload of no bytes at all. -/
theorem kmalloc_wraps :
    ∃ t, Run (Computes (St.step magicAddr)) (St.init magicAddr clearMemory)
        [.kmalloc 1 0xFFFFFFF0 1] t ∧
      t.live.map Live.ptr = [0xD0000010] ∧ t.payload 0xD0000010 = 0 ∧ ¬HeapOk t := by
  have hrun : ((St.init magicAddr clearMemory).step magicAddr
        (.kmalloc 1 0xFFFFFFF0 1)).map (fun t => (t.live, t.payload 0xD0000010)) =
      some ([⟨0xD0000010, .kmalloc 1 0xFFFFFFF0 1⟩], 0) := by
    decide +kernel
  obtain ⟨t, hstep, hobs⟩ := Option.map_eq_some_iff.mp hrun
  obtain ⟨hlive, hpayload⟩ := Prod.mk.inj hobs
  refine ⟨t, .single hstep, by simp [hlive], hpayload, fun hok => ?_⟩
  have hcovered := hok.covered ⟨0xD0000010, .kmalloc 1 0xFFFFFFF0 1⟩ (by simp [hlive])
  simp only [hpayload, Op.Covered] at hcovered
  exact absurd hcovered (by decide)

/-- Free neighbours are merged, and the heap is restored once everything is
freed, in every run whose `kmemalign` calls carve inside their block; the sizes
given to `kmalloc` do not matter. -/
theorem merged_of_run (mMagic : Nat) (memory : Heap) (ops : List Op) (t : St)
    (hrun : Run (Guarded St.CarvesInside (Computes (St.step mMagic)))
      (St.init mMagic memory) ops t) : Merged mMagic t := by
  have hinv : ∃ bs sizes, Inv mMagic (fun _ _ => True) t bs sizes := by
    refine hrun.guarded_invariant
      (I := fun s => ∃ bs sizes, Inv mMagic (fun _ _ => True) s bs sizes)
      ?_ ⟨_, _, Inv.init mMagic _ memory⟩
    rintro s op t ⟨bs, sizes, hi⟩ hcarve hstep
    exact hi.step hstep hcarve (fun _ _ _ _ _ _ _ => trivial) fun _ _ _ _ _ _ => trivial
  obtain ⟨bs, sizes, hi⟩ := hinv
  exact hi.merged

/-- Freeing the two allocations that `soundOps` leaves restores the heap. -/
theorem merged_soundOps :
    ∃ t, t.live = [] ∧ Merged magicAddr t := by
  have hrun : ((soundOps ++ [Op.kfree 0xD0001000, Op.kfree 0xD0000090]).foldlM
        (checked St.CarvesInside (St.step magicAddr)) (St.init magicAddr clearMemory)).map
        (fun t => t.live) = some [] := by
    decide +kernel
  obtain ⟨t, hsteps, hlive⟩ := Option.map_eq_some_iff.mp hrun
  exact ⟨t, hlive, merged_of_run magicAddr clearMemory _ t (.of_foldlM_checked hsteps)⟩

/-- The 32-bit request of `kmemalign(32, 0xFFFFFFC1)` wraps to one byte. -/
def wrappingOps : List Op :=
  [.kmemalign 1 32 0xFFFFFFC1 1, .kmalloc 1 1 1, .kfree 0xD0000040]

/-- After the wrapped request two neighbours are free. -/
theorem kmemalign_wraps :
    ∃ t, Run (Computes (St.step magicAddr)) (St.init magicAddr clearMemory) wrappingOps t ∧
      ¬Merged magicAddr t := by
  have hrun : (wrappingOps.foldlM (St.step magicAddr) (St.init magicAddr clearMemory)).map
        (fun t => (nextBlock t.heap 0xD0000000, nextBlock t.heap 0xD0000020,
          (t.heap 0xD0000020).flags, (t.heap 0xD0000030).flags)) =
      some (0xD0000020, 0xD0000030, mFree, mFree) := by
    decide +kernel
  obtain ⟨t, hsteps, hobs⟩ := Option.map_eq_some_iff.mp hrun
  simp only [Prod.mk.injEq] at hobs
  obtain ⟨hfirst, hnext, hflags, hflags'⟩ := hobs
  refine ⟨t, .of_foldlM hsteps, fun hmerged => ?_⟩
  have hreached : Reached t.heap 0xD0000020 := by
    have hstart := Reached.next (h := t.heap) .start
    rw [show kHeapStart = 0xD0000000 from rfl, hfirst] at hstart
    exact hstart (by decide)
  refine hmerged.apart _ hreached ?_ ⟨hflags, ?_⟩
  · rw [hnext]
    decide
  · rw [hnext]
    exact hflags'

end OsdevArchive.Minirighi.Kmalloc
