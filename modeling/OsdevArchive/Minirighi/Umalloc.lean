import OsdevArchive.Lib.Runs
import OsdevArchive.Lib.Searches
import OsdevArchive.Minirighi.HeaderLayout
import OsdevArchive.Minirighi.KmallocRuns

/-!
The allocator of user memory (`mm/umalloc.c`). A process has one heap, which its threads share;
`umem_block_t` has the fields of `mem_block_t`, and the two values of `flags` are the same. The
memory is that of the address space of the process: a call first locks the heap and, if need be,
switches to that address space, so that it sees and changes no other memory.

`umMagic` is the address of the string literal `"$UM$"`.

The user heap as a list of blocks. `do_umalloc` takes the first of the smallest holes that are
large enough and `do_ufree` joins the freed block with its free neighbours; over a run of both,
the headers tile the heap, no two neighbours are free, and the live pointers are those of the
allocated blocks.
-/

namespace OsdevArchive.Minirighi.Umalloc

open OsdevArchive.Lib.FirstLeast OsdevArchive.Lib.Runs OsdevArchive.Lib.Tiling
open OsdevArchive.Minirighi.Kmalloc

abbrev umFree : Nat := mFree

abbrev umAlloc : Nat := mAlloc

/-- `heap_start` and `heap_size` of a process. -/
structure UserHeap where
  heapStart : Nat
  heapSize : Nat
  start_pos : 0 < heapStart
  below : heapStart + heapSize + pageSize ≤ 2 ^ 32
  room : sizeofMemBlock ≤ heapSize
  aligned : 16 ∣ heapSize

namespace UserHeap

/-- The end of the heap. -/
def stop (t : UserHeap) : Nat := t.heapStart + t.heapSize

/-- More headers than the heap can hold. -/
def walkFuel (t : UserHeap) : Nat := t.heapSize / sizeofMemBlock + 1

end UserHeap

/-- A task, as far as its heap goes: a process, or a thread whose father may be dead. -/
inductive Task where
  | process
  | thread (father : Option Task)

/-- `get_thread_father`. -/
def getThreadFather : Task → Option Task
  | .process => some .process
  | .thread none => none
  | .thread (some father) => getThreadFather father

/-- The loop of `do_umalloc` over the headers from `p` on; `best` is `p_best`. -/
def findBest (h : Heap) (stop size : Nat) : Nat → Nat → Nat → Option Nat
  | 0, _, _ => none
  | fuel + 1, p, best =>
    if p < stop then
      if (h p).flags = umFree then
        if (h p).size = size then some p
        else if size < (h p).size then
          if best = null then findBest h stop size fuel (nextBlock h p) p
          else if (h p).size < (h best).size then findBest h stop size fuel (nextBlock h p) p
          else findBest h stop size fuel (nextBlock h p) best
        else findBest h stop size fuel (nextBlock h p) best
      else findBest h stop size fuel (nextBlock h p) best
    else some best

section

variable (umMagic : Nat) (t : UserHeap)

/-- `umalloc_init`. -/
def umallocInit (h : Heap) : Heap :=
  Function.update h t.heapStart ⟨umMagic, umFree, sub32 t.heapSize sizeofMemBlock, null⟩

/-- The allocation of the hole `best`, which is split unless it has the very size. -/
def allocHole (pid size : Nat) (h : Heap) (best : Nat) : Heap :=
  let h := Function.update h best
    { h best with magic := umMagic, flags := umAlloc, owner := pid }
  if (h best).size = size then h
  else
    let p := wrap (best + sizeofMemBlock + size)
    let h := Function.update h p
      ⟨umMagic, umFree, sub32 (sub32 (h best).size size) sizeofMemBlock, null⟩
    Function.update h best { h best with size := size }

/-- `do_umalloc` for the task `ut`, called by the task `pid`. The result is the pointer and the
memory; `none` stands for a walk that does not end. -/
def doUmalloc (pid : Nat) (ut : Option Task) (size : Nat) (h : Heap) : Option (Nat × Heap) :=
  match ut with
  | none => some (null, h)
  | some ut =>
    if size = 0 then some (null, h)
    else
      let size := roundSize size
      match getThreadFather ut with
      | none => some (null, h)
      | some _ =>
        if t.heapStart = null then some (null, h)
        else
          match findBest h t.stop size t.walkFuel t.heapStart null with
          | none => none
          | some best =>
            if best = null then some (null, h)
            else some (wrap (best + sizeofMemBlock), allocHole umMagic pid size h best)

/-- `deallocate`. -/
def deallocate (h : Heap) (ptr : Nat) : Heap := Kmalloc.deallocate h ptr

/-- The block `p` joined with its successor if that one is free. -/
def mergeNext (h : Heap) (p : Nat) : Heap := joinNextAt t.stop h p

/-- The block `p` joined with its predecessor if that one is free, and the block that holds the
freed memory. -/
def mergePrev (h : Heap) (p : Nat) : Option (Nat × Heap) :=
  joinPrevAt t.heapStart t.walkFuel h p

/-- `do_ufree`. -/
def doUfree (ut : Option Task) (ptr : Nat) (h : Heap) : Option Heap :=
  match ut with
  | none => some h
  | some ut =>
    if ptr = null then some h
    else
      let p := sub32 ptr sizeofMemBlock
      match getThreadFather ut with
      | none => some h
      | some _ =>
        if (h p).magic ≠ umMagic then some h
        else if (h p).flags ≠ umAlloc then some h
        else
          let h := Function.update h p { h p with flags := umFree, owner := null }
          (mergePrev t (mergeNext t h p) p).map fun r => deallocate r.2 r.1

end

/-! ## Runs -/

/-- The calls for one heap. Arguments are 32-bit words. -/
inductive Op where
  | umalloc (pid : UInt32) (ut : Option Task) (size : UInt32)
  | ufree (ut : Option Task) (ptr : UInt32)

/-- The memory and the pointers that were returned and not freed. -/
structure St where
  heap : Heap
  live : List Nat

/-- The task has a heap: it is there, and so are its fathers up to a process. -/
def HasHeap (ut : Option Task) : Prop := (ut.bind getThreadFather).isSome = true

instance HasHeap.decidable (ut : Option Task) : Decidable (HasHeap ut) :=
  inferInstanceAs (Decidable (_ = true))

def St.exec (umMagic : Nat) (t : UserHeap) (s : St) : Op → Option St
  | .umalloc pid ut size =>
    (doUmalloc umMagic t pid.toNat ut size.toNat s.heap).map fun r =>
      ⟨r.2, if r.1 = null then s.live else r.1 :: s.live⟩
  | .ufree ut ptr =>
    (doUfree umMagic t ut ptr.toNat s.heap).map fun h =>
      ⟨h, if HasHeap ut then s.live.erase ptr.toNat else s.live⟩

/-- Only live pointers are freed. -/
def St.Allows (s : St) : Op → Prop
  | .ufree _ ptr => ptr.toNat ∈ s.live
  | .umalloc .. => True

/-- One call. -/
def St.Step (umMagic : Nat) (t : UserHeap) (s : St) (op : Op) (s' : St) : Prop :=
  s.Allows op ∧ s.exec umMagic t op = some s'

def St.init (umMagic : Nat) (t : UserHeap) (memory : Heap) : St :=
  ⟨umallocInit umMagic t memory, []⟩

variable {umMagic n : Nat} {t : UserHeap} {h : Heap} {b c : Block} {pre post bs : List Block}

/-- The headers in `h` tile the heap as `bs`. -/
def Layout (umMagic : Nat) (t : UserHeap) (h : Heap) (bs : List Block) : Prop :=
  LaidTo umMagic h t.stop t.heapStart bs

/-- The address of the header behind the blocks `pre`. -/
def headerOf (t : UserHeap) (pre : List Block) : Nat := t.heapStart + extent Block.len pre

/-- The first of the smallest holes for `n` bytes. -/
abbrev BestHole (n : Nat) (pre : List Block) (b : Block) (post : List Block) : Prop :=
  IsFirstLeast (Fits n) Block.size pre b post

theorem UserHeap.stop_lt (t : UserHeap) : t.stop < 2 ^ 32 := by
  have hbelow := t.below
  unfold pageSize at hbelow
  unfold UserHeap.stop
  omega

theorem UserHeap.walkFuel_gt (t : UserHeap) : (t.stop - t.heapStart) / 16 < t.walkFuel := by
  unfold UserHeap.stop UserHeap.walkFuel sizeofMemBlock
  rw [Nat.add_sub_cancel_left]
  exact Nat.lt_succ_self _

theorem headerOf_ne_null (t : UserHeap) (pre : List Block) : headerOf t pre ≠ null := by
  have hpos := t.start_pos
  unfold headerOf null
  omega

/-! ## `do_umalloc` -/

/-- What `best` stands for when the loop has seen the blocks `done`. A hole of the very size
would have ended it. -/
def Candidate (t : UserHeap) (n : Nat) (done : List Block) (best : Nat) : Prop :=
  (best = null ∧ ∀ c ∈ done, ¬Fits n c) ∨
    ∃ pre b post, done = pre ++ b :: post ∧ best = headerOf t pre ∧ BestHole n pre b post ∧
      n < b.size

theorem Candidate.lt {done : List Block} {best : Nat} (hc : Candidate t n done best) :
    ∀ c ∈ done, Fits n c → n < c.size := by
  intro c hmem hfit
  rcases hc with ⟨-, hnone⟩ | ⟨pre, b, post, rfl, -, hbest, hlt⟩
  · exact absurd hfit (hnone c hmem)
  · exact Nat.lt_of_lt_of_le hlt (hbest.le hmem hfit)

/-- A block that is too small, or not free, changes nothing. -/
theorem Candidate.skip {done : List Block} {best : Nat} (hc : Candidate t n done best)
    (hnot : ¬Fits n c) : Candidate t n (done ++ [c]) best := by
  rcases hc with ⟨rfl, hnone⟩ | ⟨pre, b, post, rfl, rfl, hbest, hlt⟩
  · refine Or.inl ⟨rfl, ?_⟩
    intro d hd
    rcases List.mem_append.mp hd with hd | hd
    · exact hnone d hd
    · exact List.mem_singleton.mp hd ▸ hnot
  · exact Or.inr ⟨pre, b, post ++ [c], by simp, rfl,
      hbest.keep fun hfit => absurd hfit hnot, hlt⟩

theorem Candidate.first {done : List Block} (hc : Candidate t n done null) (hfit : Fits n c)
    (hlt : n < c.size) : Candidate t n (done ++ [c]) (headerOf t done) := by
  rcases hc with ⟨-, hnone⟩ | ⟨pre, -, -, -, hnull, -⟩
  · exact Or.inr ⟨done, c, [], rfl, rfl, .first hnone hfit, hlt⟩
  · exact absurd hnull.symm (headerOf_ne_null t pre)

/-- A larger hole replaces the candidate only if it is smaller than that. -/
theorem Candidate.compare {done : List Block} {best : Nat} (hc : Candidate t n done best)
    (hne : best ≠ null) (hl : Layout umMagic t h (done ++ bs)) (hfit : Fits n c)
    (hlt : n < c.size) :
    Candidate t n (done ++ [c])
      (if c.size < (h best).size then headerOf t done else best) := by
  rcases hc with ⟨rfl, -⟩ | ⟨pre, b, post, rfl, rfl, hbest, hb⟩
  · exact absurd rfl hne
  · rw [List.append_assoc, List.cons_append] at hl
    have hsize : (h (headerOf t pre)).size = b.size := hl.describes.size
    rw [hsize]
    split
    · next hless =>
      exact Or.inr ⟨pre ++ b :: post, c, [], rfl, rfl, hbest.give hfit hless, hlt⟩
    · next hge =>
      exact Or.inr ⟨pre, b, post ++ [c], by simp, rfl,
        hbest.keep fun _ => Nat.le_of_not_lt hge, hb⟩

/-- The loop ends. It finds the first of the smallest holes that are large enough, or there is
no such hole. -/
theorem findBest_spec {done : List Block} {best fuel : Nat}
    (hl : Layout umMagic t h (done ++ bs)) (hc : Candidate t n done best)
    (hfuel : bs.length < fuel) :
    (∃ pre b post, done ++ bs = pre ++ b :: post ∧ BestHole n pre b post ∧
        findBest h t.stop n fuel (headerOf t done) best = some (headerOf t pre)) ∨
      (∀ c ∈ done ++ bs, ¬Fits n c) ∧
        findBest h t.stop n fuel (headerOf t done) best = some null := by
  induction bs generalizing done best fuel with
  | nil =>
    obtain ⟨fuel, rfl⟩ : ∃ k, fuel = k + 1 := ⟨fuel - 1, by simp at hfuel; omega⟩
    have hend : ¬headerOf t done < t.stop := by
      have hcovers := hl.covers
      rw [List.append_nil] at hcovers
      exact Nat.not_lt.mpr (Nat.le_of_eq hcovers.symm)
    rw [findBest, if_neg hend, List.append_nil]
    rcases hc with ⟨rfl, hnone⟩ | ⟨pre, b, post, rfl, rfl, hbest, -⟩
    · exact Or.inr ⟨hnone, rfl⟩
    · exact Or.inl ⟨pre, b, post, rfl, hbest, rfl⟩
  | cons c bs ih =>
    obtain ⟨fuel, rfl⟩ : ∃ k, fuel = k + 1 := ⟨fuel - 1, by simp at hfuel; omega⟩
    have hd : Describes umMagic h (headerOf t done) c := hl.describes
    have hbound := hl.bound
    have hlt : headerOf t done < t.stop := by
      unfold headerOf
      omega
    have hnext : nextBlock h (headerOf t done) = headerOf t (done ++ [c]) := by
      rw [headerOf, hl.nextBlock_at t.stop_lt]
      simp [headerOf, Nat.add_assoc]
    have hl' : Layout umMagic t h ((done ++ [c]) ++ bs) := by simpa using hl
    -- What the rest of the walk finds when it goes on with the candidate `best'`.
    have hstep : ∀ best', Candidate t n (done ++ [c]) best' →
        (∃ pre b post, done ++ c :: bs = pre ++ b :: post ∧ BestHole n pre b post ∧
            findBest h t.stop n fuel (nextBlock h (headerOf t done)) best' =
              some (headerOf t pre)) ∨
          (∀ d ∈ done ++ c :: bs, ¬Fits n d) ∧
            findBest h t.stop n fuel (nextBlock h (headerOf t done)) best' = some null := by
      intro best' hc'
      rw [hnext]
      simpa using ih hl' hc' (by simpa using hfuel)
    rw [findBest, if_pos hlt]
    by_cases hfree : (h (headerOf t done)).flags = umFree
    · have hcfree : c.alloc = false := hd.isFree_iff.mp hfree
      rw [if_pos hfree, hd.size]
      by_cases hexact : c.size = n
      · refine Or.inl ⟨done, c, bs, rfl, ⟨⟨hcfree, hexact.ge⟩, ?_, ?_⟩, if_pos hexact⟩
        · intro d hmem hfit
          rw [hexact]
          exact hc.lt d hmem hfit
        · intro d _ hfit
          rw [hexact]
          exact hfit.2
      · rw [if_neg hexact]
        by_cases hlarge : n < c.size
        · have hfit : Fits n c := ⟨hcfree, Nat.le_of_lt hlarge⟩
          rw [if_pos hlarge]
          by_cases hnull : best = null
          · rw [if_pos hnull]
            subst hnull
            exact hstep _ (hc.first hfit hlarge)
          · have hcompare := hc.compare hnull hl hfit hlarge
            rw [if_neg hnull]
            split at hcompare
            · next hless =>
              rw [if_pos hless]
              exact hstep _ hcompare
            · next hge =>
              rw [if_neg hge]
              exact hstep _ hcompare
        · rw [if_neg hlarge]
          exact hstep _ (hc.skip fun hfit => hexact (Nat.le_antisymm
            (Nat.le_of_not_lt hlarge) hfit.2))
    · rw [if_neg hfree]
      exact hstep _ (hc.skip fun hfit => hfree (hd.isFree_iff.mpr hfit.1))

theorem allocHole_eq {pid best : Nat} (hne : wrap (best + sizeofMemBlock + n) ≠ best) :
    allocHole umMagic pid n h best = takeHeaders umMagic pid n h best := by
  unfold allocHole takeHeaders
  dsimp only
  rw [Function.update_self]
  by_cases hn : (h best).size = n
  · simp [hn]
  · rw [if_neg hn, if_neg hn, Function.update_of_ne hne.symm, Function.update_self,
      Function.update_comm hne.symm, Function.update_idem]

/-- Taking a hole touches its own header and that of the rest only. -/
theorem takeHeaders_of_outside {owner x a : Nat} (hx : a ≠ x)
    (hrest : (h x).size = n ∨ a ≠ wrap (x + sizeofMemBlock + n)) :
    takeHeaders umMagic owner n h x a = h a := by
  unfold takeHeaders
  split
  · rw [Function.update_of_ne hx]
  · next hn =>
    rw [Function.update_of_ne hx, Function.update_of_ne (hrest.resolve_left hn)]

/-- A nonzero request of a task that has a heap. It is refused when no hole is large enough;
otherwise the first of the smallest ones is taken, and all that lies outside of it stays. -/
theorem doUmalloc_spec {size : Nat} {ut : Option Task} (hl : Layout umMagic t h bs)
    (hut : HasHeap ut) (hzero : size ≠ 0) (hsize : size < 2 ^ 32) (pid : Nat) :
    ((∀ c ∈ bs, ¬Fits (roundSize size) c) ∧
        doUmalloc umMagic t pid ut size h = some (null, h)) ∨
      ∃ pre b post h', bs = pre ++ b :: post ∧ BestHole (roundSize size) pre b post ∧
        doUmalloc umMagic t pid ut size h = some (headerOf t pre + sizeofMemBlock, h') ∧
        Layout umMagic t h' (pre ++ takeHole b (roundSize size) ++ post) ∧
        ∀ a, a < headerOf t pre ∨ headerOf t pre + b.len ≤ a → h' a = h a := by
  obtain ⟨ut, rfl⟩ : ∃ w, ut = some w := by
    cases ut with
    | none => cases hut
    | some ut => exact ⟨ut, rfl⟩
  obtain ⟨father, hfather⟩ : ∃ w, getThreadFather ut = some w := Option.isSome_iff_exists.mp hut
  have hstart : t.heapStart ≠ null := Nat.pos_iff_ne_zero.mp t.start_pos
  have hcount := hl.length_le
  have hfuel := t.walkFuel_gt
  unfold doUmalloc
  simp only [if_neg hzero, hfather, if_neg hstart]
  have hstart' : t.heapStart = headerOf t [] := rfl
  rw [hstart']
  have hwalk : bs.length < t.walkFuel := by omega
  have hnone : Candidate t (roundSize size) [] null :=
    Or.inl ⟨rfl, fun c hc => absurd hc List.not_mem_nil⟩
  rcases findBest_spec hl hnone hwalk with
    ⟨pre, b, post, hsplit, hbest, hfound⟩ | ⟨hnone, hfound⟩
  · obtain rfl : bs = pre ++ b :: post := hsplit
    have hfit : Fits (roundSize size) b := hbest.admissible
    have hle := hfit.2
    have hbound := hl.bound
    have hlen := b.len_eq
    have hstop := t.stop_lt
    have hd : Describes umMagic h (headerOf t pre) b := hl.describes
    have hptr : wrap (headerOf t pre + sizeofMemBlock) = headerOf t pre + sizeofMemBlock := by
      unfold headerOf sizeofMemBlock
      exact wrap_of_lt (by omega)
    have hne : wrap (headerOf t pre + sizeofMemBlock + roundSize size) ≠ headerOf t pre := by
      unfold headerOf sizeofMemBlock
      rw [wrap_of_lt (by omega)]
      omega
    have h16 := roundSize_dvd hsize
    have hb16 : 16 ∣ b.size := hl.aligned b (by simp)
    rw [hfound]
    dsimp only
    rw [if_neg (headerOf_ne_null t pre), hptr, allocHole_eq hne]
    refine Or.inr ⟨pre, b, post, _, rfl, hbest, rfl, LaidTo.take hl hstop hfit h16 pid, ?_⟩
    intro a ha
    apply takeHeaders_of_outside
    · omega
    · by_cases hn : (h (headerOf t pre)).size = roundSize size
      · exact Or.inl hn
      · rw [hd.size] at hn
        refine Or.inr ?_
        unfold sizeofMemBlock
        rw [wrap_of_lt (by unfold headerOf; omega)]
        omega
  · rw [hfound]
    exact Or.inl ⟨hnone, by simp⟩

/-! ## `do_ufree` -/

/-- `do_ufree` of a live pointer returns, and frees the block. -/
theorem doUfree_spec {ut : Option Task} (hl : Layout umMagic t h (pre ++ b :: post))
    (halloc : b.alloc = true) (hut : HasHeap ut) :
    ∃ h', doUfree umMagic t ut (headerOf t pre + sizeofMemBlock) h = some h' ∧
      Layout umMagic t h' (freeAt pre b post) := by
  obtain ⟨ut, rfl⟩ : ∃ w, ut = some w := by
    cases ut with
    | none => cases hut
    | some ut => exact ⟨ut, rfl⟩
  obtain ⟨father, hfather⟩ : ∃ w, getThreadFather ut = some w := Option.isSome_iff_exists.mp hut
  have hd : Describes umMagic h (headerOf t pre) b := hl.describes
  have hbound := hl.bound
  have hstop := t.stop_lt
  have hnull : headerOf t pre + sizeofMemBlock ≠ null := by
    unfold null sizeofMemBlock
    omega
  have hheader : sub32 (headerOf t pre + sizeofMemBlock) sizeofMemBlock = headerOf t pre := by
    unfold headerOf sizeofMemBlock
    rw [sub32_of_le (by omega) (by omega), Nat.add_sub_cancel]
  have hmagic : ¬(h (headerOf t pre)).magic ≠ umMagic := not_not.mpr hd.magic
  have hflags : ¬(h (headerOf t pre)).flags ≠ umAlloc := by
    rw [hd.flags, halloc]
    exact not_not.mpr rfl
  obtain ⟨pre', c, post', h', hmerge, -, -, -, hlast, heq⟩ :=
    LaidTo.merge (LaidTo.freeHeader hl) hstop rfl t.walkFuel_gt
  have hresult := hlast.deallocate t.below
  rw [heq] at hresult
  refine ⟨_, ?_, hresult⟩
  unfold doUfree
  simp only [if_neg hnull, hfather, hheader, if_neg hmagic, if_neg hflags]
  change (joinPrevAt t.heapStart t.walkFuel
    (joinNextAt t.stop (freeHeader h (headerOf t pre)) (headerOf t pre)) _).map _ = _
  unfold headerOf
  rw [hmerge]
  rfl

/-! ## Runs -/

/-- The pointers to the allocated blocks. -/
def pointers (t : UserHeap) (bs : List Block) : List Nat := (owned t.heapStart bs).map Prod.fst

/-- The headers spell out blocks that tile the heap; no two neighbours are free; the live
pointers are those of the allocated blocks. -/
structure Inv (umMagic : Nat) (t : UserHeap) (s : St) (bs : List Block) : Prop where
  layout : Layout umMagic t s.heap bs
  coalesced : Coalesced bs
  owners : s.live.Perm (pointers t bs)

variable {s s' : St}

theorem Inv.init (umMagic : Nat) (t : UserHeap) (memory : Heap) :
    Inv umMagic t (St.init umMagic t memory) [⟨t.heapSize - sizeofMemBlock, false⟩] where
  layout := by
    have hroom := t.room
    have hbelow := t.below
    have h16 := t.aligned
    unfold pageSize at hbelow
    have hrest : sub32 t.heapSize sizeofMemBlock = t.heapSize - sizeofMemBlock :=
      sub32_of_le hroom (by omega)
    unfold sizeofMemBlock at hrest hroom ⊢
    constructor
    · intro x b hmem
      obtain ⟨rfl, rfl⟩ : x = t.heapStart ∧ b = ⟨t.heapSize - 16, false⟩ := by simpa using hmem
      constructor <;> simp [St.init, umallocInit, hrest, sizeofMemBlock]
    · simp only [extent_cons, extent_nil, Block.len_eq, UserHeap.stop]
      omega
    · intro b hb
      obtain rfl := List.mem_singleton.mp hb
      change 16 ∣ t.heapSize - 16
      omega
  coalesced := by simp [Coalesced]
  owners := by simp [St.init, pointers]

theorem Inv.allocated (hi : Inv umMagic t s bs) {ptr : Nat} (hptr : ptr ∈ s.live) :
    ∃ pre b post, bs = pre ++ b :: post ∧ b.alloc = true ∧
      ptr = headerOf t pre + sizeofMemBlock := by
  obtain ⟨⟨x, n⟩, hmem, rfl⟩ := List.mem_map.mp (hi.owners.subset hptr)
  obtain ⟨pre, b, post, rfl, halloc, -, hx⟩ := mem_owned_iff.mp hmem
  exact ⟨pre, b, post, rfl, halloc, hx⟩

/-- A call for a task without a heap, and a request for nothing, change nothing. -/
theorem doUmalloc_refused {size pid : Nat} {ut : Option Task} (hno : ¬HasHeap ut ∨ size = 0) :
    doUmalloc umMagic t pid ut size h = some (null, h) := by
  unfold doUmalloc
  cases ut with
  | none => rfl
  | some ut =>
    dsimp only
    by_cases hzero : size = 0
    · rw [if_pos hzero]
    · rw [if_neg hzero]
      cases hfather : getThreadFather ut with
      | none => rfl
      | some father =>
        exact absurd (congrArg Option.isSome hfather) (hno.resolve_right hzero)

theorem doUfree_refused {ptr : Nat} {ut : Option Task} (hno : ¬HasHeap ut) :
    doUfree umMagic t ut ptr h = some h := by
  unfold doUfree
  cases ut with
  | none => rfl
  | some ut =>
    dsimp only
    split
    · rfl
    · cases hfather : getThreadFather ut with
      | none => rfl
      | some father => exact absurd (congrArg Option.isSome hfather) hno

theorem pointers_takeHole (hl : Layout umMagic t h (pre ++ b :: post)) (hfit : Fits n b)
    (h16 : 16 ∣ n) : (pointers t (pre ++ takeHole b n ++ post)).Perm
      ((headerOf t pre + sizeofMemBlock) :: pointers t (pre ++ b :: post)) := by
  unfold pointers
  rw [owned_takeHole hfit.2 (hl.aligned b (by simp)) h16]
  simp [hfit.1, headerOf, sizeofMemBlock]

theorem pointers_freeAt (halloc : b.alloc = true) :
    ((pointers t (pre ++ b :: post)).erase (headerOf t pre + sizeofMemBlock)).Perm
      (pointers t (freeAt pre b post)) := by
  unfold pointers
  rw [owned_freeAt]
  simp only [owned_append, owned_cons, halloc, if_true, List.singleton_append, List.map_append,
    List.map_cons]
  apply (List.perm_middle.erase _).trans
  rw [headerOf, sizeofMemBlock, List.erase_cons_head]

theorem Inv.umalloc (hi : Inv umMagic t s bs) {pid size : UInt32} {ut : Option Task}
    (hstep : s.exec umMagic t (.umalloc pid ut size) = some s') :
    ∃ cs, Inv umMagic t s' cs := by
  simp only [St.exec] at hstep
  by_cases hno : ¬HasHeap ut ∨ size.toNat = 0
  · rw [doUmalloc_refused hno] at hstep
    obtain rfl := Option.some.inj hstep
    exact ⟨bs, hi.layout, hi.coalesced, hi.owners⟩
  · obtain ⟨hut, hzero⟩ := not_or.mp hno
    rcases doUmalloc_spec hi.layout (not_not.mp hut) hzero size.toNat_lt pid.toNat with
      ⟨-, hret⟩ | ⟨pre, b, post, h', rfl, hbest, hret, hl', -⟩
    · rw [hret] at hstep
      obtain rfl := Option.some.inj hstep
      exact ⟨bs, hi.layout, hi.coalesced, hi.owners⟩
    · have hnull : headerOf t pre + sizeofMemBlock ≠ null := by
        unfold null sizeofMemBlock
        omega
      rw [hret] at hstep
      obtain rfl := Option.some.inj hstep
      have hfit : Fits (roundSize size.toNat) b := hbest.admissible
      refine ⟨_, hl', hi.coalesced.takeHole hfit.1, ?_⟩
      dsimp only
      rw [if_neg hnull]
      exact (hi.owners.cons _).trans
        (pointers_takeHole hi.layout hfit (roundSize_dvd size.toNat_lt)).symm

theorem Inv.ufree (hi : Inv umMagic t s bs) {ptr : UInt32} {ut : Option Task}
    (hlive : ptr.toNat ∈ s.live) (hstep : s.exec umMagic t (.ufree ut ptr) = some s') :
    ∃ cs, Inv umMagic t s' cs := by
  simp only [St.exec] at hstep
  by_cases hut : HasHeap ut
  · obtain ⟨pre, b, post, rfl, halloc, hptr⟩ := hi.allocated hlive
    obtain ⟨h', hret, hl'⟩ := doUfree_spec hi.layout halloc hut
    rw [hptr, hret] at hstep
    obtain rfl := Option.some.inj hstep
    refine ⟨_, hl', hi.coalesced.freeAt halloc, ?_⟩
    dsimp only
    rw [if_pos hut]
    exact (hi.owners.erase _).trans (pointers_freeAt halloc)
  · rw [doUfree_refused hut] at hstep
    obtain rfl := Option.some.inj hstep
    refine ⟨bs, hi.layout, hi.coalesced, ?_⟩
    dsimp only
    rw [if_neg hut]
    exact hi.owners

theorem inv_of_run {memory : Heap} {ops : List Op}
    (hrun : Run (St.Step umMagic t) (St.init umMagic t memory) ops s) :
    ∃ bs, Inv umMagic t s bs := by
  apply hrun.invariant (I := fun s => ∃ bs, Inv umMagic t s bs)
  · rintro s op s' ⟨bs, hi⟩ ⟨hallows, hexec⟩
    cases op with
    | umalloc pid ut size => exact hi.umalloc hexec
    | ufree ut ptr => exact hi.ufree hallows hexec
  · exact ⟨_, Inv.init umMagic t memory⟩

/-- What the calls do to a heap that consists of the blocks `bs`. -/
structure BestFit (umMagic : Nat) (t : UserHeap) (s : St) (bs : List Block) : Prop where
  layout : Layout umMagic t s.heap bs
  owners : s.live.Perm (pointers t bs)
  /-- Without a hole for the rounded request there is no pointer. -/
  null_iff : ∀ pid ut size, HasHeap ut → size ≠ 0 → size < 2 ^ 32 - sizeofMemBlock →
    ((∃ h', doUmalloc umMagic t pid ut size s.heap = some (null, h')) ↔
      ∀ b ∈ bs, ¬Fits (roundSize size) b)
  /-- Otherwise the first of the smallest holes is taken. It is split if it is larger than the
  request, which leaves room for a header, and nothing else changes. -/
  takes : ∀ pid ut size, HasHeap ut → size ≠ 0 → size < 2 ^ 32 - sizeofMemBlock →
    (∃ b ∈ bs, Fits (roundSize size) b) →
      ∃ pre b post h', bs = pre ++ b :: post ∧ BestHole (roundSize size) pre b post ∧
        size < roundSize size ∧
        (b.size = roundSize size ∨ roundSize size + sizeofMemBlock ≤ b.size) ∧
        doUmalloc umMagic t pid ut size s.heap = some (headerOf t pre + sizeofMemBlock, h') ∧
        Layout umMagic t h' (pre ++ takeHole b (roundSize size) ++ post) ∧
        ∀ a, a < headerOf t pre ∨ headerOf t pre + b.len ≤ a → h' a = s.heap a
  /-- A request for nothing, or of a task that has no heap, changes nothing. -/
  refuses : ∀ pid ut size, ¬HasHeap ut ∨ size = 0 →
    doUmalloc umMagic t pid ut size s.heap = some (null, s.heap)
  /-- A live block that is freed leaves no two free neighbours. -/
  frees : ∀ ut ptr, HasHeap ut → ptr ∈ s.live →
    ∃ pre b post h', bs = pre ++ b :: post ∧ ptr = headerOf t pre + sizeofMemBlock ∧
      doUfree umMagic t ut ptr s.heap = some h' ∧
      Layout umMagic t h' (freeAt pre b post) ∧ Coalesced (freeAt pre b post)

theorem Inv.bestFit (hi : Inv umMagic t s bs) : BestFit umMagic t s bs where
  layout := hi.layout
  owners := hi.owners
  null_iff pid ut size hut hzero hsize := by
    rcases doUmalloc_spec hi.layout hut hzero (by omega) pid with
      ⟨hnone, hret⟩ | ⟨pre, b, post, h', rfl, hbest, hret, -⟩
    · exact ⟨fun _ => hnone, fun _ => ⟨_, hret⟩⟩
    · constructor
      · rintro ⟨h'', hnull⟩
        rw [hret] at hnull
        have hptr := (Prod.mk.inj (Option.some.inj hnull)).1
        unfold null sizeofMemBlock at hptr
        omega
      · intro hnone
        exact absurd hbest.admissible (hnone b (by simp))
  takes pid ut size hut hzero hsize hsome := by
    rcases doUmalloc_spec hi.layout hut hzero (by omega) pid with
      ⟨hnone, -⟩ | ⟨pre, b, post, h', rfl, hbest, hret, hl', hsame⟩
    · obtain ⟨b, hb, hfit⟩ := hsome
      exact absurd hfit (hnone b hb)
    · have hfit : Fits (roundSize size) b := hbest.admissible
      have hle := hfit.2
      have h16 : 16 ∣ roundSize size := roundSize_dvd (by omega)
      have hb16 : 16 ∣ b.size := hi.layout.aligned b (by simp)
      refine ⟨pre, b, post, h', rfl, hbest, (lt_roundSize hsize).1, ?_, hret, hl', hsame⟩
      unfold sizeofMemBlock
      omega
  refuses _ _ _ hno := doUmalloc_refused hno
  frees ut ptr hut hlive := by
    obtain ⟨pre, b, post, rfl, halloc, rfl⟩ := hi.allocated hlive
    obtain ⟨h', hret, hl'⟩ := doUfree_spec hi.layout halloc hut
    exact ⟨pre, b, post, h', rfl, rfl, hret, hl', hi.coalesced.freeAt halloc⟩

/-- In every state of a run the heap is a list of blocks on which the calls work as a best-fit
allocator. -/
theorem bestFit_of_run (umMagic : Nat) (t : UserHeap) (memory : Heap) (ops : List Op) (s : St)
    (hrun : Run (St.Step umMagic t) (St.init umMagic t memory) ops s) :
    ∃ bs, BestFit umMagic t s bs := by
  obtain ⟨bs, hi⟩ := inv_of_run hrun
  exact ⟨bs, hi.bestFit⟩

theorem taskHeap_below : 0x40000000 + 0x40000000 + pageSize ≤ 2 ^ 32 := by decide

theorem taskHeap_room : sizeofMemBlock ≤ 0x40000000 := by decide

/-- The heap that `create_process` sets up. -/
def taskHeap : UserHeap where
  heapStart := 0x40000000
  heapSize := 0x40000000
  start_pos := Nat.succ_pos _
  below := taskHeap_below
  room := taskHeap_room
  aligned := ⟨0x4000000, rfl⟩

/-- A thread of a process allocates 100 bytes. -/
theorem thread_allocates : ∃ s bs, Run (St.Step 1 taskHeap)
    (St.init 1 taskHeap fun _ => clearBlock) [.umalloc 7 (some (.thread (some .process))) 100] s ∧
      BestFit 1 taskHeap s bs := by
  have hi := Inv.init 1 taskHeap fun _ => clearBlock
  have hut : HasHeap (some (.thread (some .process))) := rfl
  obtain ⟨s, hs⟩ : ∃ s, (St.init 1 taskHeap fun _ => clearBlock).exec 1 taskHeap
      (.umalloc 7 (some (.thread (some .process))) 100) = some s := by
    simp only [St.exec]
    rcases doUmalloc_spec hi.layout hut (by decide : (100 : UInt32).toNat ≠ 0) (by decide)
      (7 : UInt32).toNat with ⟨-, hret⟩ | ⟨pre, b, post, h', -, -, hret, -⟩
    · exact ⟨_, by rw [hret, Option.map_some]⟩
    · exact ⟨_, by rw [hret, Option.map_some]⟩
  have hrun : Run (St.Step 1 taskHeap) (St.init 1 taskHeap fun _ => clearBlock)
      [.umalloc 7 (some (.thread (some .process))) 100] s := .single ⟨trivial, hs⟩
  obtain ⟨bs, hbest⟩ := bestFit_of_run _ _ _ _ _ hrun
  exact ⟨s, bs, hrun, hbest⟩

/-- A request for no bytes gets none, however large the holes are. -/
theorem zero_request_refused : ∃ s, Run (St.Step 1 taskHeap)
    (St.init 1 taskHeap fun _ => clearBlock) [] s ∧
      Layout 1 taskHeap s.heap [⟨0x3FFFFFF0, false⟩] ∧
      0 < roundSize 0 ∧ Fits (roundSize 0) ⟨0x3FFFFFF0, false⟩ ∧
      doUmalloc 1 taskHeap 7 (some .process) 0 s.heap = some (null, s.heap) := by
  refine ⟨_, .nil _, (Inv.init 1 taskHeap fun _ => clearBlock).layout, ?_, ⟨rfl, ?_⟩,
    doUmalloc_refused (Or.inr rfl)⟩
  · decide
  · decide

end OsdevArchive.Minirighi.Umalloc
