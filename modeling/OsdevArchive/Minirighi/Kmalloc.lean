import Mathlib.Logic.Function.Basic
import OsdevArchive.Lib.Tiling
import OsdevArchive.Minirighi.Machine

/-!
The kernel heap allocator of minirighi (`kernel/kmalloc.c`), function by
function. Kernel memory is the header that is read at each address. The walk
over the headers is a loop whose next address comes from memory, so each walk
carries a bound on the number of headers it visits and gives `none` when the
bound is exhausted; the layout theorems show that it never is on a heap that
the headers tile.

`mMagic` is the address of the string literal `"$MB$"`, which the linker
chooses.

An abstract heap is the list of its blocks in address order. `Layout h bs` says
that the headers in memory `h` spell out exactly the blocks `bs` and that these
tile the heap area. Every function of the allocator maps a layout to the layout
of the abstract operation: `takeHole` for `kmalloc`, `freeAt` for `kfree`, `cut`
for the carve of `kmemalign`.
-/

namespace OsdevArchive.Minirighi.Kmalloc

open OsdevArchive.Lib.Tiling

/-- `mem_block_t`, the header in front of every block. -/
structure MemBlock where
  magic : Nat
  flags : Nat
  size : Nat
  owner : Nat
  deriving DecidableEq

def sizeofMemBlock : Nat := 16

def mFree : Nat := 0

def mAlloc : Nat := 1

def gfpKernel : Nat := 1

/-- Kernel memory: the header found at an address. -/
abbrev Heap := Nat → MemBlock

/-- What a freshly mapped page holds: `page_fault_handler` clears it. -/
def clearBlock : MemBlock := ⟨0, 0, 0, 0⟩

/-- `(void *)p + p->size + sizeof(mem_block_t)`. -/
def nextBlock (h : Heap) (p : Nat) : Nat := wrap (p + (h p).size + sizeofMemBlock)

/-- More headers than a heap of `kHeapEnd - kHeapStart` bytes can hold. -/
def walkFuel : Nat := (kHeapEnd - kHeapStart) / sizeofMemBlock + 1

/-- The search for the first free block that is large enough. The result is
`null` when the walk passes the end of the heap. -/
def findFree (h : Heap) (size : Nat) : Nat → Nat → Option Nat
  | 0, _ => none
  | fuel + 1, p =>
      if p < kHeapEnd then
        if (h p).flags = mFree ∧ size ≤ (h p).size then some p
        else findFree h size fuel (nextBlock h p)
      else some null

/-- The search of `kfree` for the block in front of `p`. It has no end test. -/
def findPrev (h : Heap) (p : Nat) : Nat → Nat → Option Nat
  | 0, _ => none
  | fuel + 1, p2 =>
      if nextBlock h p2 = p then some p2 else findPrev h p fuel (nextBlock h p2)

/-- `( size & -(sizeof(mem_block_t)) ) + sizeof(mem_block_t)`. -/
def roundSize (size : Nat) : Nat :=
  wrap ((size &&& sub32 0 sizeofMemBlock) + sizeofMemBlock)

section

variable (mMagic : Nat)

def kmallocInit (h : Heap) : Heap :=
  Function.update h kHeapStart
    ⟨mMagic, mFree, sub32 (sub32 kHeapEnd kHeapStart) sizeofMemBlock, null⟩

/-- Split the hole `best`: its tail becomes a free block of its own. -/
def splitHole (h : Heap) (best size : Nat) : Heap :=
  let p := wrap (best + sizeofMemBlock + size)
  let rest := sub32 (sub32 (h best).size size) sizeofMemBlock
  let h := Function.update h p ⟨mMagic, mFree, rest, null⟩
  Function.update h best { h best with size := size }

/-- `kmalloc`, called by the task `pid`. The result is the pointer (`null` on
failure) and the memory; `none` stands for a walk that does not end. -/
def kmalloc (pid size mflag : Nat) (h : Heap) : Option (Nat × Heap) :=
  if size = 0 then some (null, h)
  else
    let size := roundSize size
    match findFree h size walkFuel kHeapStart with
    | none => none
    | some best =>
        if best = null then some (null, h)
        else
          let h := if (h best).size ≠ size then splitHole mMagic h best size else h
          let owner := if mflag = gfpKernel then pid else null
          let h := Function.update h best
            { h best with magic := mMagic, flags := mAlloc, owner := owner }
          some (wrap (best + sizeofMemBlock), h)

/-- `deallocate`: the frames of the pages that lie inside the payload of the
free block `ptr` are deleted, so those pages read as fresh ones from then on. -/
def deallocate (h : Heap) (ptr : Nat) : Heap :=
  let start := pageAlignUp (wrap (ptr + sizeofMemBlock))
  let stop := pageAlign (wrap (ptr + sizeofMemBlock + (h ptr).size))
  fun a => if start ≤ a ∧ a < stop then clearBlock else h a

/-- Merge the free block `p` with its successor if that one is free. -/
def mergeNext (h : Heap) (p : Nat) : Heap :=
  let p2 := nextBlock h p
  if p2 < kHeapEnd ∧ (h p2).flags = mFree then
    let size := wrap ((h p).size + wrap ((h p2).size + sizeofMemBlock))
    let h := Function.update h p { h p with size := size }
    Function.update h p2 { h p2 with magic := null }
  else h

/-- Merge the free block `p` with its predecessor if that one is free. The
result names the block that holds the freed memory. -/
def mergePrev (h : Heap) (p : Nat) : Option (Nat × Heap) :=
  if p = kHeapStart then some (p, h)
  else
    match findPrev h p walkFuel kHeapStart with
    | none => none
    | some p2 =>
        if (h p2).flags = mFree then
          let size := wrap ((h p2).size + wrap ((h p).size + sizeofMemBlock))
          let h := Function.update h p2 { h p2 with size := size }
          some (p2, Function.update h p { h p with magic := null })
        else some (p, h)

def kfree (ptr : Nat) (h : Heap) : Option Heap :=
  if ptr = null then some h
  else
    let p := sub32 ptr sizeofMemBlock
    if (h p).magic ≠ mMagic ∨ (h p).flags ≠ mAlloc then some h
    else
      let h := Function.update h p { h p with flags := mFree, owner := null }
      (mergePrev (mergeNext h p) p).map fun (p, h) => deallocate h p

/-- `mem_sizeof`. -/
def memSizeof (h : Heap) (ptr : Nat) : Nat :=
  let p := sub32 ptr sizeofMemBlock
  if (h p).magic = mMagic ∧ (h p).flags = mAlloc then (h p).size else null

/-- The carve of `kmemalign`: a second header in front of the first aligned
address behind the payload start `p`, which shortens the block in front of it.
The result is the new header's address. -/
def carve (alignment p : Nat) (h : Heap) : Nat × Heap :=
  let q := sub32 p sizeofMemBlock
  let p2 := sub32 (alignUp (wrap (p + 2 * sizeofMemBlock)) alignment) sizeofMemBlock
  let h := Function.update h p2 { h p2 with magic := mMagic }
  let h := Function.update h p2 { h p2 with flags := (h q).flags }
  let h := Function.update h p2 { h p2 with owner := (h q).owner }
  let used := sub32 (wrap (p2 + sizeofMemBlock)) p
  let h := Function.update h p2 { h p2 with size := sub32 (memSizeof mMagic h p) used }
  (p2, Function.update h q { h q with size := sub32 p2 p })

def kmemalign (pid alignment size flags : Nat) (h : Heap) : Option (Nat × Heap) :=
  if size = 0 then some (null, h)
  else
    match kmalloc mMagic pid (wrap (size + alignment + 2 * sizeofMemBlock)) flags h with
    | none => none
    | some (p, h) =>
        if p = null then some (null, h)
        else if alignment = 0 then some (p, h)
        else if p % alignment ≠ 0 then
          let (p2, h) := carve mMagic alignment p h
          (kfree mMagic p h).map fun h => (wrap (p2 + sizeofMemBlock), h)
        else some (p, h)

end

/-! ## Runs of the allocator -/

/-- The calls of the rest of the kernel. Arguments are 32-bit words. -/
inductive Op where
  | kmalloc (pid size mflag : UInt32)
  | kmemalign (pid alignment size flags : UInt32)
  | kfree (ptr : UInt32)
  deriving DecidableEq

/-- A live allocation: the pointer and the call that returned it. -/
structure Live where
  ptr : Nat
  op : Op
  deriving DecidableEq

structure St where
  heap : Heap
  live : List Live

/-- The allocation made by `op`, unless it failed. -/
def St.record (s : St) (op : Op) (result : Nat × Heap) : St :=
  ⟨result.2, if result.1 = null then s.live else ⟨result.1, op⟩ :: s.live⟩

def St.exec (mMagic : Nat) (s : St) (op : Op) : Option St :=
  match op with
  | .kmalloc pid size mflag =>
      (Kmalloc.kmalloc mMagic pid.toNat size.toNat mflag.toNat s.heap).map (s.record op)
  | .kmemalign pid alignment size flags =>
      (Kmalloc.kmemalign mMagic pid.toNat alignment.toNat size.toNat flags.toNat
        s.heap).map (s.record op)
  | .kfree ptr =>
      (Kmalloc.kfree mMagic ptr.toNat s.heap).map fun h =>
        ⟨h, s.live.filter fun l => l.ptr ≠ ptr.toNat⟩

/-- `kfree` is called on live pointers only. -/
def St.Allows (s : St) : Op → Prop
  | .kfree ptr => ∃ l ∈ s.live, l.ptr = ptr.toNat
  | _ => True

instance (s : St) (op : Op) : Decidable (s.Allows op) :=
  match op with
  | .kfree ptr => inferInstanceAs (Decidable (∃ l ∈ s.live, l.ptr = ptr.toNat))
  | .kmalloc .. => isTrue trivial
  | .kmemalign .. => isTrue trivial

/-- One call on the heap. -/
def St.step (mMagic : Nat) (s : St) (op : Op) : Option St :=
  if s.Allows op then s.exec mMagic op else none

/-- The state that `kmalloc_init` builds in arbitrary memory. -/
def St.init (mMagic : Nat) (memory : Heap) : St := ⟨kmallocInit mMagic memory, []⟩

/-! ### The abstract heap -/

/-- A block of the abstract heap: the size of its payload and its state. -/
structure Block where
  size : Nat
  alloc : Bool

/-- A block covers its header and its payload. -/
def Block.len (b : Block) : Nat := sizeofMemBlock + b.size

/-- Both parts of a hole of which `n` bytes are taken. -/
def takeHole (b : Block) (n : Nat) : List Block :=
  if b.size = n then [⟨n, true⟩] else [⟨n, true⟩, ⟨b.size - n - sizeofMemBlock, false⟩]

/-- Both parts of an allocated block after a second header is placed `n` bytes
into its payload. -/
def cut (b : Block) (n : Nat) : List Block :=
  [⟨n, true⟩, ⟨b.size - n - sizeofMemBlock, true⟩]

/-- A free block with its successors, after a merge with a free neighbour. -/
def joinNext (b : Block) : List Block → List Block
  | [] => [b]
  | c :: post => if c.alloc then b :: c :: post else ⟨b.size + c.len, false⟩ :: post

/-- The block in front of `rest` joined with the head of `rest` when both are
free; `rest` starts with a free block. -/
def joinPrev (a : Block) : List Block → List Block
  | [] => [a]
  | b :: post => if a.alloc then a :: b :: post else ⟨a.size + b.len, false⟩ :: post

/-- The heap after the block `b` between `pre` and `post` is freed. -/
def freeAt (pre : List Block) (b : Block) (post : List Block) : List Block :=
  match pre.getLast? with
  | none => joinNext ⟨b.size, false⟩ post
  | some a => pre.dropLast ++ joinPrev a (joinNext ⟨b.size, false⟩ post)

/-- The address of the header behind the blocks `pre`. -/
def headerOf (pre : List Block) : Nat := kHeapStart + extent Block.len pre

theorem Block.len_eq (b : Block) : b.len = 16 + b.size := rfl

theorem Block.len_pos (b : Block) : 0 < b.len := by
  rw [b.len_eq]
  omega

theorem headerOf_nil : headerOf [] = kHeapStart := rfl

theorem headerOf_concat (pre : List Block) (b : Block) :
    headerOf (pre ++ [b]) = headerOf pre + b.len := by
  simp [headerOf, Nat.add_assoc]

theorem extent_takeHole {b : Block} {n : Nat} (hn : n ≤ b.size) (hb : 16 ∣ b.size)
    (h16 : 16 ∣ n) : extent Block.len (takeHole b n) = b.len := by
  unfold takeHole
  split
  · simp [Block.len_eq, *]
  · simp only [extent_cons, extent_nil, Block.len_eq, sizeofMemBlock]
    omega

theorem extent_cut {b : Block} {n : Nat} (hn : n + 16 ≤ b.size) :
    extent Block.len (cut b n) = b.len := by
  simp only [cut, extent_cons, extent_nil, Block.len_eq, sizeofMemBlock]
  omega

section

variable (mMagic : Nat)

/-- The header at `x` is that of the block `b`. Free blocks have no owner. -/
structure Describes (h : Heap) (x : Nat) (b : Block) : Prop where
  magic : (h x).magic = mMagic
  flags : (h x).flags = if b.alloc then mAlloc else mFree
  size : (h x).size = b.size
  owner : b.alloc = false → (h x).owner = null

/-- From address `a` to the end of the heap, the headers in `h` are those of
`bs`, without gap or overlap. -/
structure LaidFrom (h : Heap) (a : Nat) (bs : List Block) : Prop where
  headers : ∀ x b, (x, b) ∈ places Block.len a bs → Describes mMagic h x b
  covers : a + extent Block.len bs = kHeapEnd
  aligned : ∀ b ∈ bs, 16 ∣ b.size

/-- The headers in `h` tile the whole heap as `bs`. -/
def Layout (h : Heap) (bs : List Block) : Prop := LaidFrom mMagic h kHeapStart bs

end

variable {mMagic : Nat} {h h' : Heap} {a x n : Nat} {b c : Block}
  {bs pre mid mid' post : List Block}

theorem Describes.congr (hd : Describes mMagic h x b) (heq : h' x = h x) :
    Describes mMagic h' x b :=
  ⟨heq ▸ hd.magic, heq ▸ hd.flags, heq ▸ hd.size, heq ▸ hd.owner⟩

theorem Describes.isFree_iff (hd : Describes mMagic h x b) :
    (h x).flags = mFree ↔ b.alloc = false := by
  rw [hd.flags]
  cases b.alloc <;> simp [mFree, mAlloc]

theorem LaidFrom.head (hl : LaidFrom mMagic h a (b :: bs)) : Describes mMagic h a b :=
  hl.headers a b (by simp)

theorem LaidFrom.tail (hl : LaidFrom mMagic h a (b :: bs)) :
    LaidFrom mMagic h (a + b.len) bs where
  headers y c hmem := hl.headers y c (by simp [hmem])
  covers := by
    have hcovers := hl.covers
    simp only [extent_cons] at hcovers
    omega
  aligned c hc := hl.aligned c (by simp [hc])

theorem Layout.describes (hl : Layout mMagic h (pre ++ b :: post)) :
    Describes mMagic h (headerOf pre) b :=
  hl.headers _ _ (mem_places_iff.mpr ⟨pre, post, rfl, rfl⟩)

theorem Layout.describes_next {c : Block} (hl : Layout mMagic h (pre ++ b :: c :: post)) :
    Describes mMagic h (headerOf (pre ++ [b])) c := by
  have hl' : Layout mMagic h ((pre ++ [b]) ++ c :: post) := by simpa using hl
  exact hl'.describes

/-- A block and the blocks behind it end with the heap. -/
theorem Layout.bound (hl : Layout mMagic h (pre ++ b :: post)) :
    0xD0000000 ≤ headerOf pre ∧
      headerOf pre + (16 + b.size) + extent Block.len post = 0xE0000000 := by
  have hcovers := hl.covers
  simp only [extent_append, extent_cons, b.len_eq] at hcovers
  unfold headerOf
  unfold kHeapEnd at hcovers
  unfold kHeapStart at hcovers ⊢
  omega

/-- On a laid out heap the walk of the source moves from each header to the
next one; no address on the way wraps. -/
theorem LaidFrom.nextBlock (hl : LaidFrom mMagic h a (b :: bs)) :
    nextBlock h a = a + b.len := by
  have hcovers := hl.covers
  simp only [extent_cons] at hcovers
  unfold Kmalloc.nextBlock
  rw [hl.head.size, wrap_of_lt]
  · rw [b.len_eq, sizeofMemBlock]
    omega
  · rw [b.len_eq] at hcovers
    unfold kHeapEnd at hcovers
    unfold sizeofMemBlock
    omega

theorem LaidFrom.length_lt_walkFuel (hl : LaidFrom mMagic h a bs) (ha : kHeapStart ≤ a) :
    bs.length < walkFuel := by
  have hlen : bs.length * 16 ≤ extent Block.len bs :=
    length_mul_le_extent fun c _ => by simp [c.len_eq]
  have hcovers := hl.covers
  unfold walkFuel sizeofMemBlock
  unfold kHeapStart at ha ⊢
  unfold kHeapEnd at hcovers ⊢
  omega

/-! ## The searches -/

/-- The request fits into the hole `b`. -/
def Fits (n : Nat) (b : Block) : Prop := b.alloc = false ∧ n ≤ b.size

/-- `findFree` ends and finds the first hole that is large enough. -/
theorem findFree_spec (hl : LaidFrom mMagic h a bs) {fuel : Nat} (hfuel : bs.length < fuel) :
    (∃ pre b post, bs = pre ++ b :: post ∧ Fits n b ∧ (∀ c ∈ pre, ¬Fits n c) ∧
        findFree h n fuel a = some (a + extent Block.len pre)) ∨
      ((∀ c ∈ bs, ¬Fits n c) ∧ findFree h n fuel a = some null) := by
  induction bs generalizing a fuel with
  | nil =>
      obtain ⟨fuel, rfl⟩ : ∃ k, fuel = k + 1 := ⟨fuel - 1, by simp at hfuel; omega⟩
      have hend : a = kHeapEnd := by simpa using hl.covers
      exact Or.inr ⟨by simp, by simp [findFree, hend]⟩
  | cons d bs ih =>
      obtain ⟨fuel, rfl⟩ : ∃ k, fuel = k + 1 := ⟨fuel - 1, by simp at hfuel; omega⟩
      have hlt : a < kHeapEnd := by
        have hcovers := hl.covers
        have hlen := d.len_pos
        simp only [extent_cons] at hcovers
        omega
      by_cases hfit : Fits n d
      · have hhead : (h a).flags = mFree ∧ n ≤ (h a).size :=
          ⟨hl.head.isFree_iff.mpr hfit.1, by rw [hl.head.size]; exact hfit.2⟩
        exact Or.inl ⟨[], d, bs, rfl, hfit, by simp, by simp [findFree, hlt, hhead]⟩
      · have hhead : ¬((h a).flags = mFree ∧ n ≤ (h a).size) := by
          rw [hl.head.isFree_iff, hl.head.size]
          exact hfit
        have hstep : findFree h n (fuel + 1) a = findFree h n fuel (a + d.len) := by
          rw [findFree, if_pos hlt, if_neg hhead, hl.nextBlock]
        rcases ih hl.tail (by simpa using hfuel) with
          ⟨pre, b, post, rfl, hb, hpre, hfound⟩ | ⟨hnone, hfound⟩
        · refine Or.inl ⟨d :: pre, b, post, rfl, hb, ?_, ?_⟩
          · intro c hc
            rcases List.mem_cons.mp hc with rfl | hc
            · exact hfit
            · exact hpre c hc
          · rw [hstep, hfound, extent_cons, Nat.add_assoc]
        · refine Or.inr ⟨?_, hstep.trans hfound⟩
          intro c hc
          rcases List.mem_cons.mp hc with rfl | hc
          · exact hfit
          · exact hnone c hc

end OsdevArchive.Minirighi.Kmalloc
