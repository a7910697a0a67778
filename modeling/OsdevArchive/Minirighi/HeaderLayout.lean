import OsdevArchive.Minirighi.Kmalloc

/-!
Headers that tile an interval of addresses, for any interval. The kernel heap and the heap of
a process are two of them; their functions write headers in the same few ways: a hole is taken,
a block is freed, two neighbours are joined, pages of a payload are released. Each of them turns
the blocks of the interval into those of the abstract operation.
-/

namespace OsdevArchive.Minirighi.Kmalloc

open OsdevArchive.Lib.Tiling

/-- From `a` to `stop`, the headers in `h` are those of `bs`, without gap or overlap. -/
structure LaidTo (mMagic : Nat) (h : Heap) (stop a : Nat) (bs : List Block) : Prop where
  headers : ∀ x b, (x, b) ∈ places Block.len a bs → Describes mMagic h x b
  covers : a + extent Block.len bs = stop
  aligned : ∀ b ∈ bs, 16 ∣ b.size

/-- The header write that frees the block at `x`. -/
def freeHeader (h : Heap) (x : Nat) : Heap :=
  Function.update h x { h x with flags := mFree, owner := null }

/-- The header writes that join the block at `x` with its successor at `y`. -/
def joinHeaders (h : Heap) (x y : Nat) : Heap :=
  let h := Function.update h x
    { h x with size := wrap ((h x).size + wrap ((h y).size + sizeofMemBlock)) }
  Function.update h y { h y with magic := null }

/-- The header writes that take `n` bytes of the hole at `x`. -/
def takeHeaders (mMagic owner n : Nat) (h : Heap) (x : Nat) : Heap :=
  if (h x).size = n then Function.update h x ⟨mMagic, mAlloc, n, owner⟩
  else
    let rest := sub32 (sub32 (h x).size n) sizeofMemBlock
    let h := Function.update h (wrap (x + sizeofMemBlock + n)) ⟨mMagic, mFree, rest, null⟩
    Function.update h x ⟨mMagic, mAlloc, n, owner⟩

/-- The block at `p` is joined with its successor in front of `stop` if that one is free. -/
def joinNextAt (stop : Nat) (h : Heap) (p : Nat) : Heap :=
  let p2 := nextBlock h p
  if p2 < stop ∧ (h p2).flags = mFree then joinHeaders h p p2 else h

/-- The block at `p` is joined with its predecessor if that one is free; `start` is the first
header. -/
def joinPrevAt (start fuel : Nat) (h : Heap) (p : Nat) : Option (Nat × Heap) :=
  if p = start then some (p, h)
  else
    match findPrev h p fuel start with
    | none => none
    | some p2 => if (h p2).flags = mFree then some (p2, joinHeaders h p2 p) else some (p, h)

variable {mMagic stop a n : Nat} {h h' : Heap} {b c : Block}
  {bs pre mid mid' post : List Block}

theorem LaidTo.laidFrom (hl : LaidTo mMagic h kHeapEnd a bs) : LaidFrom mMagic h a bs :=
  ⟨hl.headers, hl.covers, hl.aligned⟩

theorem LaidFrom.laidTo (hl : LaidFrom mMagic h a bs) : LaidTo mMagic h kHeapEnd a bs :=
  ⟨hl.headers, hl.covers, hl.aligned⟩

theorem LaidTo.head (hl : LaidTo mMagic h stop a (b :: bs)) : Describes mMagic h a b :=
  hl.headers a b (by simp)

theorem LaidTo.tail (hl : LaidTo mMagic h stop a (b :: bs)) :
    LaidTo mMagic h stop (a + b.len) bs where
  headers y c hmem := hl.headers y c (by simp [hmem])
  covers := by
    have hcovers := hl.covers
    rw [extent_cons] at hcovers
    omega
  aligned c hc := hl.aligned c (by simp [hc])

theorem LaidTo.describes (hl : LaidTo mMagic h stop a (pre ++ b :: post)) :
    Describes mMagic h (a + extent Block.len pre) b :=
  hl.headers _ _ (mem_places_iff.mpr ⟨pre, post, rfl, rfl⟩)

/-- A block and the blocks behind it end with the interval. -/
theorem LaidTo.bound (hl : LaidTo mMagic h stop a (pre ++ b :: post)) :
    a + extent Block.len pre + (16 + b.size) + extent Block.len post = stop := by
  have hcovers := hl.covers
  rw [extent_append, extent_cons, b.len_eq] at hcovers
  omega

theorem LaidTo.nextBlock (hl : LaidTo mMagic h stop a (b :: bs)) (hstop : stop < 2 ^ 32) :
    nextBlock h a = a + b.len := by
  have hcovers := hl.covers
  rw [extent_cons, b.len_eq] at hcovers
  rw [Kmalloc.nextBlock, hl.head.size, sizeofMemBlock, wrap_of_lt (by omega), b.len_eq]
  omega

theorem LaidTo.nextBlock_at (hl : LaidTo mMagic h stop a (pre ++ b :: post))
    (hstop : stop < 2 ^ 32) :
    Kmalloc.nextBlock h (a + extent Block.len pre) = a + extent Block.len pre + b.len := by
  have hbound := hl.bound
  rw [Kmalloc.nextBlock, hl.describes.size, sizeofMemBlock, wrap_of_lt (by omega), b.len_eq]
  omega

theorem LaidTo.length_le (hl : LaidTo mMagic h stop a bs) : bs.length ≤ (stop - a) / 16 := by
  have hlen : bs.length * 16 ≤ extent Block.len bs :=
    length_mul_le_extent fun c _ => by simp [c.len_eq]
  have hcovers := hl.covers
  omega

/-- Rewriting the headers inside the interval of `mid` yields the layout with
`mid` replaced by any blocks of the same total extent that the new headers
describe. Every change the allocators make to their headers is of this form. -/
theorem LaidTo.replace (hl : LaidTo mMagic h stop a (pre ++ mid ++ post))
    (hextent : extent Block.len mid' = extent Block.len mid)
    (hsame : ∀ y, ¬(a + extent Block.len pre ≤ y ∧
      y < a + extent Block.len pre + extent Block.len mid) → h' y = h y)
    (hmid : ∀ y c, (y, c) ∈ places Block.len (a + extent Block.len pre) mid' →
      Describes mMagic h' y c)
    (haligned : ∀ c ∈ mid', 16 ∣ c.size) : LaidTo mMagic h' stop a (pre ++ mid' ++ post) where
  headers y c hmem := by
    simp only [places_append, List.mem_append] at hmem
    rcases hmem with (hpre | hnew) | hpost
    · have hbounds := place_bounds hpre
      have hlen := c.len_pos
      refine (hl.headers y c (by simp [hpre])).congr (hsame y ?_)
      omega
    · exact hmid y c hnew
    · have hbounds := place_bounds hpost
      simp only [extent_append, hextent] at hpost hbounds
      refine (hl.headers y c ?_).congr (hsame y ?_)
      · simp only [places_append, extent_append, List.mem_append]
        exact Or.inr hpost
      · omega
  covers := by
    have hcovers := hl.covers
    simp only [extent_append] at hcovers ⊢
    omega
  aligned c hc := by
    simp only [List.mem_append] at hc
    rcases hc with (hpre | hnew) | hpost
    · exact hl.aligned c (by simp [hpre])
    · exact haligned c hnew
    · exact hl.aligned c (by simp [hpost])

/-- One block replaced by another of its size. -/
theorem LaidTo.replace_one (hl : LaidTo mMagic h stop a (pre ++ b :: post))
    (hsize : c.size = b.size)
    (hsame : ∀ y, ¬(a + extent Block.len pre ≤ y ∧
      y < a + extent Block.len pre + (16 + b.size)) → h' y = h y)
    (hd : Describes mMagic h' (a + extent Block.len pre) c) :
    LaidTo mMagic h' stop a (pre ++ c :: post) := by
  have hl' : LaidTo mMagic h stop a (pre ++ [b] ++ post) := by simpa using hl
  rw [← List.singleton_append, ← List.append_assoc]
  apply hl'.replace
  · simp [Block.len_eq, hsize]
  · intro y hy
    apply hsame
    simpa [b.len_eq] using hy
  · intro y d hmem
    obtain ⟨rfl, rfl⟩ : y = a + extent Block.len pre ∧ d = c := by simpa using hmem
    exact hd
  · intro d hmem
    obtain rfl : d = c := by simpa using hmem
    rw [hsize]
    exact hl.aligned b (by simp)

/-! ## The header writes -/

theorem LaidTo.freeHeader (hl : LaidTo mMagic h stop a (pre ++ b :: post)) :
    LaidTo mMagic (freeHeader h (a + extent Block.len pre)) stop a
      (pre ++ ⟨b.size, false⟩ :: post) := by
  have hd := hl.describes
  apply hl.replace_one
  · rfl
  · intro y hy
    have hne : y ≠ a + extent Block.len pre := by omega
    rw [Kmalloc.freeHeader, Function.update_of_ne hne]
  · constructor <;> simp [Kmalloc.freeHeader, hd.magic, hd.size]

/-- Two free neighbours become one free block. -/
theorem LaidTo.join (hl : LaidTo mMagic h stop a (pre ++ b :: c :: post))
    (hstop : stop < 2 ^ 32) (hb : b.alloc = false) :
    LaidTo mMagic (joinHeaders h (a + extent Block.len pre)
      (a + extent Block.len pre + b.len)) stop a
      (pre ++ ⟨b.size + c.len, false⟩ :: post) := by
  have hd := hl.describes
  have hbound := hl.bound
  have hl' : LaidTo mMagic h stop a ((pre ++ [b]) ++ c :: post) := by simpa using hl
  have hc := hl'.describes
  rw [extent_append, extent_cons, extent_nil, Nat.add_zero, ← Nat.add_assoc] at hc
  have hmid : LaidTo mMagic h stop a (pre ++ [b, c] ++ post) := by simpa using hl
  rw [extent_cons, c.len_eq] at hbound
  have hb16 : 16 ∣ b.size := hl.aligned b (by simp)
  have hc16 : 16 ∣ c.size := hl.aligned c (by simp)
  have hlen := b.len_eq
  have hsum : wrap (b.size + wrap (c.size + 16)) = b.size + c.len := by
    rw [wrap_of_lt (n := c.size + 16) (by omega), wrap_of_lt (by omega), c.len_eq]
    omega
  have hne : a + extent Block.len pre ≠ a + extent Block.len pre + b.len := by omega
  rw [← List.singleton_append, ← List.append_assoc]
  apply hmid.replace
  · simp [Block.len_eq]
    omega
  · intro y hy
    simp only [extent_cons, extent_nil, b.len_eq, c.len_eq] at hy
    have hy1 : y ≠ a + extent Block.len pre := by omega
    have hy2 : y ≠ a + extent Block.len pre + b.len := by omega
    simp [joinHeaders, Function.update_of_ne hy1, Function.update_of_ne hy2]
  · intro y d hmem
    obtain ⟨rfl, rfl⟩ : y = a + extent Block.len pre ∧ d = ⟨b.size + c.len, false⟩ := by
      simpa using hmem
    constructor <;>
      simp [joinHeaders, Function.update_of_ne hne, hd.magic, hd.flags, hd.size, hd.owner hb,
        hb, hc.size, hsum, sizeofMemBlock]
  · intro d hmem
    obtain rfl : d = ⟨b.size + c.len, false⟩ := by simpa using hmem
    change 16 ∣ b.size + c.len
    rw [c.len_eq]
    omega

/-- A hole of which `n` bytes are taken; the rest of it, if any, stays a hole. -/
theorem LaidTo.take (hl : LaidTo mMagic h stop a (pre ++ b :: post)) (hstop : stop < 2 ^ 32)
    (hfit : Fits n b) (h16 : 16 ∣ n) (owner : Nat) :
    LaidTo mMagic (takeHeaders mMagic owner n h (a + extent Block.len pre)) stop a
      (pre ++ takeHole b n ++ post) := by
  have hd := hl.describes
  have hb16 : 16 ∣ b.size := hl.aligned b (by simp)
  have hbound := hl.bound
  have hle := hfit.2
  by_cases hn : b.size = n
  · have hhole : takeHole b n = [⟨n, true⟩] := if_pos hn
    rw [hhole, List.append_assoc, List.singleton_append]
    apply hl.replace_one
    · exact hn.symm
    · intro y hy
      have hne : y ≠ a + extent Block.len pre := by omega
      rw [takeHeaders, hd.size, if_pos hn, Function.update_of_ne hne]
    · constructor <;> simp [takeHeaders, hd.size, hn]
  · have hhole : takeHole b n = [⟨n, true⟩, ⟨b.size - n - 16, false⟩] := if_neg hn
    have htail : wrap (a + extent Block.len pre + 16 + n) = a + extent Block.len pre + 16 + n :=
      wrap_of_lt (by omega)
    have hrest : sub32 (sub32 b.size n) 16 = b.size - n - 16 := by
      rw [sub32_of_le hle (by omega), sub32_of_le (by omega) (by omega)]
    have hl' : LaidTo mMagic h stop a (pre ++ [b] ++ post) := by simpa using hl
    rw [hhole]
    apply hl'.replace
    · simp [Block.len_eq]
      omega
    · intro y hy
      simp only [extent_cons, extent_nil, b.len_eq] at hy
      have hne : y ≠ a + extent Block.len pre := by omega
      have hne' : y ≠ a + extent Block.len pre + 16 + n := by omega
      simp [takeHeaders, hd.size, hn, sizeofMemBlock, htail, Function.update_of_ne hne,
        Function.update_of_ne hne']
    · intro y c hmem
      have hne : a + extent Block.len pre + 16 + n ≠ a + extent Block.len pre := by omega
      rcases (by simpa [Block.len_eq] using hmem :
        (y = a + extent Block.len pre ∧ c = ⟨n, true⟩) ∨
          (y = a + extent Block.len pre + (16 + n) ∧ c = ⟨b.size - n - 16, false⟩)) with
        ⟨rfl, rfl⟩ | ⟨rfl, rfl⟩
      · constructor <;> simp [takeHeaders, hd.size, hn]
      · rw [← Nat.add_assoc]
        constructor <;>
          simp [takeHeaders, hd.size, hn, sizeofMemBlock, htail, hrest,
            Function.update_of_ne hne]
    · intro c hc
      rcases (by simpa using hc : c = ⟨n, true⟩ ∨ c = ⟨b.size - n - 16, false⟩) with
        rfl | rfl
      · exact h16
      · change 16 ∣ b.size - n - 16
        omega

/-- The pages that `deallocate` releases hold no header. -/
theorem LaidTo.deallocate (hl : LaidTo mMagic h stop a (pre ++ b :: post))
    (hstop : stop + pageSize ≤ 2 ^ 32) :
    LaidTo mMagic (deallocate h (a + extent Block.len pre)) stop a (pre ++ b :: post) := by
  have hd := hl.describes
  have hbound := hl.bound
  unfold pageSize at hstop
  have hpayload : wrap (a + extent Block.len pre + sizeofMemBlock) =
      a + extent Block.len pre + 16 := wrap_of_lt (by unfold sizeofMemBlock; omega)
  have hend : wrap (a + extent Block.len pre + sizeofMemBlock +
      (h (a + extent Block.len pre)).size) = a + extent Block.len pre + 16 + b.size := by
    rw [hd.size, sizeofMemBlock]
    exact wrap_of_lt (by omega)
  have hlow : a + extent Block.len pre + 16 ≤ pageAlignUp (a + extent Block.len pre + 16) :=
    le_pageAlignUp (by unfold pageSize; omega)
  have hhigh : pageAlign (a + extent Block.len pre + 16 + b.size) ≤
      a + extent Block.len pre + 16 + b.size := by
    rw [pageAlign_eq (by omega)]
    exact Nat.sub_le _ _
  have hsame : ∀ y, ¬(a + extent Block.len pre + 16 ≤ y ∧
      y < a + extent Block.len pre + 16 + b.size) →
      Kmalloc.deallocate h (a + extent Block.len pre) y = h y := by
    intro y hy
    simp only [Kmalloc.deallocate, hpayload, hend]
    exact if_neg (by omega)
  apply hl.replace_one
  · rfl
  · intro y hy
    exact hsame y (by omega)
  · exact hd.congr (hsame _ (by omega))

/-- The search for the block in front ends at it. -/
theorem LaidTo.findPrev (hl : LaidTo mMagic h stop a (pre ++ c :: b :: post))
    (hstop : stop < 2 ^ 32) {fuel : Nat} (hfuel : pre.length < fuel) :
    findPrev h (a + extent Block.len pre + c.len) fuel a = some (a + extent Block.len pre) := by
  induction pre generalizing a fuel with
  | nil =>
      obtain ⟨fuel, rfl⟩ : ∃ k, fuel = k + 1 := ⟨fuel - 1, by simp at hfuel; omega⟩
      simp [Kmalloc.findPrev, LaidTo.nextBlock hl hstop]
  | cons d pre ih =>
      obtain ⟨fuel, rfl⟩ : ∃ k, fuel = k + 1 := ⟨fuel - 1, by simp at hfuel; omega⟩
      have hnext : Kmalloc.nextBlock h a = a + d.len := LaidTo.nextBlock hl hstop
      have hlen := c.len_pos
      have hne : Kmalloc.nextBlock h a ≠ a + extent Block.len (d :: pre) + c.len := by
        rw [hnext, extent_cons]
        omega
      have htail := ih (LaidTo.tail hl) (by simpa using hfuel)
      rw [Kmalloc.findPrev, if_neg hne, hnext, extent_cons]
      simpa [Nat.add_assoc] using htail

/-! ## The merges -/

theorem LaidTo.joinNextAt (hl : LaidTo mMagic h stop a (pre ++ b :: post))
    (hstop : stop < 2 ^ 32) (hfree : b.alloc = false) :
    LaidTo mMagic (joinNextAt stop h (a + extent Block.len pre)) stop a
      (pre ++ joinNext b post) := by
  have hbound := hl.bound
  have hlen := b.len_eq
  unfold Kmalloc.joinNextAt
  rw [hl.nextBlock_at hstop]
  cases post with
  | nil =>
      rw [extent_nil] at hbound
      rw [if_neg (by omega)]
      exact hl
  | cons c post =>
      have hl' : LaidTo mMagic h stop a ((pre ++ [b]) ++ c :: post) := by simpa using hl
      have hc := hl'.describes
      rw [extent_append, extent_cons, extent_nil, Nat.add_zero, ← Nat.add_assoc] at hc
      rw [extent_cons, c.len_eq] at hbound
      simp only [hc.isFree_iff, joinNext]
      cases halloc : c.alloc with
      | true => simpa using hl
      | false =>
          rw [if_pos ⟨by omega, rfl⟩]
          exact hl.join hstop hfree

/-- The block that the merge backwards names is the free one that now covers `b`. -/
theorem LaidTo.joinPrevAt (hl : LaidTo mMagic h stop a (pre ++ b :: post))
    (hstop : stop < 2 ^ 32) (hfree : b.alloc = false) {fuel : Nat}
    (hfuel : (stop - a) / 16 < fuel) :
    ∃ pre' c post' h', joinPrevAt a fuel h (a + extent Block.len pre) =
        some (a + extent Block.len pre', h') ∧
      c.alloc = false ∧ extent Block.len pre' ≤ extent Block.len pre ∧
      extent Block.len pre + b.len ≤ extent Block.len pre' + c.len ∧
      LaidTo mMagic h' stop a (pre' ++ c :: post') ∧
      pre' ++ c :: post' =
        match pre.getLast? with
        | none => b :: post
        | some d => pre.dropLast ++ joinPrev d (b :: post) := by
  rcases List.eq_nil_or_concat pre with rfl | ⟨pre, d, rfl⟩
  · exact ⟨[], b, post, h, by simp [Kmalloc.joinPrevAt], hfree, Nat.le_refl _, Nat.le_refl _,
      hl, rfl⟩
  rw [List.concat_eq_append] at hl ⊢
  have hl' : LaidTo mMagic h stop a (pre ++ d :: b :: post) := by simpa using hl
  have hd := hl'.describes
  have hdlen := d.len_pos
  have hcount := hl'.length_le
  rw [List.length_append] at hcount
  have hlt : pre.length < fuel := by omega
  have hfound := hl'.findPrev hstop hlt
  simp only [extent_append, extent_cons, extent_nil, Nat.add_zero, ← Nat.add_assoc,
    List.getLast?_append, List.getLast?_singleton, Option.some_or, List.dropLast_concat]
  unfold Kmalloc.joinPrevAt
  rw [if_neg (by omega), hfound]
  simp only [hd.isFree_iff]
  cases halloc : d.alloc with
  | true =>
      refine ⟨pre ++ [d], b, post, h, ?_, hfree, ?_, ?_, hl, by simp [joinPrev, halloc]⟩
      · simp [Nat.add_assoc]
      · simp
      · simp
  | false =>
      refine ⟨pre, ⟨d.size + b.len, false⟩, post, _, if_pos rfl, rfl, ?_, ?_,
        hl'.join hstop halloc, by simp [joinPrev, halloc]⟩
      · omega
      · simp only [Block.len_eq]
        omega

/-- A free block stays free when its successor joins it. -/
theorem joinNext_eq_cons (hfree : b.alloc = false) (post : List Block) :
    ∃ c post', joinNext b post = c :: post' ∧ c.alloc = false ∧ b.len ≤ c.len := by
  cases post with
  | nil => exact ⟨b, [], rfl, hfree, Nat.le_refl _⟩
  | cons d post =>
      by_cases halloc : d.alloc = true
      · exact ⟨b, d :: post, by simp [joinNext, halloc], hfree, Nat.le_refl _⟩
      · refine ⟨⟨b.size + d.len, false⟩, post, by simp [joinNext, halloc], rfl, ?_⟩
        simp only [Block.len_eq]
        omega

/-- Both merges after a block is freed: the block that they name is free and covers the freed
one. -/
theorem LaidTo.merge (hl : LaidTo mMagic h stop a (pre ++ b :: post)) (hstop : stop < 2 ^ 32)
    (hfree : b.alloc = false) {fuel : Nat} (hfuel : (stop - a) / 16 < fuel) :
    ∃ pre' c post' h',
      Kmalloc.joinPrevAt a fuel (Kmalloc.joinNextAt stop h (a + extent Block.len pre))
        (a + extent Block.len pre) = some (a + extent Block.len pre', h') ∧
      c.alloc = false ∧ extent Block.len pre' ≤ extent Block.len pre ∧
      extent Block.len pre + b.len ≤ extent Block.len pre' + c.len ∧
      LaidTo mMagic h' stop a (pre' ++ c :: post') ∧
      pre' ++ c :: post' = freeAt pre b post := by
  obtain ⟨c, post', hjoin, hcfree, hlen⟩ := joinNext_eq_cons hfree post
  have hnext := hl.joinNextAt hstop hfree
  rw [hjoin] at hnext
  obtain ⟨pre', d, post'', h', hprev, hdfree, hlow, hhigh, hlast, heq⟩ :=
    hnext.joinPrevAt hstop hcfree hfuel
  refine ⟨pre', d, post'', h', hprev, hdfree, hlow, by omega, hlast, ?_⟩
  have hb : (⟨b.size, false⟩ : Block) = b := by rw [← hfree]
  rw [freeAt, hb, hjoin]
  exact heq

end OsdevArchive.Minirighi.Kmalloc
