import OsdevArchive.Minirighi.HeaderLayout

/-!
Specifications of `kmalloc`, `kfree` and `kmemalign` over layouts: each call
ends, and turns the layout `bs` of the memory it starts from into the layout
of the abstract operation.
-/

namespace OsdevArchive.Minirighi.Kmalloc

open OsdevArchive.Lib.Tiling

variable {mMagic : Nat} {h : Heap} {n : Nat} {b : Block} {bs pre post : List Block}

/-! ## `kmalloc` -/

theorem roundSize_eq {size : Nat} (hsize : size < 2 ^ 32) :
    roundSize size = wrap (size - size % 16 + 16) := by
  rw [roundSize, sizeofMemBlock, and_neg_sixteen hsize]

theorem roundSize_dvd {size : Nat} (hsize : size < 2 ^ 32) : 16 ∣ roundSize size := by
  rw [roundSize_eq hsize]
  unfold wrap
  omega

/-- Below `2 ^ 32 - 16` the rounding does not wrap and covers the request. -/
theorem lt_roundSize {size : Nat} (hsize : size < 2 ^ 32 - 16) :
    size < roundSize size ∧ roundSize size ≤ size + 16 := by
  rw [roundSize_eq (by omega)]
  unfold wrap
  omega

/-- The header writes of `kmalloc` on the hole it found. -/
def takeWrites (mMagic owner n : Nat) (h : Heap) (x : Nat) : Heap :=
  let h := if (h x).size ≠ n then splitHole mMagic h x n else h
  Function.update h x { h x with magic := mMagic, flags := mAlloc, owner := owner }

theorem takeWrites_eq {owner x : Nat} :
    takeWrites mMagic owner n h x = takeHeaders mMagic owner n h x := by
  unfold takeWrites takeHeaders
  by_cases hn : (h x).size = n
  · rw [if_pos hn]
    simp [hn]
  · rw [if_neg hn, if_pos hn]
    simp [splitHole]

theorem Layout.take (hl : Layout mMagic h (pre ++ b :: post)) (hfit : Fits n b)
    (h16 : 16 ∣ n) (owner : Nat) :
    Layout mMagic (takeWrites mMagic owner n h (headerOf pre))
      (pre ++ takeHole b n ++ post) := by
  rw [takeWrites_eq]
  exact (LaidTo.take hl.laidTo (by decide) hfit h16 owner).laidFrom

theorem findFree_first (hl : Layout mMagic h (pre ++ b :: post)) (hfit : Fits n b)
    (hfirst : ∀ c ∈ pre, ¬Fits n c) :
    findFree h n walkFuel kHeapStart = some (headerOf pre) := by
  rcases findFree_spec (n := n) hl (hl.length_lt_walkFuel (Nat.le_refl _)) with
    ⟨pre', b', post', hsplit, hfit', hfirst', hfound⟩ | ⟨hnone, _⟩
  · obtain rfl : pre = pre' := by
      rcases List.append_eq_append_iff.mp hsplit with ⟨mid, rfl, hmid⟩ | ⟨mid, rfl, hmid⟩
      · cases mid with
        | nil => simp
        | cons c mid =>
            obtain rfl : b = c := by simpa using (List.cons.inj hmid).1
            exact absurd hfit (hfirst' b (by simp))
      · cases mid with
        | nil => simp
        | cons c mid =>
            obtain rfl : b' = c := by simpa using (List.cons.inj hmid).1
            exact absurd hfit' (hfirst b' (by simp))
    exact hfound
  · exact absurd hfit (hnone b (by simp))

/-- `kmalloc` takes the first hole that is large enough and returns the payload of the taken
part. -/
theorem kmalloc_first (hl : Layout mMagic h (pre ++ b :: post)) {size : Nat}
    (hsize : size < 2 ^ 32) (hzero : size ≠ 0) (hfit : Fits (roundSize size) b)
    (hfirst : ∀ c ∈ pre, ¬Fits (roundSize size) c) (pid mflag : Nat) :
    ∃ h', kmalloc mMagic pid size mflag h = some (headerOf pre + 16, h') ∧
      Layout mMagic h' (pre ++ takeHole b (roundSize size) ++ post) := by
  have hfound := findFree_first hl hfit hfirst
  have hbound := hl.bound
  have hne : headerOf pre ≠ null := by
    unfold null
    omega
  have hwrap : wrap (headerOf pre + 16) = headerOf pre + 16 := wrap_of_lt (by omega)
  refine ⟨_, ?_, hl.take hfit (roundSize_dvd hsize) (if mflag = gfpKernel then pid else null)⟩
  simp only [kmalloc, if_neg hzero, hfound, if_neg hne, sizeofMemBlock, hwrap, takeWrites]

/-- `kmalloc` returns. It fails and leaves the heap alone, or it takes the first
hole that is large enough and returns the payload of the taken part. -/
theorem kmalloc_spec (hl : Layout mMagic h bs) {size : Nat} (hsize : size < 2 ^ 32)
    (pid mflag : Nat) :
    kmalloc mMagic pid size mflag h = some (null, h) ∨
      ∃ pre b post h', bs = pre ++ b :: post ∧ size ≠ 0 ∧ Fits (roundSize size) b ∧
        (∀ c ∈ pre, ¬Fits (roundSize size) c) ∧
        kmalloc mMagic pid size mflag h = some (headerOf pre + 16, h') ∧
        Layout mMagic h' (pre ++ takeHole b (roundSize size) ++ post) := by
  by_cases hzero : size = 0
  · exact Or.inl (by simp [kmalloc, hzero])
  rcases findFree_spec (n := roundSize size) hl (hl.length_lt_walkFuel (Nat.le_refl _)) with
    ⟨pre, b, post, rfl, hfit, hfirst, _⟩ | ⟨_, hfound⟩
  · obtain ⟨h', hret, hl'⟩ := kmalloc_first hl hsize hzero hfit hfirst pid mflag
    exact Or.inr ⟨pre, b, post, h', rfl, hzero, hfit, hfirst, hret, hl'⟩
  · exact Or.inl (by simp [kmalloc, hzero, hfound])

/-! ## `kfree` -/

theorem Layout.nextBlock (hl : Layout mMagic h (pre ++ b :: post)) :
    nextBlock h (headerOf pre) = headerOf pre + b.len := by
  have hbound := hl.bound
  rw [Kmalloc.nextBlock, hl.describes.size, sizeofMemBlock, wrap_of_lt (by omega), b.len_eq]
  omega

theorem Layout.mergeNext (hl : Layout mMagic h (pre ++ b :: post)) (hfree : b.alloc = false) :
    Layout mMagic (mergeNext h (headerOf pre)) (pre ++ joinNext b post) :=
  (LaidTo.joinNextAt hl.laidTo (by decide) hfree).laidFrom

theorem walkFuel_gt : (kHeapEnd - kHeapStart) / 16 < walkFuel := Nat.lt_succ_self _

/-- The search for the block in front ends at it. -/
theorem Layout.findPrev {a : Block} (hl : Layout mMagic h (pre ++ a :: b :: post)) :
    findPrev h (headerOf pre + a.len) walkFuel kHeapStart = some (headerOf pre) := by
  have hlength := LaidTo.length_le hl.laidTo
  rw [List.length_append] at hlength
  exact LaidTo.findPrev hl.laidTo (by decide)
    (Nat.lt_of_le_of_lt (Nat.le_trans (Nat.le_add_right _ _) hlength) walkFuel_gt)

theorem Layout.freeHeader (hl : Layout mMagic h (pre ++ b :: post)) :
    Layout mMagic (freeHeader h (headerOf pre)) (pre ++ ⟨b.size, false⟩ :: post) :=
  (LaidTo.freeHeader hl.laidTo).laidFrom

/-- Both merges of `kfree`: the block that they name is free and covers the freed one. -/
theorem Layout.merge (hl : Layout mMagic h (pre ++ b :: post)) (hfree : b.alloc = false) :
    ∃ pre' c post' h', Kmalloc.mergePrev (Kmalloc.mergeNext h (headerOf pre)) (headerOf pre) =
        some (headerOf pre', h') ∧
      c.alloc = false ∧ headerOf pre' ≤ headerOf pre ∧
      headerOf pre + b.len ≤ headerOf pre' + c.len ∧ Layout mMagic h' (pre' ++ c :: post') ∧
      pre' ++ c :: post' = freeAt pre b post := by
  obtain ⟨pre', c, post', h', hmerge, hcfree, hlow, hhigh, hlast, heq⟩ :=
    LaidTo.merge hl.laidTo (by decide) hfree walkFuel_gt
  refine ⟨pre', c, post', h', hmerge, hcfree, ?_, ?_, hlast.laidFrom, heq⟩
  · exact Nat.add_le_add_left hlow _
  · unfold headerOf
    omega

/-- The pages that `deallocate` releases hold no header. -/
theorem Layout.deallocate (hl : Layout mMagic h (pre ++ b :: post)) :
    Layout mMagic (deallocate h (headerOf pre)) (pre ++ b :: post) :=
  (LaidTo.deallocate hl.laidTo (by decide)).laidFrom

/-- What `kfree` does with a pointer to an allocated block, up to the release of its pages. -/
theorem Layout.kfree_eq (hl : Layout mMagic h (pre ++ b :: post)) (halloc : b.alloc = true) :
    headerOf pre + 16 ≠ null ∧ sub32 (headerOf pre + 16) sizeofMemBlock = headerOf pre ∧
      ¬((h (headerOf pre)).magic ≠ mMagic ∨ (h (headerOf pre)).flags ≠ mAlloc) := by
  have hd := hl.describes
  have hbound := hl.bound
  refine ⟨?_, ?_, ?_⟩
  · unfold null
    omega
  · unfold sizeofMemBlock
    rw [sub32_of_le (by omega) (by omega), Nat.add_sub_cancel]
  · simp [hd.magic, hd.flags, halloc]

/-- `kfree` of a pointer to an allocated block returns, and frees the block. -/
theorem kfree_spec (hl : Layout mMagic h (pre ++ b :: post)) (halloc : b.alloc = true) :
    ∃ h', kfree mMagic (headerOf pre + 16) h = some h' ∧
      Layout mMagic h' (freeAt pre b post) := by
  obtain ⟨hnull, hheader, hcheck⟩ := hl.kfree_eq halloc
  obtain ⟨pre', c, post', h', hmerge, -, -, -, hlast, heq⟩ := hl.freeHeader.merge rfl
  refine ⟨Kmalloc.deallocate h' (headerOf pre'), ?_, ?_⟩
  · simp only [kfree, if_neg hnull, hheader, if_neg hcheck]
    rw [← Kmalloc.freeHeader, hmerge]
    rfl
  · have hresult := hlast.deallocate
    rwa [heq] at hresult

/-! ## `kmemalign` -/

theorem Layout.headerOf_dvd (hl : Layout mMagic h (pre ++ post)) : 16 ∣ headerOf pre := by
  have hpre16 : 16 ∣ extent Block.len pre := by
    refine dvd_extent fun c hc => ?_
    rw [c.len_eq]
    exact Nat.dvd_add (Nat.dvd_refl 16) (hl.aligned c (by simp [hc]))
  exact Nat.dvd_add (by decide) hpre16

/-- The block that `kmalloc` takes for `kmemalign` holds the second header: the
aligned address lies behind room for two headers and inside the block. -/
def CarveFits (h : Heap) (alignment size : Nat) : Prop :=
  ∀ best ∈ findFree h (roundSize (wrap (size + alignment + 32))) walkFuel kHeapStart,
    size ≠ 0 → best ≠ null → alignment ≠ 0 → (best + 16) % alignment ≠ 0 →
      best + 48 ≤ alignUp (best + 48) alignment ∧
        alignUp (best + 48) alignment ≤
          best + 16 + roundSize (wrap (size + alignment + 32))

instance (h : Heap) (alignment size : Nat) : Decidable (CarveFits h alignment size) :=
  inferInstanceAs (Decidable (∀ best ∈ findFree _ _ _ _, _))

/-- The headers that the carve writes, when nothing wraps around. -/
theorem carve_eq {alignment a n : Nat} (hd : Describes mMagic h a b) (halloc : b.alloc = true)
    (hn : n + 16 ≤ b.size) (hbound : a + 16 + b.size ≤ 0xE0000000)
    (hpoint : alignUp (a + 48) alignment = a + 16 + n + 16) :
    Kmalloc.carve mMagic alignment (a + 16) h =
      (a + 16 + n, Function.update (Function.update h (a + 16 + n)
        ⟨mMagic, mAlloc, b.size - n - 16, (h a).owner⟩) a ⟨mMagic, mAlloc, n, (h a).owner⟩) := by
  have hq : sub32 (a + 16) 16 = a := by
    rw [sub32_of_le (by omega) (by omega), Nat.add_sub_cancel]
  have hp2 : sub32 (alignUp (wrap (a + 16 + 2 * 16)) alignment) 16 = a + 16 + n := by
    have hp : a + 16 + 2 * 16 = a + 48 := by omega
    rw [hp, wrap_of_lt (by omega), hpoint, sub32_of_le (by omega) (by omega), Nat.add_sub_cancel]
  have hused : sub32 (wrap (a + 16 + n + 16)) (a + 16) = n + 16 := by
    rw [wrap_of_lt (by omega), sub32_of_le (by omega) (by omega)]
    omega
  have hfront : sub32 (a + 16 + n) (a + 16) = n := by
    rw [sub32_of_le (by omega) (by omega)]
    omega
  have hrest : sub32 b.size (n + 16) = b.size - n - 16 := by
    rw [sub32_of_le (by omega) (by omega)]
    omega
  have hne : a ≠ a + 16 + n := by omega
  simp [Kmalloc.carve, sizeofMemBlock, memSizeof, hq, hp2, hused, hfront, hrest,
    Function.update_of_ne hne, hd.magic, hd.flags, hd.size, halloc]

/-- Cutting an allocated block in two at an aligned address. -/
theorem Layout.carve {alignment : Nat} (hl : Layout mMagic h (pre ++ b :: post))
    (halloc : b.alloc = true) (hpos : alignment ≠ 0) (halign : alignment < 2 ^ 32)
    (hlow : headerOf pre + 48 ≤ alignUp (headerOf pre + 48) alignment)
    (hhigh : alignUp (headerOf pre + 48) alignment ≤ headerOf pre + 16 + b.size) :
    ∃ n h', 16 ≤ n ∧ n + 16 ≤ b.size ∧ 16 ∣ n ∧
      Kmalloc.carve mMagic alignment (headerOf pre + 16) h = (headerOf pre + 16 + n, h') ∧
      Layout mMagic h' (pre ++ cut b n ++ post) := by
  have hbound := hl.bound
  have hb16 : 16 ∣ b.size := hl.aligned b (by simp)
  have hheader16 := hl.headerOf_dvd
  have hstart16 : (headerOf pre + 48) % 16 = 0 := by omega
  have hnowrap : headerOf pre + 48 + alignment - 1 < 2 ^ 32 := by
    by_contra hwraps
    have hsmall : wrap (headerOf pre + 48 + alignment - 1) < headerOf pre + 48 := by
      unfold wrap
      omega
    have hle := alignUp_le_wrap (headerOf pre + 48) alignment
    omega
  obtain ⟨-, -, ha16⟩ := alignUp_spec (Nat.pos_of_ne_zero hpos) halign hnowrap hstart16
  obtain ⟨n, hn⟩ : ∃ n, alignUp (headerOf pre + 48) alignment = headerOf pre + 16 + n + 16 :=
    ⟨alignUp (headerOf pre + 48) alignment - headerOf pre - 32, by omega⟩
  have hn16 : 16 ∣ n := by omega
  rw [hn] at hlow hhigh
  have hsize : n + 16 ≤ b.size := by omega
  have hne : headerOf pre ≠ headerOf pre + 16 + n := by omega
  refine ⟨n, _, by omega, hsize, hn16, carve_eq hl.describes halloc hsize (by omega) hn, ?_⟩
  have hl' : LaidTo mMagic h kHeapEnd kHeapStart (pre ++ [b] ++ post) := by
    simpa using LaidFrom.laidTo hl
  refine (hl'.replace (by simpa using extent_cut (b := b) (n := n) (by omega)) ?_ ?_ ?_).laidFrom
  · intro y hy
    rw [extent_cons, extent_nil, b.len_eq, ← headerOf] at hy
    have hy1 : y ≠ headerOf pre := by omega
    have hy2 : y ≠ headerOf pre + 16 + n := by omega
    rw [Function.update_of_ne hy1, Function.update_of_ne hy2]
  · intro y c hmem
    rw [← headerOf] at hmem
    rcases (by simpa [cut, Block.len_eq, sizeofMemBlock, ← Nat.add_assoc] using hmem :
      (y = headerOf pre ∧ c = ⟨n, true⟩) ∨
        (y = headerOf pre + 16 + n ∧ c = ⟨b.size - n - 16, true⟩)) with
      ⟨rfl, rfl⟩ | ⟨rfl, rfl⟩
    · constructor <;> simp
    · constructor <;> simp [Function.update_of_ne hne.symm]
  · intro c hc
    rcases (by simpa [cut, sizeofMemBlock] using hc :
      c = ⟨n, true⟩ ∨ c = ⟨b.size - n - 16, true⟩) with rfl | rfl
    · exact hn16
    · change 16 ∣ b.size - n - 16
      omega

theorem takeHole_eq_cons (b : Block) (n : Nat) :
    takeHole b n = ⟨n, true⟩ :: (takeHole b n).tail := by
  unfold takeHole
  split <;> rfl

/-- `kmemalign` returns. It fails and leaves the heap alone; or it returns the
payload that `kmalloc` took; or it cuts that block, frees the part in front and
returns the payload of the part behind. -/
theorem kmemalign_spec {alignment size : Nat} (hl : Layout mMagic h bs)
    (halign : alignment < 2 ^ 32) (hfits : CarveFits h alignment size) (pid mflag : Nat) :
    kmemalign mMagic pid alignment size mflag h = some (null, h) ∨
      ∃ pre b post R h', bs = pre ++ b :: post ∧ Fits R b ∧ 16 ∣ R ∧
        ((kmemalign mMagic pid alignment size mflag h = some (headerOf pre + 16, h') ∧
            Layout mMagic h' (pre ++ takeHole b R ++ post)) ∨
          ∃ n, 16 ≤ n ∧ n + 16 ≤ R ∧ 16 ∣ n ∧
            kmemalign mMagic pid alignment size mflag h =
              some (headerOf pre + 16 + n + 16, h') ∧
            Layout mMagic h'
              (freeAt pre ⟨n, true⟩
                (⟨R - n - 16, true⟩ :: (takeHole b R).tail ++ post))) := by
  by_cases hzero : size = 0
  · exact Or.inl (by simp [kmemalign, hzero])
  have hrequest : wrap (size + alignment + 2 * sizeofMemBlock) < 2 ^ 32 := wrap_lt _
  rcases kmalloc_spec hl hrequest pid mflag with
    hfail | ⟨pre, b, post, h₁, rfl, _, hfit, hfirst, hret, hl₁⟩
  · exact Or.inl (by simp [kmemalign, hzero, hfail])
  have hbound := hl.bound
  have hR : roundSize (wrap (size + alignment + 2 * sizeofMemBlock)) =
      roundSize (wrap (size + alignment + 32)) := rfl
  have h16 := roundSize_dvd hrequest
  have hnull : headerOf pre + 16 ≠ null := by
    unfold null
    omega
  rw [hR] at hfit hfirst hl₁ h16
  refine Or.inr ⟨pre, b, post, roundSize (wrap (size + alignment + 32)), ?_⟩
  by_cases haligned : alignment = 0 ∨ (headerOf pre + 16) % alignment = 0
  · refine ⟨h₁, rfl, hfit, h16, Or.inl ⟨?_, hl₁⟩⟩
    rcases haligned with hzeroAlign | hdvd
    · subst hzeroAlign
      simp only [kmemalign, if_neg hzero, hret, if_neg hnull, if_true]
    · simp [kmemalign, hzero, hret, hnull, hdvd]
  · obtain ⟨hpos, hmod⟩ := not_or.mp haligned
    have hbest : findFree h (roundSize (wrap (size + alignment + 32))) walkFuel kHeapStart =
        some (headerOf pre) :=
      findFree_first hl hfit hfirst
    have hbestNull : headerOf pre ≠ null := by
      unfold null
      omega
    obtain ⟨hlow, hhigh⟩ := hfits _ hbest hzero hbestNull hpos hmod
    rw [takeHole_eq_cons, List.append_assoc, List.cons_append] at hl₁
    obtain ⟨n, h₂, hn, hnR, hn16, hcarve, hl₂⟩ := hl₁.carve rfl hpos halign hlow hhigh
    simp only [cut, List.cons_append, List.nil_append, List.append_assoc] at hl₂
    obtain ⟨h₃, hfree, hl₃⟩ := kfree_spec hl₂ rfl
    have hwrap : wrap (headerOf pre + 16 + n + sizeofMemBlock) = headerOf pre + 16 + n + 16 := by
      have hle := hfit.2
      change n + 16 ≤ roundSize (wrap (size + alignment + 32)) at hnR
      exact wrap_of_lt (by unfold sizeofMemBlock; omega)
    refine ⟨h₃, rfl, hfit, h16, Or.inr ⟨n, hn, hnR, hn16, ?_,
      by simpa [sizeofMemBlock] using hl₃⟩⟩
    simp [kmemalign, hzero, hret, hnull, hpos, hmod, hcarve, hfree, hwrap]

end OsdevArchive.Minirighi.Kmalloc
