import OsdevArchive.Lib.Stretches
import OsdevArchive.Minirighi.Inet

/-!
The allocator of the DMA area (`drivers/dma/dma.c`). `dma_free_frames` has a byte for each frame;
a request gets the first frame behind which enough others are not busy. Nothing keeps the search
for these inside the array, and its flag says "found" also where no frame was free at all.
-/

namespace OsdevArchive.Minirighi.Dma

open OsdevArchive.Lib.Stretches OsdevArchive.Minirighi.Inet

/-- `DMA_MEMORY_START`. -/
def dmaMemoryStart : Nat := 0x3000

def dmaFreeFrame : Byte := 0

def dmaBusyFrame : Byte := 1

/-- `dma_memory_end`, by default 16M, is a multiple of the page size. -/
structure Area where
  dmaMemoryEnd : Nat
  aligned : dmaMemoryEnd % pageSize = 0
  above : dmaMemoryStart < dmaMemoryEnd
  below : dmaMemoryEnd ≤ 0x1000000

/-- `DMA_MEMORY_DIM / PAGE_SIZE`. -/
def Area.size (area : Area) : Nat := (area.dmaMemoryEnd - dmaMemoryStart) / pageSize

/-- `DMA_FRAME_ADDR( i )`. -/
def dmaFrameAddr (i : Nat) : Nat := if i < dmaMemoryStart then 0 else i - dmaMemoryStart

/-- The memory from `dma_free_frames` on, in which the area has its bytes. -/
structure FrameMap (area : Area) where
  bytes : Nat → Byte
  valid : ∀ i < area.size, bytes i = dmaFreeFrame ∨ bytes i = dmaBusyFrame

/-! ### The functions -/

/-- The loop over `j` that looks for a busy frame, `n` more times. -/
def look (m : Nat → Byte) (i : Nat) : Nat → Nat → Option Nat
  | 0, _ => none
  | n + 1, j => if m (i + j) = dmaBusyFrame then some j else look m i n (j + 1)

/-- A loop that marks `n` frames. -/
def mark (kind : Byte) (m : Nat → Byte) (i : Nat) : Nat → Nat → Byte
  | 0 => m
  | n + 1 => mark kind (Function.update m i kind) (i + 1) n

/-- The variables behind the loop of `dma_phys_alloc`. -/
structure Found where
  i : Nat
  flag : Bool
  bytes : Nat → Byte

/-- The loop of `dma_phys_alloc` for a request of `k` frames, in an area of `size` frames. -/
def search (m : Nat → Byte) (k size : Nat) : Nat → Nat → Bool → Found
  | 0, i, flag => ⟨i, flag, m⟩
  | fuel + 1, i, flag =>
    if m i = dmaFreeFrame then
      match look m i (k - 1) 1 with
      | some j =>
        if i + j + 1 < size then search m k size fuel (i + j + 1) true
        else ⟨i + j + 1, true, m⟩
      | none => ⟨i, false, mark dmaBusyFrame m i k⟩
    else if i + 1 < size then search m k size fuel (i + 1) flag
    else ⟨i + 1, flag, m⟩

/-- `dma_phys_alloc`: the address, or null, and the frames. -/
def dmaPhysAlloc (area : Area) (len : BitVec 32) (m : Nat → Byte) : Nat × (Nat → Byte) :=
  if len = 0 then (null, m)
  else
    let found := search m (pageAlignUp len.toNat / pageSize) area.size area.size 0 false
    if found.flag then (null, found.bytes)
    else (wrap (found.i * pageSize + dmaMemoryStart), found.bytes)

/-- The loop of `dma_phys_free`: from `i` up to `last`, and not behind the area. -/
def freeLoop (size last : Nat) : Nat → Nat → (Nat → Byte) → Nat → Byte
  | 0, _, m => m
  | fuel + 1, i, m =>
    if i < last then
      let m := Function.update m i dmaFreeFrame
      if size ≤ i + 1 then m else freeLoop size last fuel (i + 1) m
    else m

/-- `dma_phys_free`. -/
def dmaPhysFree (area : Area) (dmaStart : Nat) (len : BitVec 32) (m : Nat → Byte) : Nat → Byte :=
  if len = 0 then m
  else if dmaMemoryStart ≤ dmaStart ∧ dmaStart < area.dmaMemoryEnd then
    freeLoop (dmaFrameAddr area.dmaMemoryEnd / pageSize)
      (dmaFrameAddr (wrap (dmaStart + pageAlignUp len.toNat)) / pageSize) area.size
      (dmaFrameAddr dmaStart / pageSize) m
  else m

/-! ### What they have to do -/

/-- The frames that a request needs. -/
def needed (len : BitVec 32) : Nat := (len.toNat + 4095) / 4096

/-- A frame is free. -/
def Free (m : Nat → Byte) (i : Nat) : Prop := m i = dmaFreeFrame

/-- A request gets free frames inside the area if there are enough in a row, and giving them
back undoes it. -/
structure Serves (area : Area) (len : BitVec 32) (m : Nat → Byte) : Prop where
  fails : (dmaPhysAlloc area len m).1 = null ↔
    len = 0 ∨ ¬HasStretch (Free m) area.size (needed len)
  unchanged : (dmaPhysAlloc area len m).1 = null → (dmaPhysAlloc area len m).2 = m
  takes : (dmaPhysAlloc area len m).1 ≠ null → ∃ i,
    (dmaPhysAlloc area len m).1 = dmaMemoryStart + i * pageSize ∧
      i + needed len ≤ area.size ∧ Stretch (Free m) i (needed len) ∧
      ∀ a, (dmaPhysAlloc area len m).2 a =
        if i ≤ a ∧ a < i + needed len then dmaBusyFrame else m a
  restores : (dmaPhysAlloc area len m).1 ≠ null →
    dmaPhysFree area (dmaPhysAlloc area len m).1 len (dmaPhysAlloc area len m).2 = m

/-- The search starts at a free frame from which it leaves the area and meets no busy one. -/
def Overruns (m : Nat → Byte) (size k : Nat) : Prop :=
  ∃ i < size, Free m i ∧ size < i + k ∧ ∀ a, i < a → a < i + k → m a ≠ dmaBusyFrame

/-- The rounded length is a word, some frame is free, and the search does not leave the area. -/
def Sensible (area : Area) (len : BitVec 32) (m : Nat → Byte) : Prop :=
  len = 0 ∨ len.toNat ≤ 2 ^ 32 - pageSize ∧ (∃ i < area.size, Free m i) ∧
    (HasStretch (Free m) area.size (needed len) ∨ ¬Overruns m area.size (needed len))

variable {area : Area} {len : BitVec 32} {m : Nat → Byte} {i j k n size : Nat}

/-! ### The loops -/

theorem look_none : look m i n j = none ↔ ∀ t, j ≤ t → t < j + n → m (i + t) ≠ dmaBusyFrame := by
  induction n generalizing j with
  | zero => exact iff_of_true rfl fun t hle hlt => by omega
  | succ n ih =>
    rw [look]
    split
    · rename_i hbusy
      constructor
      · intro h
        cases h
      · intro h
        exact absurd hbusy (h j (Nat.le_refl j) (by omega))
    · rename_i hbusy
      rw [ih]
      constructor
      · intro h t hle hlt
        rcases Nat.eq_or_lt_of_le hle with rfl | hgt
        · exact hbusy
        · exact h t hgt (by omega)
      · intro h t hle hlt
        exact h t (by omega) (by omega)

theorem look_some (h : look m i n j = some k) : j ≤ k ∧ k < j + n ∧ m (i + k) = dmaBusyFrame := by
  induction n generalizing j with
  | zero => cases h
  | succ n ih =>
    rw [look] at h
    split at h
    · obtain rfl := Option.some.inj h
      exact ⟨Nat.le_refl j, by omega, ‹_›⟩
    · obtain ⟨hle, hlt, hbusy⟩ := ih h
      exact ⟨by omega, by omega, hbusy⟩

theorem mark_apply (kind : Byte) (a : Nat) :
    mark kind m i n a = if i ≤ a ∧ a < i + n then kind else m a := by
  induction n generalizing m i with
  | zero => rw [mark, if_neg (by omega)]
  | succ n ih =>
    rw [mark, ih, Function.update_apply]
    by_cases ha : a = i
    · rw [if_neg (by omega), if_pos ha, if_pos (by omega)]
    · by_cases hin : i + 1 ≤ a ∧ a < i + 1 + n
      · rw [if_pos hin, if_pos (by omega)]
      · rw [if_neg hin, if_neg ha, if_neg (by omega)]

theorem freeLoop_apply {last fuel : Nat} (hfuel : last ≤ i + fuel) (hlast : last ≤ size) (a : Nat) :
    freeLoop size last fuel i m a = if i ≤ a ∧ a < last then dmaFreeFrame else m a := by
  induction fuel generalizing m i with
  | zero => rw [freeLoop, if_neg (by omega)]
  | succ fuel ih =>
    rw [freeLoop]
    split
    · rename_i hlt
      dsimp only
      split
      · rw [Function.update_apply]
        by_cases ha : a = i
        · rw [if_pos ha, if_pos (by omega)]
        · rw [if_neg ha, if_neg (by omega)]
      · rw [ih (by omega), Function.update_apply]
        by_cases ha : a = i
        · rw [if_neg (by omega), if_pos ha, if_pos (by omega)]
        · by_cases hin : i + 1 ≤ a ∧ a < last
          · rw [if_pos hin, if_pos (by omega)]
          · rw [if_neg hin, if_neg ha, if_neg (by omega)]
    · rw [if_neg (by omega)]

/-- Where the search stops: at a free frame with no busy one among those behind it. -/
def Stops (m : Nat → Byte) (k i : Nat) : Prop :=
  Free m i ∧ ∀ a, i < a → a < i + k → m a ≠ dmaBusyFrame

theorem look_stops (hfree : Free m i) : look m i (k - 1) 1 = none ↔ Stops m k i := by
  rw [look_none, Stops, and_iff_right hfree]
  constructor
  · intro h a hlt hend
    have ha := h (a - i) (by omega) (by omega)
    rwa [Nat.add_sub_cancel' (Nat.le_of_lt hlt)] at ha
  · intro h t hle hlt
    exact h (i + t) (by omega) (by omega)

/-- What the search comes to from `i` on. -/
inductive Searched (m : Nat → Byte) (k size i : Nat) (flag : Bool) : Found → Prop where
  | found (a : Nat) : i ≤ a → a < size → Stops m k a → (∀ b, i ≤ b → b < a → ¬Stops m k b) →
      Searched m k size i flag ⟨a, false, mark dmaBusyFrame m a k⟩
  | failed (a : Nat) (flag' : Bool) : (∀ b, i ≤ b → b < size → ¬Stops m k b) →
      (flag' = true ↔ flag = true ∨ ∃ b, i ≤ b ∧ b < size ∧ Free m b) →
      (flag' = false → a = size) → Searched m k size i flag ⟨a, flag', m⟩

/-- A search that goes on behind frames at which it cannot stop. -/
theorem Searched.earlier {flag flag' : Bool} {found : Found} {next : Nat}
    (h : Searched m k size next flag' found) (hle : i ≤ next)
    (hskip : ∀ b, i ≤ b → b < next → ¬Stops m k b)
    (hflag : flag' = true ↔ flag = true ∨ ∃ b, i ≤ b ∧ b < next ∧ b < size ∧ Free m b) :
    Searched m k size i flag found := by
  have hall : ∀ a, (∀ b, next ≤ b → b < a → ¬Stops m k b) →
      ∀ b, i ≤ b → b < a → ¬Stops m k b := by
    intro a hlater b hb hba
    rcases Nat.lt_or_ge b next with hlt | hge
    · exact hskip b hb hlt
    · exact hlater b hge hba
  cases h with
  | found a hna ha hstops hfirst => exact .found a (by omega) ha hstops (hall a hfirst)
  | failed a f hnone hf hsize =>
    refine .failed a f (hall size hnone) ?_ hsize
    rw [hf, hflag]
    constructor
    · rintro ((h | ⟨b, hb, -, hbs, hfree⟩) | ⟨b, hb, hbs, hfree⟩)
      · exact Or.inl h
      · exact Or.inr ⟨b, hb, hbs, hfree⟩
      · exact Or.inr ⟨b, by omega, hbs, hfree⟩
    · rintro (h | ⟨b, hb, hbs, hfree⟩)
      · exact Or.inl (Or.inl h)
      · rcases Nat.lt_or_ge b next with hlt | hge
        · exact Or.inl (Or.inr ⟨b, hb, hlt, hbs, hfree⟩)
        · exact Or.inr ⟨b, hge, hbs, hfree⟩

/-- The search has come to the end of the area. -/
theorem searched_end {flag : Bool} (hend : size ≤ i) (hflag : flag = false → i = size) :
    Searched m k size i flag ⟨i, flag, m⟩ := by
  refine .failed i flag (fun b hb hbs => by omega) ?_ hflag
  constructor
  · exact Or.inl
  · rintro (h | ⟨b, hb, hbs, -⟩)
    · exact h
    · omega

theorem search_spec {fuel : Nat} {flag : Bool} (hi : i < size) (hfuel : size ≤ i + fuel) :
    Searched m k size i flag (search m k size fuel i flag) := by
  induction fuel generalizing i flag with
  | zero => omega
  | succ fuel ih =>
    rw [search]
    split
    · rename_i hfree
      split
      · rename_i j hlook
        obtain ⟨hj, hjk, hbusy⟩ := look_some hlook
        have hskip : ∀ b, i ≤ b → b < i + j + 1 → ¬Stops m k b := by
          rintro b hb hlt ⟨hbfree, hstop⟩
          rcases Nat.eq_or_lt_of_le (Nat.le_of_lt_succ hlt) with rfl | hbj
          · rw [Free, hbusy] at hbfree
            exact absurd hbfree (by decide)
          · exact hstop (i + j) hbj (by omega) hbusy
        have hflag : true = true ↔
            flag = true ∨ ∃ b, i ≤ b ∧ b < i + j + 1 ∧ b < size ∧ Free m b :=
          iff_of_true rfl (Or.inr ⟨i, Nat.le_refl i, by omega, hi, hfree⟩)
        split
        · rename_i hlt
          exact (ih hlt (by omega)).earlier (by omega) hskip hflag
        · rename_i hge
          have hdone : Searched m k size (i + j + 1) true ⟨i + j + 1, true, m⟩ :=
            searched_end (by omega) fun h => Bool.noConfusion h
          exact hdone.earlier (by omega) hskip hflag
      · rename_i hlook
        refine .found i (Nat.le_refl i) hi ((look_stops hfree).mp hlook) ?_
        intro b hb hlt
        omega
    · rename_i hbusy
      have hskip : ∀ b, i ≤ b → b < i + 1 → ¬Stops m k b := by
        rintro b hb hlt ⟨hbfree, -⟩
        obtain rfl : b = i := by omega
        exact hbusy hbfree
      have hflag : flag = true ↔
          flag = true ∨ ∃ b, i ≤ b ∧ b < i + 1 ∧ b < size ∧ Free m b := by
        constructor
        · exact Or.inl
        · rintro (h | ⟨b, hb, hlt, -, hbfree⟩)
          · exact h
          · obtain rfl : b = i := by omega
            exact absurd hbfree hbusy
      split
      · rename_i hlt
        exact (ih hlt (by omega)).earlier (by omega) hskip hflag
      · rename_i hge
        have hdone : Searched m k size (i + 1) flag ⟨i + 1, flag, m⟩ :=
          searched_end (by omega) fun _ => by omega
        exact hdone.earlier (by omega) hskip hflag

/-! ### The area -/

theorem Area.end_eq (area : Area) : area.dmaMemoryEnd = dmaMemoryStart + area.size * pageSize := by
  have haligned := area.aligned
  have habove := area.above
  unfold Area.size dmaMemoryStart pageSize at *
  omega

theorem Area.size_pos (area : Area) : 0 < area.size := by
  have hend := area.end_eq
  have habove := area.above
  unfold dmaMemoryStart pageSize at *
  omega

theorem Area.size_lt (area : Area) : area.size < 4096 := by
  have hend := area.end_eq
  have hbelow := area.below
  unfold dmaMemoryStart pageSize at *
  omega

theorem frame_div {a : Nat} : dmaFrameAddr (dmaMemoryStart + a * pageSize) / pageSize = a := by
  unfold dmaFrameAddr dmaMemoryStart pageSize
  split <;> omega

/-- What the code takes for the number of frames. -/
theorem frames_eq : pageAlignUp len.toNat / pageSize =
    if len.toNat ≤ 2 ^ 32 - pageSize then needed len else 0 := by
  rw [pageAlignUp_eq len.isLt]
  unfold pageSize needed
  split <;> omega

theorem needed_pos (h : len ≠ 0) : 0 < needed len := by
  have hpos : len.toNat ≠ 0 := fun hzero => h (BitVec.eq_of_toNat_eq hzero)
  unfold needed
  omega

/-! ### `dma_phys_alloc` -/

/-- What `dma_phys_alloc` returns: the first frame at which the search stops, or null, or the end
of the area where no frame is free. -/
theorem dmaPhysAlloc_spec (area : Area) (m : Nat → Byte) (hlen : len ≠ 0)
    (hk : k = pageAlignUp len.toNat / pageSize) :
    (∃ i < area.size, Stops m k i ∧ (∀ b < i, ¬Stops m k b) ∧
      dmaPhysAlloc area len m = (dmaMemoryStart + i * pageSize, mark dmaBusyFrame m i k)) ∨
    (∀ b < area.size, ¬Stops m k b) ∧
      ((∃ b < area.size, Free m b) ∧ dmaPhysAlloc area len m = (null, m) ∨
        (¬∃ b < area.size, Free m b) ∧ dmaPhysAlloc area len m = (area.dmaMemoryEnd, m)) := by
  have hsize := area.size_lt
  have haddress : ∀ i ≤ area.size,
      wrap (i * pageSize + dmaMemoryStart) = dmaMemoryStart + i * pageSize := by
    intro i hi
    unfold pageSize dmaMemoryStart
    rw [wrap_of_lt (by omega), Nat.add_comm]
  have hsearch : Searched m k area.size 0 false (search m k area.size area.size 0 false) :=
    search_spec area.size_pos (by omega)
  have halloc : ∀ found, search m k area.size area.size 0 false = found →
      dmaPhysAlloc area len m =
        if found.flag then (null, found.bytes)
        else (wrap (found.i * pageSize + dmaMemoryStart), found.bytes) := by
    rintro found rfl
    rw [dmaPhysAlloc, if_neg hlen, ← hk]
  generalize search m k area.size area.size 0 false = found at hsearch halloc
  have halloc := halloc found rfl
  cases hsearch with
  | found i _ hi hstops hfirst =>
    refine Or.inl ⟨i, hi, hstops, fun b => hfirst b (Nat.zero_le b), ?_⟩
    rw [halloc, if_neg Bool.false_ne_true, haddress i (Nat.le_of_lt hi)]
  | failed i flag hnone hflag hend =>
    refine Or.inr ⟨fun b => hnone b (Nat.zero_le b), ?_⟩
    have hiff : flag = true ↔ ∃ b < area.size, Free m b := by
      rw [hflag]
      simp
    cases flag with
    | true =>
      refine Or.inl ⟨hiff.mp rfl, ?_⟩
      rw [halloc, if_pos rfl]
    | false =>
      refine Or.inr ⟨fun h => Bool.false_ne_true (hiff.mpr h), ?_⟩
      rw [halloc, if_neg Bool.false_ne_true]
      dsimp only
      rw [hend rfl, haddress _ (Nat.le_refl _), area.end_eq]

/-- Inside the area, stopping means that there are enough free frames. -/
theorem FrameMap.stretch_of_stops (f : FrameMap area) (h : Stops f.bytes k i)
    (hend : i + k ≤ area.size) : Stretch (Free f.bytes) i k := by
  intro a hle hlt
  rcases Nat.eq_or_lt_of_le hle with rfl | hgt
  · exact h.1
  · exact (f.valid a (by omega)).resolve_right (h.2 a hgt hlt)

theorem stops_of_stretch (hk : 0 < k) (h : Stretch (Free m) i k) : Stops m k i := by
  refine ⟨h i (Nat.le_refl i) (by omega), ?_⟩
  intro a hlt hend hbusy
  have hfree : m a = dmaFreeFrame := h a (Nat.le_of_lt hlt) hend
  rw [hbusy] at hfree
  exact absurd hfree (by decide)

theorem ne_null (i : Nat) : dmaMemoryStart + i * pageSize ≠ null := by
  unfold dmaMemoryStart null
  omega

/-- What was taken inside the area is given back. -/
theorem dmaPhysFree_mark (hlen : len ≠ 0) (hround : len.toNat ≤ 2 ^ 32 - pageSize)
    (hend : i + needed len ≤ area.size) (hfree : Stretch (Free m) i (needed len)) :
    dmaPhysFree area (dmaMemoryStart + i * pageSize) len (mark dmaBusyFrame m i (needed len)) =
      m := by
  have hpos := needed_pos hlen
  have hsize := area.size_lt
  have harea := area.end_eq
  have hup : pageAlignUp len.toNat = needed len * pageSize := by
    rw [pageAlignUp_eq len.isLt, if_pos hround]
    rfl
  have hlast : wrap (dmaMemoryStart + i * pageSize + needed len * pageSize) =
      dmaMemoryStart + (i + needed len) * pageSize := by
    rw [wrap_of_lt]
    · rw [Nat.add_mul, Nat.add_assoc]
    · unfold dmaMemoryStart pageSize
      omega
  have hin : dmaMemoryStart ≤ dmaMemoryStart + i * pageSize ∧
      dmaMemoryStart + i * pageSize < area.dmaMemoryEnd := by
    unfold dmaMemoryStart pageSize at *
    omega
  rw [dmaPhysFree, if_neg hlen, if_pos hin, hup, hlast, frame_div, frame_div, harea, frame_div]
  funext a
  rw [freeLoop_apply (by omega) hend, mark_apply]
  split
  · rename_i ha
    exact (hfree a ha.1 ha.2).symm
  · rfl

/-! ### The exact condition -/

theorem serves_of_sensible (f : FrameMap area) (h : Sensible area len f.bytes) :
    Serves area len f.bytes := by
  by_cases hlen : len = 0
  · have hnull : dmaPhysAlloc area len f.bytes = (null, f.bytes) := by
      rw [dmaPhysAlloc, if_pos hlen]
    constructor
    · rw [hnull]
      exact iff_of_true rfl (Or.inl hlen)
    · rw [hnull]
      exact fun _ => rfl
    · rw [hnull]
      exact fun hne => absurd rfl hne
    · rw [hnull]
      exact fun hne => absurd rfl hne
  · obtain ⟨hround, hsome, hinside⟩ := h.resolve_left hlen
    have hpos := needed_pos hlen
    have hk : needed len = pageAlignUp len.toNat / pageSize := by rw [frames_eq, if_pos hround]
    rcases dmaPhysAlloc_spec area f.bytes hlen hk with
      ⟨i, hi, hstops, hfirst, halloc⟩ | ⟨hnone, ⟨-, halloc⟩ | ⟨hfree, -⟩⟩
    · have hend : i + needed len ≤ area.size := by
        by_contra hover
        rcases hinside with ⟨a, ha, hstretch⟩ | hno
        · have hbelow : a < i := by omega
          exact hfirst a hbelow (stops_of_stretch hpos hstretch)
        · exact hno ⟨i, hi, hstops.1, by omega, hstops.2⟩
      have hstretch := f.stretch_of_stops hstops hend
      constructor
      · rw [halloc]
        apply iff_of_false (ne_null i)
        rintro (hzero | hno)
        · exact hlen hzero
        · exact hno ⟨i, hend, hstretch⟩
      · rw [halloc]
        exact fun heq => absurd heq (ne_null i)
      · rw [halloc]
        exact fun _ => ⟨i, rfl, hend, hstretch, mark_apply dmaBusyFrame⟩
      · rw [halloc]
        exact fun _ => dmaPhysFree_mark hlen hround hend hstretch
    · constructor
      · rw [halloc]
        refine iff_of_true rfl (Or.inr ?_)
        rintro ⟨a, ha, hstretch⟩
        exact hnone a (by omega) (stops_of_stretch hpos hstretch)
      · rw [halloc]
        exact fun _ => rfl
      · rw [halloc]
        exact fun hne => absurd rfl hne
      · rw [halloc]
        exact fun hne => absurd rfl hne
    · exact absurd hsome hfree

theorem sensible_of_serves (f : FrameMap area) (h : Serves area len f.bytes) :
    Sensible area len f.bytes := by
  by_cases hlen : len = 0
  · exact Or.inl hlen
  · right
    have hsize := area.size_lt
    have hpos := needed_pos hlen
    have hfails := h.fails
    rw [or_iff_right hlen] at hfails
    have hend : area.dmaMemoryEnd ≠ null := by
      rw [area.end_eq]
      exact ne_null area.size
    rcases dmaPhysAlloc_spec area f.bytes hlen rfl with
      ⟨i, hi, hstops, -, halloc⟩ | ⟨hnone, ⟨hsome, halloc⟩ | ⟨hfree, halloc⟩⟩
    · rw [halloc] at hfails
      have hstretch := not_not.mp (mt hfails.mpr (ne_null i))
      have hround : len.toNat ≤ 2 ^ 32 - pageSize := by
        obtain ⟨a, ha, -⟩ := hstretch
        unfold needed at ha
        unfold pageSize
        omega
      exact ⟨hround, ⟨i, hi, hstops.1⟩, Or.inl hstretch⟩
    · have hround : len.toNat ≤ 2 ^ 32 - pageSize := by
        by_contra hbig
        obtain ⟨b, hb, hbfree⟩ := hsome
        apply hnone b hb
        refine ⟨hbfree, ?_⟩
        rw [frames_eq, if_neg hbig]
        intro a hlt hgt
        omega
      refine ⟨hround, hsome, Or.inr ?_⟩
      rintro ⟨i, hi, hifree, -, hbehind⟩
      apply hnone i hi
      rw [frames_eq, if_pos hround]
      exact ⟨hifree, hbehind⟩
    · rw [halloc] at hfails
      have hstretch := not_not.mp (mt hfails.mpr hend)
      obtain ⟨a, ha, hstretch⟩ := hstretch
      exact absurd ⟨a, by omega, hstretch a (Nat.le_refl a) (by omega)⟩ hfree

/-- The allocator does what it should exactly for a request that is rounded to a word, with a free
frame in the area, unless the search leaves the area. -/
theorem serves_iff (area : Area) (f : FrameMap area) (len : BitVec 32) :
    Serves area len f.bytes ↔ Sensible area len f.bytes :=
  ⟨sensible_of_serves f, serves_of_sensible f⟩

def dma16 : Area := ⟨0x1000000, by decide, by decide, by decide⟩

/-- Every frame is in use. -/
def allBusy : FrameMap dma16 := ⟨fun _ => dmaBusyFrame, fun _ _ => Or.inr rfl⟩

/-- One byte is asked for: the address behind the area is returned. -/
theorem allBusy_served : ¬Serves dma16 1 allBusy.bytes := by
  intro h
  rcases sensible_of_serves allBusy h with hzero | ⟨-, ⟨i, -, hfree⟩, -⟩
  · exact absurd hzero (by decide)
  · have hbyte : dmaBusyFrame = dmaFreeFrame := hfree
    exact absurd hbyte (by decide)

end OsdevArchive.Minirighi.Dma
