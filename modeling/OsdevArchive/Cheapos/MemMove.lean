import Mathlib.Algebra.Order.Ring.Int
import Mathlib.Data.BitVec
import Mathlib.Data.List.Basic
import Mathlib.Tactic.Abel

/-!
`mem_copy` of cheapos (`mem.c`). It goes from byte to byte, but its loop moves four bytes at
a time, so that it writes three bytes more than it was asked to. It copies from one object to
another, whose places are integers, or within one memory, whose places are words.
-/

namespace OsdevArchive.Cheapos.MemCopy

section

variable {A : Type*} [Add A] [Sub A] [NatCast A] [DecidableEq A]

/-- `mov (%0),%eax; mov %eax,(%1)` -/
def movl (src : A → BitVec 8) (s : A) (dst : A → BitVec 8) (d : A) : A → BitVec 8 :=
  fun o => if o ∈ (List.range 4).map fun (j : Nat) => d + (j : A) then src (s + (o - d)) else dst o

/-- `mem_copy`. The source may be in the memory that is written: `src` is what a turn reads,
given what the turns before it have left. -/
def memCopy (src : (A → BitVec 8) → A → BitVec 8) (s : A) (dst : A → BitVec 8) (d : A)
    (size : Nat) : A → BitVec 8 :=
  (List.range size).foldl (fun m (i : Nat) => movl (src m) (s + (i : A)) m (d + (i : A))) dst

end

/-- The addresses that `mem_copy` writes. -/
def scritti (d : Int) (size : Nat) : List Int :=
  (List.range size).flatMap fun (i : Nat) => (List.range 4).map fun (j : Nat) => d + i + j

variable {src dst : Int → BitVec 8} {s d o : Int} {size : Nat}

theorem movl_apply : movl src s dst d o =
    if d ≤ o ∧ o < d + 4 then src (s + (o - d)) else dst o := by
  unfold movl
  apply if_congr _ rfl rfl
  simp only [List.mem_map, List.mem_range]
  constructor
  · rintro ⟨j, hj, rfl⟩
    omega
  · intro ho
    exact ⟨(o - d).toNat, by omega, by omega⟩

/-- From one object to another. -/
theorem memCopy_apply : memCopy (fun _ => src) s dst d size o =
    if 0 < size ∧ d ≤ o ∧ o < d + size + 3 then src (s + (o - d)) else dst o := by
  unfold memCopy
  induction size with
  | zero => rfl
  | succ n ih =>
    rw [List.range_succ, List.foldl_append, List.foldl_cons, List.foldl_nil, movl_apply]
    have hsame : s + n + (o - (d + n)) = s + (o - d) := by omega
    rw [ih, hsame]
    split
    · rw [if_pos (by omega)]
    · split
      · rw [if_pos (by omega)]
      · rw [if_neg (by omega)]

theorem mem_scritti : o ∈ scritti d size ↔ 0 < size ∧ d ≤ o ∧ o < d + size + 3 := by
  simp only [scritti, List.mem_flatMap, List.mem_map, List.mem_range]
  constructor
  · rintro ⟨i, hi, j, hj, rfl⟩
    omega
  · rintro ⟨hpos, hlow, hhigh⟩
    rcases Int.lt_or_le o (d + size) with hin | hend
    · exact ⟨(o - d).toNat, by omega, 0, by omega, by omega⟩
    · exact ⟨size - 1, by omega, (o - (d + size - 1)).toNat, by omega, by omega⟩

end OsdevArchive.Cheapos.MemCopy

/-!
`mem_copy` and `mem_clear` of cheapos (`mem.c`) in the one memory of the machine, whose
addresses are words. The loops go from byte to byte and move four bytes each time: the last
turns write three bytes behind the destination, and these may be read again where the source
lies right in front of it.
-/

namespace OsdevArchive.Cheapos.MemMove

/-- `mem_t`. -/
abbrev MemT := BitVec 32

abbrev Memoria := MemT → BitVec 8

/-- `xor %eax,%eax; mov %eax,(%0)` -/
def clrl (m : Memoria) (d : MemT) : Memoria :=
  fun o => if (o - d).toNat < 4 then 0 else m o

def memCopy (m : Memoria) (porigine pdestinazione size : MemT) : Bool × Memoria :=
  (true, MemCopy.memCopy id porigine m pdestinazione size.toNat)

def memClear (m : Memoria) (puntatore size : MemT) : Bool × Memoria :=
  (true, (List.range size.toNat).foldl (fun m i => clrl m (puntatore + .ofNat 32 i)) m)

/-- The ranges have no byte in common. -/
def Separate (s d size : MemT) : Prop :=
  ∀ i j, i < size.toNat → j < size.toNat → s + .ofNat 32 i ≠ d + .ofNat 32 j

/-- The bytes of the destination are those of the source, and the others are as before. -/
def Copiata (m m' : Memoria) (s d size : MemT) : Prop :=
  ∀ o, m' o = if (o - d).toNat < size.toNat then m (s + (o - d)) else m o

def Azzerata (m m' : Memoria) (d size : MemT) : Prop :=
  ∀ o, m' o = if (o - d).toNat < size.toNat then 0 else m o

/-- The byte that `mem_copy` leaves `j` bytes behind the destination: the one behind the
source, or if that is in the destination, where the source ends, what was copied there. -/
def dietro (m : Memoria) (s d size : MemT) (j : Nat) : BitVec 8 :=
  let p := s + size + .ofNat 32 j - d
  if 2 ≤ size.toNat ∧ p.toNat < 3 then m (s + p) else m (s + size + .ofNat 32 j)

/-- What `mem_copy` writes behind the destination is there already. -/
def CopiaInnocua (m : Memoria) (s d size : MemT) : Prop :=
  size = 0 ∨ ∀ j < 3, m (d + size + .ofNat 32 j) = dietro m s d size j

/-- The bytes behind the range, as far as they are not in it, are zero. -/
def ZeroInnocuo (m : Memoria) (d size : MemT) : Prop :=
  size = 0 ∨ ∀ j < 3, size.toNat + j < 2 ^ 32 → m (d + size + .ofNat 32 j) = 0

variable {m : Memoria} {s d size : MemT} {a i k n : Nat}

theorem toNat_sub_ofNat (hi : i < 2 ^ 32) (hk : k < 2 ^ 32) :
    (d + .ofNat 32 k - (d + .ofNat 32 i)).toNat = if i ≤ k then k - i else k + 2 ^ 32 - i := by
  rw [add_sub_add_left_eq_sub]
  split <;> bv_omega

theorem ofNat_toNat_sub (o d : MemT) : d + .ofNat 32 (o - d).toNat = o := by
  rw [BitVec.ofNat_toNat, BitVec.setWidth_eq]
  abel

theorem movl_apply (hi : i + 4 ≤ 2 ^ 32) (hk : k < 2 ^ 32) :
    MemCopy.movl m (s + .ofNat 32 i) m (d + .ofNat 32 i) (d + .ofNat 32 k) =
      if i ≤ k ∧ k < i + 4 then m (s + .ofNat 32 k) else m (d + .ofNat 32 k) := by
  have hsame : s + .ofNat 32 i + (d + .ofNat 32 k - (d + .ofNat 32 i)) = s + .ofNat 32 k := by
    abel
  rw [MemCopy.movl, hsame]
  apply if_congr _ rfl rfl
  simp only [List.mem_map, List.mem_range, add_assoc, add_right_inj]
  constructor
  · rintro ⟨j, hj, hplace⟩
    have hval := congrArg BitVec.toNat hplace
    simp only [BitVec.natCast_eq_ofNat, ← BitVec.ofNat_add, BitVec.toNat_ofNat] at hval
    omega
  · rintro ⟨hle, hlt⟩
    refine ⟨k - i, by omega, ?_⟩
    rw [BitVec.natCast_eq_ofNat, ← BitVec.ofNat_add, Nat.add_sub_cancel' hle]

/-- Addresses are taken from the destination on, around the end of the memory. -/
theorem add_ofNat_wrap (d : MemT) (k : Nat) : d + .ofNat 32 (k + 2 ^ 32) = d + .ofNat 32 k := by
  have hwrap : BitVec.ofNat 32 (k + 2 ^ 32) = .ofNat 32 k := by
    apply BitVec.eq_of_toNat_eq
    rw [BitVec.toNat_ofNat, BitVec.toNat_ofNat, Nat.add_mod_right]
  rw [hwrap]

theorem add_ofNat_back (d : MemT) (k : Nat) :
    d + .ofNat 32 (if k < 2 ^ 32 then k else k - 2 ^ 32) = d + .ofNat 32 k := by
  split
  · rfl
  · rw [← add_ofNat_wrap d (k - 2 ^ 32), Nat.sub_add_cancel (by omega)]

theorem source_eq (s d : MemT) (k : Nat) :
    s + .ofNat 32 k = d + .ofNat 32 ((s - d).toNat + k) := by
  rw [BitVec.ofNat_add, ← add_assoc, ofNat_toNat_sub]

/-- The places behind a range. -/
theorem add_size_ofNat (d size : MemT) (j : Nat) :
    d + size + .ofNat 32 j = d + .ofNat 32 (size.toNat + j) := by
  rw [BitVec.ofNat_add, BitVec.ofNat_toNat, BitVec.setWidth_eq, add_assoc]

theorem size_ne_zero (h : 0 < size.toNat) : size ≠ 0 := fun heq =>
  absurd (congrArg BitVec.toNat heq) (Nat.ne_of_gt h)

/-- Where the source lies, from the destination on. -/
theorem Separate.distance (h : Separate s d size) (hpos : 0 < size.toNat) :
    size.toNat ≤ (s - d).toNat ∧ (s - d).toNat + size.toNat ≤ 2 ^ 32 := by
  have hlt := (s - d).isLt
  constructor
  · by_contra hless
    apply h 0 (s - d).toNat hpos (by omega)
    rw [source_eq s d 0, Nat.add_zero]
  · by_contra hmore
    apply h (2 ^ 32 - (s - d).toNat) 0 (by omega) hpos
    have hend : (s - d).toNat + (2 ^ 32 - (s - d).toNat) = 0 + 2 ^ 32 := by omega
    rw [source_eq, hend, add_ofNat_wrap]

/-- The memory after some turns of the loop of `mem_copy`, `a` being the distance of the
source. A turn reads what earlier ones have written in two cases: behind a source that ends
where the destination starts, and from a source two bytes behind a destination of two. -/
def dopo (m : Memoria) (d : MemT) (a i k : Nat) : BitVec 8 :=
  if i = 0 ∨ i + 3 ≤ k then m (d + .ofNat 32 k)
  else if 2 ≤ i ∧ 2 ^ 32 ≤ a + k then m (d + .ofNat 32 (a + (a + k - 2 ^ 32)))
  else if i = 2 ∧ a = 2 ∧ k = 1 then m (d + .ofNat 32 5)
  else m (d + .ofNat 32 (a + k))

theorem dopo_zero : dopo m d a 0 k = m (d + .ofNat 32 k) := if_pos (.inl rfl)

theorem dopo_behind (h : i + 3 ≤ k) : dopo m d a i k = m (d + .ofNat 32 k) := if_pos (.inr h)

theorem dopo_wrap (hi : 2 ≤ i) (hk : k < i + 3) (hwrap : 2 ^ 32 ≤ a + k) :
    dopo m d a i k = m (d + .ofNat 32 (a + (a + k - 2 ^ 32))) := by
  rw [dopo, if_neg (by omega), if_pos ⟨hi, hwrap⟩]

/-- What a turn has written with a byte of the source as it was. -/
theorem dopo_plain (hi : 0 < i) (hk : k < i + 3) (hwrap : i = 1 ∨ a + k < 2 ^ 32)
    (hcorner : i ≠ 2 ∨ a ≠ 2 ∨ k ≠ 1) : dopo m d a i k = m (d + .ofNat 32 (a + k)) := by
  rw [dopo, if_neg (by omega), if_neg (by omega), if_neg (by omega)]

theorem dopo_corner : dopo m d 2 2 1 = m (d + .ofNat 32 5) := by
  rw [dopo, if_neg (by decide), if_neg (by decide), if_pos ⟨rfl, rfl, rfl⟩]

theorem dopo_succ (hi : i < n) (ha : n ≤ a) (han : a + n ≤ 2 ^ 32) :
    dopo m d a (i + 1) k =
      if i ≤ k ∧ k < i + 4 then dopo m d a i (if a + k < 2 ^ 32 then a + k else a + k - 2 ^ 32)
      else dopo m d a i k := by
  rcases Nat.eq_zero_or_pos i with rfl | hpos
  · rw [dopo_zero, dopo_zero]
    split
    · rw [dopo_plain Nat.one_pos (by omega) (.inl rfl) (.inl (by decide))]
      rw [add_ofNat_back]
    · rw [dopo_behind (by omega)]
  split
  · rename_i hwindow
    split
    · rename_i hlow
      by_cases hcorner : i = 1 ∧ a = 2 ∧ k = 1
      · -- the byte that is read was written in the turn before
        obtain ⟨rfl, rfl, rfl⟩ := hcorner
        rw [dopo_plain Nat.one_pos (by decide) (.inl rfl) (.inl (by decide)), dopo_corner]
      · rw [dopo_plain (by omega) (by omega) (.inr hlow) (by omega), dopo_behind (by omega)]
    · rename_i hhigh
      rw [dopo_wrap (by omega) (by omega) (by omega),
        dopo_plain hpos (by omega) (by omega) (by omega)]
  · rename_i hwindow
    by_cases hbefore : k < i
    · rw [dopo_plain (by omega) (by omega) (by omega) (by omega),
        dopo_plain hpos (by omega) (by omega) (by omega)]
    · rw [dopo_behind (by omega), dopo_behind (by omega)]

theorem memCopy_dopo (hi : i ≤ n) (ha : n ≤ (s - d).toNat) (han : (s - d).toNat + n ≤ 2 ^ 32)
    (hk : k < 2 ^ 32) :
    MemCopy.memCopy id s m d i (d + .ofNat 32 k) = dopo m d (s - d).toNat i k := by
  have hlt := (s - d).isLt
  simp only [MemCopy.memCopy, id_eq, BitVec.natCast_eq_ofNat]
  induction i generalizing k with
  | zero => exact dopo_zero.symm
  | succ i ih =>
    have hread : s + .ofNat 32 k = d + .ofNat 32 (if (s - d).toNat + k < 2 ^ 32
        then (s - d).toNat + k else (s - d).toNat + k - 2 ^ 32) := by
      rw [source_eq s d, add_ofNat_back]
    rw [List.range_succ, List.foldl_append, List.foldl_cons, List.foldl_nil,
      movl_apply (by omega) hk, hread, ih (by omega) (by split <;> omega), ih (by omega) hk,
      dopo_succ hi ha han]

theorem dietro_eq {j : Nat} (ha : size.toNat ≤ (s - d).toNat)
    (han : (s - d).toNat + size.toNat ≤ 2 ^ 32) (hpos : 0 < size.toNat) (hj : j < 3) :
    dietro m s d size j = dopo m d (s - d).toNat size.toNat (size.toNat + j) := by
  have hlt := (s - d).isLt
  have hsource : s + size + .ofNat 32 j = d + .ofNat 32 ((s - d).toNat + (size.toNat + j)) := by
    rw [← source_eq, add_size_ofNat]
  have hread : (s + size + .ofNat 32 j - d).toNat =
      if (s - d).toNat + (size.toNat + j) < 2 ^ 32 then (s - d).toNat + (size.toNat + j)
      else (s - d).toNat + (size.toNat + j) - 2 ^ 32 := by
    rw [hsource, ← add_ofNat_back, add_sub_cancel_left, BitVec.toNat_ofNat, Nat.mod_eq_of_lt]
    split <;> omega
  simp only [dietro]
  by_cases hwrap : 2 ≤ size.toNat ∧ 2 ^ 32 ≤ (s - d).toNat + (size.toNat + j)
  · rw [if_neg (by omega)] at hread
    rw [if_pos (by omega), dopo_wrap hwrap.1 (by omega) hwrap.2, ← hread, ← source_eq,
      BitVec.ofNat_toNat, BitVec.setWidth_eq]
  · rw [dopo_plain hpos (by omega) (by omega) (by omega), ← hsource]
    apply if_neg
    rintro ⟨htwo, hsmall⟩
    rw [hread, if_pos (by omega)] at hsmall
    omega

/-- `mem_copy` does what it should exactly when what it writes behind the destination is
there already. -/
theorem copiata_iff (h : Separate s d size) :
    Copiata m (memCopy m s d size).2 s d size ↔ CopiaInnocua m s d size := by
  rcases Nat.eq_zero_or_pos size.toNat with hzero | hpos
  · have hempty : size = 0 := BitVec.eq_of_toNat_eq hzero
    refine iff_of_true (fun o => ?_) (.inl hempty)
    rw [memCopy, hzero, if_neg (Nat.not_lt_zero _)]
    rfl
  · obtain ⟨ha, han⟩ := h.distance hpos
    have hafter : ∀ k < 2 ^ 32, (memCopy m s d size).2 (d + .ofNat 32 k) =
        dopo m d (s - d).toNat size.toNat k := fun k hk => memCopy_dopo (le_refl _) ha han hk
    rw [CopiaInnocua, or_iff_right (size_ne_zero hpos)]
    constructor
    · intro hcopy j hj
      have hbyte := hcopy (d + .ofNat 32 (size.toNat + j))
      rw [hafter _ (by omega), add_sub_cancel_left, BitVec.toNat_ofNat,
        Nat.mod_eq_of_lt (by omega), if_neg (by omega)] at hbyte
      rw [dietro_eq ha han hpos hj, hbyte, add_size_ofNat]
    · intro hthere o
      have hlt := (o - d).isLt
      have hbyte := hafter (o - d).toNat hlt
      rw [ofNat_toNat_sub] at hbyte
      have hdopo : ∀ j < 3, dopo m d (s - d).toNat size.toNat (size.toNat + j) =
          m (d + .ofNat 32 (size.toNat + j)) := by
        intro j hj
        rw [← dietro_eq ha han hpos hj, ← hthere j hj, add_size_ofNat]
      rw [hbyte]
      split
      · rename_i hin
        have hsource : s + (o - d) = d + .ofNat 32 ((s - d).toNat + (o - d).toNat) := by
          rw [← source_eq, BitVec.ofNat_toNat, BitVec.setWidth_eq]
        rw [hsource]
        generalize (o - d).toNat = k at *
        by_cases hcorner : size.toNat = 2 ∧ (s - d).toNat = 2 ∧ k = 1
        · -- the byte read again is the one that is behind the destination as well
          obtain ⟨htwo, hnext, rfl⟩ := hcorner
          have hagain := hdopo 1 (by decide)
          rw [htwo, hnext, dopo_plain (by decide) (by decide) (by decide) (by decide)] at hagain
          rw [htwo, hnext, dopo_corner, hagain]
        · rw [dopo_plain hpos (by omega) (by omega) (by omega)]
      · rename_i hout
        by_cases hnear : (o - d).toNat < size.toNat + 3
        · have hplace : size.toNat + ((o - d).toNat - size.toNat) = (o - d).toNat := by omega
          have hextra := hdopo ((o - d).toNat - size.toNat) (by omega)
          rw [hplace, ofNat_toNat_sub] at hextra
          exact hextra
        · rw [dopo_behind (by omega), ofNat_toNat_sub]

/-- Between objects that are far enough apart, `mem_copy` is what it is between two memories. -/
theorem memCopy_objects (ha : size.toNat + 3 ≤ (s - d).toNat)
    (han : (s - d).toNat + size.toNat + 3 ≤ 2 ^ 32) (hk : k < 2 ^ 32) :
    (memCopy m s d size).2 (d + .ofNat 32 k) =
      MemCopy.memCopy (fun _ o => m (s + .ofInt 32 o)) 0 (fun o => m (d + .ofInt 32 o)) 0
        size.toNat k := by
  have hafter : (memCopy m s d size).2 (d + .ofNat 32 k) = dopo m d (s - d).toNat size.toNat k :=
    memCopy_dopo (le_refl _) (by omega) (by omega) hk
  have hzero : (0 : Int) + (k - 0) = k := by omega
  rw [hafter, MemCopy.memCopy_apply, hzero, BitVec.ofInt_natCast]
  by_cases hwritten : 0 < size.toNat ∧ k < size.toNat + 3
  · rw [if_pos (by omega), dopo_plain hwritten.1 hwritten.2 (by omega) (by omega), ← source_eq]
  · rw [if_neg (by omega), dopo, if_pos (by omega)]

theorem memClear_apply (hi : i < 2 ^ 32) (hk : k < 2 ^ 32) :
    (List.range i).foldl (fun m i => clrl m (d + .ofNat 32 i)) m (d + .ofNat 32 k) =
      if 0 < i ∧ k < i + 3 then 0 else m (d + .ofNat 32 k) := by
  induction i with
  | zero => rfl
  | succ i ih =>
    rw [List.range_succ, List.foldl_append, List.foldl_cons, List.foldl_nil, clrl,
      toNat_sub_ofNat (by omega) hk, ih (by omega)]
    by_cases hle : i ≤ k
    · rw [if_pos hle]
      by_cases hnear : k < i + 4
      · rw [if_pos (by omega), if_pos (by omega)]
      · rw [if_neg (by omega), if_neg (by omega), if_neg (by omega)]
    · rw [if_neg hle, if_pos (show 0 < i ∧ k < i + 3 by omega), ite_self, if_pos (by omega)]

/-- `mem_clear` does what it should exactly when what it clears behind the range is zero. -/
theorem azzerata_iff :
    Azzerata m (memClear m d size).2 d size ↔ ZeroInnocuo m d size := by
  have hlt := size.isLt
  have hafter : ∀ k < 2 ^ 32, (memClear m d size).2 (d + .ofNat 32 k) =
      if 0 < size.toNat ∧ k < size.toNat + 3 then 0 else m (d + .ofNat 32 k) :=
    fun k hk => memClear_apply hlt hk
  rcases Nat.eq_zero_or_pos size.toNat with hzero | hpos
  · have hempty : size = 0 := BitVec.eq_of_toNat_eq hzero
    refine iff_of_true (fun o => ?_) (.inl hempty)
    rw [memClear, hzero, if_neg (Nat.not_lt_zero _)]
    rfl
  · rw [ZeroInnocuo, or_iff_right (size_ne_zero hpos)]
    constructor
    · intro hclear j hj hin
      have hbyte := hclear (d + .ofNat 32 (size.toNat + j))
      rw [hafter _ hin, add_sub_cancel_left, BitVec.toNat_ofNat, Nat.mod_eq_of_lt hin,
        if_pos (by omega), if_neg (by omega)] at hbyte
      rw [add_size_ofNat, hbyte]
    · intro hthere o
      have hbyte := hafter (o - d).toNat (o - d).isLt
      rw [ofNat_toNat_sub] at hbyte
      rw [hbyte]
      by_cases hin : (o - d).toNat < size.toNat
      · rw [if_pos (by omega), if_pos hin]
      · rw [if_neg hin]
        by_cases hnear : (o - d).toNat < size.toNat + 3
        · have hplace : size.toNat + ((o - d).toNat - size.toNat) = (o - d).toNat := by omega
          have hextra := hthere ((o - d).toNat - size.toNat) (by omega) (by omega)
          rw [add_size_ofNat, hplace, ofNat_toNat_sub] at hextra
          rw [if_pos ⟨hpos, hnear⟩, hextra]
        · rw [if_neg (by omega)]

/-- For which contents of the memory the two functions keep to their ranges. -/
theorem muove_iff (m : Memoria) :
    (∀ s d size, Separate s d size →
      (Copiata m (memCopy m s d size).2 s d size ↔ CopiaInnocua m s d size)) ∧
    ∀ d size, Azzerata m (memClear m d size).2 d size ↔ ZeroInnocuo m d size :=
  ⟨fun _ _ _ => copiata_iff, fun _ _ => azzerata_iff⟩

/-- A range in front of another one. -/
theorem separate_of_le (hfirst : s.toNat + size.toNat ≤ d.toNat)
    (hlast : d.toNat + size.toNat ≤ 2 ^ 32) : Separate s d size := by
  intro i j hi hj heq
  have hval := congrArg BitVec.toNat heq
  simp only [BitVec.toNat_add, BitVec.toNat_ofNat] at hval
  omega

/-- The bytes 1, 2, 3 and 4, and zeros behind them. -/
def quattro : Memoria := fun o => if o.toNat < 4 then o.setWidth 8 + 1 else 0

/-- Four bytes come to the address 16, and the four at the address 0 are cleared. -/
theorem muove_iff_quattro : Copiata quattro (memCopy quattro 0 16 4).2 0 16 4 ∧
    (memCopy quattro 0 16 4).2 18 = 3 ∧ Azzerata quattro (memClear quattro 0 4).2 0 4 ∧
    quattro 18 = 0 ∧ quattro 2 = 3 := by
  obtain ⟨hcopy, hclear⟩ := muove_iff quattro
  have hsep : Separate 0 16 4 := separate_of_le (by decide) (by decide)
  exact ⟨(hcopy 0 16 4 hsep).mpr (.inr (by decide)), by decide,
    (hclear 0 4).mpr (.inr (by decide)), by decide, by decide⟩

/-- Four bytes are copied, and the byte behind them is cleared. -/
theorem copy_spoils : Separate 0 16 4 ∧
    ¬ Copiata (fun o => if o = 20 then 1 else 0)
      (memCopy (fun o => if o = 20 then 1 else 0) 0 16 4).2 0 16 4 :=
  ⟨separate_of_le (by decide) (by decide), fun hcopy => absurd (hcopy 20) (by decide)⟩

end OsdevArchive.Cheapos.MemMove
