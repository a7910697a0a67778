import OsdevArchive.Lib.Counting
import OsdevArchive.Lib.Runs
import Mathlib.Algebra.BigOperators.Fin
import Mathlib.Data.Fintype.Sum

/-!
The memory of cheapos (`mem.c`): a table of regions in use and a table of free ones.
`mem_alloc` cuts a region from a free one, `mem_free` moves it back, and `mem_defrag`
joins free regions that touch. Sizes and addresses are 32-bit words.
-/

namespace OsdevArchive.Cheapos.Mem

open OsdevArchive.Lib.Cover OsdevArchive.Lib.Counting OsdevArchive.Lib.Runs

/-- `mem_t`. -/
abbrev MemT := BitVec 32

/-- `mem_elemento_t`. -/
structure Elemento where
  base : MemT
  size : MemT
  flag : Bool

def memTbSize : Nat := 20 * 1024

def memTbRazio : Nat := 2

/-- `sizeof(struct mem_elemento_t)`. -/
def elementoSize : Nat := 12

/-- `mem_used_size`. -/
@[irreducible] def memUsedSize : Nat := memTbSize / elementoSize / memTbRazio

/-- `mem_free_size`. -/
@[irreducible] def memFreeSize : Nat := memTbSize / elementoSize - memUsedSize

/-- `MEM_RESERVED1`: kernel stack, DMA buffer and these tables, from address 0. -/
def memReserved1 : MemT := 0x7E00 + 512 + 24 * 1024

/-- `MEM_RESERVED2`: BIOS and kernel code, from 640 kB. -/
def memReserved2 : MemT := (384 + 300) * 1024

/-- The tables, `mem_usata_size` and `mem_libera_size`. -/
structure Tables where
  used : Fin memUsedSize → Elemento
  free : Fin memFreeSize → Elemento
  usata : MemT
  libera : MemT

def Elemento.vuoto : Elemento := { base := 0, size := 0, flag := false }

/-- What is left of a free region when its first `size` bytes are taken. -/
def Elemento.resto (e : Elemento) (size : MemT) : Elemento where
  base := e.base + size
  size := e.size - size
  flag := e.flag && e.size - size != 0

/-- A table with its first two entries set. -/
def tabella {n : Nat} (x y : Elemento) (i : Fin n) : Elemento :=
  if i.val = 0 then x else if i.val = 1 then y else .vuoto

/-- The area at address 0 that is reserved for the kernel. -/
def riservata1 : Elemento := { base := 0, size := memReserved1, flag := true }

/-- The area that is reserved for the BIOS and the code of the kernel. -/
def riservata2 : Elemento := { base := 640 * 1024, size := memReserved2, flag := true }

/-- The rest of the first 640 kB. -/
def libera1 : Elemento :=
  { base := memReserved1, size := 640 * 1024 - memReserved1, flag := true }

/-- The memory behind the kernel. -/
def libera2 (totale : MemT) : Elemento :=
  { base := memReserved2 + 640 * 1024, size := totale - (memReserved2 + 640 * 1024), flag := true }

/-- `mem_init` on a machine with `mb` megabytes, as `mem_conta_memoria` counts them. -/
def memInit (mb : Nat) : Tables where
  used := tabella riservata1 riservata2
  free := tabella libera1 (libera2 (.ofNat 32 (mb * 2 ^ 20)))
  usata := memReserved1 + memReserved2
  libera := .ofNat 32 (mb * 2 ^ 20) - (memReserved1 + memReserved2)

/-- A `for` loop up to the first entry that meets the condition. -/
def cerca {n : Nat} (p : Fin n → Bool) : Option (Fin n) := (List.finRange n).find? p

/-- The padding of a request to the next multiple of 1024. -/
def padding (requestsize : MemT) : MemT := requestsize + (1024 - requestsize % 1024)

namespace Tables

variable (s : Tables)

/-- The exchange of `mem_alloc`: the first `size` bytes of free region `i` become used
region `j`. -/
def take (i : Fin memFreeSize) (j : Fin memUsedSize) (size : MemT) : Tables where
  used := Function.update s.used j { base := (s.free i).base, size := size, flag := true }
  free := Function.update s.free i ((s.free i).resto size)
  usata := s.usata + size
  libera := s.libera - size

/-- `mem_alloc`. -/
def memAlloc (requestsize : MemT) : MemT × Tables :=
  let requestsize := padding requestsize
  match cerca fun i => (s.free i).flag && decide (requestsize ≤ (s.free i).size) with
  | none => (0, s)
  | some i =>
    match cerca fun j => !(s.used j).flag with
    | none => (0, s)
    | some j => ((s.free i).base, s.take i j requestsize)

/-- The exchange of `mem_free`. -/
def give (i : Fin memUsedSize) (j : Fin memFreeSize) : Tables where
  used := Function.update s.used i { s.used i with flag := false }
  free := Function.update s.free j (s.used i)
  usata := s.usata - (s.used i).size
  libera := s.libera + (s.used i).size

/-- `mem_free`. -/
def memFree (puntatore : MemT) : Bool × Tables :=
  match cerca fun i => (s.used i).flag && (s.used i).base == puntatore with
  | none => (false, s)
  | some i =>
    match cerca fun j => !(s.free j).flag with
    | none => (false, s)
    | some j => (true, s.give i j)

/-- Free region `j` is joined to region `i`. -/
def fondi (i j : Fin memFreeSize) : Tables :=
  let e := { s.free i with size := (s.free i).size + (s.free j).size }
  { s with
    free := Function.update (Function.update s.free i e) j { s.free j with flag := false } }

/-- One turn of the outer loop of `mem_defrag`. -/
def compatta (i : Fin memFreeSize) : Option Tables :=
  if (s.free i).flag then
    let fine := (s.free i).base + (s.free i).size
    (cerca fun j => (s.free j).flag && (s.free j).base == fine && i != j).map fun j => s.fondi i j
  else none

end Tables

/-- One pass of `mem_defrag`, with `fusi`. -/
def passata (s : Tables) : Tables × Nat :=
  (List.finRange memFreeSize).foldl (fun (s, fusi) i =>
    match s.compatta i with
    | none => (s, fusi)
    | some t => (t, fusi + 1)) (s, 0)

/-- The passes of `mem_defrag`. -/
def passate : Nat → Tables → Tables
  | 0, s => s
  | fuel + 1, s => if (passata s).2 = 0 then (passata s).1 else passate fuel (passata s).1

/-- `mem_defrag`. Each pass but the last joins two regions, so there are no more passes
than regions. -/
def memDefrag (s : Tables) : Tables := passate (memFreeSize + 1) s

/-! ### Calls -/

inductive Call where
  | alloc (requestsize : MemT)
  | free (puntatore : MemT)
  | defrag

def Tables.call (s : Tables) : Call → Tables
  | .alloc requestsize => (s.memAlloc requestsize).2
  | .free puntatore => (s.memFree puntatore).2
  | .defrag => memDefrag s

/-! ### Regions -/

/-- The region of an active entry. -/
def Elemento.extent (e : Elemento) : Option Extent :=
  if e.flag then some ⟨e.base.toNat, e.size.toNat⟩ else none

/-- The regions of both tables. -/
def Tables.extents (s : Tables) : Fin memUsedSize ⊕ Fin memFreeSize → Option Extent :=
  Sum.elim (Elemento.extent ∘ s.used) (Elemento.extent ∘ s.free)

/-- What the regions of a table add up to. -/
def totale {n : Nat} (table : Fin n → Elemento) : Nat := ∑ i, size (table i).extent

/-- The tables are in order: the regions are disjoint and cover the managed memory, and the
two counters agree with them. -/
structure Coherent (limit : Nat) (s : Tables) : Prop where
  disjoint : ∀ x y a, has a (s.extents x) = true → has a (s.extents y) = true → x = y
  covers : ∀ a, (∃ x, has a (s.extents x) = true) ↔ a < limit
  usata : s.usata.toNat = totale s.used
  libera : s.libera.toNat = totale s.free

/-- A result other than 0 is the base of a used region that is large enough. -/
def Serves (s : Tables) (requestsize : MemT) : Prop :=
  (s.memAlloc requestsize).1 ≠ 0 →
    ∃ i, ((s.memAlloc requestsize).2.used i).flag = true ∧
      ((s.memAlloc requestsize).2.used i).base = (s.memAlloc requestsize).1 ∧
      requestsize ≤ ((s.memAlloc requestsize).2.used i).size

/-- No active region is empty. -/
def NoneEmpty {n : Nat} (table : Fin n → Elemento) : Prop :=
  ∀ i, (table i).flag = true → 0 < (table i).size.toNat

/-- The invariant. -/
structure Inv (limit : Nat) (s : Tables) : Prop where
  tiles : Tiles limit s.extents
  usedPos : NoneEmpty s.used
  freePos : NoneEmpty s.free
  usata : s.usata.toNat = totale s.used
  libera : s.libera.toNat = totale s.free

/-- Every region of a table ends below the limit. -/
def Within {n : Nat} (limit : Nat) (table : Fin n → Elemento) : Prop :=
  ∀ i, (table i).flag = true → (table i).base.toNat + (table i).size.toNat ≤ limit

/-- The invariant where regions may be empty. -/
structure Ordinata (limit : Nat) (s : Tables) : Prop where
  tiles : Tiles limit s.extents
  used : Within limit s.used
  free : Within limit s.free
  usata : s.usata.toNat = totale s.used
  libera : s.libera.toNat = totale s.free

/-- The padding does not wrap around, or the request is refused for want of a free region or
of a free entry. -/
def Padded (s : Tables) : Call → Prop
  | .alloc requestsize => requestsize.toNat < 2 ^ 32 - 1024 ∨
      (∀ i, (s.free i).flag = false) ∨ ∀ j, (s.used j).flag = true
  | _ => True

variable {s t : Tables} {limit : Nat} {x y : Elemento}

theorem Ordinata.coherent (h : Ordinata limit s) : Coherent limit s where
  disjoint _ _ _ := h.tiles.unique
  covers _ := h.tiles.exists_iff
  usata := h.usata
  libera := h.libera

theorem extent_active {e : Elemento} (h : e.flag = true) :
    e.extent = some ⟨e.base.toNat, e.size.toNat⟩ := if_pos h

theorem extent_inactive {e : Elemento} (h : e.flag = false) : e.extent = none :=
  if_neg (Bool.eq_false_iff.mp h)

theorem cerca_some {n : Nat} {p : Fin n → Bool} {i : Fin n} (h : cerca p = some i) :
    p i = true :=
  List.find?_some h

theorem Ordinata.total (h : Ordinata limit s) : totale s.used + totale s.free = limit := by
  rw [← h.tiles.sum_size, Fintype.sum_sum_type]
  rfl

theorem Inv.ordinata (h : Inv limit s) : Ordinata limit s where
  tiles := h.tiles
  used i hi := by
    have hextent : s.extents (.inl i) = some ⟨(s.used i).base.toNat, (s.used i).size.toNat⟩ :=
      extent_active hi
    exact h.tiles.within hextent (h.usedPos i hi)
  free i hi := by
    have hextent : s.extents (.inr i) = some ⟨(s.free i).base.toNat, (s.free i).size.toNat⟩ :=
      extent_active hi
    exact h.tiles.within hextent (h.freePos i hi)
  usata := h.usata
  libera := h.libera

theorem Inv.coherent (h : Inv limit s) : Coherent limit s := h.ordinata.coherent

theorem Ordinata.inv (h : Ordinata limit s) (hused : NoneEmpty s.used) (hfree : NoneEmpty s.free) :
    Inv limit s :=
  ⟨h.tiles, hused, hfree, h.usata, h.libera⟩

/-- What holds of the elements in use still does if it holds of the new one. -/
theorem forall_update {n : Nat} {p : Elemento → Prop} {table : Fin n → Elemento}
    (h : ∀ k, (table k).flag = true → p (table k)) {i : Fin n} (hx : x.flag = true → p x)
    (k : Fin n) (hk : (Function.update table i x k).flag = true) :
    p (Function.update table i x k) := by
  rw [Function.update_apply] at hk ⊢
  split at hk
  · rename_i hki
    rw [if_pos hki]
    exact hx hk
  · rename_i hki
    rw [if_neg hki]
    exact h k hk

theorem Within.set {n : Nat} {table : Fin n → Elemento} (h : Within limit table) {i : Fin n}
    (hx : x.flag = true → x.base.toNat + x.size.toNat ≤ limit) :
    Within limit (Function.update table i x) :=
  forall_update (p := fun x => x.base.toNat + x.size.toNat ≤ limit) h hx

theorem NoneEmpty.set {n : Nat} {table : Fin n → Elemento} (h : NoneEmpty table) {i : Fin n}
    (hx : x.flag = true → 0 < x.size.toNat) : NoneEmpty (Function.update table i x) :=
  forall_update (p := fun x => 0 < x.size.toNat) h hx

theorem totale_set {n : Nat} (table table' : Fin n → Elemento) (i : Fin n)
    (h : table' = Function.update table i x) :
    totale table' + size (table i).extent = totale table + size x.extent := by
  subst h
  have hother : ∀ j, j ≠ i →
      size (Function.update table i x j).extent = size (table j).extent := by
    intro j hj
    rw [Function.update_of_ne hj]
  have hmove := sum_move hother
  simpa only [totale, Function.update_self] using hmove

/-! ### What each exchange keeps -/

section exchange

variable {e : Elemento} {n : MemT}

theorem resto_pos (h : (e.resto n).flag = true) : 0 < (e.resto n).size.toNat := by
  have hne : e.size - n ≠ 0 := by
    simp only [Elemento.resto, Bool.and_eq_true, bne_iff_ne] at h
    exact h.2
  exact Nat.pos_of_ne_zero fun hzero => hne (BitVec.eq_of_toNat_eq hzero)

/-- The region of what is left, if it is not empty. -/
theorem resto_extent (hflag : e.flag = true) (hle : n ≤ e.size)
    (hend : e.base.toNat + e.size.toNat < 2 ^ 32) :
    (e.resto n).extent =
      if e.size.toNat - n.toNat = 0 then none
      else some ⟨e.base.toNat + n.toNat, e.size.toNat - n.toNat⟩ := by
  have hle' : n.toNat ≤ e.size.toNat := hle
  have hsub : (e.size - n).toNat = e.size.toNat - n.toNat := BitVec.toNat_sub_of_le hle
  have hadd : (e.base + n).toNat = e.base.toNat + n.toNat := by
    rw [BitVec.toNat_add, Nat.mod_eq_of_lt (by omega)]
  have hzero : e.size - n = 0 ↔ e.size.toNat - n.toNat = 0 := by
    rw [← hsub]
    exact (BitVec.toNat_inj (y := 0)).symm
  unfold Elemento.extent Elemento.resto
  simp only [hflag, Bool.true_and, bne_iff_ne, ne_eq, hzero, hsub, hadd, ite_not]

/-- The first part of a region and what is left of it. -/
theorem resto_has (hflag : e.flag = true) (hle : n ≤ e.size)
    (hend : e.base.toNat + e.size.toNat < 2 ^ 32) (a : Nat) :
    (has a (some ⟨e.base.toNat, n.toNat⟩)).toNat + (has a (e.resto n).extent).toNat =
      (has a (some ⟨e.base.toNat, e.size.toNat⟩)).toNat := by
  have hle' : n.toNat ≤ e.size.toNat := hle
  have happend := has_append a e.base.toNat n.toNat (e.size.toNat - n.toNat)
  rw [Nat.add_sub_cancel' hle'] at happend
  rw [resto_extent hflag hle hend]
  split
  · rename_i hzero
    rw [hzero, has_empty] at happend
    exact happend
  · exact happend

theorem resto_size (hflag : e.flag = true) (hle : n ≤ e.size)
    (hend : e.base.toNat + e.size.toNat < 2 ^ 32) :
    size (e.resto n).extent = e.size.toNat - n.toNat := by
  rw [resto_extent hflag hle hend]
  split
  · rename_i hzero
    exact hzero.symm
  · rfl

end exchange

variable {i i' : Fin memFreeSize} {j : Fin memUsedSize} {n : MemT}

theorem take_extents : (s.take i j n).extents =
    Function.update (Function.update s.extents (.inl j) (some ⟨(s.free i).base.toNat, n.toNat⟩))
      (.inr i) ((s.free i).resto n).extent := by
  rw [Tables.extents, Tables.take, Function.comp_update, Function.comp_update,
    ← Sum.update_elim_inr, ← Sum.update_elim_inl]
  rfl

theorem give_extents : (s.give j i).extents =
    Function.update (Function.update s.extents (.inl j) none) (.inr i) (s.used j).extent := by
  rw [Tables.extents, Tables.give, Function.comp_update, Function.comp_update,
    ← Sum.update_elim_inr, ← Sum.update_elim_inl]
  rfl

theorem fondi_extents : (s.fondi i i').extents =
    Function.update (Function.update s.extents (.inr i)
      { s.free i with size := (s.free i).size + (s.free i').size : Elemento}.extent)
      (.inr i') none := by
  rw [Tables.extents, Tables.fondi, Function.comp_update, Function.comp_update,
    ← Sum.update_elim_inr, ← Sum.update_elim_inr]
  rfl

theorem Ordinata.take (h : Ordinata limit s) (hlimit : limit < 2 ^ 32)
    (hi : (s.free i).flag = true) (hj : (s.used j).flag = false) (hle : n ≤ (s.free i).size) :
    Ordinata limit (s.take i j n) := by
  have hle' : n.toNat ≤ (s.free i).size.toNat := hle
  have hend := h.free i hi
  have hall := h.total
  have hused := totale_set s.used (s.take i j n).used j rfl
  have hfree := totale_set s.free (s.take i j n).free i rfl
  have hadd : ((s.free i).base + n).toNat = (s.free i).base.toNat + n.toNat := by
    rw [BitVec.toNat_add, Nat.mod_eq_of_lt (by omega)]
  have hsub : ((s.free i).size - n).toNat = (s.free i).size.toNat - n.toNat :=
    BitVec.toNat_sub_of_le hle
  rw [extent_inactive hj, extent_active rfl] at hused
  rw [extent_active hi, resto_size hi hle (by omega)] at hfree
  simp only [size] at hused hfree
  refine ⟨?_, ?_, ?_, ?_, ?_⟩
  · rw [take_extents]
    apply h.tiles.exchange (by simp)
    intro a
    have hbefore : s.extents (.inr i) = some ⟨(s.free i).base.toNat, (s.free i).size.toNat⟩ :=
      extent_active hi
    have hnone : s.extents (.inl j) = none := extent_inactive hj
    rw [resto_has hi hle (by omega), hbefore, hnone, has, Bool.toNat_false, Nat.zero_add]
  · exact h.used.set fun _ => by simp only; omega
  · exact h.free.set fun _ => by simp only [Elemento.resto, hadd, hsub]; omega
  · have husata := h.usata
    have hadd : (s.usata + n).toNat = s.usata.toNat + n.toNat := by
      rw [BitVec.toNat_add, Nat.mod_eq_of_lt (by omega)]
    change (s.usata + n).toNat = totale (s.take i j n).used
    omega
  · have hlibera := h.libera
    have hsub : (s.libera - n).toNat = s.libera.toNat - n.toNat :=
      BitVec.toNat_sub_of_le (BitVec.le_def.mpr (by omega))
    change (s.libera - n).toNat = totale (s.take i j n).free
    omega

theorem Ordinata.give (h : Ordinata limit s) (hlimit : limit < 2 ^ 32)
    (hj : (s.used j).flag = true) (hi : (s.free i).flag = false) : Ordinata limit (s.give j i) := by
  have hall := h.total
  have hused := totale_set s.used (s.give j i).used j rfl
  have hfree := totale_set s.free (s.give j i).free i rfl
  rw [extent_active hj, extent_inactive rfl] at hused
  rw [extent_inactive hi, extent_active hj] at hfree
  simp only [size] at hused hfree
  refine ⟨?_, ?_, ?_, ?_, ?_⟩
  · rw [give_extents]
    apply h.tiles.exchange (by simp)
    intro a
    have hnone : s.extents (.inr i) = none := extent_inactive hi
    rw [hnone, Nat.add_comm]
    rfl
  · exact h.used.set (by rintro ⟨⟩)
  · exact h.free.set (h.used j)
  · have husata := h.usata
    have hsub : (s.usata - (s.used j).size).toNat = s.usata.toNat - (s.used j).size.toNat :=
      BitVec.toNat_sub_of_le (BitVec.le_def.mpr (by omega))
    change (s.usata - (s.used j).size).toNat = totale (s.give j i).used
    omega
  · have hlibera := h.libera
    have hadd : (s.libera + (s.used j).size).toNat = s.libera.toNat + (s.used j).size.toNat := by
      rw [BitVec.toNat_add, Nat.mod_eq_of_lt (by omega)]
    change (s.libera + (s.used j).size).toNat = totale (s.give j i).free
    omega

/-- Two free regions that touch are joined. -/
theorem Ordinata.fondi (h : Ordinata limit s) (hlimit : limit < 2 ^ 32) (hne : i ≠ i')
    (hi : (s.free i).flag = true) (hi' : (s.free i').flag = true)
    (htouch : (s.free i').base = (s.free i).base + (s.free i).size) :
    Ordinata limit (s.fondi i i') := by
  have hend := h.free i hi
  have hend' := h.free i' hi'
  have hbase : (s.free i').base.toNat = (s.free i).base.toNat + (s.free i).size.toNat := by
    rw [htouch, BitVec.toNat_add, Nat.mod_eq_of_lt (by omega)]
  have hsize : ((s.free i).size + (s.free i').size).toNat =
      (s.free i).size.toNat + (s.free i').size.toNat := by
    rw [BitVec.toNat_add, Nat.mod_eq_of_lt (by omega)]
  let e : Elemento := { s.free i with size := (s.free i).size + (s.free i').size }
  have hextent : e.extent =
      some ⟨(s.free i).base.toNat, (s.free i).size.toNat + (s.free i').size.toNat⟩ := by
    rw [← hsize]
    exact extent_active hi
  have hfirst := totale_set s.free (Function.update s.free i e) i rfl
  have hsecond := totale_set (Function.update s.free i e) (s.fondi i i').free i' rfl
  rw [hextent, extent_active hi] at hfirst
  rw [Function.update_of_ne hne.symm, extent_active hi', extent_inactive rfl] at hsecond
  simp only [size] at hfirst hsecond
  refine ⟨?_, h.used, ?_, h.usata, ?_⟩
  · rw [fondi_extents]
    apply h.tiles.exchange (by simpa using hne)
    intro a
    have happend := has_append a (s.free i).base.toNat (s.free i).size.toNat (s.free i').size.toNat
    have hx : s.extents (.inr i) = some ⟨(s.free i).base.toNat, (s.free i).size.toNat⟩ :=
      extent_active hi
    have hy : s.extents (.inr i') =
        some ⟨(s.free i).base.toNat + (s.free i).size.toNat, (s.free i').size.toNat⟩ := by
      rw [← hbase]
      exact extent_active hi'
    rw [hx, hy, happend, ← hextent]
    rfl
  · exact (h.free.set fun _ => by simp only [hsize]; omega).set (by rintro ⟨⟩)
  · have hlibera := h.libera
    change s.libera.toNat = totale (s.fondi i i').free
    omega

theorem Inv.take (h : Inv limit s) (hlimit : limit < 2 ^ 32) (hi : (s.free i).flag = true)
    (hj : (s.used j).flag = false) (hle : n ≤ (s.free i).size) (hpos : 0 < n.toNat) :
    Inv limit (s.take i j n) :=
  (h.ordinata.take hlimit hi hj hle).inv (h.usedPos.set fun _ => hpos) (h.freePos.set resto_pos)

theorem Inv.give (h : Inv limit s) (hlimit : limit < 2 ^ 32) (hj : (s.used j).flag = true)
    (hi : (s.free i).flag = false) : Inv limit (s.give j i) :=
  (h.ordinata.give hlimit hj hi).inv (h.usedPos.set (by rintro ⟨⟩)) (h.freePos.set (h.usedPos j))

theorem Inv.fondi (h : Inv limit s) (hlimit : limit < 2 ^ 32) (hne : i ≠ i')
    (hi : (s.free i).flag = true) (hi' : (s.free i').flag = true)
    (htouch : (s.free i').base = (s.free i).base + (s.free i).size) :
    Inv limit (s.fondi i i') := by
  have hend' := h.ordinata.free i' hi'
  have hpos : 0 < ((s.free i).size + (s.free i').size).toNat := by
    have hfree := h.freePos i hi
    have htouch' : (s.free i').base.toNat = (s.free i).base.toNat + (s.free i).size.toNat := by
      have hend := h.ordinata.free i hi
      rw [htouch, BitVec.toNat_add, Nat.mod_eq_of_lt (by omega)]
    rw [BitVec.toNat_add, Nat.mod_eq_of_lt (by omega)]
    omega
  exact (h.ordinata.fondi hlimit hne hi hi' htouch).inv h.usedPos
    ((h.freePos.set fun _ => hpos).set (by rintro ⟨⟩))

/-! ### What each call keeps -/

variable {requestsize puntatore : MemT}

theorem padding_toNat (requestsize : MemT) : (padding requestsize).toNat =
    (requestsize.toNat + (1024 - requestsize.toNat % 1024)) % 2 ^ 32 := by
  have hmod : (requestsize % 1024).toNat = requestsize.toNat % 1024 := BitVec.toNat_umod
  have hsub : (1024 - requestsize % 1024).toNat = 1024 - requestsize.toNat % 1024 := by
    rw [BitVec.toNat_sub_of_le (BitVec.le_def.mpr _), hmod]
    · rfl
    · rw [hmod]
      exact Nat.le_of_lt (Nat.mod_lt _ (by decide))
  rw [padding, BitVec.toNat_add, hsub]

theorem lt_padding (h : requestsize.toNat < 2 ^ 32 - 1024) :
    requestsize.toNat < (padding requestsize).toNat := by
  have hlt := Nat.mod_lt requestsize.toNat (show 0 < 1024 by decide)
  rw [padding_toNat, Nat.mod_eq_of_lt (by omega)]
  omega

theorem padding_eq_zero (h : 2 ^ 32 - 1024 ≤ requestsize.toNat) : padding requestsize = 0 := by
  have hlt := requestsize.isLt
  apply BitVec.eq_of_toNat_eq
  rw [padding_toNat]
  change _ = 0
  omega

/-- All that `mem_alloc` can do. -/
theorem memAlloc_cases (s : Tables) (requestsize : MemT) :
    s.memAlloc requestsize = (0, s) ∨
      ∃ i j, (s.free i).flag = true ∧ padding requestsize ≤ (s.free i).size ∧
        (s.used j).flag = false ∧
        s.memAlloc requestsize = ((s.free i).base, s.take i j (padding requestsize)) := by
  cases hi : cerca fun i => (s.free i).flag && decide (padding requestsize ≤ (s.free i).size) with
  | none => exact .inl (by simp only [Tables.memAlloc, hi])
  | some i =>
    cases hj : cerca fun j => !(s.used j).flag with
    | none => exact .inl (by simp only [Tables.memAlloc, hi, hj])
    | some j =>
      have hfree := cerca_some hi
      have hused := cerca_some hj
      rw [Bool.and_eq_true, decide_eq_true_eq] at hfree
      rw [Bool.not_eq_true'] at hused
      exact .inr ⟨i, j, hfree.1, hfree.2, hused, by simp only [Tables.memAlloc, hi, hj]⟩

/-- A request that meets `Padded` is refused or gets a region of the padded size. -/
theorem padded_cases (h : Padded s (.alloc requestsize)) :
    s.memAlloc requestsize = (0, s) ∨
      ∃ i j, (s.free i).flag = true ∧ padding requestsize ≤ (s.free i).size ∧
        (s.used j).flag = false ∧ requestsize.toNat < 2 ^ 32 - 1024 ∧
        s.memAlloc requestsize = ((s.free i).base, s.take i j (padding requestsize)) := by
  rcases memAlloc_cases s requestsize with hrefused | ⟨i, j, hi, hle, hj, halloc⟩
  · exact .inl hrefused
  · rcases h with hsmall | hnone | hfull
    · exact .inr ⟨i, j, hi, hle, hj, hsmall, halloc⟩
    · exact absurd hi (Bool.eq_false_iff.mp (hnone i))
    · exact absurd (hfull j) (Bool.eq_false_iff.mp hj)

theorem Inv.memAlloc (h : Inv limit s) (hlimit : limit < 2 ^ 32)
    (hpadded : Padded s (.alloc requestsize)) : Inv limit (s.memAlloc requestsize).2 := by
  rcases padded_cases hpadded with hrefused | ⟨i, j, hi, hle, hj, hsmall, halloc⟩
  · rw [hrefused]
    exact h
  · have hpadding := lt_padding hsmall
    rw [halloc]
    exact h.take hlimit hi hj hle (by omega)

theorem serves_of_padded (h : Padded s (.alloc requestsize)) : Serves s requestsize := by
  unfold Serves
  rcases padded_cases h with hrefused | ⟨i, j, -, -, -, hsmall, halloc⟩
  · rw [hrefused]
    exact fun hne => absurd rfl hne
  · intro _
    have hle : requestsize ≤ padding requestsize :=
      BitVec.le_def.mpr (Nat.le_of_lt (lt_padding hsmall))
    refine ⟨j, ?_⟩
    simp only [halloc, Tables.take, Function.update_self]
    exact ⟨trivial, trivial, hle⟩

theorem cerca_none {n : Nat} {p : Fin n → Bool} (h : cerca p = none) (i : Fin n) : p i = false :=
  Bool.eq_false_iff.mpr (List.find?_eq_none.mp h i (List.mem_finRange i))

/-- All that `mem_free` can do. -/
theorem memFree_cases (s : Tables) (puntatore : MemT) :
    (((∀ j, (s.used j).flag = true → (s.used j).base ≠ puntatore) ∨
        ∀ i, (s.free i).flag = true) ∧ s.memFree puntatore = (false, s)) ∨
      ∃ j i, (s.used j).flag = true ∧ (s.used j).base = puntatore ∧ (s.free i).flag = false ∧
        s.memFree puntatore = (true, s.give j i) := by
  cases hj : cerca fun i => (s.used i).flag && (s.used i).base == puntatore with
  | none =>
    refine .inl ⟨.inl fun j hflag hbase => ?_, by simp only [Tables.memFree, hj]⟩
    have hnone := cerca_none hj j
    simp only [hflag, hbase, Bool.true_and, beq_self_eq_true, Bool.true_eq_false] at hnone
  | some j =>
    have hused := cerca_some hj
    rw [Bool.and_eq_true, beq_iff_eq] at hused
    cases hi : cerca fun j => !(s.free j).flag with
    | none =>
      refine .inl ⟨.inr fun i => ?_, by simp only [Tables.memFree, hj, hi]⟩
      simpa using cerca_none hi i
    | some i =>
      refine .inr ⟨j, i, hused.1, hused.2, by simpa using cerca_some hi, ?_⟩
      simp only [Tables.memFree, hj, hi]

/-- All that a turn of `mem_defrag` can do. -/
theorem compatta_cases (hs : s.compatta i = some t) :
    ∃ i', i ≠ i' ∧ (s.free i).flag = true ∧ (s.free i').flag = true ∧
      (s.free i').base = (s.free i).base + (s.free i).size ∧ t = s.fondi i i' := by
  unfold Tables.compatta at hs
  split at hs
  · rename_i hi
    obtain ⟨i', hi', rfl⟩ := Option.map_eq_some_iff.mp hs
    have hfound := cerca_some hi'
    simp only [Bool.and_eq_true, beq_iff_eq, bne_iff_ne] at hfound
    exact ⟨i', hfound.2, hi, hfound.1.1, hfound.1.2, rfl⟩
  · cases hs

theorem Inv.memFree (h : Inv limit s) (hlimit : limit < 2 ^ 32) :
    Inv limit (s.memFree puntatore).2 := by
  rcases memFree_cases s puntatore with ⟨-, hrefused⟩ | ⟨j, i, hj, -, hi, hgiven⟩
  · rw [hrefused]
    exact h
  · rw [hgiven]
    exact h.give hlimit hj hi

theorem Inv.compatta (h : Inv limit s) (hlimit : limit < 2 ^ 32) (hs : s.compatta i = some t) :
    Inv limit t := by
  obtain ⟨i', hne, hi, hi', htouch, rfl⟩ := compatta_cases hs
  exact h.fondi hlimit hne hi hi' htouch

/-- What holds of the tables and the count of joins before a pass and is kept by each join
holds after the pass. -/
theorem passata_induct {P : Tables → Nat → Prop} (hstart : P s 0)
    (hjoin : ∀ s fusi i t, P s fusi → s.compatta i = some t → P t (fusi + 1)) :
    P (passata s).1 (passata s).2 := by
  unfold passata
  generalize List.finRange memFreeSize = indices
  generalize (0 : Nat) = fusi at hstart
  induction indices generalizing s fusi with
  | nil => exact hstart
  | cons i indices ih =>
    rw [List.foldl_cons]
    cases hs : s.compatta i with
    | none =>
      simp only [hs]
      exact ih fusi hstart
    | some t =>
      simp only [hs]
      exact ih (fusi + 1) (hjoin s fusi i t hstart hs)

/-- What each join keeps, `mem_defrag` does. -/
theorem memDefrag_induct {P : Tables → Prop} (hstart : P s)
    (hjoin : ∀ s i t, P s → s.compatta i = some t → P t) : P (memDefrag s) := by
  have hpass : ∀ s, P s → P (passata s).1 := fun s h =>
    passata_induct (P := fun t _ => P t) h fun s _ i t => hjoin s i t
  unfold Mem.memDefrag
  generalize memFreeSize + 1 = fuel
  induction fuel generalizing s with
  | zero => exact hstart
  | succ fuel ih =>
    rw [passate]
    split
    · exact hpass s hstart
    · exact ih (hpass s hstart)

theorem Inv.memDefrag (h : Inv limit s) (hlimit : limit < 2 ^ 32) : Inv limit (memDefrag s) :=
  memDefrag_induct h fun _ _ _ h hs => h.compatta hlimit hs

theorem Inv.call {c : Call} (h : Inv limit s) (hlimit : limit < 2 ^ 32) (hpadded : Padded s c) :
    Inv limit (s.call c) := by
  cases c with
  | alloc requestsize => exact h.memAlloc hlimit hpadded
  | free puntatore => exact h.memFree hlimit
  | defrag => exact h.memDefrag hlimit

/-- Every call keeps the tables in order, up to empty regions. -/
theorem Ordinata.call (h : Ordinata limit s) (hlimit : limit < 2 ^ 32) (c : Call) :
    Ordinata limit (s.call c) := by
  cases c with
  | alloc requestsize =>
    rw [Tables.call]
    rcases memAlloc_cases s requestsize with hrefused | ⟨i, j, hi, hle, hj, halloc⟩
    · rw [hrefused]
      exact h
    · rw [halloc]
      exact h.take hlimit hi hj hle
  | free puntatore =>
    rw [Tables.call]
    rcases memFree_cases s puntatore with ⟨-, hrefused⟩ | ⟨j, i, hj, -, hi, hgiven⟩
    · rw [hrefused]
      exact h
    · rw [hgiven]
      exact h.give hlimit hj hi
  | defrag =>
    apply memDefrag_induct h
    intro s i t h hs
    obtain ⟨i', hne, hi, hi', htouch, rfl⟩ := compatta_cases hs
    exact h.fondi hlimit hne hi hi' htouch

/-! ### The passes end -/

/-- How many free regions there are. -/
def attive (s : Tables) : Nat := tally Elemento.flag s.free

theorem compatta_attive (hs : s.compatta i = some t) : attive t + 1 = attive s := by
  obtain ⟨i', hne, hi, hi', -, rfl⟩ := compatta_cases hs
  let e : Elemento := { s.free i with size := (s.free i).size + (s.free i').size }
  let e' : Elemento := { s.free i' with flag := false }
  have hfirst := tally_update Elemento.flag s.free i e
  have hsecond := tally_update Elemento.flag (Function.update s.free i e) i' e'
  have heflag : e.flag = (s.free i).flag := rfl
  have heflag' : e'.flag = false := rfl
  rw [heflag] at hfirst
  rw [Function.update_of_ne hne.symm, hi', heflag', Bool.toNat_true, Bool.toNat_false] at hsecond
  have hfree : (s.fondi i i').free = Function.update (Function.update s.free i e) i' e' := rfl
  rw [attive, hfree, attive]
  omega

theorem passata_attive (s : Tables) : attive (passata s).1 + (passata s).2 = attive s := by
  apply passata_induct (P := fun t fusi => attive t + fusi = attive s) rfl
  intro s fusi i t hcount hs
  have hjoin := compatta_attive hs
  omega

theorem passata_eq (h : (passata s).2 = 0) : (passata s).1 = s := by
  have hkeep := passata_induct (s := s) (P := fun t fusi => fusi = 0 → t = s) (fun _ => rfl)
    (by rintro _ _ _ _ - - ⟨⟩)
  exact hkeep h

/-- The last pass of `mem_defrag` joins nothing. -/
theorem memDefrag_done (s : Tables) : (passata (memDefrag s)).2 = 0 := by
  have hfuel : ∀ fuel s, attive s < fuel → (passata (passate fuel s)).2 = 0 := by
    intro fuel
    induction fuel with
    | zero => exact fun s h => absurd h (Nat.not_lt_zero _)
    | succ fuel ih =>
      intro s h
      rw [passate]
      split
      · rename_i hzero
        rw [passata_eq hzero]
        exact hzero
      · have hcount := passata_attive s
        exact ih _ (by omega)
  apply hfuel
  have hle := tally_le_card Elemento.flag s.free
  rw [Fintype.card_fin] at hle
  exact Nat.lt_succ_of_le hle

/-! ### Runs -/

theorem sum_tabella {n : Nat} (hn : 2 ≤ n) {g : Elemento → Nat} (hg : g .vuoto = 0)
    (x y : Elemento) : ∑ i : Fin n, g (tabella x y i) = g x + g y := by
  obtain ⟨n, rfl⟩ := Nat.exists_eq_add_of_le' hn
  rw [Fin.sum_univ_succ, Fin.sum_univ_succ]
  simp [tabella, hg]

theorem noneEmpty_tabella {n : Nat} (hx : 0 < x.size.toNat) (hy : 0 < y.size.toNat) :
    NoneEmpty (tabella (n := n) x y) := by
  intro i hi
  unfold tabella at hi ⊢
  split
  · exact hx
  · split
    · exact hy
    · simp_all [Elemento.vuoto]

theorem memInit_inv {mb : Nat} (hlow : 2 ≤ mb) (hhigh : mb < 4096) :
    Inv (mb * 2 ^ 20) (memInit mb) := by
  have hall : (BitVec.ofNat 32 (mb * 2 ^ 20)).toNat = mb * 2 ^ 20 := by
    rw [BitVec.toNat_ofNat, Nat.mod_eq_of_lt (by omega)]
  have hrest : (BitVec.ofNat 32 (mb * 2 ^ 20) - (memReserved2 + 640 * 1024)).toNat =
      mb * 2 ^ 20 - 1355776 := by
    have hreserved : (memReserved2 + 640 * 1024).toNat = 1355776 := by decide
    rw [BitVec.toNat_sub_of_le (BitVec.le_def.mpr _), hall, hreserved]
    rw [hall, hreserved]
    omega
  have hlibera : (BitVec.ofNat 32 (mb * 2 ^ 20) - (memReserved1 + memReserved2)).toNat =
      mb * 2 ^ 20 - 757760 := by
    have hreserved : (memReserved1 + memReserved2).toNat = 757760 := by decide
    rw [BitVec.toNat_sub_of_le (BitVec.le_def.mpr _), hall, hreserved]
    rw [hall, hreserved]
    omega
  have hused : 2 ≤ memUsedSize := by decide +kernel
  have hfree : 2 ≤ memFreeSize := by decide +kernel
  have hriservata1 : riservata1.extent = some ⟨0, 57344⟩ := by decide
  have hriservata2 : riservata2.extent = some ⟨655360, 700416⟩ := by decide
  have hlibera1 : libera1.extent = some ⟨57344, 598016⟩ := by decide
  have hlibera2 : (libera2 (.ofNat 32 (mb * 2 ^ 20))).extent =
      some ⟨1355776, mb * 2 ^ 20 - 1355776⟩ := by
    have hbase : (memReserved2 + 640 * 1024).toNat = 1355776 := by decide
    rw [← hrest, ← hbase]
    rfl
  refine ⟨?_, noneEmpty_tabella (by decide) (by decide),
    noneEmpty_tabella (by decide) (by rw [libera2, hrest]; omega), ?_, ?_⟩
  · intro a
    -- The four regions follow one another: reserved, free, reserved, free.
    have hlow : (has a (some ⟨0, 57344⟩)).toNat + (has a (some ⟨57344, 598016⟩)).toNat =
        (has a (some ⟨0, 655360⟩)).toNat := has_append a 0 57344 598016
    have hmiddle : (has a (some ⟨0, 655360⟩)).toNat + (has a (some ⟨655360, 700416⟩)).toNat =
        (has a (some ⟨0, 1355776⟩)).toNat := has_append a 0 655360 700416
    have hhigh := has_append a 0 1355776 (mb * 2 ^ 20 - 1355776)
    have htop : (has a (some ⟨0, mb * 2 ^ 20⟩)).toNat = if a < mb * 2 ^ 20 then 1 else 0 := by
      simp [has, Bool.toNat]
    rw [Nat.zero_add, Nat.add_sub_cancel' (by omega), htop, ← hmiddle, ← hlow] at hhigh
    have hactive : ∑ i, (has a ((memInit mb).used i).extent).toNat =
        (has a riservata1.extent).toNat + (has a riservata2.extent).toNat :=
      sum_tabella hused (g := fun e => (has a e.extent).toNat) rfl _ _
    have hrestanti : ∑ i, (has a ((memInit mb).free i).extent).toNat =
        (has a libera1.extent).toNat + (has a (libera2 (.ofNat 32 (mb * 2 ^ 20))).extent).toNat :=
      sum_tabella hfree (g := fun e => (has a e.extent).toNat) rfl _ _
    have hsum : tally (has a) (memInit mb).extents =
        ∑ i, (has a ((memInit mb).used i).extent).toNat +
          ∑ i, (has a ((memInit mb).free i).extent).toNat := by
      rw [tally_eq_sum, Fintype.sum_sum_type]
      rfl
    rw [hriservata1, hriservata2] at hactive
    rw [hlibera1, hlibera2] at hrestanti
    rw [hsum, hactive, hrestanti, ← hhigh]
    omega
  · have hsum : totale (memInit mb).used = size riservata1.extent + size riservata2.extent :=
      sum_tabella hused (g := fun e => size e.extent) rfl _ _
    have husata : (memReserved1 + memReserved2).toNat = 57344 + 700416 := by decide
    rw [hsum, hriservata1, hriservata2, memInit, husata, size, size]
  · have hsum : totale (memInit mb).free =
        size libera1.extent + size (libera2 (.ofNat 32 (mb * 2 ^ 20))).extent :=
      sum_tabella hfree (g := fun e => size e.extent) rfl _ _
    rw [hsum, hlibera1, hlibera2, memInit, hlibera, size, size]
    simp only []
    omega

/-- A request whose padding wraps around is given an empty region: no used region at the
same address is large enough, since the free region that it is cut from starts there. -/
theorem Inv.not_serves (h : Inv limit s) (hne : (s.memAlloc requestsize).1 ≠ 0)
    (hbig : 2 ^ 32 - 1024 ≤ requestsize.toNat) : ¬ Serves s requestsize := by
  rcases memAlloc_cases s requestsize with hrefused | ⟨i, j, hi, -, hj, halloc⟩
  · exact absurd (congrArg Prod.fst hrefused) hne
  · intro hserves
    obtain ⟨k, hk, hbase, hsize⟩ := hserves hne
    rw [halloc, padding_eq_zero hbig] at hk hbase hsize
    simp only [Tables.take, Function.update_apply] at hk hbase hsize
    by_cases hkj : k = j
    · rw [if_pos hkj] at hsize
      have hzero : requestsize.toNat ≤ 0 := hsize
      omega
    · rw [if_neg hkj] at hk hbase
      have hfree := h.freePos i hi
      have hused := h.usedPos k hk
      have hinFree : has (s.free i).base.toNat (s.extents (.inr i)) = true := by
        rw [Tables.extents, Sum.elim_inr, Function.comp, extent_active hi]
        exact decide_eq_true (by simp only; omega)
      have hinUsed : has (s.free i).base.toNat (s.extents (.inl k)) = true := by
        rw [Tables.extents, Sum.elim_inl, Function.comp, extent_active hk, hbase]
        exact decide_eq_true (by simp only; omega)
      cases h.tiles.unique hinUsed hinFree

/-- In every run from `mem_init` in which no padding wraps around, the tables stay in order,
and a request that is granted is served as it should exactly when its padding does not. -/
theorem mem_run {mb : Nat} (hlow : 2 ≤ mb) (hhigh : mb < 4096) {calls : List Call}
    (h : Run (Guarded Padded (Updates Tables.call)) (memInit mb) calls s) :
    Coherent (mb * 2 ^ 20) s ∧
      ∀ requestsize, (s.memAlloc requestsize).1 ≠ 0 →
        (Serves s requestsize ↔ Padded s (.alloc requestsize)) := by
  have hlimit : mb * 2 ^ 20 < 2 ^ 32 := by omega
  have hinv : Inv (mb * 2 ^ 20) s := by
    apply h.guarded_invariant _ (memInit_inv hlow hhigh)
    rintro s c _ hs hpadded rfl
    exact hs.call hlimit hpadded
  refine ⟨hinv.coherent, fun requestsize hne => ⟨fun hserves => ?_, serves_of_padded⟩⟩
  by_contra hpadded
  refine hinv.not_serves hne ?_ hserves
  by_contra hsmall
  exact hpadded (.inl (Nat.lt_of_not_le hsmall))

/-- On a machine with 2 MB a request for `2 ^ 32 - 1` bytes is granted an empty region. -/
theorem wrapped_not_served : ¬ Serves (memInit 2) 0xFFFFFFFF := by
  apply (memInit_inv (by decide) (by decide)).not_serves
  · decide +kernel
  · decide

/-- A run that allocates, frees and joins. -/
theorem mem_run_served :
    Coherent (2 * 2 ^ 20)
      (((((memInit 2).call (.alloc 5000)).call (.alloc 32)).call (.free 57344)).call .defrag) := by
  have hrun : Run (Guarded Padded (Updates Tables.call)) (memInit 2)
      [.alloc 5000, .alloc 32, .free 57344, .defrag] _ :=
    .cons ⟨.inl (by decide), rfl⟩ (.cons ⟨.inl (by decide), rfl⟩
      (.cons ⟨trivial, rfl⟩ (.cons ⟨trivial, rfl⟩ (.nil _))))
  exact (mem_run (by decide) (by decide) hrun).1

end OsdevArchive.Cheapos.Mem
