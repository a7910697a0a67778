import OsdevArchive.Lib.Bitmap
import OsdevArchive.Lib.Runs
import Mathlib.Data.List.Pairwise

/-!
The pages of DreamOS (`fismem.c`): a bitmap of the pages in use and a list of the
allocations, in which a release looks a pointer up. What tasks write into their pages is not
modelled.
-/

namespace OsdevArchive.DreamOS.Fismem

open OsdevArchive.Lib.Bitmap OsdevArchive.Lib.Runs

/-- `pages_struct`. -/
structure PagesStruct where
  inizio : Nat
  numPages : Nat
deriving DecidableEq

/-- The length of `pages_info`. -/
def pagesInfoLung : Nat := 510

/-- `free_pages.mem_map`, the list and `max_vet`; `vive` holds the first page and the number
of pages of each allocation that was not released. -/
structure State where
  memMap : Nat → BitVec 32
  pagesInfo : Nat → PagesStruct
  nextFree : Nat
  maxVet : Nat
  vive : List (Nat × Nat)

/-- `init_pages`, with what the memory of the list holds. -/
def initPages (totalMem : BitVec 32) (memory : Nat → PagesStruct) : State where
  memMap i := if i < 8 then 0xFFFFFFFF else 0
  pagesInfo := Function.update memory 0 { inizio := 0, numPages := 256 }
  nextFree := 1
  maxVet := totalMem.toNat / 4096 / 32
  vive := []

/-- One turn of the first loop of `richiedi_pagine`. -/
def giro (memMap : Nat → BitVec 32) (maxVet num i j count : Nat) : Nat × Nat × Nat :=
  let count := if (memMap i).getLsbD j then 0 else count + 1
  if j + 1 = 32 ∧ i < maxVet ∧ count < num then (i + 1, 0, count) else (i, j + 1, count)

/-- The first loop of `richiedi_pagine`: the counters at its end, or `none` for the return
of `NULL` in it. -/
def cerca (memMap : Nat → BitVec 32) (maxVet num : Nat) :
    Nat → Nat → Nat → Nat → Option (Nat × Nat × Nat)
  | 0, _, _, _ => none
  | fuel + 1, i, j, count =>
    if count < num then
      let (i, j, count) := giro memMap maxVet num i j count
      if i = maxVet ∧ j = 31 then none else cerca memMap maxVet num fuel i j count
    else some (i, j, count)

/-- The loops that go over the bits of an allocation. -/
def scorre (op : BitVec 32 → BitVec 32 → BitVec 32) :
    Nat → Nat → Nat → (Nat → BitVec 32) → Nat → BitVec 32
  | 0, _, _, memMap => memMap
  | n + 1, i, j, memMap =>
    let memMap := Function.update memMap i (op (memMap i) (1#32 <<< j))
    if j + 1 = 32 ∧ n ≠ 0 then scorre op n (i + 1) 0 memMap else scorre op n i (j + 1) memMap

namespace State

variable (s : State)

/-- The address that `richiedi_pagine` finds. Each turn of the loop goes one bit further. -/
def indirizzo (num : Int) : Option Nat :=
  (cerca s.memMap s.maxVet num.toNat (32 * s.maxVet + 32) 0 0 0).map
    fun (i, j, count) => (i * 32 + j - count) * 4096

/-- `add_mem_list`, while there is an element left. -/
def addMemList (address : Nat) (num : Int) : State :=
  { s with
    pagesInfo := Function.update s.pagesInfo s.nextFree
      { inizio := address, numPages := (num % 2 ^ 32).toNat }
    nextFree := s.nextFree + 1 }

/-- `richiedi_pagine`. -/
def richiediPagine (num : Int) : Nat × State :=
  match s.indirizzo num with
  | none => (0, s)
  | some address =>
    let memMap := scorre (· ||| ·) num.toNat (address / 4096 / 32) (address / 4096 % 32) s.memMap
    let vive := if address = 0 then s.vive else (address / 4096, num.toNat) :: s.vive
    (address, { s with memMap := memMap, vive := vive }.addMemList address num)

/-- The comparison of `rilascia_pagine`: the number of pages is added to an address. -/
def contiene (i : Nat) (p : Nat) : Bool :=
  (s.pagesInfo i).inizio ≤ p ∧
    p ≤ ((s.pagesInfo i).inizio + (s.pagesInfo i).numPages) % 2 ^ 32

/-- `num` of `rilascia_pagine`, as far as its loop goes. -/
def pagine (i : Nat) : Nat := (BitVec.ofNat 32 (s.pagesInfo i).numPages).toInt.toNat

/-- The search of `rilascia_pagine`, over all elements. -/
def trova (p : Nat) : Option Nat := (List.range pagesInfoLung).find? fun i => s.contiene i p

/-- `rilascia_pagine`. -/
def rilasciaPagine (p : Nat) : State :=
  let vive := s.vive.filter fun a => a.1 * 4096 ≠ p
  match s.trova p with
  | none => { s with vive := vive }
  | some i =>
    { s with
      memMap := scorre (· ^^^ ·) (s.pagine i) (p / 4096 / 32) (p / 4096 % 32) s.memMap
      pagesInfo := Function.update s.pagesInfo i (s.pagesInfo (s.nextFree - 1))
      nextFree := s.nextFree - 1
      vive := vive }

end State

inductive Chiamata where
  | richiedi (num : Int)
  | rilascia (p : BitVec 32)

def step (s : State) : Chiamata → State
  | .richiedi num => (s.richiediPagine num).2
  | .rilascia p => s.rilasciaPagine p.toNat

/-- The calls that the model does not follow: `add_mem_list` without an element left, which
asks for a page for itself again and again, and a release at or above 2 GB, whose index into
the bitmap is negative. -/
def Fuori (s : State) : Chiamata → Prop
  | .richiedi num => (s.indirizzo num).isSome ∧ pagesInfoLung ≤ s.nextFree
  | .rilascia p => (s.trova p.toNat).isSome ∧ 2 ^ 31 ≤ p.toNat

/-- Nothing is known after a call that the model does not follow. -/
def Step (s : State) (c : Chiamata) (t : State) : Prop := Fuori s c ∨ step s c = t

/-! ### What is expected -/

/-- Two allocations have no page in common. -/
def Disgiunte (a b : Nat × Nat) : Prop := a.1 + a.2 ≤ b.1 ∨ b.1 + b.2 ≤ a.1

/-- The bits that are set are those of the kernel and of the live allocations, which are
disjoint. -/
structure Esatta (s : State) : Prop where
  bits : ∀ page, bit s.memMap page = true ↔
    page < 256 ∨ ∃ a ∈ s.vive, a.1 ≤ page ∧ page < a.1 + a.2
  disgiunte : s.vive.Pairwise Disgiunte

/-- A release of a pointer that is not the base of a live allocation changes nothing. -/
def Corretta (s : State) (c : Chiamata) (t : State) : Prop :=
  match c with
  | .richiedi _ => True
  | .rilascia p => (∀ a ∈ s.vive, a.1 * 4096 ≠ p.toNat) → t = s

/-- A request finds an element of the list, or no pages. What is released is in no element
of the list, be it in use or not, or it is the base of a live allocation below 2 GB, and
the first element that it is in starts at it. -/
def Ammessa (s : State) : Chiamata → Prop
  | .richiedi num => s.nextFree < pagesInfoLung ∨ s.indirizzo num = none
  | .rilascia p =>
    s.trova p.toNat = none ∨
      (∃ a ∈ s.vive, a.1 * 4096 = p.toNat) ∧ p.toNat < 2 ^ 31 ∧
        ∃ i, s.trova p.toNat = some i ∧ (s.pagesInfo i).inizio = p.toNat

/-! ### The loops -/

variable {s t : State} {memMap : Nat → BitVec 32} {maxVet num i j count : Nat}

theorem bit_mul_add (hj : j < 32) : bit memMap (32 * i + j) = (memMap i).getLsbD j := by
  have hdiv : (32 * i + j) / 32 = i := by omega
  have hmod : (32 * i + j) % 32 = j := by omega
  rw [bit, hdiv, hmod]

theorem mask_mul_add {op : BitVec 32 → BitVec 32 → BitVec 32} (hj : j < 32) :
    mask op memMap (32 * i + j) = Function.update memMap i (op (memMap i) (1#32 <<< j)) := by
  have hdiv : (32 * i + j) / 32 = i := by omega
  have hmod : (32 * i + j) % 32 = j := by omega
  rw [mask, hdiv, hmod]

/-- The loops over words and bits go over the pages one after the other. -/
theorem scorre_eq (op : BitVec 32 → BitVec 32 → BitVec 32) (n : Nat) (hj : j < 32) :
    scorre op n i j memMap = maskRange op memMap (32 * i + j) n := by
  induction n generalizing i j memMap with
  | zero => rfl
  | succ n ih =>
    rw [scorre, maskRange, mask_mul_add hj]
    split
    · rename_i hwrap
      rw [ih (by decide)]
      congr 1
      omega
    · rename_i hnext
      rcases Nat.lt_or_ge (j + 1) 32 with hlt | hge
      · rw [ih hlt]
        rfl
      · have hzero : n = 0 := by omega
        subst hzero
        rfl

theorem scorre_page (op : BitVec 32 → BitVec 32 → BitVec 32) (n page : Nat) :
    scorre op n (page / 32) (page % 32) memMap = maskRange op memMap page n := by
  rw [scorre_eq op n (Nat.mod_lt page (by decide)), Nat.div_add_mod]

/-- At the head of the search, the last `count` pages are free. -/
structure Ricerca (memMap : Nat → BitVec 32) (maxVet num i j count : Nat) : Prop where
  parola : i ≤ maxVet
  ultima : i = maxVet → j ≤ 30
  posto : j ≤ 32
  ancora : count < num → j < 32
  conto : count ≤ num
  inizio : count ≤ 32 * i + j
  libere : ∀ q, 32 * i + j ≤ q + count → q < 32 * i + j → bit memMap q = false

/-- One turn of the search. -/
theorem Ricerca.giro (h : Ricerca memMap maxVet num i j count) (hcount : count < num)
    {i' j' count' : Nat} (hgiro : giro memMap maxVet num i j count = (i', j', count'))
    (hend : ¬ (i' = maxVet ∧ j' = 31)) :
    Ricerca memMap maxVet num i' j' count' ∧ 32 * i' + j' = 32 * i + j + 1 := by
  have hj := h.ancora hcount
  have hword := h.parola
  have hlast := h.ultima
  have hstart := h.inizio
  obtain ⟨next, hnext⟩ : ∃ n, n = if (memMap i).getLsbD j then 0 else count + 1 := ⟨_, rfl⟩
  have hle : next ≤ count + 1 := by
    split at hnext <;> omega
  have hfree : ∀ q, 32 * i + j + 1 ≤ q + next → q < 32 * i + j + 1 → bit memMap q = false := by
    intro q hlow hhigh
    split at hnext
    · omega
    · rename_i hbit
      rcases Nat.lt_or_ge q (32 * i + j) with hlt | hge
      · exact h.libere q (by omega) hlt
      · obtain rfl : q = 32 * i + j := by omega
        rw [bit_mul_add hj]
        exact Bool.eq_false_iff.mpr hbit
  simp only [Fismem.giro, ← hnext] at hgiro
  split at hgiro
  · rename_i hwrap
    obtain ⟨rfl, rfl, rfl⟩ : i + 1 = i' ∧ 0 = j' ∧ next = count' := by simpa using hgiro
    have hpage : 32 * (i + 1) + 0 = 32 * i + j + 1 := by omega
    constructor
    · constructor
      · omega
      · omega
      · omega
      · omega
      · omega
      · omega
      · rw [hpage]
        exact hfree
    · exact hpage
  · rename_i hstay
    obtain ⟨rfl, rfl, rfl⟩ : i = i' ∧ j + 1 = j' ∧ next = count' := by simpa using hgiro
    constructor
    · constructor
      · exact hword
      · intro hi
        have hle := hlast hi
        omega
      · omega
      · intro hmore
        rcases Nat.lt_or_ge i maxVet with hlt | hge
        · have hne : ¬ j + 1 = 32 := fun heq => hstay ⟨heq, hlt, hmore⟩
          omega
        · have hle := hlast (Nat.le_antisymm hword hge)
          omega
      · omega
      · omega
      · exact hfree
    · rfl

/-- Where the search ends, it has found `num` free pages. -/
theorem Ricerca.fine {fuel i' j' count' : Nat} (h : Ricerca memMap maxVet num i j count)
    (hfound : cerca memMap maxVet num fuel i j count = some (i', j', count')) :
    Ricerca memMap maxVet num i' j' count' ∧ count' = num := by
  induction fuel generalizing i j count with
  | zero => cases hfound
  | succ fuel ih =>
    rw [cerca] at hfound
    rcases Nat.lt_or_ge count num with hlt | hge
    · rw [if_pos hlt] at hfound
      obtain ⟨⟨i₁, j₁, count₁⟩, hgiro⟩ : ∃ p, Fismem.giro memMap maxVet num i j count = p :=
        ⟨_, rfl⟩
      simp only [hgiro] at hfound
      split at hfound
      · cases hfound
      · rename_i hend
        exact ih (h.giro hlt hgiro hend).1 hfound
    · rw [if_neg (Nat.not_lt.mpr hge)] at hfound
      cases hfound
      exact ⟨h, Nat.le_antisymm h.conto hge⟩

/-- The turns that the model gives to the search are enough. -/
theorem Ricerca.basta {fuel : Nat} (h : Ricerca memMap maxVet num i j count)
    (hfuel : 32 * maxVet + 32 ≤ 32 * i + j + fuel) :
    cerca memMap maxVet num (fuel + 1) i j count = cerca memMap maxVet num fuel i j count := by
  induction fuel generalizing i j count with
  | zero =>
    have hword := h.parola
    have hlast := h.ultima
    have hplace := h.posto
    omega
  | succ fuel ih =>
    rw [cerca, cerca]
    rcases Nat.lt_or_ge count num with hlt | hge
    · rw [if_pos hlt, if_pos hlt]
      obtain ⟨⟨i₁, j₁, count₁⟩, hgiro⟩ : ∃ p, Fismem.giro memMap maxVet num i j count = p :=
        ⟨_, rfl⟩
      simp only [hgiro]
      split
      · rfl
      · rename_i hend
        obtain ⟨hnext, hpage⟩ := h.giro hlt hgiro hend
        exact ih hnext (by omega)
    · rw [if_neg (Nat.not_lt.mpr hge), if_neg (Nat.not_lt.mpr hge)]

theorem ricerca_init (memMap : Nat → BitVec 32) (maxVet num : Nat) :
    Ricerca memMap maxVet num 0 0 0 := by
  constructor <;> omega

/-- More turns do not change what the search finds. -/
theorem cerca_basta {fuel : Nat} (hfuel : 32 * maxVet + 32 ≤ fuel) :
    cerca memMap maxVet num fuel 0 0 0 = cerca memMap maxVet num (32 * maxVet + 32) 0 0 0 := by
  induction fuel, hfuel using Nat.le_induction with
  | base => rfl
  | succ fuel hle ih =>
    rw [(ricerca_init memMap maxVet num).basta (by omega), ih]

/-- What `richiedi_pagine` finds are free pages. -/
theorem indirizzo_libere {num : Int} {address : Nat} (h : s.indirizzo num = some address) :
    ∃ base, address = base * 4096 ∧ base + num.toNat ≤ 32 * s.maxVet + 30 ∧
      ∀ q, base ≤ q → q < base + num.toNat → bit s.memMap q = false := by
  obtain ⟨⟨i, j, count⟩, hfound, rfl⟩ := Option.map_eq_some_iff.mp h
  obtain ⟨hend, hcount⟩ := (ricerca_init s.memMap s.maxVet num.toNat).fine hfound
  have hword := hend.parola
  have hlast := hend.ultima
  have hplace := hend.posto
  have hstart := hend.inizio
  refine ⟨i * 32 + j - count, rfl, ?_, ?_⟩
  · omega
  · intro q hlow hhigh
    exact hend.libere q (by omega) (by omega)

/-! ### The list and the bitmap -/

/-- The element of an allocation. -/
def elemento (a : Nat × Nat) : PagesStruct := { inizio := a.1 * 4096, numPages := a.2 }

/-- The elements in use are those of the kernel, of the live allocations and of requests
that found no page to ask for, and they are distinct. -/
structure Coerente (s : State) : Prop where
  kernel : s.pagesInfo 0 = { inizio := 0, numPages := 256 }
  prima : 1 ≤ s.nextFree
  lunga : s.nextFree ≤ pagesInfoLung
  memoria : s.maxVet < 2 ^ 15
  valida : ∀ i, 1 ≤ i → i < s.nextFree →
    (s.pagesInfo i).inizio = 0 ∨ ∃ a ∈ s.vive, s.pagesInfo i = elemento a
  presente : ∀ a ∈ s.vive, ∃ i, 1 ≤ i ∧ i < s.nextFree ∧ s.pagesInfo i = elemento a
  unica : ∀ i k, 1 ≤ i → i < s.nextFree → 1 ≤ k → k < s.nextFree →
    s.pagesInfo i = s.pagesInfo k → (s.pagesInfo i).inizio ≠ 0 → i = k
  spazio : ∀ a ∈ s.vive, 256 ≤ a.1 ∧ 0 < a.2 ∧ a.1 + a.2 ≤ 2 ^ 20
  esatta : Esatta s

/-- At the start, the pages of the kernel are in use. -/
theorem bit_initPages (totalMem : BitVec 32) (memory : Nat → PagesStruct) (page : Nat) :
    bit (initPages totalMem memory).memMap page = true ↔ page < 256 := by
  have hword : page / 32 < 8 ↔ page < 256 := by omega
  have hones : (0xFFFFFFFF : BitVec 32) = BitVec.allOnes 32 := by decide
  have hzero : (0 : BitVec 32) = 0#32 := rfl
  rw [← hword]
  simp only [bit, initPages, hones, hzero]
  split
  · rename_i hlow
    rw [BitVec.getLsbD_allOnes]
    exact iff_of_true (decide_eq_true (Nat.mod_lt page (by decide))) hlow
  · rename_i hhigh
    rw [BitVec.getLsbD_zero]
    exact iff_of_false Bool.false_ne_true hhigh

theorem coerente_init (totalMem : BitVec 32) (memory : Nat → PagesStruct) :
    Coerente (initPages totalMem memory) := by
  have hone : (initPages totalMem memory).nextFree = 1 := rfl
  constructor
  · exact Function.update_self (0 : Nat) _ memory
  · exact Nat.le_of_eq hone.symm
  · rw [hone]
    decide
  · have hmem := totalMem.isLt
    simp only [initPages]
    omega
  · intro i hlow hhigh
    omega
  · rintro a ⟨⟩
  · intro i k hlow hhigh
    omega
  · rintro a ⟨⟩
  · constructor
    · intro page
      rw [bit_initPages]
      simp [initPages]
    · exact List.Pairwise.nil

section

variable (hinv : Coerente s)
include hinv

/-- A page belongs to one live allocation. -/
theorem Coerente.una {a b : Nat × Nat} {q : Nat} (ha : a ∈ s.vive) (hb : b ∈ s.vive)
    (hqa : a.1 ≤ q ∧ q < a.1 + a.2) (hqb : b.1 ≤ q ∧ q < b.1 + b.2) : a = b := by
  by_contra hne
  have hsymm : Std.Symm Disgiunte := { symm _ _ h := h.symm }
  have hdis := hinv.esatta.disgiunte.forall ha hb hne
  unfold Disgiunte at hdis
  omega

/-- A live allocation is given by its base. -/
theorem Coerente.base {a b : Nat × Nat} (ha : a ∈ s.vive) (hb : b ∈ s.vive)
    (hbase : a.1 = b.1) : a = b := by
  have hna := hinv.spazio a ha
  have hnb := hinv.spazio b hb
  exact hinv.una ha hb (q := a.1) (by omega) (by omega)

/-- What a request finds is above the kernel and in no live allocation. -/
theorem Coerente.nuova {num : Int} {address : Nat} (h : s.indirizzo num = some address)
    (hnum : 0 < num.toNat) :
    ∃ base, address = base * 4096 ∧ 256 ≤ base ∧ base + num.toNat ≤ 2 ^ 20 ∧
      ∀ a ∈ s.vive, Disgiunte (base, num.toNat) a := by
  obtain ⟨base, haddress, hspace, hfree⟩ := indirizzo_libere h
  have hmem := hinv.memoria
  have hbits := hinv.esatta.bits
  have hlow : 256 ≤ base := by
    apply Nat.le_of_not_lt
    intro hlt
    have hset := (hbits base).mpr (Or.inl hlt)
    rw [hfree base (Nat.le_refl base) (by omega)] at hset
    exact Bool.false_ne_true hset
  refine ⟨base, haddress, hlow, by omega, ?_⟩
  intro a ha
  have hsize := (hinv.spazio a ha).2.1
  -- The first page that both hold would be free and in use.
  have hclash : ∀ q, a.1 ≤ q → q < a.1 + a.2 → base ≤ q → ¬ q < base + num.toNat := by
    intro q hqa hqa' hqb hqb'
    have hset := (hbits q).mpr (Or.inr ⟨a, ha, hqa, hqa'⟩)
    rw [hfree q hqb hqb'] at hset
    exact Bool.false_ne_true hset
  have hfirst := hclash (max a.1 base)
  simp only [Disgiunte]
  omega

/-- The element of a live allocation contains its base. -/
theorem Coerente.contiene_base {a : Nat × Nat} {i : Nat} (ha : a ∈ s.vive)
    (hi : s.pagesInfo i = elemento a) : s.contiene i (a.1 * 4096) = true := by
  have hspace := hinv.spazio a ha
  simp only [State.contiene, hi, elemento]
  rw [Nat.mod_eq_of_lt (by omega)]
  exact decide_eq_true ⟨Nat.le_refl _, Nat.le_add_right ..⟩

/-- The element that the base of a live allocation is found in is in use. -/
theorem Coerente.trova_usato {a : Nat × Nat} {i : Nat} (ha : a ∈ s.vive)
    (htrova : s.trova (a.1 * 4096) = some i) : i < s.nextFree := by
  obtain ⟨k, -, hkfree, hkelem⟩ := hinv.presente a ha
  obtain ⟨-, -, hfirst⟩ := List.find?_range_eq_some.mp htrova
  apply Nat.lt_of_le_of_lt _ hkfree
  apply Nat.le_of_not_lt
  intro hlt
  have hno := hfirst k hlt
  rw [hinv.contiene_base ha hkelem] at hno
  cases hno

/-- The first element that contains the base of a live allocation and starts at it is that
of the allocation. -/
theorem Coerente.trova_viva {a : Nat × Nat} {i : Nat} (ha : a ∈ s.vive)
    (htrova : s.trova (a.1 * 4096) = some i) (hstart : (s.pagesInfo i).inizio = a.1 * 4096) :
    1 ≤ i ∧ i < s.nextFree ∧ s.pagesInfo i = elemento a := by
  have hspace := hinv.spazio a ha
  have hfree := hinv.trova_usato ha htrova
  have hi : 1 ≤ i := by
    apply Nat.pos_of_ne_zero
    rintro rfl
    rw [hinv.kernel] at hstart
    have hzero : 0 = a.1 * 4096 := hstart
    omega
  refine ⟨hi, hfree, ?_⟩
  rcases hinv.valida i hi hfree with hzero | ⟨b, hb, helem⟩
  · omega
  · rw [helem] at hstart
    have hbase : b.1 * 4096 = a.1 * 4096 := hstart
    rw [helem, hinv.base hb ha (by omega)]

/-- An element at the end of the list, of no pages or of an allocation that is not in the
list, keeps the list in agreement with the live allocations. -/
theorem Coerente.aggiunta {e : PagesStruct} {vive : List (Nat × Nat)}
    (hlist : s.nextFree < pagesInfoLung) (hold : ∀ a ∈ s.vive, a ∈ vive)
    (hkind : e.inizio = 0 ∨ ∃ a ∈ vive, e = elemento a)
    (hnew : ∀ a ∈ vive, a ∈ s.vive ∨ e = elemento a) (hfresh : ∀ a ∈ s.vive, e ≠ elemento a)
    (hspace : ∀ a ∈ vive, 256 ≤ a.1 ∧ 0 < a.2 ∧ a.1 + a.2 ≤ 2 ^ 20)
    (hexact : Esatta { s with memMap := memMap, vive := vive }) :
    Coerente { s with
      memMap := memMap
      pagesInfo := Function.update s.pagesInfo s.nextFree e
      nextFree := s.nextFree + 1
      vive := vive } := by
  have hfirst := hinv.prima
  have hlast : Function.update s.pagesInfo s.nextFree e s.nextFree = e :=
    Function.update_self ..
  have hkeep : ∀ i < s.nextFree,
      Function.update s.pagesInfo s.nextFree e i = s.pagesInfo i := by
    intro i hi
    exact Function.update_of_ne (Nat.ne_of_lt hi) ..
  -- No element before has the place of an allocation in `e`.
  have halone : ∀ i, 1 ≤ i → i < s.nextFree → e = s.pagesInfo i → e.inizio = 0 := by
    intro i hi hfree heq
    rcases hinv.valida i hi hfree with hzero | ⟨a, ha, helem⟩
    · rw [heq, hzero]
    · exact absurd (heq.trans helem) (hfresh a ha)
  constructor
  · exact (hkeep 0 hfirst).trans hinv.kernel
  · exact Nat.le_succ_of_le hfirst
  · exact hlist
  · exact hinv.memoria
  · intro i hi hfree
    dsimp only at hfree ⊢
    rcases Nat.lt_succ_iff_lt_or_eq.mp hfree with hlt | rfl
    · rw [hkeep i hlt]
      rcases hinv.valida i hi hlt with hzero | ⟨a, ha, helem⟩
      · exact Or.inl hzero
      · exact Or.inr ⟨a, hold a ha, helem⟩
    · rw [hlast]
      exact hkind
  · intro a ha
    dsimp only
    rcases hnew a ha with hmem | heq
    · obtain ⟨i, hi, hfree, helem⟩ := hinv.presente a hmem
      refine ⟨i, hi, Nat.lt_succ_of_lt hfree, ?_⟩
      rw [hkeep i hfree, helem]
    · refine ⟨s.nextFree, hfirst, Nat.lt_succ_self _, ?_⟩
      rw [hlast, heq]
  · intro i k hi hifree hk hkfree heq hne
    dsimp only at hifree hkfree heq hne
    rcases Nat.lt_succ_iff_lt_or_eq.mp hifree with hilt | rfl
    · rw [hkeep i hilt] at heq hne
      rcases Nat.lt_succ_iff_lt_or_eq.mp hkfree with hklt | rfl
      · rw [hkeep k hklt] at heq
        exact hinv.unica i k hi hilt hk hklt heq hne
      · rw [hlast] at heq
        exact absurd (heq ▸ halone i hi hilt heq.symm) hne
    · rw [hlast] at heq hne
      rcases Nat.lt_succ_iff_lt_or_eq.mp hkfree with hklt | rfl
      · rw [hkeep k hklt] at heq
        exact absurd (halone k hk hklt heq) hne
      · rfl
  · exact hspace
  · exact ⟨hexact.bits, hexact.disgiunte⟩

/-- A request preserves the agreement of the list and the bitmap. -/
theorem Coerente.richiedi {num : Int}
    (hok : s.nextFree < pagesInfoLung ∨ s.indirizzo num = none) :
    Coerente (s.richiediPagine num).2 := by
  unfold State.richiediPagine
  cases hfound : s.indirizzo num with
  | none => exact hinv
  | some address =>
    have hlist := hok.resolve_right (by rw [hfound]; rintro ⟨⟩)
    dsimp only [State.addMemList]
    rcases Nat.eq_zero_or_pos num.toNat with hzero | hpos
    · have haddress : address = 0 := by
        simp [State.indirizzo, hzero, cerca] at hfound
        exact hfound.symm
      rw [haddress, hzero, if_pos rfl]
      apply hinv.aggiunta hlist
      · exact fun a ha => ha
      · exact Or.inl rfl
      · exact fun a ha => Or.inl ha
      · intro a ha heq
        have hspace := hinv.spazio a ha
        have hinizio : 0 = a.1 * 4096 := congrArg PagesStruct.inizio heq
        omega
      · exact hinv.spazio
      · exact hinv.esatta
    · obtain ⟨base, rfl, hlow, hhigh, hdis⟩ := hinv.nuova hfound hpos
      have hdiv : base * 4096 / 4096 = base := Nat.mul_div_cancel base (by decide)
      have hne : base * 4096 ≠ 0 := by omega
      have hnum : (num % 2 ^ 32).toNat = num.toNat := by omega
      rw [hdiv, hnum, if_neg hne, scorre_page]
      apply hinv.aggiunta hlist
      · exact fun a ha => List.mem_cons_of_mem _ ha
      · exact Or.inr ⟨(base, num.toNat), List.mem_cons_self, rfl⟩
      · intro a ha
        rcases List.mem_cons.mp ha with rfl | hmem
        · exact Or.inr rfl
        · exact Or.inl hmem
      · intro a ha heq
        have hspace := hinv.spazio a ha
        have hinizio : base * 4096 = a.1 * 4096 := congrArg PagesStruct.inizio heq
        have hapart := hdis a ha
        simp only [Disgiunte] at hapart
        omega
      · intro a ha
        rcases List.mem_cons.mp ha with rfl | hmem
        · exact ⟨hlow, hpos, hhigh⟩
        · exact hinv.spazio a hmem
      · constructor
        · intro page
          dsimp only
          rw [bit_orRange (by decide), Bool.or_eq_true, hinv.esatta.bits page, decide_eq_true_iff,
            List.exists_mem_cons_iff, or_assoc]
          apply or_congr_right
          exact or_comm
        · exact List.Pairwise.cons hdis hinv.esatta.disgiunte

/-- What the release of the base of `a` leaves of the live allocations. -/
theorem Coerente.mem_resto {a b : Nat × Nat} (ha : a ∈ s.vive) :
    (b ∈ s.vive.filter fun c => c.1 * 4096 ≠ a.1 * 4096) ↔ b ∈ s.vive ∧ b ≠ a := by
  rw [List.mem_filter, decide_eq_true_iff]
  apply and_congr_right
  intro hb
  constructor
  · rintro hne rfl
    exact hne rfl
  · intro hne heq
    exact hne (hinv.base hb ha (by omega))

/-- The bits of an allocation are cleared with its release. -/
theorem Coerente.liberata {a : Nat × Nat} (ha : a ∈ s.vive) (page : Nat) :
    bit (maskRange (· ^^^ ·) s.memMap a.1 a.2) page = true ↔
      page < 256 ∨ ∃ b ∈ s.vive.filter fun c => c.1 * 4096 ≠ a.1 * 4096,
        b.1 ≤ page ∧ page < b.1 + b.2 := by
  have hspace := hinv.spazio a ha
  rw [bit_xorRange (by decide)]
  simp only [hinv.mem_resto ha]
  by_cases hpage : a.1 ≤ page ∧ page < a.1 + a.2
  · have hset := (hinv.esatta.bits page).mpr (Or.inr ⟨a, ha, hpage⟩)
    rw [hset, decide_eq_true hpage]
    apply iff_of_false Bool.false_ne_true
    rintro (hlow | ⟨b, ⟨hb, hne⟩, hpageb⟩)
    · omega
    · exact hne (hinv.una hb ha hpageb hpage)
  · rw [decide_eq_false hpage, Bool.xor_false, hinv.esatta.bits page]
    apply or_congr_right
    constructor
    · rintro ⟨b, hb, hpageb⟩
      refine ⟨b, ⟨hb, ?_⟩, hpageb⟩
      rintro rfl
      exact hpage hpageb
    · rintro ⟨b, ⟨hb, -⟩, hpageb⟩
      exact ⟨b, hb, hpageb⟩

/-- The release of the base of a live allocation preserves the agreement. -/
theorem Coerente.rilascia {a : Nat × Nat} {i : Nat} (ha : a ∈ s.vive)
    (htrova : s.trova (a.1 * 4096) = some i) (hstart : (s.pagesInfo i).inizio = a.1 * 4096) :
    Coerente (s.rilasciaPagine (a.1 * 4096)) := by
  obtain ⟨hi, hifree, helem⟩ := hinv.trova_viva ha htrova hstart
  have hspace := hinv.spazio a ha
  have hdiv : a.1 * 4096 / 4096 = a.1 := Nat.mul_div_cancel a.1 (by decide)
  have hpagine : s.pagine i = a.2 := by
    have hnat : (BitVec.ofNat 32 a.2).toNat = a.2 := Nat.mod_eq_of_lt (by omega)
    have hint : (BitVec.ofNat 32 a.2).toInt = a.2 := by
      rw [BitVec.toInt_eq_toNat_of_lt (by omega), hnat]
    simp only [State.pagine, helem, elemento]
    rw [hint, Int.toNat_natCast]
  -- The element `k` of the new list is `vecchio k` of the old one.
  obtain ⟨vecchio, hvecchio⟩ : ∃ f : Nat → Nat, ∀ k, f k = if k = i then s.nextFree - 1 else k :=
    ⟨_, fun _ => rfl⟩
  have hinfo : ∀ k, Function.update s.pagesInfo i (s.pagesInfo (s.nextFree - 1)) k =
      s.pagesInfo (vecchio k) := by
    intro k
    rw [Function.update_apply, hvecchio k]
    split <;> rfl
  have hold : ∀ k, 1 ≤ k → k < s.nextFree - 1 →
      1 ≤ vecchio k ∧ vecchio k < s.nextFree ∧ vecchio k ≠ i := by
    intro k hk hkfree
    rw [hvecchio k]
    split <;> omega
  unfold State.rilasciaPagine
  rw [htrova]
  dsimp only
  rw [hpagine, hdiv, scorre_page]
  constructor
  · exact (Function.update_of_ne (by omega) ..).trans hinv.kernel
  · dsimp only
    omega
  · exact Nat.le_trans (Nat.sub_le ..) hinv.lunga
  · exact hinv.memoria
  · intro k hk hkfree
    dsimp only at hkfree ⊢
    rw [hinfo k]
    obtain ⟨hpos, hfree, hne⟩ := hold k hk hkfree
    rcases hinv.valida _ hpos hfree with hzero | ⟨b, hb, hbelem⟩
    · exact Or.inl hzero
    · refine Or.inr ⟨b, (hinv.mem_resto ha).mpr ⟨hb, ?_⟩, hbelem⟩
      rintro rfl
      apply hne
      apply hinv.unica _ i hpos hfree hi hifree (hbelem.trans helem.symm)
      rw [hbelem]
      exact Nat.ne_of_gt (show 0 < b.1 * 4096 by omega)
  · intro b hb
    obtain ⟨hmem, hne⟩ := (hinv.mem_resto ha).mp hb
    obtain ⟨k, hk, hkfree, hkelem⟩ := hinv.presente b hmem
    have hki : k ≠ i := by
      rintro rfl
      have hinizio : b.1 * 4096 = a.1 * 4096 :=
        congrArg PagesStruct.inizio (hkelem.symm.trans helem)
      exact hne (hinv.base hmem ha (by omega))
    dsimp only
    rcases Nat.lt_or_ge k (s.nextFree - 1) with hlt | hge
    · refine ⟨k, hk, hlt, ?_⟩
      rw [hinfo k, hvecchio k, if_neg hki, hkelem]
    · obtain rfl : k = s.nextFree - 1 := by omega
      refine ⟨i, hi, by omega, ?_⟩
      rw [hinfo i, hvecchio i, if_pos rfl, hkelem]
  · intro k l hk hkfree hl hlfree heq hne
    dsimp only at hkfree hlfree heq hne
    rw [hinfo k] at heq hne
    rw [hinfo l] at heq
    obtain ⟨hkpos, hkold, hki⟩ := hold k hk hkfree
    obtain ⟨hlpos, hlold, hli⟩ := hold l hl hlfree
    have hsame := hinv.unica _ _ hkpos hkold hlpos hlold heq hne
    rw [hvecchio k, hvecchio l] at hsame
    split at hsame <;> split at hsame <;> omega
  · intro b hb
    exact hinv.spazio b ((hinv.mem_resto ha).mp hb).1
  · constructor
    · exact hinv.liberata ha
    · exact hinv.esatta.disgiunte.filter _

/-- A release that finds no element changes nothing. -/
theorem Coerente.rilascia_nessuno {p : Nat} (htrova : s.trova p = none) :
    s.rilasciaPagine p = s := by
  have hnone : ∀ a ∈ s.vive, a.1 * 4096 ≠ p := by
    rintro a ha rfl
    obtain ⟨i, -, hfree, helem⟩ := hinv.presente a ha
    have hlong := hinv.lunga
    have hno := List.find?_eq_none.mp htrova i (List.mem_range.mpr (by omega))
    exact hno (hinv.contiene_base ha helem)
  unfold State.rilasciaPagine
  rw [htrova, List.filter_eq_self.mpr fun a ha => decide_eq_true (hnone a ha)]

end

theorem step_eseguito (c : Chiamata) : Step s c (step s c) := Or.inr rfl

theorem step_rilascia {p : BitVec 32} : step s (.rilascia p) = s.rilasciaPagine p.toNat := rfl

theorem Ammessa.seguita {c : Chiamata} (hok : Ammessa s c) (hstep : Step s c t) :
    step s c = t := by
  apply hstep.resolve_left
  cases c with
  | richiedi num =>
    rintro ⟨hfound, hfull⟩
    rcases hok with hlist | hnone
    · exact absurd hlist (Nat.not_lt.mpr hfull)
    · rw [hnone] at hfound
      cases hfound
  | rilascia p =>
    rintro ⟨hfound, hhigh⟩
    rcases hok with hnone | ⟨-, hlow, -⟩
    · rw [hnone] at hfound
      cases hfound
    · exact absurd hlow (Nat.not_lt.mpr hhigh)

/-- An admitted call preserves the agreement of the list and the bitmap. -/
theorem Coerente.step {c : Chiamata} (hinv : Coerente s) (hok : Ammessa s c)
    (hstep : Step s c t) : Coerente t := by
  obtain rfl := hok.seguita hstep
  cases c with
  | richiedi num => exact hinv.richiedi hok
  | rilascia p =>
    rw [step_rilascia]
    rcases hok with hnone | ⟨⟨a, ha, hbase⟩, -, i, htrova, hstart⟩
    · rw [hinv.rilascia_nessuno hnone]
      exact hinv
    · rw [← hbase] at htrova hstart ⊢
      exact hinv.rilascia ha htrova hstart

theorem Coerente.corretta {c : Chiamata} (hinv : Coerente s) (hok : Ammessa s c)
    (hstep : Step s c t) : Corretta s c t := by
  obtain rfl := hok.seguita hstep
  cases c with
  | richiedi num => trivial
  | rilascia p =>
    intro hdead
    rw [step_rilascia]
    rcases hok with hnone | ⟨⟨a, ha, hbase⟩, -⟩
    · exact hinv.rilascia_nessuno hnone
    · exact absurd hbase (hdead a ha)

/-- In a run whose releases are of live allocations or of pointers that are in no element,
the bitmap is exact after each call, and a release of anything else changes nothing. -/
theorem pages_run {totalMem : BitVec 32} {memory : Nat → PagesStruct} {calls : List Chiamata}
    (h : Run (Guarded Ammessa Step) (initPages totalMem memory) calls s) :
    Esatta s ∧ ∀ c t, Ammessa s c → Step s c t → Corretta s c t := by
  have hinv := h.guarded_invariant (fun _ _ _ hinv hok hstep => hinv.step hok hstep)
    (coerente_init totalMem memory)
  exact ⟨hinv.esatta, fun _ _ hok hstep => hinv.corretta hok hstep⟩

/-! ### Requests for no negative number of pages -/

def NonNegativa : Chiamata → Prop
  | .richiedi num => 0 ≤ num
  | .rilascia _ => True

/-- No element in use goes from zero over pages of others. -/
def SenzaNegative (s : State) : Prop :=
  ∀ i, 1 ≤ i → i < s.nextFree → (s.pagesInfo i).inizio = 0 → (s.pagesInfo i).numPages = 0

theorem SenzaNegative.step {c : Chiamata} (hclear : SenzaNegative s) (hinv : Coerente s)
    (hok : Ammessa s c) (hnum : NonNegativa c) (hstep : Step s c t) : SenzaNegative t := by
  obtain rfl := hok.seguita hstep
  cases c with
  | richiedi num =>
    have hstep : Fismem.step s (.richiedi num) = (s.richiediPagine num).2 := rfl
    rw [hstep]
    unfold State.richiediPagine
    cases hfound : s.indirizzo num with
    | none => exact hclear
    | some address =>
      intro i hi hfree
      dsimp only [State.addMemList] at hfree ⊢
      rcases Nat.lt_succ_iff_lt_or_eq.mp hfree with hlt | rfl
      · rw [Function.update_of_ne (Nat.ne_of_lt hlt)]
        exact hclear i hi hlt
      · rw [Function.update_self]
        intro hzero
        dsimp only at hzero ⊢
        have hnum : 0 ≤ num := hnum
        rcases Nat.eq_zero_or_pos num.toNat with hnone | hpos
        · omega
        · obtain ⟨base, hbase, hlow, -⟩ := hinv.nuova hfound hpos
          omega
  | rilascia p =>
    rw [step_rilascia]
    rcases hok with hnone | ⟨⟨a, ha, hbase⟩, -, i, htrova, hstart⟩
    · rw [hinv.rilascia_nessuno hnone]
      exact hclear
    · rw [← hbase] at htrova hstart ⊢
      obtain ⟨hi, hifree, -⟩ := hinv.trova_viva ha htrova hstart
      unfold State.rilasciaPagine
      rw [htrova]
      intro k hk hkfree
      dsimp only at hkfree ⊢
      rw [Function.update_apply]
      split
      · exact hclear _ (by omega) (by omega)
      · exact hclear k hk (by omega)

/-- The base of a live allocation is found in the element of the allocation. -/
theorem SenzaNegative.trova_base {a : Nat × Nat} (hclear : SenzaNegative s) (hinv : Coerente s)
    (ha : a ∈ s.vive) :
    ∃ i, s.trova (a.1 * 4096) = some i ∧ (s.pagesInfo i).inizio = a.1 * 4096 := by
  have hspace := hinv.spazio a ha
  cases htrova : s.trova (a.1 * 4096) with
  | none =>
    obtain ⟨k, -, hkfree, hkelem⟩ := hinv.presente a ha
    have hlong := hinv.lunga
    have hno := List.find?_eq_none.mp htrova k (List.mem_range.mpr (by omega))
    exact absurd (hinv.contiene_base ha hkelem) hno
  | some i =>
    refine ⟨i, rfl, ?_⟩
    have hfree := hinv.trova_usato ha htrova
    obtain ⟨hin, -, -⟩ := List.find?_range_eq_some.mp htrova
    obtain ⟨hlow, hhigh⟩ := of_decide_eq_true hin
    rcases Nat.eq_zero_or_pos i with rfl | hi
    · rw [hinv.kernel] at hhigh
      dsimp only at hhigh
      omega
    · rcases hinv.valida i hi hfree with hzero | ⟨b, hb, helem⟩
      · rw [hzero, hclear i hi hfree hzero] at hhigh
        omega
      · rw [helem] at hlow hhigh ⊢
        dsimp only [elemento] at hlow hhigh ⊢
        have hspaceb := hinv.spazio b hb
        by_cases heq : b = a
        · rw [heq]
        · have hsymm : Std.Symm Disgiunte := { symm _ _ h := h.symm }
          have hdis := hinv.esatta.disgiunte.forall hb ha heq
          simp only [Disgiunte] at hdis
          omega

/-- Without negative requests, every base of a live allocation below 2 GB may be released. -/
theorem ammessa_of_base {totalMem : BitVec 32} {memory : Nat → PagesStruct}
    {calls : List Chiamata}
    (h : Run (Guarded (fun s c => Ammessa s c ∧ NonNegativa c) Step)
      (initPages totalMem memory) calls s) {a : Nat × Nat} (ha : a ∈ s.vive) {p : BitVec 32}
    (hp : a.1 * 4096 = p.toNat) (hlow : p.toNat < 2 ^ 31) : Ammessa s (.rilascia p) := by
  have hstart : SenzaNegative (initPages totalMem memory) := by
    intro i hi hfree
    have hone : i < 1 := hfree
    omega
  obtain ⟨hinv, hclear⟩ := h.guarded_invariant (I := fun s => Coerente s ∧ SenzaNegative s)
    (fun _ _ _ hboth hok hstep =>
      ⟨hboth.1.step hok.1 hstep, hboth.2.step hboth.1 hok.1 hok.2 hstep⟩)
    ⟨coerente_init totalMem memory, hstart⟩
  right
  rw [← hp] at hlow ⊢
  exact ⟨⟨a, ha, rfl⟩, hlow, hclear.trova_base hinv ha⟩

/-- A machine of 16 MB, with zeros in the memory of the list. -/
def avvio : State := initPages 0x1000000 fun _ => { inizio := 0, numPages := 0 }

/-- A page is asked for and released. -/
theorem pages_of_richiedi :
    Esatta (step (step avvio (.richiedi 1)) (.rilascia 0x100000)) := by
  have hrun : Run (Guarded Ammessa Step) avvio [.richiedi 1, .rilascia 0x100000]
      (step (step avvio (.richiedi 1)) (.rilascia 0x100000)) := by
    apply Run.cons ⟨Or.inl (by decide), step_eseguito _⟩
    apply Run.single
    constructor
    · right
      refine ⟨⟨(256, 1), ?_, rfl⟩, by decide, 1, ?_, ?_⟩
      · decide +kernel
      · decide +kernel
      · decide +kernel
    · exact step_eseguito _
  exact (pages_run hrun).1

/-- A second release of a page finds the element of the first one, which is not in use any
more, and sets the bit again. -/
theorem rilascia_twice :
    ∃ s, Run Step avvio [.richiedi 1, .rilascia 0x100000, .rilascia 0x100000] s ∧
      ¬ Esatta s := by
  refine ⟨step (step (step avvio (.richiedi 1)) (.rilascia 0x100000)) (.rilascia 0x100000),
    ?_, ?_⟩
  · apply Run.cons (step_eseguito _)
    apply Run.cons (step_eseguito _)
    exact Run.single (step_eseguito _)
  · intro hexact
    have hset := (hexact.bits 256).mp (by decide +kernel)
    revert hset
    decide +kernel

end OsdevArchive.DreamOS.Fismem
