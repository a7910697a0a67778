import OsdevArchive.DreamOS.Fismem
import OsdevArchive.Lib.Stretches

/-!
What the search of `richiedi_pagine` finds: the first stretch of free pages that ends below the
page `32 * max_vet + 31`, and nothing if there is none.

`richiedi_pagine` and `add_mem_list` of DreamOS as they call each other: without an element left,
`add_mem_list` asks for a page for the next structure of the list, and `mem_list` stays where it
is. `fuel` counts the calls that are open.
-/

namespace OsdevArchive.DreamOS.Fismem

open OsdevArchive.Lib.Bitmap OsdevArchive.Lib.Stretches

/-! ### The search -/

section

/-- A page that is not marked. -/
def Libera (memMap : Nat → BitVec 32) (q : Nat) : Prop := bit memMap q = false

instance (memMap : Nat → BitVec 32) : DecidablePred (Libera memMap) :=
  fun q => inferInstanceAs (Decidable (bit memMap q = false))

/-- The end of the pages that the search looks at. -/
def limite (maxVet : Nat) : Nat := 32 * maxVet + 30

/-- The first stretch of `num` free pages below an end starts at `base`. -/
structure Prima (memMap : Nat → BitVec 32) (fine num base : Nat) : Prop where
  dentro : base + num ≤ fine
  libere : Stretch (Libera memMap) base num
  minima : ∀ b, Stretch (Libera memMap) b num → b + num ≤ fine → base ≤ b

variable {s : State} {memMap : Nat → BitVec 32} {maxVet num i j count fine base : Nat}

theorem Prima.unica {b : Nat} (h : Prima memMap fine num base) (h' : Prima memMap fine num b) :
    base = b :=
  Nat.le_antisymm (h.minima b h'.libere h'.dentro) (h'.minima base h.libere h.dentro)

/-- At the head of the search, a stretch that is behind it is the one that was counted last, and
the pages counted last start behind a page in use or at the first page. -/
structure Scorsa (memMap : Nat → BitVec 32) (num i j count : Nat) : Prop where
  sola : ∀ b, Stretch (Libera memMap) b num → b + num ≤ 32 * i + j → b + count = 32 * i + j
  massima : ∀ q, q + count + 1 = 32 * i + j → ¬ Libera memMap q

theorem scorsa_init (memMap : Nat → BitVec 32) (hnum : 0 < num) : Scorsa memMap num 0 0 0 := by
  constructor <;> omega

/-- The count after one turn of the search. -/
theorem giro_conto (memMap : Nat → BitVec 32) (maxVet num i count : Nat) {j : Nat}
    (hj : j < 32) : (giro memMap maxVet num i j count).2.2 =
      if Libera memMap (32 * i + j) then count + 1 else 0 := by
  have hbit : (if (memMap i).getLsbD j then 0 else count + 1) =
      if Libera memMap (32 * i + j) then count + 1 else 0 := by
    have hfree : Libera memMap (32 * i + j) ↔ (memMap i).getLsbD j = false := by
      rw [Libera, bit_mul_add hj]
    simp only [hfree]
    cases (memMap i).getLsbD j <;> rfl
  unfold giro
  rw [hbit]
  generalize (if Libera memMap (32 * i + j) then count + 1 else 0) = next
  dsimp only
  split <;> rfl

theorem giro_page (memMap : Nat → BitVec 32) (maxVet num i j count : Nat) :
    32 * (giro memMap maxVet num i j count).1 + (giro memMap maxVet num i j count).2.1 =
      32 * i + j + 1 := by
  unfold giro
  generalize (if (memMap i).getLsbD j then 0 else count + 1) = next
  dsimp only
  split
  · dsimp only
    omega
  · rfl

/-- One turn of the search, wherever it leads. -/
theorem Ricerca.scorsa (h : Ricerca memMap maxVet num i j count)
    (hscorsa : Scorsa memMap num i j count) (hcount : count < num) {i' j' count' : Nat}
    (hgiro : Fismem.giro memMap maxVet num i j count = (i', j', count')) :
    Scorsa memMap num i' j' count' := by
  have hpage := giro_page memMap maxVet num i j count
  rw [hgiro] at hpage
  dsimp only at hpage
  have hconto := giro_conto memMap maxVet num i count (h.ancora hcount)
  rw [hgiro] at hconto
  dsimp only at hconto
  constructor
  · intro b hb hle
    rcases Nat.lt_or_ge (32 * i + j) (b + num) with hlt | hge
    · -- The last page of the stretch is the one of this turn.
      have hlast : Libera memMap (32 * i + j) := hb _ (by omega) hlt
      rw [if_pos hlast] at hconto
      have hall : ¬ b < 32 * i + j - count := by
        intro hlow
        exact hscorsa.massima (32 * i + j - count - 1) (by omega) (hb _ (by omega) (by omega))
      have hstart := h.inizio
      omega
    · have hold := hscorsa.sola b hb hge
      omega
  · intro q hq
    split at hconto
    · exact hscorsa.massima q (by omega)
    · obtain rfl : q = 32 * i + j := by omega
      assumption

/-- What the search answers from a place on where it has looked at the pages before. -/
theorem Ricerca.cerca_spec (fuel : Nat) (h : Ricerca memMap maxVet num i j count)
    (hscorsa : Scorsa memMap num i j count)
    (hfuel : 32 * maxVet + 32 ≤ 32 * i + j + fuel) :
    match cerca memMap maxVet num fuel i j count with
    | some (i', j', count') =>
      Prima memMap (limite maxVet) num (i' * 32 + j' - count') ∧ count' = num
    | none => ¬ HasStretch (Libera memMap) (limite maxVet) num := by
  induction fuel generalizing i j count with
  | zero =>
    have hword := h.parola
    have hlast := h.ultima
    have hplace := h.posto
    omega
  | succ fuel ih =>
    rw [cerca]
    rcases Nat.lt_or_ge count num with hlt | hge
    · rw [if_pos hlt]
      obtain ⟨⟨i₁, j₁, count₁⟩, hgiro⟩ : ∃ p, Fismem.giro memMap maxVet num i j count = p :=
        ⟨_, rfl⟩
      have hpage := giro_page memMap maxVet num i j count
      simp only [hgiro] at hpage ⊢
      by_cases hend : i₁ = maxVet ∧ j₁ = 31
      · rw [if_pos hend]
        unfold limite
        rintro ⟨b, hle, hb⟩
        have hold := hscorsa.sola b hb (by omega)
        omega
      · rw [if_neg hend]
        exact ih (h.giro hlt hgiro hend).1 (h.scorsa hscorsa hlt hgiro) (by omega)
    · rw [if_neg (Nat.not_lt.mpr hge)]
      have hcount := Nat.le_antisymm h.conto hge
      have hword := h.parola
      have hlast := h.ultima
      have hplace := h.posto
      have hstart := h.inizio
      refine ⟨⟨?_, ?_, ?_⟩, hcount⟩
      · unfold limite
        omega
      · intro q hlow hhigh
        exact h.libere q (by omega) (by omega)
      · intro b hb hle
        rcases Nat.lt_or_ge (32 * i + j) (b + num) with hlt | hge
        · omega
        · have hold := hscorsa.sola b hb hge
          omega

/-- `richiedi_pagine` finds the first stretch. -/
theorem indirizzo_eq_some_iff {num : Int} {address : Nat} (hnum : 0 < num) :
    s.indirizzo num = some address ↔
      ∃ base, address = base * 4096 ∧ Prima s.memMap (limite s.maxVet) num.toNat base := by
  have hspec := (ricerca_init s.memMap s.maxVet num.toNat).cerca_spec
    (32 * s.maxVet + 32) (scorsa_init s.memMap (by omega)) (by omega)
  unfold State.indirizzo
  cases hfound : cerca s.memMap s.maxVet num.toNat (32 * s.maxVet + 32) 0 0 0 with
  | none =>
    rw [hfound] at hspec
    apply iff_of_false (by rintro ⟨⟩)
    rintro ⟨base, -, hbase⟩
    exact hspec ⟨base, hbase.dentro, hbase.libere⟩
  | some p =>
    obtain ⟨i, j, count⟩ := p
    rw [hfound] at hspec
    obtain ⟨hfirst, -⟩ := hspec
    rw [Option.map_some, Option.some_inj]
    constructor
    · rintro rfl
      exact ⟨_, rfl, hfirst⟩
    · rintro ⟨base, rfl, hbase⟩
      exact congrArg (· * 4096) (hfirst.unica hbase)

theorem indirizzo_eq_none_iff {num : Int} (hnum : 0 < num) :
    s.indirizzo num = none ↔ ¬ HasStretch (Libera s.memMap) (limite s.maxVet) num.toNat := by
  have hspec := (ricerca_init s.memMap s.maxVet num.toNat).cerca_spec
    (32 * s.maxVet + 32) (scorsa_init s.memMap (by omega)) (by omega)
  unfold State.indirizzo
  rw [Option.map_eq_none_iff]
  cases hfound : cerca s.memMap s.maxVet num.toNat (32 * s.maxVet + 32) 0 0 0 with
  | none =>
    rw [hfound] at hspec
    exact iff_of_true rfl hspec
  | some p =>
    rw [hfound] at hspec
    apply iff_of_false (by rintro ⟨⟩)
    exact not_not_intro ⟨_, hspec.1.dentro, hspec.1.libere⟩

end

/-- The list with `mem_list->next` and `max_pages`; `coda` is the last element of the structure
that the page at an address would hold. -/
structure Lista extends State where
  next : Nat
  maxPages : Nat
  coda : Nat → PagesStruct
  vet : maxVet = maxPages / 32

namespace Lista

/-- The second loop of `richiedi_pagine`. -/
def segna (s : Lista) (address : Nat) (num : Int) : Lista :=
  { s with
    memMap := scorre (· ||| ·) num.toNat (address / 4096 / 32) (address / 4096 % 32) s.memMap }

/-- `add_mem_list`, with `chiedi` for `richiedi_pagine(1)`. The test behind it is of `mem_list`,
which is never `NULL`. -/
def addMemList (chiedi : Lista → Option (Nat × Lista)) (s : Lista) (address : Nat) (num : Int) :
    Option Lista :=
  let e : PagesStruct := { inizio := address, numPages := (num % 2 ^ 32).toNat }
  if s.nextFree < pagesInfoLung then
    some { s with
      pagesInfo := Function.update s.pagesInfo s.nextFree e
      nextFree := s.nextFree + 1 }
  else
    (chiedi s).map fun (next, s) =>
      { s with next := next, pagesInfo := Function.update s.pagesInfo 0 e, nextFree := 1 }

/-- `richiedi_pagine`; `none` where more calls are open than `fuel`. -/
def richiedi : Nat → Lista → Int → Option (Nat × Lista)
  | 0, _, _ => none
  | fuel + 1, s, num =>
    match s.indirizzo num with
    | none => some (0, s)
    | some address =>
      (addMemList (fun s => richiedi fuel s 1) (s.segna address num) address num).map
        fun s => (address, s)

/-- `richiedi_pagine`. Each call that is open has taken a page, the first one apart. -/
def richiediPagine (s : Lista) (num : Int) : Option (Nat × Lista) :=
  richiedi (limite s.maxVet + 2) s num

end Lista

/-! ### What is expected -/

/-- The answer `r` and the state after it: the base of a stretch of pages that were free and are
managed, which are marked and no others; or `NULL` and no change, exactly where there is no such
stretch. -/
structure Giusta (s : Lista) (num r : Nat) (t : Lista) : Prop where
  pagine : ¬ (r = 0 ∧ t = s) → ∃ base, r = base * 4096 ∧ base + num ≤ s.maxPages ∧
    Stretch (Libera s.memMap) base num ∧
    ∀ page, bit t.memMap page = true ↔
      bit s.memMap page = true ∨ base ≤ page ∧ page < base + num
  nulla : r = 0 ∧ t = s ↔ ¬ HasStretch (Libera s.memMap) s.maxPages num

/-- The first stretch below the end of the search is of managed pages, and there is an element for
it or it takes all free pages; and a stretch of managed pages is not only at the place that the
search leaves out. -/
def Cercabile (s : Lista) (num : Nat) : Prop :=
  (∀ base, Prima s.memMap (limite s.maxVet) num base →
    base + num ≤ s.maxPages ∧
      (s.nextFree < pagesInfoLung ∨
        ∀ q < limite s.maxVet, Libera s.memMap q → base ≤ q ∧ q < base + num)) ∧
  (HasStretch (Libera s.memMap) s.maxPages num →
    HasStretch (Libera s.memMap) (limite s.maxVet) num)

/-! ### The recursion -/

namespace Lista

variable {s t : Lista} {num : Int} {address fuel base next : Nat}

/-- The number of pages that the search may still find. -/
def resto (s : Lista) : Nat := freeCount (Libera s.memMap) (limite s.maxVet)

theorem bit_segna (s : Lista) (base page : Nat) (num : Int) :
    bit (s.segna (base * 4096) num).memMap page = true ↔
      bit s.memMap page = true ∨ base ≤ page ∧ page < base + num.toNat := by
  unfold segna
  dsimp only
  rw [Nat.mul_div_cancel base (by decide), scorre_page, bit_orRange (by decide), Bool.or_eq_true,
    decide_eq_true_iff]

theorem libera_segna (s : Lista) (base page : Nat) (num : Int) :
    Libera (s.segna (base * 4096) num).memMap page ↔
      Libera s.memMap page ∧ ¬ (base ≤ page ∧ page < base + num.toNat) := by
  unfold Libera
  rw [← Bool.not_eq_true, ← Bool.not_eq_true, bit_segna, not_or]

theorem resto_segna (h : Prima s.memMap (limite s.maxVet) num.toNat base) :
    (s.segna (base * 4096) num).resto + num.toNat = s.resto :=
  freeCount_stretch h.dentro h.libere fun page => libera_segna s base page num

theorem richiedi_none (h : s.indirizzo num = none) : richiedi (fuel + 1) s num = some (0, s) := by
  rw [richiedi, h]

theorem richiedi_posto (h : s.indirizzo num = some address) (hlist : s.nextFree < pagesInfoLung) :
    richiedi (fuel + 1) s num =
      some (address,
        { s.segna address num with
          pagesInfo := Function.update s.pagesInfo s.nextFree
            { inizio := address, numPages := (num % 2 ^ 32).toNat }
          nextFree := s.nextFree + 1 }) := by
  rw [richiedi, h]
  dsimp only
  rw [addMemList, if_pos (show (s.segna address num).nextFree < pagesInfoLung from hlist)]
  rfl

theorem richiedi_piena (h : s.indirizzo num = some address) (hlist : pagesInfoLung ≤ s.nextFree)
    (hnext : richiedi fuel (s.segna address num) 1 = some (next, t)) :
    richiedi (fuel + 1) s num =
      some (address,
        { t with
          next := next
          pagesInfo := Function.update t.pagesInfo 0
            { inizio := address, numPages := (num % 2 ^ 32).toNat }
          nextFree := 1 }) := by
  have hfull : ¬ (s.segna address num).nextFree < pagesInfoLung := Nat.not_lt.mpr hlist
  rw [richiedi, h]
  dsimp only
  rw [addMemList, if_neg hfull, hnext]
  rfl

/-- What a request leaves that goes on until no page is left. -/
structure Esaurita (s t : Lista) : Prop where
  bits : ∀ page, bit t.memMap page = true ↔ bit s.memMap page = true ∨ page < limite s.maxVet
  altri : ∀ i, i ≠ 0 → t.pagesInfo i = s.pagesInfo i
  maxPages : t.maxPages = s.maxPages
  coda : t.coda = s.coda
  vive : t.vive = s.vive

theorem Esaurita.bits_segna (h : Esaurita (s.segna (base * 4096) num) t)
    (hbase : base + num.toNat ≤ limite s.maxVet) (page : Nat) :
    bit t.memMap page = true ↔ bit s.memMap page = true ∨ page < limite s.maxVet := by
  rw [h.bits page, bit_segna, or_assoc]
  apply or_congr_right
  change _ ∨ page < limite s.maxVet ↔ _
  omega

/-- A request for the next structure of the list returns, and leaves no page. -/
theorem richiedi_uno (hlist : pagesInfoLung ≤ s.nextFree) (hfuel : s.resto < fuel) :
    ∃ t, richiedi fuel s 1 = some ((s.indirizzo 1).getD 0, t) ∧ Esaurita s t := by
  induction fuel generalizing s with
  | zero => omega
  | succ fuel ih =>
    cases hfound : s.indirizzo 1 with
    | none =>
      refine ⟨s, richiedi_none hfound, ?_, fun _ _ => rfl, rfl, rfl, rfl⟩
      intro page
      have hnone := (indirizzo_eq_none_iff (by decide)).mp hfound
      constructor
      · exact Or.inl
      · rintro (hset | hlow)
        · exact hset
        · by_contra hclear
          apply hnone
          refine ⟨page, Nat.succ_le_of_lt hlow, ?_⟩
          intro q hle hlt
          obtain rfl : q = page := by
            change q < page + 1 at hlt
            omega
          exact Bool.eq_false_iff.mpr hclear
    | some address =>
      obtain ⟨base, rfl, hbase⟩ := (indirizzo_eq_some_iff (by decide)).mp hfound
      have hrest := resto_segna hbase
      change _ + 1 = _ at hrest
      have hlist' : pagesInfoLung ≤ (s.segna (base * 4096) 1).nextFree := hlist
      obtain ⟨t, hnext, ht⟩ := ih hlist' (by omega)
      refine ⟨_, richiedi_piena hfound hlist hnext, ?_, ?_, ht.maxPages, ht.coda, ht.vive⟩
      · exact ht.bits_segna hbase.dentro
      · intro i hi
        exact (Function.update_of_ne hi ..).trans (ht.altri i hi)

/-- What a request that finds pages leaves, if there is an element for it. -/
theorem richiediPagine_posto (h : s.indirizzo num = some address)
    (hlist : s.nextFree < pagesInfoLung) :
    s.richiediPagine num =
      some (address,
        { s.segna address num with
          pagesInfo := Function.update s.pagesInfo s.nextFree
            { inizio := address, numPages := (num % 2 ^ 32).toNat }
          nextFree := s.nextFree + 1 }) :=
  richiedi_posto h hlist

/-- What a request that finds pages leaves, if there is none. -/
theorem richiediPagine_piena (h : s.indirizzo num = some (base * 4096))
    (hbase : base + num.toNat ≤ limite s.maxVet) (hlist : pagesInfoLung ≤ s.nextFree) :
    ∃ t, s.richiediPagine num = some (base * 4096, t) ∧ Esaurita s t ∧
      t.next = ((s.segna (base * 4096) num).indirizzo 1).getD 0 ∧ t.nextFree = 1 ∧
      t.pagesInfo 0 = { inizio := base * 4096, numPages := (num % 2 ^ 32).toNat } := by
  have hrest : (s.segna (base * 4096) num).resto < limite s.maxVet + 1 := by
    apply Nat.lt_succ_of_le
    exact (Finset.card_filter_le _ _).trans_eq (Finset.card_range _)
  have hfull : pagesInfoLung ≤ (s.segna (base * 4096) num).nextFree := hlist
  obtain ⟨t, hnext, ht⟩ := richiedi_uno hfull hrest
  refine ⟨_, richiedi_piena h hlist hnext, ⟨ht.bits_segna hbase, ?_, ht.maxPages, ht.coda,
    ht.vive⟩, rfl, rfl, Function.update_self (0 : Nat) _ t.pagesInfo⟩
  intro i hi
  exact (Function.update_of_ne hi ..).trans (ht.altri i hi)

/-- A request returns. -/
theorem richiediPagine_isSome (s : Lista) (num : Int) : (s.richiediPagine num).isSome := by
  cases hfound : s.indirizzo num with
  | none =>
    rw [richiediPagine, richiedi_none hfound]
    rfl
  | some address =>
    rcases Nat.lt_or_ge s.nextFree pagesInfoLung with hlist | hlist
    · rw [richiediPagine_posto hfound hlist]
      rfl
    · obtain ⟨base, rfl, hbase, -⟩ := indirizzo_libere hfound
      obtain ⟨t, ht, -⟩ := richiediPagine_piena hfound hbase hlist
      rw [ht]
      rfl

end Lista

/-! ### The search against the managed pages -/

/-- The marks after a request that finds a stretch: without an element left, all pages that the
search sees are taken for the list. -/
theorem Lista.richiediPagine_marks {s : Lista} {num : Int} {base : Nat}
    (hfound : s.indirizzo num = some (base * 4096))
    (hbase : Prima s.memMap (limite s.maxVet) num.toNat base) :
    ∃ t, s.richiediPagine num = some (base * 4096, t) ∧
      ∀ page, bit t.memMap page = true ↔ bit s.memMap page = true ∨
        (base ≤ page ∧ page < base + num.toNat) ∨
          pagesInfoLung ≤ s.nextFree ∧ page < limite s.maxVet := by
  rcases Nat.lt_or_ge s.nextFree pagesInfoLung with hlist | hlist
  · refine ⟨_, Lista.richiediPagine_posto hfound hlist, ?_⟩
    intro page
    refine (Lista.bit_segna s base page num).trans (or_congr_right ?_)
    exact (or_iff_left (by omega)).symm
  · obtain ⟨t, ht, hleft, -⟩ := Lista.richiediPagine_piena hfound hbase.dentro hlist
    refine ⟨t, ht, ?_⟩
    intro page
    have hin := hbase.dentro
    rw [hleft.bits page]
    apply or_congr_right
    omega

/-- A request that finds no stretch is refused, which is right where there is none. -/
theorem giusta_none_iff {s : Lista} {num : Nat}
    (hnone : ¬ HasStretch (Libera s.memMap) (limite s.maxVet) num) :
    Giusta s num 0 s ↔ Cercabile s num := by
  have hfirst : ∀ base, ¬ Prima s.memMap (limite s.maxVet) num base :=
    fun base h => hnone ⟨base, h.dentro, h.libere⟩
  constructor
  · intro h
    refine ⟨fun base hbase => absurd hbase (hfirst base), fun hsome => ?_⟩
    exact absurd hsome (h.nulla.mp ⟨rfl, rfl⟩)
  · intro h
    refine ⟨fun hne => absurd ⟨rfl, rfl⟩ hne, iff_of_true ⟨rfl, rfl⟩ ?_⟩
    exact fun hsome => hnone (h.2 hsome)

/-- A request that finds a stretch is right where that is of managed pages, and no others are
marked. -/
theorem giusta_some_iff {s t : Lista} {num base : Nat} (hpos : 0 < num)
    (hbase : Prima s.memMap (limite s.maxVet) num base)
    (hmarks : ∀ page, bit t.memMap page = true ↔ bit s.memMap page = true ∨
      (base ≤ page ∧ page < base + num) ∨ pagesInfoLung ≤ s.nextFree ∧ page < limite s.maxVet) :
    Giusta s num (base * 4096) t ↔ Cercabile s num := by
  have hset : bit t.memMap base = true := (hmarks base).mpr (Or.inr (Or.inl (by omega)))
  have hchange : ¬ (base * 4096 = 0 ∧ t = s) := by
    rintro ⟨-, rfl⟩
    have hfree : bit t.memMap base = false := hbase.libere base (Nat.le_refl base) (by omega)
    rw [hset] at hfree
    cases hfree
  constructor
  · intro h
    obtain ⟨b, hb, hmanaged, hfree, hexact⟩ := h.pagine hchange
    obtain rfl : base = b := by omega
    refine ⟨fun base' hbase' => ?_, fun _ => ⟨base, hbase.dentro, hbase.libere⟩⟩
    obtain rfl := hbase.unica hbase'
    refine ⟨hmanaged, ?_⟩
    rcases Nat.lt_or_ge s.nextFree pagesInfoLung with hlist | hlist
    · exact Or.inl hlist
    · right
      intro q hq hqfree
      rcases (hexact q).mp ((hmarks q).mpr (Or.inr (Or.inr ⟨hlist, hq⟩))) with hold | hnew
      · rw [hqfree] at hold
        cases hold
      · exact hnew
  · intro h
    obtain ⟨hmanaged, hlist⟩ := h.1 base hbase
    constructor
    · intro _
      refine ⟨base, rfl, hmanaged, hbase.libere, ?_⟩
      intro page
      rw [hmarks page]
      apply or_congr_right'
      intro hclear
      apply or_iff_left_of_imp
      rintro ⟨hfull, hlow⟩
      rcases hlist with hlt | hall
      · exact absurd hlt (Nat.not_lt.mpr hfull)
      · exact hall page hlow (Bool.eq_false_iff.mpr hclear)
    · apply iff_of_false hchange
      exact not_not_intro ⟨base, hmanaged, hbase.libere⟩

/-- A request returns, and does what is expected exactly where the stretch that its search comes to
is the right one. -/
theorem richiediPagine_iff (s : Lista) {num : Int} (hnum : 1 ≤ num) :
    ∃ r t, s.richiediPagine num = some (r, t) ∧
      (Giusta s num.toNat r t ↔ Cercabile s num.toNat) := by
  have hpos : 0 < num := by omega
  cases hfound : s.indirizzo num with
  | none =>
    have hnone := (indirizzo_eq_none_iff hpos).mp hfound
    exact ⟨0, s, Lista.richiedi_none hfound, giusta_none_iff hnone⟩
  | some address =>
    obtain ⟨base, rfl, hbase⟩ := (indirizzo_eq_some_iff hpos).mp hfound
    obtain ⟨t, ht, hmarks⟩ := Lista.richiediPagine_marks hfound hbase
    exact ⟨_, t, ht, giusta_some_iff (by omega) hbase hmarks⟩

/-- The list after `init_pages`. -/
def initLista (totalMem : BitVec 32) (memory coda : Nat → PagesStruct) : Lista where
  toState := initPages totalMem memory
  next := 0
  maxPages := totalMem.toNat / 4096
  coda := coda
  vet := rfl

def vuoto : PagesStruct := { inizio := 0, numPages := 0 }

/-- A machine of 2 MB. -/
def piccola : Lista := initLista 0x200000 (fun _ => vuoto) (fun _ => vuoto)

/-- The same machine, with all its 512 pages in use. -/
def piccolaPiena : Lista := { piccola with memMap := fun i => if i < 16 then 0xFFFFFFFF else 0 }

/-- There the search comes to the page 256, the first one that is free. -/
theorem cercabile_piccola : Cercabile piccola 1 ∧
    ∃ t, piccola.richiediPagine 1 = some (256 * 4096, t) ∧ Giusta piccola 1 (256 * 4096) t := by
  have hfound : piccola.indirizzo 1 = some (256 * 4096) := by decide +kernel
  obtain ⟨base, hbase, hprima⟩ := (indirizzo_eq_some_iff (by decide)).mp hfound
  obtain rfl : 256 = base := by omega
  have hcercabile : Cercabile piccola 1 := by
    refine ⟨fun base' hprima' => ?_, fun _ => ⟨256, hprima.dentro, hprima.libere⟩⟩
    obtain rfl := hprima.unica hprima'
    exact ⟨by decide, Or.inl (by decide)⟩
  obtain ⟨r, t, ht, hiff⟩ := richiediPagine_iff piccola (Int.le_refl 1)
  have haddress := Lista.richiediPagine_posto hfound (by decide)
  obtain ⟨rfl, -⟩ := Prod.mk.inj (Option.some.inj (ht.symm.trans haddress))
  exact ⟨hcercabile, t, ht, hiff.mpr hcercabile⟩

/-- Without a free page, the answer is a page behind the last one that is managed. -/
theorem piccolaPiena_oltre : ∃ t, piccolaPiena.richiediPagine 1 = some (512 * 4096, t) ∧
    ¬ Giusta piccolaPiena 1 (512 * 4096) t := by
  have hfound : piccolaPiena.indirizzo 1 = some (512 * 4096) := by decide +kernel
  refine ⟨_, Lista.richiediPagine_posto hfound (by decide), ?_⟩
  intro h
  obtain ⟨base, hbase, hmanaged, -⟩ := h.pagine (by rintro ⟨hzero, -⟩; cases hzero)
  have hpages : piccolaPiena.maxPages = 512 := by decide
  omega

end OsdevArchive.DreamOS.Fismem
