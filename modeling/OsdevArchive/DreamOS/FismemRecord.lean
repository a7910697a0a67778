import OsdevArchive.DreamOS.FismemSearch

/-!
Runs of requests and releases over the whole list of DreamOS: as long as there is an element for
each allocation, a release finds the element of its allocation. The 510th element that is asked
for is none: the list goes on in the same structure, from its first element on.
-/

namespace OsdevArchive.DreamOS.Fismem

open OsdevArchive.Lib.Bitmap OsdevArchive.Lib.Stretches OsdevArchive.Lib.Runs

namespace Lista

variable (s : Lista)

/-- The element that `rilascia_pagine` compares at `i`: in front of the last one, `mem_tmp` goes to
the next structure if there is one. -/
def visto (i : Nat) : PagesStruct :=
  if i + 1 = pagesInfoLung ∧ s.next ≠ 0 then s.coda s.next else s.pagesInfo i

/-- The comparison of `rilascia_pagine`. -/
def vistoContiene (i p : Nat) : Bool :=
  (s.visto i).inizio ≤ p ∧ p ≤ ((s.visto i).inizio + (s.visto i).numPages) % 2 ^ 32

/-- The search of `rilascia_pagine`. -/
def trovaVisto (p : Nat) : Option Nat :=
  (List.range pagesInfoLung).find? fun i => s.vistoContiene i p

/-- `num` of `rilascia_pagine`. -/
def pagineVisto (i : Nat) : Nat := (BitVec.ofNat 32 (s.visto i).numPages).toInt.toNat

/-- `rilascia_pagine`. -/
def rilasciaPagine (p : Nat) : Lista :=
  let s' := { s with vive := s.vive.filter fun a => a.1 * 4096 ≠ p }
  match s.trovaVisto p with
  | none => s'
  | some i =>
    let ultimo := s.pagesInfo (s.nextFree - 1)
    let s' := { s' with
      memMap := scorre (· ^^^ ·) (s.pagineVisto i) (p / 4096 / 32) (p / 4096 % 32) s.memMap
      nextFree := s.nextFree - 1 }
    if i + 1 = pagesInfoLung ∧ s.next ≠ 0 then
      { s' with coda := Function.update s.coda s.next ultimo }
    else { s' with pagesInfo := Function.update s.pagesInfo i ultimo }

/-- The caller of `richiedi_pagine` has a new allocation, if it got one. -/
def consegna (address : Nat) (num : Int) : Lista :=
  if address = 0 then s else { s with vive := (address / 4096, num.toNat) :: s.vive }

/-- Releases that are not followed: at or above 2 GB the index into the bitmap is negative, and
without an element in use that of the last one is. -/
def Fuori (p : BitVec 32) : Prop :=
  (s.trovaVisto p.toNat).isSome ∧ (2 ^ 31 ≤ p.toNat ∨ s.nextFree = 0)

/-- One call. -/
def Step (s : Lista) (c : Chiamata) (t : Lista) : Prop :=
  match c with
  | .richiedi num => ∃ r u, s.richiediPagine num = some (r, u) ∧ u.consegna r num = t
  | .rilascia p => s.Fuori p ∨ s.rilasciaPagine p.toNat = t

/-- A request is for no negative number of pages, and there is an element for what it finds. A
released pointer is in no element, or is the base of a live allocation below 2 GB. -/
def Regolare (s : Lista) : Chiamata → Prop
  | .richiedi num => 0 ≤ num ∧ (s.nextFree < pagesInfoLung ∨ s.indirizzo num = none)
  | .rilascia p =>
    s.trovaVisto p.toNat = none ∨ (∃ a ∈ s.vive, a.1 * 4096 = p.toNat) ∧ p.toNat < 2 ^ 31

/-- The release of a live allocation finds its element. -/
def Ritrovata (a : Nat × Nat) : Prop :=
  ∃ i, s.trovaVisto (a.1 * 4096) = some i ∧ s.visto i = elemento a

/-! ### Runs with an element for each allocation -/

variable {s} {t : Lista} {c : Chiamata}

/-- The list is in one structure, and agrees with the live allocations. -/
structure Ordinata (s : Lista) : Prop where
  sola : s.next = 0
  coerente : Coerente s.toState
  positiva : SenzaNegative s.toState

theorem visto_sola (hnext : s.next = 0) (i : Nat) : s.visto i = s.pagesInfo i :=
  if_neg fun h => h.2 hnext

theorem trovaVisto_sola (hnext : s.next = 0) (p : Nat) : s.trovaVisto p = s.toState.trova p := by
  unfold trovaVisto vistoContiene
  simp only [visto_sola hnext]
  rfl

theorem rilasciaPagine_sola (hnext : s.next = 0) (p : Nat) :
    (s.rilasciaPagine p).toState = s.toState.rilasciaPagine p ∧ (s.rilasciaPagine p).next = 0 := by
  unfold rilasciaPagine State.rilasciaPagine
  rw [trovaVisto_sola hnext]
  cases s.toState.trova p with
  | none => exact ⟨rfl, hnext⟩
  | some i =>
    have hone : ¬ (i + 1 = pagesInfoLung ∧ s.next ≠ 0) := fun h => h.2 hnext
    dsimp only
    rw [if_neg hone]
    refine ⟨?_, hnext⟩
    unfold pagineVisto State.pagine
    rw [visto_sola hnext]

/-- With an element for what it finds, a request is the one of a list of one structure. -/
theorem richiediPagine_sola {num : Int} {r : Nat} {u : Lista}
    (hok : s.nextFree < pagesInfoLung ∨ s.indirizzo num = none)
    (hcall : s.richiediPagine num = some (r, u)) :
    (u.consegna r num).toState = (s.toState.richiediPagine num).2 ∧
      (u.consegna r num).next = s.next := by
  unfold State.richiediPagine
  cases hfound : s.toState.indirizzo num with
  | none =>
    rw [richiediPagine, richiedi_none hfound] at hcall
    cases hcall
    exact ⟨rfl, rfl⟩
  | some address =>
    have hlist := hok.resolve_right (by rw [hfound]; rintro ⟨⟩)
    rw [richiediPagine_posto hfound hlist] at hcall
    cases hcall
    unfold consegna
    dsimp only
    split
    · exact ⟨rfl, rfl⟩
    · exact ⟨rfl, rfl⟩

/-- In an orderly list, the calls that are allowed are those of a list of one structure. -/
theorem Ordinata.ammessa (h : Ordinata s) (hok : s.Regolare c) :
    Ammessa s.toState c ∧ NonNegativa c := by
  cases c with
  | richiedi num => exact ⟨hok.2, hok.1⟩
  | rilascia p =>
    refine ⟨?_, trivial⟩
    rcases hok with hnone | ⟨⟨a, ha, hbase⟩, hlow⟩
    · rw [trovaVisto_sola h.sola] at hnone
      exact Or.inl hnone
    · have hfound := h.positiva.trova_base h.coerente ha
      rw [hbase] at hfound
      exact Or.inr ⟨⟨a, ha, hbase⟩, hlow, hfound⟩

theorem Ordinata.step (h : Ordinata s) (hok : s.Regolare c) (hstep : s.Step c t) :
    Ordinata t := by
  obtain ⟨hammessa, hnum⟩ := h.ammessa hok
  obtain ⟨htake, hnext⟩ : Fismem.step s.toState c = t.toState ∧ t.next = 0 := by
    cases c with
    | richiedi num =>
      obtain ⟨r, u, hcall, rfl⟩ := hstep
      obtain ⟨htake, hnext⟩ := richiediPagine_sola hok.2 hcall
      exact ⟨htake.symm, hnext.trans h.sola⟩
    | rilascia p =>
      obtain ⟨htake, hnext⟩ := rilasciaPagine_sola h.sola p.toNat
      rcases hstep with ⟨hfound, hout⟩ | rfl
      · exfalso
        rcases hok with hnone | ⟨-, hlow⟩
        · rw [hnone] at hfound
          cases hfound
        · have hfirst := h.coerente.prima
          omega
      · exact ⟨htake.symm, hnext⟩
  have hstep' : Fismem.Step s.toState c t.toState := Or.inr htake
  exact ⟨hnext, h.coerente.step hammessa hstep',
    h.positiva.step h.coerente hammessa hnum hstep'⟩

theorem ordinata_init (totalMem : BitVec 32) (memory coda : Nat → PagesStruct) :
    Ordinata (initLista totalMem memory coda) := by
  refine ⟨rfl, coerente_init totalMem memory, ?_⟩
  intro i hi hfree
  have hone : i < 1 := hfree
  omega

theorem Ordinata.ritrovata (h : Ordinata s) {a : Nat × Nat} (ha : a ∈ s.vive) :
    s.Ritrovata a := by
  obtain ⟨i, htrova, hstart⟩ := h.positiva.trova_base h.coerente ha
  obtain ⟨-, -, helem⟩ := h.coerente.trova_viva ha htrova hstart
  refine ⟨i, ?_, ?_⟩
  · rw [trovaVisto_sola h.sola, htrova]
  · rw [visto_sola h.sola, helem]

end Lista

/-- Every request returns, whatever the state of the list; and in a run with an element for each
allocation, the release of each live one finds it. -/
theorem ritrovate_run {totalMem : BitVec 32} {memory coda : Nat → PagesStruct}
    {calls : List Chiamata} {s : Lista}
    (h : Run (Guarded Lista.Regolare Lista.Step) (initLista totalMem memory coda) calls s) :
    (∀ (t : Lista) (num : Int), (t.richiediPagine num).isSome) ∧ ∀ a ∈ s.vive, s.Ritrovata a := by
  refine ⟨Lista.richiediPagine_isSome, ?_⟩
  have hend : Lista.Ordinata s :=
    h.guarded_invariant (fun _ _ _ hinv hok hstep => hinv.step hok hstep)
      (Lista.ordinata_init totalMem memory coda)
  exact fun a ha => hend.ritrovata ha

/-- A page is asked for on a machine of 2 MB. -/
theorem ritrovata_piccola : ∃ s, Lista.Step piccola (.richiedi 1) s ∧ s.vive = [(256, 1)] ∧
    ∀ a ∈ s.vive, s.Ritrovata a := by
  have hfound : piccola.indirizzo 1 = some (256 * 4096) := by decide +kernel
  have hcall := Lista.richiediPagine_posto hfound (by decide)
  refine ⟨_, ⟨_, _, hcall, rfl⟩, rfl, ?_⟩
  have hrun : Run (Guarded Lista.Regolare Lista.Step) piccola [.richiedi 1] _ :=
    Run.single ⟨⟨by decide, Or.inl (by decide)⟩, _, _, hcall, rfl⟩
  exact (ritrovate_run hrun).2

/-! ### The 510th allocation -/

namespace Lista

variable {s : Lista} {n : Nat}

/-- If the first `n` pages are marked and no others, the next one is found. -/
theorem indirizzo_prossima (hbits : ∀ page, bit s.memMap page = true ↔ page < n)
    (hn : n < limite s.maxVet) : s.indirizzo 1 = some (n * 4096) := by
  have hfree : ∀ page, Libera s.memMap page ↔ n ≤ page := by
    intro page
    unfold Libera
    rw [← Bool.not_eq_true, hbits, Nat.not_lt]
  rw [indirizzo_eq_some_iff (by decide)]
  refine ⟨n, rfl, Nat.succ_le_of_lt hn, ?_, ?_⟩
  · exact fun q hle _ => (hfree q).mpr hle
  · exact fun b hb _ => (hfree b).mp (hb b (Nat.le_refl b) (Nat.lt_succ_self b))

/-- After `n` requests for one page. -/
structure Riempita (s : Lista) (n : Nat) : Prop where
  vet : s.maxVet = 32
  next : s.next = 0
  coda : s.coda = fun _ => vuoto
  nextFree : s.nextFree = n + 1
  bits : ∀ page, bit s.memMap page = true ↔ page < 256 + n
  elementi : ∀ i, 1 ≤ i → i ≤ n → s.pagesInfo i = elemento (255 + i, 1)
  vive : ∀ i, 1 ≤ i → i ≤ n → (255 + i, 1) ∈ s.vive

theorem Riempita.succ (h : Riempita s n) (hn : n < 509) :
    ∃ t, s.Step (.richiedi 1) t ∧ Riempita t (n + 1) := by
  have hlimit : 256 + n < limite s.maxVet := by
    rw [h.vet, limite]
    omega
  have hfound := indirizzo_prossima h.bits hlimit
  have hlist : s.nextFree < pagesInfoLung := by
    rw [h.nextFree, pagesInfoLung]
    omega
  refine ⟨_, ⟨_, _, richiediPagine_posto hfound hlist, rfl⟩, ?_⟩
  unfold consegna
  rw [if_neg (by omega), Nat.mul_div_cancel _ (by decide)]
  refine ⟨h.vet, h.next, h.coda, ?_, ?_, ?_, ?_⟩
  · exact congrArg (· + 1) h.nextFree
  · intro page
    refine (bit_segna s (256 + n) page 1).trans ?_
    rw [h.bits]
    change _ ∨ _ ∧ page < 256 + n + 1 ↔ _
    omega
  · intro i hi hle
    dsimp only
    rw [h.nextFree, Function.update_apply]
    split
    · rename_i hlast
      rw [hlast, elemento]
      simp
      omega
    · exact h.elementi i hi (by omega)
  · intro i hi hle
    rcases Nat.lt_or_ge n i with hlast | hold
    · obtain rfl : i = n + 1 := by omega
      exact List.mem_cons.mpr (Or.inl (by simp; omega))
    · exact List.mem_cons_of_mem _ (h.vive i hi hold)

/-- A machine of 4 MB. -/
def media : Lista := initLista 0x400000 (fun _ => vuoto) (fun _ => vuoto)

theorem media_riempita (hn : n ≤ 509) :
    ∃ s, Run Step media (List.replicate n (.richiedi 1)) s ∧ Riempita s n := by
  induction n with
  | zero =>
    refine ⟨media, Run.nil _, rfl, rfl, rfl, rfl, bit_initPages 0x400000 _, ?_, ?_⟩
    · intro i hi hle
      omega
    · intro i hi hle
      omega
  | succ n ih =>
    obtain ⟨s, hrun, hs⟩ := ih (by omega)
    obtain ⟨t, hstep, ht⟩ := hs.succ (by omega)
    refine ⟨t, ?_, ht⟩
    rw [List.replicate_succ']
    exact hrun.append (Run.single hstep)

/-- With 509 allocations in the list, one more hides the last of them behind the next structure. -/
theorem Riempita.persa (h : Riempita s 509) :
    ∃ t, s.Step (.richiedi 1) t ∧ (764, 1) ∈ t.vive ∧ ¬ t.Ritrovata (764, 1) := by
  have hlimit : 256 + 509 < limite s.maxVet := by
    rw [h.vet, limite]
    decide
  have hfound := indirizzo_prossima h.bits hlimit
  have hfull : pagesInfoLung ≤ s.nextFree := Nat.le_of_eq h.nextFree.symm
  obtain ⟨t, ht, hleft, hnext, -, hfirst⟩ := richiediPagine_piena hfound hlimit hfull
  have hsecond : (s.segna ((256 + 509) * 4096) 1).indirizzo 1 = some (766 * 4096) := by
    apply indirizzo_prossima
    · intro page
      rw [bit_segna, h.bits]
      change _ ∨ _ ∧ page < 256 + 509 + 1 ↔ _
      omega
    · change 766 < limite s.maxVet
      rw [h.vet, limite]
      decide
  rw [hsecond, Option.getD_some] at hnext
  refine ⟨_, ⟨_, t, ht, rfl⟩, ?_, ?_⟩
  · unfold consegna
    rw [if_neg (by decide), hleft.vive]
    exact List.mem_cons_of_mem _ (h.vive 509 (by decide) (by decide))
  · unfold consegna
    rw [if_neg (by decide)]
    rintro ⟨i, hi, -⟩
    obtain ⟨hin, hmem, -⟩ := List.find?_range_eq_some.mp hi
    have hlt := List.mem_range.mp hmem
    unfold pagesInfoLung at hlt
    obtain ⟨hlow, hhigh⟩ := of_decide_eq_true hin
    unfold visto at hlow hhigh
    dsimp only at hlow hhigh
    rw [hnext] at hlow hhigh
    split at hhigh
    · rename_i hlast
      rw [hleft.coda, h.coda] at hhigh
      exact absurd hhigh (by decide)
    · rename_i hlast
      have hne : i ≠ 509 := fun heq => hlast ⟨heq ▸ rfl, by decide⟩
      rw [if_neg hlast] at hlow
      rcases Nat.eq_zero_or_pos i with rfl | hpos
      · rw [hfirst] at hlow
        exact absurd hlow (by decide)
      · rw [hleft.altri i (Nat.pos_iff_ne_zero.mp hpos), h.elementi i hpos (by omega)] at hlow hhigh
        dsimp only [elemento] at hlow hhigh
        omega

/-- After 510 requests for one page, the 509th allocation is live and its release does not find
it. -/
theorem media_persa : ∃ s, Run Step media (List.replicate 510 (.richiedi 1)) s ∧
    (764, 1) ∈ s.vive ∧ ¬ s.Ritrovata (764, 1) := by
  obtain ⟨s, hrun, hs⟩ := media_riempita (Nat.le_refl 509)
  obtain ⟨t, hstep, hmem, hlost⟩ := hs.persa
  refine ⟨t, ?_, hmem, hlost⟩
  rw [List.replicate_succ']
  exact hrun.append (Run.single hstep)

end Lista

end OsdevArchive.DreamOS.Fismem
