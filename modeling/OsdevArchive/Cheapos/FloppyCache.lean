import OsdevArchive.Lib.Runs
import Mathlib.Algebra.GroupWithZero.Nat
import Mathlib.Logic.Function.Basic
import Mathlib.Data.Fin.Basic

/-!
The floppy driver of cheapos with its cache of sectors (`floppy.c`, `cache.c`). Calls
exclude each other, so that one call of `floppy_rw` is one step. What the controller
answers is part of the step's label, and so are the three bytes behind a buffer, which
`mem_copy` moves, too.
-/

namespace OsdevArchive.Cheapos.FloppyCache

open OsdevArchive.Lib.Runs

/-- `FLOPPY_CACHESECTOR_NUM`. -/
def cachesectorNum : Nat := 128

/-- The sectors of `floppy_type[FLOPPY_GEOMETRY]`. -/
def sectors : Nat := 2880

/-- `CACHE_MAXACCESSI`. -/
def cacheMaxaccessi : Int := 1024

instance instNeZeroCachesectorNum : NeZero cachesectorNum := ⟨Nat.succ_ne_zero 127⟩

variable {D : Type*}

/-- `cache_element_t`, with the 512 bytes of its image as one value. -/
structure Elemento (D : Type*) where
  lba : BitVec 32
  accessi : Int
  image : D

/-- `floppy_cache.block`. -/
abbrev Cache (D : Type*) := Fin cachesectorNum → Elemento D

/-- The disk and the cache. -/
structure State (D : Type*) where
  disco : Fin sectors → D
  block : Cache D

/-- A sector as it stands in the field `lba`. -/
def lbaOf (block : Fin sectors) : BitVec 32 := .ofNat 32 block.val

/-- `cache_clear`. -/
def cacheClear (c : Cache D) : Cache D := fun i => { c i with lba := -1, accessi := -1 }

/-- The search of `cache_findcopy` and of `cache_insertrefresh`. -/
def trova (c : Cache D) (block : Fin sectors) : Option (Fin cachesectorNum) :=
  (List.finRange cachesectorNum).find? fun i => (c i).lba = lbaOf block

/-- `++accessi`, halved when it gets too large. -/
def accessiNext (accessi : Int) : Int :=
  if cacheMaxaccessi < accessi + 1 then (accessi + 1) / 2 else accessi + 1

/-- `cache_findcopy`. -/
def cacheFindcopy (c : Cache D) (block : Fin sectors) : Option (D × Cache D) :=
  (trova c block).map fun i =>
    ((c i).image, Function.update c i { c i with accessi := accessiNext (c i).accessi })

/-- The loop of `cache_insertrefresh` that looks for the element to be replaced; it stops at
an empty one. -/
def posto (c : Cache D) : List (Fin cachesectorNum) → Fin cachesectorNum → Fin cachesectorNum
  | [], p => p
  | i :: is, p =>
    if (c i).accessi < (c p).accessi then
      if (c i).accessi < 0 then i else posto c is i
    else posto c is p

/-- The element that `cache_insertrefresh` fills. -/
def posizione (c : Cache D) (block : Fin sectors) : Fin cachesectorNum :=
  (trova c block).getD (posto c (List.finRange cachesectorNum) 0)

/-- `mem_copy(buffer, image, 512)`: the three bytes more that it moves are the low ones of
the next element's `lba`, as the elements are packed. -/
def copiaImage (c : Cache D) (i : Fin cachesectorNum) (buffer : D) (oltre : BitVec 24) : Cache D :=
  fun j =>
    if j = i then { c i with image := buffer }
    else if j.val = i.val + 1 then { c j with lba := (c j).lba.extractLsb' 24 8 ++ oltre }
    else c j

/-- `cache_insertrefresh`. -/
def cacheInsertrefresh (c : Cache D) (block : Fin sectors) (buffer : D) (oltre : BitVec 24) :
    Cache D :=
  let i := posizione c block
  let c' := copiaImage c i buffer oltre
  match trova c block with
  | some _ => c'
  | none => Function.update c' i { c' i with lba := lbaOf block, accessi := 0 }

/-- What comes of one try of the loop of `floppy_rw`. -/
inductive Prova where
  | cambiato
  | seekFallita
  | scaduto
  | errore
  | riuscita
deriving DecidableEq

/-- The loop of `floppy_rw` from a try on: `tries` at its end, if the function does not
return in it. -/
def tentativi (prove : Nat → Prova) : Nat → Nat → Option Nat
  | 0, tries => some tries
  | n + 1, tries =>
    match prove tries with
    | .cambiato | .seekFallita | .scaduto => none
    | .riuscita => some tries
    | .errore => tentativi prove n (tries + 1)

/-- What the controller and the memory add to a call: the tries, what the DMA buffer holds
if no try succeeds, what a failed write leaves in the sector, and the bytes behind the
buffer. -/
structure Risposta (D : Type*) where
  prove : Nat → Prova
  dma : D
  rimasto : D
  oltre : BitVec 24

/-- The transfer of `floppy_rw` and what follows it: the result, the buffer and the state. -/
def trasferisce (s : State D) (block : Fin sectors) (buffer : D) (read : Bool) (r : Risposta D) :
    Bool × D × State D :=
  match tentativi r.prove 3 0 with
  | none =>
    (false, buffer, if read then s else { s with disco := Function.update s.disco block r.rimasto })
  | some tries =>
    let buffer := if read then if tries ≠ 3 then s.disco block else r.dma else buffer
    let disco :=
      if read then s.disco
      else Function.update s.disco block (if tries ≠ 3 then buffer else r.rimasto)
    (decide (tries ≠ 3), buffer,
      { disco := disco, block := cacheInsertrefresh s.block block buffer r.oltre })

/-- `floppy_rw`. -/
def floppyRw (s : State D) (block : Fin sectors) (buffer : D) (read : Bool) (r : Risposta D) :
    Bool × D × State D :=
  if read then
    match cacheFindcopy s.block block with
    | some (image, c) => (true, image, { s with block := c })
    | none => trasferisce s block buffer true r
  else trasferisce s block buffer false r

inductive Chiamata (D : Type*) where
  | rw (block : Fin sectors) (buffer : D) (read : Bool) (r : Risposta D)
  | clear

/-- The state after a call. -/
def step (s : State D) : Chiamata D → State D
  | .rw block buffer read r => (floppyRw s block buffer read r).2.2
  | .clear => { s with block := cacheClear s.block }

/-- `cache_init`, with whatever the memory of the images holds. -/
def cacheInit (disco : Fin sectors → D) (resto : Fin cachesectorNum → D) : State D where
  disco := disco
  block := cacheClear fun i => { lba := 0, accessi := 0, image := resto i }

/-- `floppy_read` and `floppy_write`: the calls of `floppy_rw` for sectors in a row, up to
the first one that fails. -/
def ripete (s : State D) (read : Bool) :
    List (Fin sectors × D × Risposta D) → Bool × List D × State D
  | [] => (true, [], s)
  | (block, buffer, r) :: rest =>
    match floppyRw s block buffer read r with
    | (false, _, s) => (false, [], s)
    | (true, buffer, s) =>
      let (ok, buffers, s) := ripete s read rest
      (ok, buffer :: buffers, s)

/-! ### What is expected -/

/-- A read that succeeds delivers the sector, and a call that fails leaves the cache. -/
def Esatta (s : State D) (block : Fin sectors) (read : Bool) (p : Bool × D × State D) : Prop :=
  (read = true → p.1 = true → p.2.1 = s.disco block) ∧ (p.1 = false → p.2.2.block = s.block)

def Corretta (s : State D) : Chiamata D → Prop
  | .rw block buffer read r => Esatta s block read (floppyRw s block buffer read r)
  | .clear => True

/-- The bytes behind the image of element `i` are those that are there, or the element
behind it is empty. -/
def SenzaDanno (c : Cache D) (i : Fin cachesectorNum) (oltre : BitVec 24) : Prop :=
  ∀ j : Fin cachesectorNum, j.val = i.val + 1 →
    (c j).lba.msb = true ∨ (c j).lba.extractLsb' 24 8 ++ oltre = (c j).lba

/-- The call finds its sector in the cache, or it returns in the loop, where a write leaves
a cached sector as it is, or a try succeeds and the bytes behind the buffer do no harm. -/
def Ammessa (s : State D) : Chiamata D → Prop
  | .rw block _ read r =>
    read = true ∧ trova s.block block ≠ none ∨
    match tentativi r.prove 3 0 with
    | none => read = true ∨ r.rimasto = s.disco block ∨ trova s.block block = none
    | some tries => tries ≠ 3 ∧ SenzaDanno s.block (posizione s.block block) r.oltre
  | .clear => True

/-- The same of each call of `ripete`. -/
def Ammesse (s : State D) (read : Bool) : List (Fin sectors × D × Risposta D) → Prop
  | [] => True
  | (block, buffer, r) :: rest =>
    Ammessa s (.rw block buffer read r) ∧
      Ammesse (step s (.rw block buffer read r)) read rest

/-! ### The invariant -/

/-- A sector is in the cache at most once, and as it is on the disk. -/
structure Coerente (disco : Fin sectors → D) (c : Cache D) : Prop where
  image : ∀ i block, (c i).lba = lbaOf block → (c i).image = disco block
  unico : ∀ i j block, (c i).lba = lbaOf block → (c j).lba = lbaOf block → i = j

variable {s t : State D} {c : Cache D} {disco : Fin sectors → D} {block b : Fin sectors}
  {buffer : D} {oltre : BitVec 24} {i j : Fin cachesectorNum}

theorem lbaOf_toNat (block : Fin sectors) : (lbaOf block).toNat = block.val := by
  have hlt := block.isLt
  unfold sectors at hlt
  rw [lbaOf, BitVec.toNat_ofNat, Nat.mod_eq_of_lt (by omega)]

theorem lbaOf_inj : lbaOf block = lbaOf b ↔ block = b := by
  constructor
  · intro h
    apply Fin.ext
    rw [← lbaOf_toNat block, h, lbaOf_toNat]
  · rintro rfl
    rfl

theorem lbaOf_msb (block : Fin sectors) : (lbaOf block).msb = false := by
  have hlt := block.isLt
  unfold sectors at hlt
  rw [BitVec.msb_eq_false_iff_two_mul_lt, lbaOf_toNat]
  omega

theorem trova_some (h : trova c block = some i) : (c i).lba = lbaOf block := by
  simpa using List.find?_some h

theorem trova_none (h : trova c block = none) (i : Fin cachesectorNum) :
    (c i).lba ≠ lbaOf block := by
  simpa using List.find?_eq_none.mp h i (List.mem_finRange i)

theorem msb_oltre (lba : BitVec 32) (oltre : BitVec 24) :
    (lba.extractLsb' 24 8 ++ oltre).msb = lba.msb := by
  rw [BitVec.msb_append, if_neg (by decide), BitVec.msb_eq_getLsbD_last,
    BitVec.msb_eq_getLsbD_last, BitVec.getLsbD_extractLsb']
  rfl

/-- Bytes that do no harm change no element that holds a sector, and make none. -/
theorem oltre_lba (h : SenzaDanno c i oltre) (hj : j.val = i.val + 1) (b : Fin sectors) :
    (c j).lba.extractLsb' 24 8 ++ oltre = lbaOf b ↔ (c j).lba = lbaOf b := by
  rcases h j hj with hempty | hsame
  · apply iff_of_false
    · intro heq
      rw [← msb_oltre _ oltre, heq, lbaOf_msb] at hempty
      cases hempty
    · intro heq
      rw [heq, lbaOf_msb] at hempty
      cases hempty
  · rw [hsame]

theorem copiaImage_lba (h : SenzaDanno c i oltre) (hne : j ≠ i) (b : Fin sectors) :
    (copiaImage c i buffer oltre j).lba = lbaOf b ↔ (c j).lba = lbaOf b := by
  unfold copiaImage
  rw [if_neg hne]
  split
  · exact oltre_lba h ‹_› b
  · exact Iff.rfl

theorem copiaImage_image :
    (copiaImage c i buffer oltre j).image = if j = i then buffer else (c j).image := by
  unfold copiaImage
  split
  · rfl
  · split <;> rfl

theorem posizione_some (h : trova c block = some i) : posizione c block = i := by
  rw [posizione, h, Option.getD_some]

/-- After `cache_insertrefresh` one element holds the sector, and the others hold what they
held. -/
theorem insert_lba (h : SenzaDanno c (posizione c block) oltre) (j : Fin cachesectorNum)
    (b : Fin sectors) : (cacheInsertrefresh c block buffer oltre j).lba = lbaOf b ↔
      if j = posizione c block then block = b else (c j).lba = lbaOf b := by
  unfold cacheInsertrefresh
  dsimp only
  cases hi : trova c block with
  | some i =>
    dsimp only
    split
    · rename_i hj
      rw [copiaImage, if_pos hj, ← hj, ← lbaOf_inj]
      rw [posizione_some hi] at hj
      show (c j).lba = lbaOf b ↔ _
      rw [hj, trova_some hi]
    · exact copiaImage_lba h ‹_› b
  | none =>
    dsimp only
    rw [Function.update_apply]
    split
    · exact lbaOf_inj
    · exact copiaImage_lba h ‹_› b

theorem insert_image (j : Fin cachesectorNum) :
    (cacheInsertrefresh c block buffer oltre j).image =
      if j = posizione c block then buffer else (c j).image := by
  unfold cacheInsertrefresh
  dsimp only
  cases trova c block with
  | some i => exact copiaImage_image
  | none =>
    dsimp only
    rw [Function.update_apply]
    split
    · show (copiaImage c _ buffer oltre _).image = buffer
      rw [copiaImage_image, if_pos rfl]
    · rw [copiaImage_image, if_neg ‹_›]

/-- No other element holds the sector. -/
theorem Coerente.altri (h : Coerente disco c) (hj : j ≠ posizione c block) :
    (c j).lba ≠ lbaOf block := by
  intro heq
  cases hi : trova c block with
  | none => exact trova_none hi j heq
  | some i =>
    apply hj
    rw [posizione_some hi]
    exact h.unico j i block heq (trova_some hi)

/-- A sector is written to the disk, or read from it, and kept. -/
theorem Coerente.insert {disco' : Fin sectors → D} (h : Coerente disco c)
    (holtre : SenzaDanno c (posizione c block) oltre) (hblock : disco' block = buffer)
    (hdisco : ∀ b, b ≠ block → disco' b = disco b) :
    Coerente disco' (cacheInsertrefresh c block buffer oltre) where
  image j b hj := by
    rw [insert_lba holtre] at hj
    rw [insert_image]
    split
    · rename_i hpos
      rw [if_pos hpos] at hj
      rw [← hj, hblock]
    · rename_i hpos
      rw [if_neg hpos] at hj
      have hne : b ≠ block := by
        rintro rfl
        exact h.altri hpos hj
      rw [hdisco b hne]
      exact h.image j b hj
  unico j k b hj hk := by
    rw [insert_lba holtre] at hj hk
    by_cases hjp : j = posizione c block
    · by_cases hkp : k = posizione c block
      · rw [hjp, hkp]
      · rw [if_pos hjp] at hj
        rw [if_neg hkp, ← hj] at hk
        exact absurd hk (h.altri hkp)
    · rw [if_neg hjp] at hj
      by_cases hkp : k = posizione c block
      · rw [if_pos hkp] at hk
        rw [← hk] at hj
        exact absurd hj (h.altri hjp)
      · rw [if_neg hkp] at hk
        exact h.unico j k b hj hk

/-- What is in no element may change on the disk. -/
theorem Coerente.scrive (h : Coerente disco c) {rimasto : D}
    (hrimasto : rimasto = disco block ∨ trova c block = none) :
    Coerente (Function.update disco block rimasto) c where
  image j b hj := by
    rw [h.image j b hj]
    rcases hrimasto with rfl | hnone
    · rw [Function.update_eq_self]
    · rw [Function.update_of_ne]
      rintro rfl
      exact trova_none hnone j hj
  unico := h.unico

theorem Coerente.findcopy (h : Coerente disco c) {image : D} {c' : Cache D}
    (hfind : cacheFindcopy c block = some (image, c')) :
    image = disco block ∧ Coerente disco c' := by
  obtain ⟨i, hi, heq⟩ := Option.map_eq_some_iff.mp hfind
  obtain ⟨rfl, rfl⟩ := Prod.mk.inj heq
  have hlba : ∀ j, (Function.update c i
      { c i with accessi := accessiNext (c i).accessi } j).lba = (c j).lba := by
    intro j
    rw [Function.update_apply]
    split
    · rename_i hj
      rw [hj]
    · rfl
  have himage : ∀ j, (Function.update c i
      { c i with accessi := accessiNext (c i).accessi } j).image = (c j).image := by
    intro j
    rw [Function.update_apply]
    split
    · rename_i hj
      rw [hj]
    · rfl
  refine ⟨h.image i block (trova_some hi), ?_, ?_⟩
  · intro j b hj
    rw [hlba] at hj
    rw [himage]
    exact h.image j b hj
  · intro j k b hj hk
    rw [hlba] at hj hk
    exact h.unico j k b hj hk

theorem cacheClear_coerente : Coerente disco (cacheClear c) := by
  have hempty : ∀ i b, (cacheClear c i).lba ≠ lbaOf b := by
    intro i b heq
    have hmsb : (-1 : BitVec 32).msb = false := by
      rw [← lbaOf_msb b, ← heq]
      rfl
    exact absurd hmsb (by decide)
  constructor
  · exact fun i b hi => absurd hi (hempty i b)
  · exact fun i _ b hi => absurd hi (hempty i b)

/-! ### Calls and runs -/

variable {read : Bool} {r : Risposta D}

theorem trasferisce_none (h : tentativi r.prove 3 0 = none) :
    trasferisce s block buffer read r = (false, buffer,
      if read then s else { s with disco := Function.update s.disco block r.rimasto }) := by
  rw [trasferisce, h]

theorem trasferisce_some {tries : Nat} (h : tentativi r.prove 3 0 = some tries) (hne : tries ≠ 3) :
    trasferisce s block buffer read r = (true, if read then s.disco block else buffer,
      { disco := if read then s.disco else Function.update s.disco block buffer
        block := cacheInsertrefresh s.block block (if read then s.disco block else buffer)
          r.oltre }) := by
  simp only [trasferisce, h, if_pos hne, decide_eq_true hne]
  cases read with
  | true => rfl
  | false => rfl

/-- Where no copy of the sector is read, an allowed call returns in the loop or has a try
that succeeds. -/
theorem trasferisce_spec (h : Coerente s.disco s.block)
    (hok : match tentativi r.prove 3 0 with
      | none => read = true ∨ r.rimasto = s.disco block ∨ trova s.block block = none
      | some tries => tries ≠ 3 ∧ SenzaDanno s.block (posizione s.block block) r.oltre) :
    Coerente (trasferisce s block buffer read r).2.2.disco
        (trasferisce s block buffer read r).2.2.block ∧
      Esatta s block read (trasferisce s block buffer read r) := by
  cases htries : tentativi r.prove 3 0 with
  | none =>
    rw [htries] at hok
    rw [trasferisce_none htries]
    cases read with
    | true => exact ⟨h, fun _ hfalse => absurd hfalse Bool.false_ne_true, fun _ => rfl⟩
    | false =>
      have hrimasto : r.rimasto = s.disco block ∨ trova s.block block = none :=
        hok.resolve_left Bool.false_ne_true
      exact ⟨h.scrive hrimasto, fun hfalse => absurd hfalse Bool.false_ne_true, fun _ => rfl⟩
  | some tries =>
    rw [htries] at hok
    obtain ⟨hne, holtre⟩ := hok
    rw [trasferisce_some htries hne]
    refine ⟨?_, ?_, fun hfalse => absurd hfalse.symm Bool.false_ne_true⟩
    · cases read with
      | true => exact h.insert holtre rfl fun _ _ => rfl
      | false =>
        apply h.insert holtre
        · exact Function.update_self ..
        · exact fun b hb => Function.update_of_ne hb ..
    · intro hread _
      exact if_pos hread

theorem floppyRw_hit {image : D} (h : cacheFindcopy s.block block = some (image, c)) :
    floppyRw s block buffer true r = (true, image, { s with block := c }) := by
  simp only [floppyRw, if_true, h]

theorem floppyRw_miss (h : cacheFindcopy s.block block = none) :
    floppyRw s block buffer true r = trasferisce s block buffer true r := by
  simp only [floppyRw, if_true, h]

theorem floppyRw_spec (h : Coerente s.disco s.block)
    (hok : Ammessa s (.rw block buffer read r)) :
    Coerente (floppyRw s block buffer read r).2.2.disco
        (floppyRw s block buffer read r).2.2.block ∧
      Esatta s block read (floppyRw s block buffer read r) := by
  unfold Ammessa at hok
  cases read with
  | false =>
    have hloop := hok.resolve_left fun hhit => absurd hhit.1 Bool.false_ne_true
    exact trasferisce_spec h hloop
  | true =>
    cases hfind : cacheFindcopy s.block block with
    | some p =>
      obtain ⟨image, c⟩ := p
      obtain ⟨himage, hc⟩ := h.findcopy hfind
      rw [floppyRw_hit hfind]
      exact ⟨hc, fun _ _ => himage, fun hfalse => absurd hfalse.symm Bool.false_ne_true⟩
    | none =>
      have hnone : trova s.block block = none := Option.map_eq_none_iff.mp hfind
      have hloop := hok.resolve_left fun hhit => hhit.2 hnone
      rw [floppyRw_miss hfind]
      exact trasferisce_spec h hloop

theorem step_coerente (h : Coerente s.disco s.block) {a : Chiamata D} (hok : Ammessa s a) :
    Coerente (step s a).disco (step s a).block := by
  cases a with
  | rw block buffer read r => exact (floppyRw_spec h hok).1
  | clear => exact cacheClear_coerente

theorem step_corretta (h : Coerente s.disco s.block) {a : Chiamata D} (hok : Ammessa s a) :
    Corretta s a := by
  cases a with
  | rw block buffer read r => exact (floppyRw_spec h hok).2
  | clear => trivial

/-- A read leaves the disk. -/
theorem read_disco : (floppyRw s block buffer true r).2.2.disco = s.disco := by
  cases hfind : cacheFindcopy s.block block with
  | some p => rw [floppyRw_hit hfind]
  | none =>
    rw [floppyRw_miss hfind, trasferisce]
    cases tentativi r.prove 3 0 with
    | none => rfl
    | some tries => rfl

/-- A read of several sectors that succeeds delivers each of them. -/
theorem ripete_read (h : Coerente s.disco s.block) {calls : List (Fin sectors × D × Risposta D)}
    (hok : Ammesse s true calls) (htrue : (ripete s true calls).1 = true) :
    (ripete s true calls).2.1 = calls.map fun x => s.disco x.1 := by
  induction calls generalizing s with
  | nil => rfl
  | cons x rest ih =>
    obtain ⟨block, buffer, r⟩ := x
    obtain ⟨hfirst, hrest⟩ := hok
    have hread := (step_corretta h hfirst).1 rfl
    have hc := step_coerente h hfirst
    unfold ripete at htrue ⊢
    cases hrw : floppyRw s block buffer true r with
    | mk ok p =>
      obtain ⟨data, u⟩ := p
      have hu : step s (.rw block buffer true r) = u := congrArg (fun p => p.2.2) hrw
      rw [hu] at hc hrest
      rw [hrw] at hread htrue
      cases ok with
      | false => cases htrue
      | true =>
        have hdisco : u.disco = s.disco := by
          rw [← hu]
          exact read_disco
        have hdata : data = s.disco block := hread rfl
        dsimp only at htrue ⊢
        rw [ih hc hrest htrue, hdisco, hdata, List.map_cons]

theorem cacheInit_coerente (resto : Fin cachesectorNum → D) :
    Coerente (cacheInit disco resto).disco (cacheInit disco resto).block := cacheClear_coerente

/-- Of every call of `floppy_rw`, and of a `floppy_read` of several sectors, that succeeds:
the sectors are those of the disk. A call that fails leaves the cache. -/
theorem cache_run {disco : Fin sectors → D} {resto : Fin cachesectorNum → D}
    {calls : List (Chiamata D)}
    (h : Run (Guarded Ammessa (Updates step)) (cacheInit disco resto) calls s) :
    (∀ a, Ammessa s a → Corretta s a) ∧
      ∀ reads, Ammesse s true reads → (ripete s true reads).1 = true →
        (ripete s true reads).2.1 = reads.map fun x => s.disco x.1 := by
  have hs : Coerente s.disco s.block :=
    h.guarded_invariant (I := fun s => Coerente s.disco s.block)
      (fun s a t hs hok (hstep : step s a = t) => hstep ▸ step_coerente hs hok)
      (cacheInit_coerente resto)
  exact ⟨fun _ => step_corretta hs, fun _ => ripete_read hs⟩

/-- A sector of one and the same byte. -/
def settore (byte : BitVec 8) : Fin 512 → BitVec 8 := fun _ => byte

/-- Tries that all end alike, with the buffer of a formatted sector. -/
def risposta (prova : Prova) : Risposta (Fin 512 → BitVec 8) where
  prove _ := prova
  dma := settore 0xE5
  rimasto := settore 0
  oltre := 0

/-- A disk of zeros. -/
def discoVuoto : State (Fin 512 → BitVec 8) := cacheInit (fun _ => settore 0) fun _ => settore 0

/-- A read of sector 5. -/
def legge (prova : Prova) : Chiamata (Fin 512 → BitVec 8) :=
  .rw ⟨5, by decide⟩ (settore 0) true (risposta prova)

/-- A sector is read, and then what is allowed is right. -/
theorem cache_of_read : ∃ s, Run (Guarded Ammessa (Updates step)) discoVuoto [legge .riuscita] s ∧
    ∀ a, Ammessa s a → Corretta s a := by
  have hempty : (-1 : BitVec 32).msb = true := by decide
  have hok : Ammessa discoVuoto (legge .riuscita) :=
    .inr ⟨show 0 ≠ 3 by decide, fun _ _ => .inl hempty⟩
  have hrun : Run (Guarded Ammessa (Updates step)) discoVuoto [legge .riuscita] _ :=
    .single ⟨hok, rfl⟩
  exact ⟨_, hrun, (cache_run hrun).1⟩

/-- After three error statuses the DMA buffer is kept as the sector: the next read, which
finds it in the cache, succeeds with it. -/
theorem cache_keeps_errors : ∃ s, Run (Updates step) discoVuoto [legge .errore] s ∧
    ¬ Corretta s (legge .errore) := by
  refine ⟨_, .single rfl, ?_⟩
  intro h
  have hread := h.1 rfl (by decide +kernel)
  have hbyte := congrFun hread 0
  exact absurd hbyte (by decide +kernel)

end OsdevArchive.Cheapos.FloppyCache
