import OsdevArchive.ItaliOs3.Exec

/-!
What the loading of a module should do: every `NOBITS` section gets memory of its own, and every
word that is relocated is increased once, by the address of the symbol.
-/

namespace OsdevArchive.ItaliOs3

open OsdevArchive.Lib.ByteBuffer

/-- The entries of the `REL` sections: the section, and the place in it. -/
abbrev Entry := Nat × Nat

def entries (img : Image) : List Entry :=
  (elencoRel img).flatMap fun k =>
    (List.range ((img.sections k).size / (img.sections k).entSize)).map fun i => (k, i)

def relType (img : Image) (e : Entry) : Nat := (img.rel e.1 e.2).info % 2 ^ 8

def relSym (img : Image) (e : Entry) : Nat := (img.rel e.1 e.2).info / 2 ^ 8

/-- The symbol of an entry. -/
def entrySym (img : Image) (e : Entry) : ElfSym := img.symtab (relSym img e)

/-- The address of the word that an entry is for. -/
def place (img : Image) (e : Entry) : Dword :=
  indirizzoSezione img (img.sections e.1).info + (img.rel e.1 e.2).addr

/-- `riloca` writes the word of the entry. -/
def Writes (img : Image) (e : Entry) : Prop := relType img e = 1 ∨ relType img e = 2

instance instDecidableWrites (img : Image) (e : Entry) : Decidable (Writes img e) :=
  inferInstanceAs (Decidable (_ ∨ _))

/-- The section has no bytes in the file. -/
def Nobits (img : Image) (s : Nat) : Prop := s < img.numSects ∧ (img.sections s).type = 8

/-- An image of 32 bits that can be relocated, with the tables that its entries need; the
functions that it does not define are known. -/
structure WellFormed (funcTable : List Symbol) (img : Image) : Prop where
  magic : img.magic = [0x7F, 0x45, 0x4C, 0x46]
  bitness : img.bitness = 1
  fileType : img.fileType = 1
  entSize : ∀ k ∈ elencoRel img, (img.sections k).entSize ≠ 0
  tables : ∀ e ∈ entries img,
    (cercaSezione ".symtab" img).isSome = true ∧ (cercaSezione ".strtab" img).isSome = true
  found : ∀ e ∈ entries img, (entrySym img e).inSection = 0 →
    ∃ f ∈ funcTable, (entrySym img e).name = f.nome

/-- The address of a symbol that is defined in a section, or not at all; the reserved sections
have none. -/
def symbolAddress (funcTable : List Symbol) (img : Image) (sym : ElfSym) : Option Dword :=
  if sym.inSection = 0 then (funcTable.find? fun f => sym.name = f.nome).map Symbol.addr
  else if sym.inSection < 0xFF00 then some (indirizzoSezione img sym.inSection + sym.value)
  else none

/-- The memory, with zeros in the blocks. -/
def cleared (mem : Buffer) (blocks : List (Dword × Nat)) : Buffer :=
  blocks.foldl (fun mem b => copy mem b.1.toNat (fun _ => 0) 0 b.2) mem

/-- Each `NOBITS` section is in a block of its own, the words of the entries have been increased
from what was there, and nothing else has changed. -/
structure Relocated (funcTable : List Symbol) (img : Image) (mem : Buffer) (t : Loaded) : Prop where
  others : ∀ s, ¬ Nobits img s → t.img.sections s = img.sections s
  nobits : ∃ own : Nat → Nat,
    (∀ s r, Nobits img s → Nobits img r → own s = own r → s = r) ∧
    ∀ s, Nobits img s → t.blocks[own s]? = some (indirizzoSezione t.img s, (img.sections s).size)
  absolute : ∀ e ∈ entries img, relType img e = 1 → ∀ S,
    symbolAddress funcTable t.img (entrySym img e) = some S →
    word t.mem (place t.img e).toNat = word (cleared mem t.blocks) (place t.img e).toNat + S
  relative : ∀ e ∈ entries img, relType img e = 2 → ∀ S,
    symbolAddress funcTable t.img (entrySym img e) = some S →
    word t.mem (place t.img e).toNat =
      word (cleared mem t.blocks) (place t.img e).toNat + (S - place t.img e)
  bytes : ∀ a, (∀ e ∈ entries img, Writes img e →
      a < (place t.img e).toNat ∨ (place t.img e).toNat + 4 ≤ a) →
    t.mem a = cleared mem t.blocks a

/-- The image after its first `NOBITS` section has been moved. -/
def moved (calloc : Nat → Dword) (img : Image) (mem : Buffer) : Loaded :=
  spostaSezioni calloc (List.range img.numSects) ⟨img, mem, []⟩

/-- There is one `NOBITS` section at most, the names fit, an entry of type 1 has a symbol with a
section, and one of type 2 a symbol without, or of section 1. The addresses may be right by
chance. -/
structure Loads (calloc : Nat → Dword) (funcTable : List Symbol) (img : Image) (mem : Buffer) :
    Prop where
  oneNobits : ∀ s r, Nobits img s → Nobits img r → s = r
  names : ∀ e ∈ entries img, (entrySym img e).name.length < 15
  absolute : ∀ e ∈ entries img, relType img e = 1 → (entrySym img e).inSection = 0 →
    symbolAddress funcTable img (entrySym img e) =
      some (indirizzoSezione (moved calloc img mem).img 0 + (entrySym img e).value)
  relative : ∀ e ∈ entries img, relType img e = 2 →
    0 < (entrySym img e).inSection → (entrySym img e).inSection < 0xFF00 →
    indirizzoSezione (moved calloc img mem).img (entrySym img e).inSection =
      indirizzoSezione (moved calloc img mem).img 1

/-- The words of the entries do not overlap. -/
def OwnWords (img : Image) : Prop :=
  (entries img).Pairwise fun e f => Writes img e → Writes img f →
    Apart (place img e).toNat (place img f).toNat

variable {calloc : Nat → Dword} {funcTable : List Symbol} {img img' : Image} {mem : Buffer}
  {s t : Loaded} {e : Entry} {es : List Entry}

/-! ### The image that has been moved -/

/-- Nothing but the offset of sections is different. -/
structure SameTables (img img' : Image) : Prop where
  image : img'.image = img.image
  numSects : img'.numSects = img.numSects
  symtab : img'.symtab = img.symtab
  rel : img'.rel = img.rel
  sections : ∀ i, ∃ offset, img'.sections i = { img.sections i with offset := offset }

theorem cambiaIndirizzoSezione_same (img : Image) (a : Dword) (i : Nat) :
    SameTables img (cambiaIndirizzoSezione img a i) := by
  refine ⟨rfl, rfl, rfl, rfl, fun j => ?_⟩
  unfold cambiaIndirizzoSezione
  dsimp only
  by_cases hj : j = i
  · rw [hj, Function.update_self]
    exact ⟨_, rfl⟩
  · rw [Function.update_of_ne hj]
    exact ⟨(img.sections j).offset, rfl⟩

theorem SameTables.refl (img : Image) : SameTables img img :=
  ⟨rfl, rfl, rfl, rfl, fun i => ⟨(img.sections i).offset, rfl⟩⟩

theorem SameTables.entries_eq (h : SameTables img img') : entries img' = entries img := by
  have hsect (i : Nat) : (img'.sections i).type = (img.sections i).type ∧
      (img'.sections i).size = (img.sections i).size ∧
      (img'.sections i).entSize = (img.sections i).entSize := by
    obtain ⟨offset, hoffset⟩ := h.sections i
    rw [hoffset]
    exact ⟨rfl, rfl, rfl⟩
  unfold entries elencoRel
  rw [h.numSects]
  simp only [(hsect _).1, (hsect _).2.1, (hsect _).2.2]

theorem SameTables.cercaSezione_eq (h : SameTables img img') (nome : String) :
    cercaSezione nome img' = cercaSezione nome img := by
  have hname (i : Nat) : (img'.sections i).sectName = (img.sections i).sectName := by
    obtain ⟨offset, hoffset⟩ := h.sections i
    rw [hoffset]
  unfold cercaSezione
  rw [h.numSects]
  simp only [hname]

/-- The first `NOBITS` section is moved to a new block, if there is one. -/
theorem spostaSezioni_cases (calloc : Nat → Dword) (sects : List Nat) (s : Loaded) :
    (∀ i ∈ sects, (s.img.sections i).type ≠ 8) ∧ spostaSezioni calloc sects s = s ∨
      ∃ i ∈ sects, (s.img.sections i).type = 8 ∧ spostaSezioni calloc sects s =
        ⟨cambiaIndirizzoSezione s.img (calloc (s.img.sections i).size) i,
          cleared s.mem [(calloc (s.img.sections i).size, (s.img.sections i).size)],
          s.blocks ++ [(calloc (s.img.sections i).size, (s.img.sections i).size)]⟩ := by
  induction sects with
  | nil => exact .inl ⟨fun i hi => absurd hi List.not_mem_nil, rfl⟩
  | cons i sects ih =>
    unfold spostaSezioni
    dsimp only
    by_cases htype : (s.img.sections i).type = 8
    · rw [if_neg (not_not.mpr htype)]
      exact .inr ⟨i, List.mem_cons_self, htype, rfl⟩
    · rw [if_pos htype]
      obtain ⟨hnone, hsame⟩ | ⟨j, hj, hrest⟩ := ih
      · refine .inl ⟨fun j hj => ?_, hsame⟩
        obtain rfl | hlater := List.mem_cons.mp hj
        · exact htype
        · exact hnone j hlater
      · exact .inr ⟨j, List.mem_cons_of_mem i hj, hrest⟩

/-- What the moving of sections has done. -/
structure Moved (img : Image) (mem : Buffer) (t : Loaded) : Prop where
  same : SameTables img t.img
  mem : t.mem = cleared mem t.blocks
  others : ∀ s, ¬ Nobits img s → t.img.sections s = img.sections s
  few : t.blocks.length ≤ 1
  nobits : ∀ s, Nobits img s → (∀ r, Nobits img r → s = r) →
    t.blocks[0]? = some (indirizzoSezione t.img s, (img.sections s).size)

theorem moved_spec (calloc : Nat → Dword) (img : Image) (mem : Buffer) :
    Moved img mem (moved calloc img mem) := by
  unfold moved
  obtain ⟨hnone, hsame⟩ | ⟨i, hi, htype, hmoved⟩ :=
    spostaSezioni_cases calloc (List.range img.numSects) ⟨img, mem, []⟩
  · rw [hsame]
    refine ⟨.refl img, rfl, fun _ _ => rfl, Nat.zero_le 1, fun s hs => ?_⟩
    exact absurd hs.2 (hnone s (List.mem_range.mpr hs.1))
  · rw [hmoved]
    have hnobits : Nobits img i := ⟨List.mem_range.mp hi, htype⟩
    refine ⟨cambiaIndirizzoSezione_same _ _ _, rfl, fun s hs => ?_, Nat.le_refl 1,
      fun s _ honly => ?_⟩
    · apply Function.update_of_ne
      rintro rfl
      exact hs hnobits
    · obtain rfl := honly i hnobits
      unfold indirizzoSezione cambiaIndirizzoSezione
      dsimp only
      rw [Function.update_self, BitVec.add_comm, BitVec.sub_add_cancel]
      rfl

/-! ### The entries one by one -/

/-- The value that `riloca` gets for an entry. -/
def valore (funcTable : List Symbol) (img : Image) (e : Entry) : Option Dword :=
  if relType img e = 1 then indirizzoSimbolo (relSym img e) img
  else indirizzoFunzione funcTable (relSym img e) img

/-- The word that an entry is for, and what it is increased by. -/
def amount (funcTable : List Symbol) (img : Image) (e : Entry) : Option (Nat × Dword) :=
  if relType img e = 1 then
    some ((place img e).toNat, (valore funcTable img e).getD 0)
  else if relType img e = 2 then
    some ((place img e).toNat, (valore funcTable img e).getD 0 - place img e)
  else none

/-- What the loops do for an entry. -/
def rilocaEntry (funcTable : List Symbol) (img : Image) (mem : Buffer) (e : Entry) :
    Option Buffer := do
  let myobj ← cercaSimboloRilocabile funcTable e.2 e.1 img
  some (riloca myobj mem)

/-- The tables and the functions that an entry needs are there. -/
structure Resolves (funcTable : List Symbol) (img : Image) (e : Entry) : Prop where
  symtab : (cercaSezione ".symtab" img).isSome = true
  strtab : (cercaSezione ".strtab" img).isSome = true
  found : (entrySym img e).inSection = 0 → ∃ f ∈ funcTable, (entrySym img e).name = f.nome

theorem Resolves.nomeSimbolo_eq (h : Resolves funcTable img e) (dim : Nat) :
    nomeSimbolo (relSym img e) img dim = strcpy dim (entrySym img e).name := by
  obtain ⟨i, hi⟩ := Option.isSome_iff_exists.mp h.symtab
  obtain ⟨j, hj⟩ := Option.isSome_iff_exists.mp h.strtab
  unfold nomeSimbolo
  rw [hi, hj]
  rfl

theorem Resolves.indirizzoSimbolo_eq (h : Resolves funcTable img e) :
    indirizzoSimbolo (relSym img e) img =
      if (entrySym img e).inSection = 0xFFF1 then some 0
      else if (entrySym img e).inSection = 0xFFF2 then some (img.image + (entrySym img e).value)
      else some (indirizzoSezione img (entrySym img e).inSection + (entrySym img e).value) := by
  obtain ⟨i, hi⟩ := Option.isSome_iff_exists.mp h.symtab
  unfold indirizzoSimbolo
  rw [hi]
  rfl

theorem Resolves.indirizzoFunzione_eq (h : Resolves funcTable img e)
    (hname : (entrySym img e).name.length < 15) :
    indirizzoFunzione funcTable (relSym img e) img =
      if (entrySym img e).inSection = 0 then symbolAddress funcTable img (entrySym img e)
      else some (indirizzoSezione img 1 + (entrySym img e).value) := by
  obtain ⟨i, hi⟩ := Option.isSome_iff_exists.mp h.symtab
  have hcopy : strcpy 1000 (entrySym img e).name = some (entrySym img e).name :=
    if_pos (by omega)
  unfold indirizzoFunzione valoreSimbolo symbolAddress
  rw [hi, h.nomeSimbolo_eq, hcopy]
  dsimp only [Option.bind_eq_bind, Option.bind_some]
  change (if (entrySym img e).inSection = 0 then _ else _) = _
  split
  · cases funcTable.find? fun f => decide ((entrySym img e).name = f.nome) <;> rfl
  · rfl

theorem Resolves.symbolAddress_isSome (h : Resolves funcTable img e)
    (hsect : (entrySym img e).inSection = 0) :
    ∃ S, symbolAddress funcTable img (entrySym img e) = some S := by
  obtain ⟨f, hf, hname⟩ := h.found hsect
  have hfound : (funcTable.find? fun f => (entrySym img e).name = f.nome).isSome = true :=
    List.find?_isSome.mpr ⟨f, hf, decide_eq_true hname⟩
  obtain ⟨g, hg⟩ := Option.isSome_iff_exists.mp hfound
  unfold symbolAddress
  rw [if_pos hsect, hg]
  exact ⟨g.addr, rfl⟩

theorem Resolves.valore_isSome (h : Resolves funcTable img e)
    (hname : (entrySym img e).name.length < 15) : ∃ v, valore funcTable img e = some v := by
  unfold valore
  rw [h.indirizzoSimbolo_eq, h.indirizzoFunzione_eq hname]
  by_cases hone : relType img e = 1
  · rw [if_pos hone]
    split
    · exact ⟨_, rfl⟩
    · split
      · exact ⟨_, rfl⟩
      · exact ⟨_, rfl⟩
  · rw [if_neg hone]
    split
    · rename_i hsect
      exact h.symbolAddress_isSome hsect
    · exact ⟨_, rfl⟩

/-- An entry whose symbol has a short name is relocated. -/
theorem Resolves.rilocaEntry_short (h : Resolves funcTable img e)
    (hname : (entrySym img e).name.length < 15) (mem : Buffer) :
    rilocaEntry funcTable img mem e =
      some (addWords mem (amount funcTable img e).toList) := by
  obtain ⟨v, hv⟩ := h.valore_isSome hname
  have hcopy (dim : Nat) (hdim : 15 ≤ dim) :
      strcpy dim (entrySym img e).name = some (entrySym img e).name :=
    if_pos (by omega)
  have hobj : cercaSimboloRilocabile funcTable e.2 e.1 img =
      some ⟨(entrySym img e).name, place img e, relType img e, v⟩ := by
    unfold cercaSimboloRilocabile
    dsimp only
    change (nomeSimbolo (relSym img e) img 50).bind _ = _
    rw [h.nomeSimbolo_eq, hcopy 50 (by decide), Option.bind_some, hcopy 15 (by decide)]
    dsimp only [Option.bind_eq_bind, Option.bind_some]
    change (if relType img e = 1 then (indirizzoSimbolo (relSym img e) img).bind _
      else (indirizzoFunzione funcTable (relSym img e) img).bind _) = _
    unfold valore at hv
    split at hv
    · rename_i htype
      rw [if_pos htype, hv]
      rfl
    · rename_i htype
      rw [if_neg htype, hv]
      rfl
  unfold rilocaEntry riloca amount
  rw [hobj, hv]
  dsimp only [Option.bind_eq_bind, Option.bind_some, Option.getD_some]
  split
  · rfl
  · split
    · rfl
    · rfl

/-- A long name overflows its buffer. -/
theorem Resolves.rilocaEntry_long (h : Resolves funcTable img e)
    (hname : 15 ≤ (entrySym img e).name.length) (mem : Buffer) :
    rilocaEntry funcTable img mem e = none := by
  have hcopy : strcpy 15 (entrySym img e).name = none := if_neg (by omega)
  unfold rilocaEntry cercaSimboloRilocabile
  dsimp only
  change ((nomeSimbolo (relSym img e) img 50).bind _).bind _ = _
  rw [h.nomeSimbolo_eq]
  cases hfirst : strcpy 50 (entrySym img e).name with
  | none => rfl
  | some str =>
    have hstr : str = (entrySym img e).name := by
      unfold strcpy at hfirst
      split at hfirst
      · exact (Option.some.inj hfirst).symm
      · cases hfirst
    rw [hstr, Option.bind_some, hcopy]
    rfl

/-! ### The loops -/

theorem foldlM_rilocaEntry_short (h : ∀ e ∈ es, Resolves funcTable img e)
    (hnames : ∀ e ∈ es, (entrySym img e).name.length < 15) (mem : Buffer) :
    es.foldlM (rilocaEntry funcTable img) mem =
      some (addWords mem (es.filterMap (amount funcTable img))) := by
  induction es generalizing mem with
  | nil => rfl
  | cons e es ih =>
    have hrest := ih (fun f hf => h f (List.mem_cons_of_mem e hf))
      fun f hf => hnames f (List.mem_cons_of_mem e hf)
    rw [List.foldlM_cons,
      (h e List.mem_cons_self).rilocaEntry_short (hnames e List.mem_cons_self) mem,
      Option.bind_eq_bind, Option.bind_some, hrest, List.filterMap_cons]
    cases amount funcTable img e with
    | none => rfl
    | some w => rfl

theorem foldlM_rilocaEntry_long (h : ∀ e ∈ es, Resolves funcTable img e) (he : e ∈ es)
    (hname : 15 ≤ (entrySym img e).name.length) (mem : Buffer) :
    es.foldlM (rilocaEntry funcTable img) mem = none := by
  induction es generalizing mem with
  | nil => exact absurd he List.not_mem_nil
  | cons f es ih =>
    rw [List.foldlM_cons]
    obtain rfl | hlater := List.mem_cons.mp he
    · rw [(h e List.mem_cons_self).rilocaEntry_long hname]
      rfl
    · cases hfirst : rilocaEntry funcTable img mem f with
      | none => rfl
      | some mem' => exact ih (fun g hg => h g (List.mem_cons_of_mem f hg)) hlater mem'

/-- The loops over sections and entries are one loop. -/
theorem rilocaSezioni_eq (funcTable : List Symbol) (s : Loaded)
    (hsize : ∀ k ∈ elencoRel s.img, (s.img.sections k).entSize ≠ 0) :
    rilocaSezioni funcTable s =
      ((entries s.img).foldlM (rilocaEntry funcTable s.img) s.mem).map fun mem =>
        { s with mem := mem } := by
  have hloops (ks : List Nat) (hks : ∀ k ∈ ks, (s.img.sections k).entSize ≠ 0) (mem : Buffer) :
      ks.foldlM (fun mem k => do
        let num ← numeroOggettiRilocabili k s.img
        (List.range num).foldlM (fun mem i => do
          let myobj ← cercaSimboloRilocabile funcTable i k s.img
          some (riloca myobj mem)) mem) mem =
      (ks.flatMap fun k =>
        (List.range ((s.img.sections k).size / (s.img.sections k).entSize)).map
          fun i => (k, i)).foldlM (rilocaEntry funcTable s.img) mem := by
    induction ks generalizing mem with
    | nil => rfl
    | cons k ks ih =>
      have hnum : numeroOggettiRilocabili k s.img =
          some ((s.img.sections k).size / (s.img.sections k).entSize) :=
        if_neg (hks k List.mem_cons_self)
      rw [List.foldlM_cons, List.flatMap_cons, List.foldlM_append, List.foldlM_map, hnum]
      dsimp only [Option.bind_eq_bind, Option.bind_some]
      have hrest (mem : Buffer) := ih (fun l hl => hks l (List.mem_cons_of_mem k hl)) mem
      simp only [Option.bind_eq_bind] at hrest
      simp only [hrest]
      rfl
  unfold rilocaSezioni
  rw [hloops _ hsize]
  unfold entries
  cases ((elencoRel s.img).flatMap fun k =>
    (List.range ((s.img.sections k).size / (s.img.sections k).entSize)).map
      fun i => (k, i)).foldlM (rilocaEntry funcTable s.img) s.mem with
  | none => rfl
  | some mem => rfl

end OsdevArchive.ItaliOs3
