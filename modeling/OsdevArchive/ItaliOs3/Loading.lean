import OsdevArchive.ItaliOs3.Relocation

/-!
Exactly when `parser` loads a module as it should: the values that it computes for the entries,
compared with the addresses of their symbols.
-/

namespace OsdevArchive.ItaliOs3

open OsdevArchive.Lib.ByteBuffer

variable {calloc : Nat → Dword} {funcTable : List Symbol} {img img' : Image} {mem : Buffer}
  {t : Loaded} {e : Entry} {w : Nat × Dword}

/-! ### Values -/

theorem symbolAddress_defined {sym : ElfSym} (hpos : 0 < sym.inSection)
    (hlow : sym.inSection < 0xFF00) :
    symbolAddress funcTable img sym = some (indirizzoSezione img sym.inSection + sym.value) := by
  unfold symbolAddress
  rw [if_neg (by omega), if_pos hlow]

theorem symbolAddress_reserved {sym : ElfSym} (hhigh : 0xFF00 ≤ sym.inSection) :
    symbolAddress funcTable img sym = none := by
  unfold symbolAddress
  rw [if_neg (by omega), if_neg (by omega)]

/-- For an entry of type 1 the symbol is taken to be in a section. -/
theorem Resolves.absolute_iff (h : Resolves funcTable img e) (htype : relType img e = 1) :
    (∀ S, symbolAddress funcTable img (entrySym img e) = some S →
        (valore funcTable img e).getD 0 = S) ↔
      ((entrySym img e).inSection = 0 → symbolAddress funcTable img (entrySym img e) =
        some (indirizzoSezione img 0 + (entrySym img e).value)) := by
  unfold valore
  rw [if_pos htype, h.indirizzoSimbolo_eq]
  obtain hzero | hpos := Nat.eq_zero_or_pos (entrySym img e).inSection
  · obtain ⟨S, hS⟩ := h.symbolAddress_isSome hzero
    rw [if_neg (by omega), if_neg (by omega), Option.getD_some, hzero, hS]
    constructor
    · intro hall _
      rw [hall S rfl]
    · intro heq S' hS'
      exact Option.some.inj ((heq rfl).symm.trans hS')
  · refine iff_of_true (fun S hS => ?_) fun hzero => absurd hzero (by omega)
    obtain hlow | hhigh := Nat.lt_or_ge (entrySym img e).inSection 0xFF00
    · rw [symbolAddress_defined hpos hlow] at hS
      rw [if_neg (by omega), if_neg (by omega)]
      exact Option.some.inj hS
    · rw [symbolAddress_reserved hhigh] at hS
      cases hS

/-- For the other entries a symbol with a section is taken to be in section 1. -/
theorem Resolves.relative_iff (h : Resolves funcTable img e)
    (hname : (entrySym img e).name.length < 15) (htype : relType img e = 2) :
    (∀ S, symbolAddress funcTable img (entrySym img e) = some S →
        (valore funcTable img e).getD 0 = S) ↔
      (0 < (entrySym img e).inSection → (entrySym img e).inSection < 0xFF00 →
        indirizzoSezione img (entrySym img e).inSection = indirizzoSezione img 1) := by
  unfold valore
  rw [if_neg (by omega), h.indirizzoFunzione_eq hname]
  obtain hzero | hpos := Nat.eq_zero_or_pos (entrySym img e).inSection
  · rw [if_pos hzero]
    refine iff_of_true (fun S hS => ?_) fun hpos => absurd hpos (by omega)
    rw [hS]
    rfl
  · rw [if_neg (by omega), Option.getD_some]
    obtain hlow | hhigh := Nat.lt_or_ge (entrySym img e).inSection 0xFF00
    · rw [symbolAddress_defined hpos hlow]
      constructor
      · intro hall _ _
        have heq := hall _ rfl
        exact ((BitVec.add_left_inj _).mp heq).symm
      · intro heq S hS
        rw [← heq hpos hlow]
        exact Option.some.inj hS
    · refine iff_of_true (fun S hS => ?_) fun _ hlow => absurd hlow (by omega)
      rw [symbolAddress_reserved hhigh] at hS
      cases hS

/-! ### What a run of the loops leaves -/

theorem amount_writes (h : amount funcTable img e = some w) :
    Writes img e ∧ w.1 = (place img e).toNat := by
  unfold amount at h
  split at h
  · rename_i htype
    obtain rfl := Option.some.inj h
    exact ⟨.inl htype, rfl⟩
  · split at h
    · rename_i htype
      obtain rfl := Option.some.inj h
      exact ⟨.inr htype, rfl⟩
    · cases h

theorem OwnWords.amounts (h : OwnWords img) :
    ((entries img).filterMap (amount funcTable img)).Pairwise fun v w => Apart v.1 w.1 := by
  apply List.pairwise_filterMap.mpr
  apply h.imp
  intro e f hef v hv w hw
  obtain ⟨he, hev⟩ := amount_writes hv
  obtain ⟨hf, hfw⟩ := amount_writes hw
  rw [hev, hfw]
  exact hef he hf

/-- Each word is increased by its amount. -/
theorem OwnWords.word_eq (h : OwnWords img) (he : e ∈ entries img)
    (hw : amount funcTable img e = some w) (mem : Buffer) :
    word (addWords mem ((entries img).filterMap (amount funcTable img))) (place img e).toNat =
      word mem (place img e).toNat + w.2 := by
  rw [← (amount_writes hw).2]
  exact word_addWords h.amounts (List.mem_filterMap.mpr ⟨e, he, hw⟩)

theorem SameTables.entrySym_eq (h : SameTables img img') (e : Entry) :
    entrySym img' e = entrySym img e := by
  unfold entrySym relSym
  rw [h.symtab, h.rel]

theorem SameTables.relType_eq (h : SameTables img img') (e : Entry) :
    relType img' e = relType img e := by
  unfold relType
  rw [h.rel]

theorem WellFormed.resolves (h : WellFormed funcTable img) (hsame : SameTables img img')
    (he : e ∈ entries img) : Resolves funcTable img' e := by
  obtain ⟨hsymtab, hstrtab⟩ := h.tables e he
  refine ⟨?_, ?_, ?_⟩
  · rw [hsame.cercaSezione_eq]
    exact hsymtab
  · rw [hsame.cercaSezione_eq]
    exact hstrtab
  · rw [hsame.entrySym_eq]
    exact h.found e he

theorem WellFormed.parser_eq (h : WellFormed funcTable img) (calloc : Nat → Dword) (mem : Buffer) :
    parser calloc funcTable img mem =
      ((entries img).foldlM (rilocaEntry funcTable (moved calloc img mem).img)
        (moved calloc img mem).mem).map fun mem' =>
          (0, ⟨(moved calloc img mem).img, mem', (moved calloc img mem).blocks⟩) := by
  have hsame := (moved_spec calloc img mem).same
  have hsize : ∀ k ∈ elencoRel (moved calloc img mem).img,
      ((moved calloc img mem).img.sections k).entSize ≠ 0 := by
    intro k hk
    obtain ⟨offset, hoffset⟩ := hsame.sections k
    obtain ⟨hlt, htype⟩ := List.mem_filter.mp hk
    rw [hoffset] at htype ⊢
    apply h.entSize k
    rw [hsame.numSects] at hlt
    exact List.mem_filter.mpr ⟨hlt, htype⟩
  unfold parser
  dsimp only
  rw [if_neg (not_not.mpr h.magic), h.bitness, h.fileType, if_neg (by decide), if_neg (by decide),
    if_neg (by decide), if_neg (by decide)]
  change (rilocaSezioni funcTable (moved calloc img mem)).bind _ = _
  rw [rilocaSezioni_eq _ _ hsize, hsame.entries_eq]
  cases (entries img).foldlM (rilocaEntry funcTable (moved calloc img mem).img)
    (moved calloc img mem).mem with
  | none => rfl
  | some mem' => rfl

/-! ### When modules load right -/

theorem amount_absolute (htype : relType img e = 1) :
    amount funcTable img e = some ((place img e).toNat, (valore funcTable img e).getD 0) :=
  if_pos htype

theorem amount_relative (htype : relType img e = 2) : amount funcTable img e =
    some ((place img e).toNat, (valore funcTable img e).getD 0 - place img e) := by
  unfold amount
  rw [if_neg (by omega), if_pos htype]

theorem symbolAddress_undefined {sym : ElfSym} (hzero : sym.inSection = 0) :
    symbolAddress funcTable img' sym = symbolAddress funcTable img sym := by
  unfold symbolAddress
  rw [if_pos hzero, if_pos hzero]

/-- A word is increased by the address of the symbol exactly if the value is this address. -/
theorem WellFormed.absolute_iff (h : WellFormed funcTable img) (hsame : SameTables img img')
    (hown : OwnWords img') (he : e ∈ entries img) (htype : relType img e = 1) (mem : Buffer) :
    (∀ S, symbolAddress funcTable img' (entrySym img e) = some S →
        word (addWords mem ((entries img).filterMap (amount funcTable img'))) (place img' e).toNat =
          word mem (place img' e).toNat + S) ↔
      ((entrySym img e).inSection = 0 → symbolAddress funcTable img (entrySym img e) =
        some (indirizzoSezione img' 0 + (entrySym img e).value)) := by
  have htype' : relType img' e = 1 := (hsame.relType_eq e).trans htype
  have hiff := (h.resolves hsame he).absolute_iff htype'
  rw [hsame.entrySym_eq] at hiff
  have hentries := hsame.entries_eq
  have hword := hown.word_eq (by rw [hentries]; exact he)
    (@amount_absolute funcTable img' e htype') mem
  rw [hentries] at hword
  rw [hword]
  refine Iff.trans (forall₂_congr fun S _ => BitVec.add_right_inj _) (hiff.trans ?_)
  exact forall_congr' fun hzero => by rw [symbolAddress_undefined hzero]

theorem WellFormed.relative_iff (h : WellFormed funcTable img) (hsame : SameTables img img')
    (hown : OwnWords img') (he : e ∈ entries img) (htype : relType img e = 2)
    (hname : (entrySym img e).name.length < 15) (mem : Buffer) :
    (∀ S, symbolAddress funcTable img' (entrySym img e) = some S →
        word (addWords mem ((entries img).filterMap (amount funcTable img'))) (place img' e).toNat =
          word mem (place img' e).toNat + (S - place img' e)) ↔
      (0 < (entrySym img e).inSection → (entrySym img e).inSection < 0xFF00 →
        indirizzoSezione img' (entrySym img e).inSection = indirizzoSezione img' 1) := by
  have htype' : relType img' e = 2 := (hsame.relType_eq e).trans htype
  have hname' : (entrySym img' e).name.length < 15 := by
    rw [hsame.entrySym_eq]
    exact hname
  have hiff := (h.resolves hsame he).relative_iff hname' htype'
  rw [hsame.entrySym_eq] at hiff
  have hentries := hsame.entries_eq
  have hword := hown.word_eq (by rw [hentries]; exact he)
    (@amount_relative funcTable img' e htype') mem
  rw [hentries] at hword
  rw [hword]
  refine Iff.trans (forall₂_congr fun S _ => ?_) hiff
  exact (BitVec.add_right_inj _).trans (BitVec.sub_left_inj _)

/-- The bytes beside the words of the entries stay as they are. -/
theorem SameTables.bytes_outside (hsame : SameTables img img') {a : Nat}
    (ha : ∀ e ∈ entries img, Writes img e →
      a < (place img' e).toNat ∨ (place img' e).toNat + 4 ≤ a) (mem : Buffer) :
    addWords mem ((entries img).filterMap (amount funcTable img')) a = mem a := by
  apply addWords_outside
  intro w hw
  obtain ⟨e, he, hamount⟩ := List.mem_filterMap.mp hw
  obtain ⟨hwrites, hplace⟩ := amount_writes hamount
  rw [hplace]
  apply ha e he
  unfold Writes at hwrites ⊢
  rwa [hsame.relType_eq] at hwrites

/-- A module loads right exactly if it has one `NOBITS` section at most, its names fit, and its
entries are for symbols that their types are looked up rightly for. -/
theorem parser_relocates_iff (h : WellFormed funcTable img)
    (hown : OwnWords (moved calloc img mem).img) :
    (∃ t, parser calloc funcTable img mem = some (0, t) ∧ Relocated funcTable img mem t) ↔
      Loads calloc funcTable img mem := by
  have hmoved := moved_spec calloc img mem
  have hparser := h.parser_eq calloc mem
  obtain ⟨m, hm⟩ : ∃ w, w = moved calloc img mem := ⟨_, rfl⟩
  rw [← hm] at hown hmoved hparser
  have hsame := hmoved.same
  have hres (e : Entry) (he : e ∈ entries img) : Resolves funcTable m.img e :=
    h.resolves hsame he
  constructor
  · rintro ⟨t, ht, hrel⟩
    have hnames : ∀ e ∈ entries img, (entrySym img e).name.length < 15 := by
      intro e he
      refine Nat.lt_of_not_le fun hlong => ?_
      rw [← hsame.entrySym_eq] at hlong
      rw [hparser, foldlM_rilocaEntry_long hres he hlong] at ht
      cases ht
    rw [hparser, foldlM_rilocaEntry_short hres fun e he => by
      rw [hsame.entrySym_eq]; exact hnames e he] at ht
    obtain rfl := (Prod.mk.inj (Option.some.inj ht)).2
    refine ⟨fun s r hs hr => ?_, hnames, fun e he htype => ?_, fun e he htype => ?_⟩
    · -- there is one block at most
      obtain ⟨own, hinj, hblocks⟩ := hrel.nobits
      have hfirst (s : Nat) (hs : Nobits img s) : own s = 0 := by
        obtain ⟨hlt, -⟩ := List.getElem?_eq_some_iff.mp (hblocks s hs)
        exact Nat.lt_one_iff.mp (Nat.lt_of_lt_of_le hlt hmoved.few)
      exact hinj s r hs hr ((hfirst s hs).trans (hfirst r hr).symm)
    · rw [← hm]
      have heq := hrel.absolute e he htype
      dsimp only at heq
      rw [← hmoved.mem] at heq
      exact (h.absolute_iff hsame hown he htype m.mem).mp heq
    · rw [← hm]
      have heq := hrel.relative e he htype
      dsimp only at heq
      rw [← hmoved.mem] at heq
      exact (h.relative_iff hsame hown he htype (hnames e he) m.mem).mp heq
  · intro hloads
    rw [foldlM_rilocaEntry_short hres fun e he => by
      rw [hsame.entrySym_eq]; exact hloads.names e he] at hparser
    refine ⟨_, hparser, hmoved.others, ?_, fun e he htype => ?_, fun e he htype => ?_,
      fun a ha => ?_⟩
    · refine ⟨fun _ => 0, fun s r hs hr _ => hloads.oneNobits s r hs hr, fun s hs => ?_⟩
      exact hmoved.nobits s hs fun r hr => hloads.oneNobits s r hs hr
    · have heq := hloads.absolute e he htype
      rw [← hm] at heq
      dsimp only
      rw [← hmoved.mem]
      exact (h.absolute_iff hsame hown he htype _).mpr heq
    · have heq := hloads.relative e he htype
      rw [← hm] at heq
      dsimp only
      rw [← hmoved.mem]
      exact (h.relative_iff hsame hown he htype (hloads.names e he) _).mpr heq
    · exact (hsame.bytes_outside ha _).trans (congrFun hmoved.mem a)

/-! ### Two modules -/

/-- A module with a text and a section of data, and with one entry of the type and for the
section that are given. -/
def sampleImage (type sect : Nat) : Image where
  image := 0x1000
  magic := [0x7F, 0x45, 0x4C, 0x46]
  bitness := 1
  fileType := 1
  numSects := 6
  sections
    | 1 => ⟨".text", 1, 0x40, 16, 0, 0⟩
    | 2 => ⟨".data", 1, 0x80, 16, 0, 0⟩
    | 3 => ⟨".symtab", 2, 0x100, 32, 4, 16⟩
    | 4 => ⟨".strtab", 3, 0x140, 8, 0, 0⟩
    | 5 => ⟨".rel.text", 9, 0x150, 8, 1, 8⟩
    | _ => ⟨"", 0, 0, 0, 0, 0⟩
  symtab
    | 1 => ⟨"f", 4, sect⟩
    | _ => ⟨"", 0, 0⟩
  rel _ _ := ⟨8, 0x100 + type⟩

theorem parser_relocates_data :
    ∃ t, parser (fun _ => 0) [] (sampleImage 1 2) (fun _ => 0) = some (0, t) ∧
      Relocated [] (sampleImage 1 2) (fun _ => 0) t := by
  have hnone : ∀ s < 6, ((sampleImage 1 2).sections s).type ≠ 8 := by decide
  refine (parser_relocates_iff ⟨by decide, rfl, rfl, by decide, by decide, by decide⟩ ?_).mpr
    ⟨fun s r hs _ => absurd hs.2 (hnone s hs.1), by decide, by decide, by decide⟩
  unfold OwnWords
  decide

/-- A call of a function in section 2 is relocated by the address of section 1. -/
theorem call_of_data_wrong :
    ¬ ∃ t, parser (fun _ => 0) [] (sampleImage 2 2) (fun _ => 0) = some (0, t) ∧
      Relocated [] (sampleImage 2 2) (fun _ => 0) t := by
  have hrun : (parser (fun _ => 0) [] (sampleImage 2 2) fun _ => 0).map (fun r =>
      (place r.2.img (5, 0), word r.2.mem 0x1048, word (cleared (fun _ => 0) r.2.blocks) 0x1048,
        symbolAddress [] r.2.img (entrySym (sampleImage 2 2) (5, 0)))) =
      some (0x1048, 0x1044 - 0x1048, 0, some 0x1084) := by decide +kernel
  rintro ⟨t, ht, hrel⟩
  rw [ht] at hrun
  obtain ⟨hplace, hrest⟩ := Prod.mk.inj (Option.some.inj hrun)
  obtain ⟨hword, hrest⟩ := Prod.mk.inj hrest
  obtain ⟨hstart, hsymbol⟩ := Prod.mk.inj hrest
  have heq := hrel.relative (5, 0) (by decide) (by decide) _ hsymbol
  dsimp only at hplace hword hstart
  rw [hplace] at heq
  have hmoved : (0x1044 - 0x1048 : Dword) = 0 + (0x1084 - 0x1048) :=
    hword.symm.trans (heq.trans (congrArg (· + _) hstart))
  exact absurd hmoved (by decide)

end OsdevArchive.ItaliOs3
