import OsdevArchive.Silvios.Flush
import Mathlib.Data.List.TakeWhile

/-!
The blocks of the directories of SilviOS: `read_dir` (`fs/dir.c`) against `write_dir`. The table
`bufferd` has room for eleven elements, the last one of which is behind the entries, with 0 as
its first block; the elements that the two functions touch are kept.
-/

namespace OsdevArchive.Silvios

open OsdevArchive.Lib.ByteBuffer

/-- The elements of `bufferd` that `write_dir` sets, from the `i`-th one on. -/
def writtenElements (i : Nat) : List Entry → List Nat
  | [] => [i]
  | _ :: es => i :: writtenElements (i + 1) es

theorem zero_notMem_takeWhile (bytes : List Byte) : 0 ∉ bytes.takeWhile (· ≠ 0) := by
  intro hzero
  have hne := List.mem_takeWhile_imp hzero
  exact of_decide_eq_true hne rfl

/-- `bufferd[i].name`, if a zero ends it in its 30 bytes. -/
def readName (bufferd : Buffer) (i : Nat) : Option Name :=
  let chars := (slice bufferd (sizeofDirTemp * i + 8) 30).takeWhile (· ≠ 0)
  if h : chars.length < 30 then
    some ⟨chars, zero_notMem_takeWhile _, h⟩
  else none

/-- The loop of `read_dir`, with the elements that it reads. -/
def readEntries (bufferd : Buffer) : Nat → Nat → Directory → Option (Directory × List Nat)
  | 0, _, _ => none
  | steps + 1, i, dir =>
    let block := word bufferd (sizeofDirTemp * i + 4)
    if block ≠ 0 then do
      let name ← readName bufferd i
      let (dir, elements) ← readEntries bufferd steps (i + 1)
        (addEntryToTree name dir (word bufferd (sizeofDirTemp * i)) block)
      some (dir, i :: elements)
    else some (dir, [i])

/-- `read_dir`, with the elements of `bufferd` that it reads. The first one becomes the entry of
the directory itself by `add_dir`, which makes a `DIRECTORY` of it. -/
def readDir (j : Unset) (disk : Disk) (nome : Name) (dire : Directory) :
    Option (Option Directory × List Nat) :=
  let block := searchFilename nome dire.elem
  if block = 0 then some (none, [])
  else do
    let buffer := readBlock disk block j.buffer 0
    let bufferd := copy j.bufferd 0 buffer (sizeofFileHeader + 1) (sizeofDirTemp * dirTempNumber)
    let name ← readName bufferd 0
    let (dir, elements) ← readEntries bufferd walkBound 1
      ⟨FileHeader.ofBytes buffer, ⟨directory, word bufferd 4, name⟩, []⟩
    some (some dir, 0 :: elements)

/-- `read_dir` rebuilds the list that `write_dir` wrote, and neither leaves the table. -/
def Rebuilt (j j' : Unset) (disk : Disk) (dir : Directory) (nome : Name) (dire : Directory) :
    Prop :=
  (∀ i ∈ writtenElements 0 dir.elem, i < dirTempNumber) ∧
    ∃ dir' elements, readDir j' (writeDir j disk dir) nome dire = some (some dir', elements) ∧
      dir'.elem = dir.elem ∧ ∀ i ∈ elements, i < dirTempNumber

/-! ### The table -/

variable {b c : Buffer} {e : Entry} {es : List Entry} {i n : Nat}

/-- The `i`-th element has the data of an entry. -/
structure Element (b : Buffer) (i : Nat) (e : Entry) : Prop where
  magicCode : word b (sizeofDirTemp * i) = e.magicCode
  firstBlock : word b (sizeofDirTemp * i + 4) = e.firstBlock
  name : ∀ k ≤ e.name.chars.length, b (sizeofDirTemp * i + 8 + k) = e.name.chars.getD k 0

/-- The entries from the `i`-th element on, and the element behind them. -/
def Elements (b : Buffer) (i : Nat) : List Entry → Prop
  | [] => word b (sizeofDirTemp * i + 4) = 0
  | e :: es => Element b i e ∧ Elements b (i + 1) es

theorem mem_writtenElements (i : Nat) (es : List Entry) (k : Nat) :
    k ∈ writtenElements i es ↔ i ≤ k ∧ k ≤ i + es.length := by
  induction es generalizing i with
  | nil =>
    rw [writtenElements, List.mem_singleton, List.length_nil]
    omega
  | cons e es ih =>
    rw [writtenElements, List.mem_cons, ih, List.length_cons]
    omega

theorem Element.congr (h : Element b i e)
    (hsame : ∀ k < sizeofDirTemp, c (sizeofDirTemp * i + k) = b (sizeofDirTemp * i + k)) :
    Element c i e := by
  have hshort := e.name.short
  unfold sizeofDirTemp at *
  constructor
  · rw [← h.magicCode]
    exact word_congr fun k hk => hsame k (by omega)
  · rw [← h.firstBlock]
    exact word_congr fun k hk => by rw [Nat.add_assoc]; exact hsame (4 + k) (by omega)
  · intro k hk
    rw [← h.name k hk, Nat.add_assoc]
    exact hsame (8 + k) (by omega)

theorem element_putDirTemp (b : Buffer) (i : Nat) (e : Entry) :
    Element (putDirTemp b i e) i e := by
  unfold putDirTemp strcpy
  constructor
  · rw [word_copy_outside (by omega), putWord, word_copy_outside (by omega), word_putWord]
  · rw [word_copy_outside (by omega), word_putWord]
  · intro k hk
    rw [copy_inside (by omega), Nat.zero_add]

theorem putDirTemp_below {k : Nat} (hk : k < sizeofDirTemp * i) : putDirTemp b i e k = b k := by
  unfold putDirTemp strcpy putWord
  rw [copy_outside (by omega), copy_outside (by omega), copy_outside (by omega)]

theorem putDirTemps_below {k : Nat} (hk : k < sizeofDirTemp * i) :
    putDirTemps b i es k = b k := by
  induction es generalizing b i with
  | nil =>
    unfold putDirTemps putWord
    exact copy_outside (by omega)
  | cons e es ih =>
    unfold putDirTemps
    rw [ih (by unfold sizeofDirTemp at *; omega), putDirTemp_below hk]

theorem elements_putDirTemps (b : Buffer) (i : Nat) (es : List Entry) :
    Elements (putDirTemps b i es) i es := by
  induction es generalizing b i with
  | nil => exact word_putWord b _ 0
  | cons e es ih =>
    refine ⟨?_, ih _ _⟩
    apply (element_putDirTemp b i e).congr
    intro k hk
    show putDirTemps (putDirTemp b i e) (i + 1) es _ = _
    apply putDirTemps_below
    unfold sizeofDirTemp at *
    omega

theorem Elements.congr (h : Elements b i es)
    (hsame : ∀ k < sizeofDirTemp * (i + es.length + 1), c k = b k) : Elements c i es := by
  unfold sizeofDirTemp at *
  induction es generalizing i with
  | nil =>
    refine Eq.trans (word_congr fun k hk => ?_) h
    exact hsame _ (by unfold sizeofDirTemp; simp only [List.length_nil]; omega)
  | cons e es ih =>
    refine ⟨h.1.congr fun k hk => hsame _ ?_, ih h.2 fun k hk => hsame k ?_⟩
    · unfold sizeofDirTemp at *
      simp only [List.length_cons]
      omega
    · simp only [List.length_cons]
      omega

/-! ### Reading it back -/

theorem Element.readName (h : Element b i e) : readName b i = some e.name := by
  have hshort := e.name.short
  obtain ⟨n, hn⟩ := Nat.exists_eq_add_of_lt hshort
  have hchars : slice b (sizeofDirTemp * i + 8) e.name.chars.length = e.name.chars := by
    refine Eq.trans (slice_congr fun k hk => ?_) (slice_getD e.name.chars)
    rw [h.name k (Nat.le_of_lt hk), Nat.zero_add]
  have hzero : b (sizeofDirTemp * i + 8 + e.name.chars.length) = 0 := by
    rw [h.name _ (Nat.le_refl _), List.getD_eq_default _ _ (Nat.le_refl _)]
  have htake : (slice b (sizeofDirTemp * i + 8) 30).takeWhile (· ≠ 0) = e.name.chars := by
    rw [hn, Nat.add_assoc, slice_append, hchars, Nat.add_comm n, Nat.add_comm 1, slice_succ, hzero,
      List.takeWhile_append_of_pos, List.takeWhile_cons_of_neg (by decide), List.append_nil]
    intro c hc
    exact decide_eq_true fun heq => e.name.noZero (heq ▸ hc)
  unfold Silvios.readName
  simp only [htake, hshort, dite_true]

/-- The loop goes on with the entries that it finds. -/
theorem Elements.readEntries (h : Elements b i es) (hes : ∀ e ∈ es, e.firstBlock ≠ 0)
    (dir : Directory) {steps : Nat} (hsteps : es.length < steps) :
    readEntries b steps i dir =
      some ({ dir with entries := dir.entries ++ es }, writtenElements i es) := by
  induction es generalizing i dir steps with
  | nil =>
    obtain ⟨steps, rfl⟩ := Nat.exists_eq_succ_of_ne_zero (Nat.ne_of_gt hsteps)
    have hzero : word b (sizeofDirTemp * i + 4) = 0 := h
    rw [Silvios.readEntries]
    dsimp only
    rw [if_neg (not_not_intro hzero), List.append_nil]
    rfl
  | cons e es ih =>
    obtain ⟨steps, rfl⟩ := Nat.exists_eq_succ_of_ne_zero (Nat.ne_of_gt (Nat.zero_lt_of_lt hsteps))
    have hne := hes e List.mem_cons_self
    rw [Silvios.readEntries]
    dsimp only
    rw [h.1.firstBlock, if_pos hne, h.1.readName, h.1.magicCode]
    have hrest := ih h.2 (fun f hf => hes f (List.mem_cons_of_mem e hf))
      (addEntryToTree e.name dir e.magicCode e.firstBlock) (Nat.lt_of_succ_lt_succ hsteps)
    simp only [Option.bind_eq_bind, Option.bind_some, hrest]
    unfold addEntryToTree
    rw [List.append_assoc]
    rfl

/-! ### The round trip -/

variable {j j' : Unset} {disk : Disk} {dir dire : Directory} {nome : Name}

/-- The table that `read_dir` has is the one that `write_dir` had. -/
theorem table_kept (hsize : dir.header.size.toNat ≤ 512) {k : Nat} (hk : k < 440) :
    copy j'.bufferd 0 (readBlock (writeDir j disk dir) dir.self.firstBlock j'.buffer 0)
      (sizeofFileHeader + 1) (sizeofDirTemp * dirTempNumber) k =
      putDirTemps j.bufferd 0 dir.elem k := by
  have hblock : word (putDirTemps j.bufferd 0 dir.elem) 4 = dir.self.firstBlock :=
    (elements_putDirTemps j.bufferd 0 dir.elem).1.firstBlock
  have hsector : sizeofFileHeader + 1 + k < bytePerSector := by
    unfold sizeofFileHeader bytePerSector
    omega
  have hroom : k < sizeofDirTemp * dirTempNumber := hk
  have hread : ∀ b : Buffer, copy j'.bufferd 0 b (sizeofFileHeader + 1)
      (sizeofDirTemp * dirTempNumber) k = b (0 + (sizeofFileHeader + 1 + k)) := by
    intro b
    have hcopy : copy j'.bufferd 0 b (sizeofFileHeader + 1) (sizeofDirTemp * dirTempNumber)
        (0 + k) = b (sizeofFileHeader + 1 + k) := copy_inside hroom
    rwa [Nat.zero_add k, ← Nat.zero_add (sizeofFileHeader + 1 + k)] at hcopy
  rw [hread, readBlock_inside hsector]
  unfold writeDir
  rw [if_pos hsize]
  dsimp only
  rw [hblock, writeBlock_same hsector, copy_inside hroom, Nat.zero_add]

/-- What `read_dir` makes of the block of a directory, if there is an element behind the entries
for the zero. -/
theorem readDir_writeDir (j j' : Unset) (disk : Disk) (hsize : dir.header.size.toNat ≤ 512)
    (hself : dir.self.firstBlock ≠ 0) (hblocks : ∀ e ∈ dir.entries, e.firstBlock ≠ 0)
    (hfound : searchFilename nome dire.elem = dir.self.firstBlock)
    (hsmall : dir.elem.length ≤ 10) :
    ∃ header, readDir j' (writeDir j disk dir) nome dire =
      some (some ⟨header, ⟨directory, dir.self.firstBlock, dir.self.name⟩, dir.entries⟩,
        writtenElements 0 dir.elem) := by
  have hlength : dir.elem.length = dir.entries.length + 1 := rfl
  obtain ⟨bufferd, hbufferd⟩ : ∃ c, c = copy j'.bufferd 0
      (readBlock (writeDir j disk dir) dir.self.firstBlock j'.buffer 0)
      (sizeofFileHeader + 1) (sizeofDirTemp * dirTempNumber) := ⟨_, rfl⟩
  have htable : Elements bufferd 0 dir.elem := by
    apply (elements_putDirTemps j.bufferd 0 dir.elem).congr
    intro k hk
    rw [hbufferd]
    exact table_kept hsize (by unfold sizeofDirTemp at hk; omega)
  have hfirst := htable.1
  have hblock : word bufferd 4 = dir.self.firstBlock := hfirst.firstBlock
  obtain ⟨header, hheader⟩ : ∃ header, header = FileHeader.ofBytes
      (readBlock (writeDir j disk dir) dir.self.firstBlock j'.buffer 0) := ⟨_, rfl⟩
  have hroom : dir.entries.length < walkBound := by
    unfold walkBound
    omega
  have hrest := htable.2.readEntries hblocks
    ⟨header, ⟨directory, dir.self.firstBlock, dir.self.name⟩, []⟩ hroom
  refine ⟨header, ?_⟩
  unfold readDir
  rw [hfound]
  dsimp only
  rw [if_neg hself, ← hbufferd, ← hheader, hfirst.readName, hblock]
  simp only [Option.bind_eq_bind, Option.bind_some]
  rw [hrest]
  rfl

/-- The round trip succeeds exactly for up to ten entries, with that of the directory itself, whose
type is `DIRECTORY`. -/
theorem rebuilt_iff (hsize : dir.header.size.toNat ≤ 512)
    (hself : dir.self.firstBlock ≠ 0) (hblocks : ∀ e ∈ dir.entries, e.firstBlock ≠ 0)
    (hfound : searchFilename nome dire.elem = dir.self.firstBlock) :
    Rebuilt j j' disk dir nome dire ↔
      dir.elem.length ≤ 10 ∧ dir.self.magicCode = directory := by
  have hmem : (∀ i ∈ writtenElements 0 dir.elem, i < dirTempNumber) ↔ dir.elem.length ≤ 10 := by
    have hnumber : dirTempNumber = 11 := rfl
    simp only [mem_writtenElements, hnumber]
    constructor
    · intro h
      have hlast := h dir.elem.length (by omega)
      omega
    · intro h i hi
      omega
  constructor
  · rintro ⟨hwritten, dir', elements, hread, hsame, -⟩
    have hsmall := hmem.mp hwritten
    obtain ⟨header, heq⟩ := readDir_writeDir j j' disk hsize hself hblocks hfound hsmall
    rw [hread] at heq
    cases heq
    exact ⟨hsmall, (congrArg Entry.magicCode (List.cons.inj hsame).1).symm⟩
  · rintro ⟨hsmall, htype⟩
    obtain ⟨header, hread⟩ := readDir_writeDir j j' disk hsize hself hblocks hfound hsmall
    refine ⟨hmem.mpr hsmall, _, _, hread, ?_, hmem.mpr hsmall⟩
    unfold Directory.elem
    rw [← htype]

end OsdevArchive.Silvios
