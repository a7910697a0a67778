import OsdevArchive.Lib.Owners
import OsdevArchive.Silvios.Flush

/-!
Whose blocks are whose. Every file and every directory has the block that its entry names, and
the chain of blocks behind it; they are busy, and no other file or directory has them.
-/

namespace OsdevArchive.Silvios

open OsdevArchive.Lib.ByteBuffer OsdevArchive.Lib.Chained OsdevArchive.Lib.Owners

/-- A block of the disk that is busy. -/
def Marked (vetCluster : VetCluster) (b : Block) : Prop := IsBlock b ∧ Busy vetCluster b

/-- The blocks of a file or directory, from its first one on. -/
abbrev HasBlocks (disk : Disk) (b : Block) (l : List Block) : Prop :=
  Owns (headLink disk.blocks) (nextLink disk.blocks) (· = 0) b l

/-- The files and directories with the first blocks `owners` have busy blocks of their own. -/
abbrev DiskOwned (disk : Disk) (owners : List Block) (chain : Block → List Block) : Prop :=
  Owned (headLink disk.blocks) (nextLink disk.blocks) (· = 0) (Marked disk.vetCluster) owners chain

variable {disk disk' after : Disk} {dir dir' : Directory} {name : Name} {b e : Block}
  {owners : List Block} {chain : Block → List Block} {j : Unset}

/-! ### A new owner, and one that is written again -/

theorem freeNumber_pos {vetCluster : VetCluster} :
    0 < freeNumber vetCluster ↔ ∃ b, IsBlock b ∧ ¬ Busy vetCluster b := by
  rw [← takes_iff]
  constructor
  · intro h
    unfold freeNumber at h
    exact takes_of_free (Finset.card_pos.mp h)
  · rintro ⟨hb, hfree, -⟩
    unfold freeNumber
    refine Finset.card_pos.mpr ⟨_, mem_freePlaces.mpr ⟨?_, by simpa [Busy] using hfree⟩⟩
    unfold IsBlock at hb
    omega

/-- Blocks that are not written keep their links. -/
theorem links_same (h : after.blocks b = disk.blocks b) :
    headLink after.blocks b = headLink disk.blocks b ∧
      nextLink after.blocks b = nextLink disk.blocks b := by
  unfold headLink nextLink
  rw [h]
  exact ⟨rfl, rfl⟩

/-- A block that was free, with no link in its header, belongs to a new file or directory. -/
theorem take_owned (h : DiskOwned disk owners chain) (he : IsBlock e)
    (hfree : ¬ Busy disk.vetCluster e)
    (hmarks : ∀ c, IsBlock c → (Busy after.vetCluster c ↔ Busy disk.vetCluster c ∨ c = e))
    (hsame : ∀ c, c ≠ e → after.blocks c = disk.blocks c) (hhead : headLink after.blocks e = 0) :
    DiskOwned after (e :: owners) (Function.update chain e [e]) := by
  have hkept : DiskOwned after owners chain := by
    apply h.change
    intro c hc
    obtain ⟨hblock, hbusy⟩ := h.marked c hc
    have hne : c ≠ e := fun heq => hfree (heq ▸ hbusy)
    obtain ⟨hhead, hnext⟩ := links_same (hsame c hne)
    exact ⟨hhead, hnext, hblock, (hmarks c hblock).mpr (.inl hbusy)⟩
  apply hkept.cons ⟨[], rfl, .nil hhead⟩ (List.nodup_singleton e)
  intro c hc
  obtain rfl := List.mem_singleton.mp hc
  exact ⟨⟨he, (hmarks c he).mpr (.inr rfl)⟩, fun hmem => hfree (h.marked c hmem).2⟩

/-- A file or directory is written again, with new blocks behind its first one. -/
theorem grow_owned {cs : List Block} (h : DiskOwned disk owners chain) (hb : b ∈ owners)
    (hchain : Chain (nextLink after.blocks) (· = 0) (headLink after.blocks b) cs)
    (hgrown : Grown disk after b cs) :
    DiskOwned after owners (Function.update chain b (b :: cs)) := by
  obtain ⟨rest, hperm⟩ : ∃ rest, owners.Perm (b :: rest) :=
    ⟨owners.erase b, List.perm_cons_erase hb⟩
  obtain ⟨hrest, hapart⟩ := (h.perm hperm.symm).tail
  have hkept : DiskOwned after rest chain := by
    apply hrest.change
    intro c hc
    obtain ⟨hblock, hbusy⟩ := hrest.marked c hc
    have hne : c ≠ b := fun heq => hapart c hc (heq ▸ (h.owns b hb).mem)
    obtain ⟨hhead, hnext⟩ := links_same (hgrown.untouched c hblock hne hbusy)
    exact ⟨hhead, hnext, hblock, hgrown.busy c hblock hbusy⟩
  refine (hkept.cons ⟨cs, rfl, hchain⟩ hgrown.nodup fun c hc => ⟨hgrown.marked c hc, ?_⟩).perm hperm
  intro hmem
  obtain rfl | hc := List.mem_cons.mp hc
  · exact hapart c hmem (h.owns c hb).mem
  · exact hgrown.new c hc (hrest.marked c hmem).2

/-! ### Removing -/

theorem freeChain_frees {vetCluster vetCluster' : VetCluster} {blocks : Block → Buffer}
    {steps : Nat} {start : Block} {cs : List Block}
    (hchain : Chain (nextLink blocks) (· = 0) start cs) (hnodup : cs.Nodup)
    (hmarked : ∀ c ∈ cs, Marked vetCluster c) (hends : ∀ c ∈ cs, ¬ EndsWord c)
    (h : freeChain blocks steps vetCluster start = some vetCluster') (c : Block) (hc : IsBlock c) :
    Busy vetCluster' c ↔ Busy vetCluster c ∧ c ∉ cs := by
  induction hchain generalizing steps vetCluster with
  | nil hstop =>
    cases steps with
    | zero => cases h
    | succ steps =>
      unfold freeChain at h
      rw [if_pos hstop] at h
      obtain rfl := Option.some.inj h
      simp
  | @cons b cs hgo _ ih =>
    cases steps with
    | zero => cases h
    | succ steps =>
      unfold freeChain at h
      rw [if_neg hgo] at h
      obtain ⟨hb, hcs⟩ := List.nodup_cons.mp hnodup
      obtain ⟨hblock, hbusy⟩ := hmarked b List.mem_cons_self
      have hfrees := (frees_iff hblock hbusy).mpr (hends b List.mem_cons_self)
      have hrest := ih hcs (fun a ha => ?_)
        (fun a ha => hends a (List.mem_cons_of_mem b ha)) h
      · rw [hrest, hfrees c hc, List.mem_cons, not_or, and_assoc]
      · obtain ⟨hablock, habusy⟩ := hmarked a (List.mem_cons_of_mem b ha)
        refine ⟨hablock, (hfrees a hablock).mpr ⟨habusy, ?_⟩⟩
        rintro rfl
        exact hb ha

/-- `free_entry_block` marks the blocks of the entry free, and no other ones. -/
theorem freeEntryBlock_frees {en : Entry} {l : List Block} (hl : HasBlocks disk en.firstBlock l)
    (hnodup : l.Nodup) (hmarked : ∀ c ∈ l, Marked disk.vetCluster c)
    (hends : ∀ c ∈ l, ¬ EndsWord c) (h : freeEntryBlock disk en = some disk') :
    disk'.blocks = disk.blocks ∧
      ∀ c, IsBlock c → (Busy disk'.vetCluster c ↔ Busy disk.vetCluster c ∧ c ∉ l) := by
  obtain ⟨cs, rfl, hchain⟩ := hl
  obtain ⟨vet, hvet, heq⟩ := Option.bind_eq_some_iff.mp h
  obtain rfl := Option.some.inj heq
  obtain ⟨hb, hcs⟩ := List.nodup_cons.mp hnodup
  obtain ⟨hblock, hbusy⟩ := hmarked _ List.mem_cons_self
  have hfrees := (frees_iff hblock hbusy).mpr (hends _ List.mem_cons_self)
  refine ⟨rfl, fun c hc => ?_⟩
  have hrest := freeChain_frees hchain hcs (fun a ha => ?_)
    (fun a ha => hends a (List.mem_cons_of_mem _ ha)) hvet c hc
  · rw [List.mem_cons, not_or, ← and_assoc, ← hfrees c hc]
    exact hrest
  · obtain ⟨hablock, habusy⟩ := hmarked a (List.mem_cons_of_mem _ ha)
    refine ⟨hablock, (hfrees a hablock).mpr ⟨habusy, ?_⟩⟩
    rintro rfl
    exact hb ha

/-- The entry that `rm_file` removes. -/
def removedEntry (dir : Directory) (name : Name) : Option Entry :=
  (dir.elem.find? fun e => e.name = name).filter fun car =>
    car.firstBlock ≠ inesistente ∧ car.name ≠ dir.self.name

theorem rmFile_cases (h : rmFile disk dir name = some (dir', disk')) :
    removedEntry dir name = none ∧ dir' = dir ∧ disk' = disk ∨
      ∃ car, removedEntry dir name = some car ∧ dir' = delEntryToTree name dir ∧
        freeEntryBlock disk car = some disk' := by
  unfold rmFile searchFilename at h
  unfold removedEntry
  cases hfind : dir.elem.find? fun e => e.name = name with
  | none =>
    rw [hfind] at h
    obtain ⟨rfl, rfl⟩ := Prod.mk.inj (Option.some.inj h)
    exact .inl ⟨rfl, rfl, rfl⟩
  | some car =>
    rw [hfind] at h
    dsimp only at h
    split at h
    · rename_i hzero
      obtain ⟨rfl, rfl⟩ := Prod.mk.inj (Option.some.inj h)
      exact .inl ⟨by simp [Option.filter, hzero], rfl, rfl⟩
    · rename_i hzero
      split at h
      · rename_i hself
        obtain ⟨rfl, rfl⟩ := Prod.mk.inj (Option.some.inj h)
        exact .inl ⟨by simp [Option.filter, hself], rfl, rfl⟩
      · rename_i hself
        obtain ⟨disk'', hfree, heq⟩ := Option.bind_eq_some_iff.mp h
        obtain ⟨rfl, rfl⟩ := Prod.mk.inj (Option.some.inj heq)
        exact .inr ⟨car, by simp [Option.filter, hzero, hself], rfl, hfree⟩

/-! ### Directories -/

/-- The first blocks of a directory and of the files in it. The entries of other directories
only name blocks that are theirs. -/
def Directory.firstBlocks (dir : Directory) : List Block :=
  dir.self.firstBlock :: (dir.entries.filter fun e => e.magicCode ≠ directory).map Entry.firstBlock

def allOwners (dirs : List Directory) : List Block := dirs.flatMap Directory.firstBlocks

theorem allOwners_set {dirs : List Directory} {i : Nat} (h : dirs[i]? = some dir) :
    ∃ rest, (allOwners dirs).Perm (dir.firstBlocks ++ rest) ∧
      ∀ dir', (allOwners (dirs.set i dir')).Perm (Directory.firstBlocks dir' ++ rest) := by
  obtain ⟨hi, rfl⟩ := List.getElem?_eq_some_iff.mp h
  refine ⟨allOwners (dirs.take i) ++ allOwners (dirs.drop (i + 1)), ?_, fun dir' => ?_⟩
  · unfold allOwners
    conv =>
      lhs
      rw [← List.take_append_drop i dirs, List.drop_eq_getElem_cons hi]
    rw [List.flatMap_append, List.flatMap_cons]
    exact List.perm_append_comm_assoc _ _ _
  · unfold allOwners
    rw [List.set_eq_take_append_cons_drop, if_pos hi, List.flatMap_append, List.flatMap_cons]
    exact List.perm_append_comm_assoc _ _ _

theorem owners_addEntry (dir : Directory) (name : Name) {magicCode : BitVec 32} (b : Block)
    (hcode : magicCode ≠ directory) :
    (addEntryToTree name dir magicCode b).firstBlocks.Perm (b :: dir.firstBlocks) := by
  unfold Directory.firstBlocks addEntryToTree
  rw [List.filter_append, List.map_append, List.filter_cons_of_pos (by simpa using hcode)]
  exact (List.perm_append_singleton b _).cons _ |>.trans (List.Perm.swap _ _ _)

theorem owners_addDirectory (dir : Directory) (name : Name) (b : Block) :
    (addEntryToTree name dir directory b).firstBlocks = dir.firstBlocks := by
  unfold Directory.firstBlocks addEntryToTree
  rw [List.filter_append]
  simp

/-- What `rm_file` removes is the first entry of the name behind that of the directory. -/
theorem owners_delEntry {car : Entry} (h : removedEntry dir name = some car)
    (hcode : car.magicCode ≠ directory) :
    dir.firstBlocks.Perm (car.firstBlock :: (delEntryToTree name dir).firstBlocks) := by
  obtain ⟨hfind, hcar⟩ := Option.filter_eq_some_iff.mp h
  obtain ⟨-, hself⟩ : car.firstBlock ≠ inesistente ∧ car.name ≠ dir.self.name := by
    simpa using hcar
  have hname : car.name = name := by simpa using List.find?_some hfind
  have hentry : dir.entries.find? (fun e => e.name = name) = some car := by
    rw [← hfind]
    apply Eq.symm
    apply List.find?_cons_of_neg
    simpa [hname] using hself.symm
  have hremoved (es : List Entry) (hes : es.find? (fun e => e.name = name) = some car) :
      ((es.filter fun e => e.magicCode ≠ directory).map Entry.firstBlock).Perm
        (car.firstBlock :: ((es.eraseP fun e => e.name = name).filter
          fun e => e.magicCode ≠ directory).map Entry.firstBlock) := by
    induction es with
    | nil => cases hes
    | cons a as ih =>
      by_cases ha : a.name = name
      · rw [List.find?_cons_of_pos (by simpa using ha)] at hes
        obtain rfl := Option.some.inj hes
        rw [List.eraseP_cons_of_pos (by simpa using ha),
          List.filter_cons_of_pos (by simpa using hcode), List.map_cons]
      · rw [List.find?_cons_of_neg (by simpa using ha)] at hes
        rw [List.eraseP_cons_of_neg (by simpa using ha)]
        by_cases hdir : a.magicCode = directory
        · rw [List.filter_cons_of_neg (by simpa using hdir),
            List.filter_cons_of_neg (by simpa using hdir)]
          exact ih hes
        · rw [List.filter_cons_of_pos (by simpa using hdir),
            List.filter_cons_of_pos (by simpa using hdir), List.map_cons, List.map_cons]
          exact ((ih hes).cons _).trans (List.Perm.swap _ _ _)
  exact ((hremoved dir.entries hentry).cons _).trans (List.Perm.swap _ _ _)

/-- A header whose link is zero, in a block that is written. -/
theorem headLink_writeBlock {buffer : Buffer} {h : FileHeader}
    (hbytes : ∀ k < sizeofFileHeader, buffer k = h.bytes k) :
    headLink (writeBlock disk b buffer).blocks b = h.nextBlock := by
  apply (ofBytes_eq fun k hk => ?_).2.1
  rw [writeBlock_same (Nat.lt_trans hk (by decide)), hbytes k hk]

theorem word_putDirTemps (bufferd : Buffer) {i : Nat} (hi : 0 < i) (es : List Entry) :
    word (putDirTemps bufferd i es) 4 = word bufferd 4 := by
  induction es generalizing bufferd i with
  | nil =>
    apply word_copy_outside
    unfold sizeofDirTemp
    omega
  | cons e es ih =>
    unfold putDirTemps
    rw [ih _ (Nat.succ_pos i)]
    unfold putDirTemp strcpy putWord sizeofDirTemp
    rw [word_copy_outside (by omega), word_copy_outside (by omega), word_copy_outside (by omega)]

/-- A directory is written to its own block, with its header in front. -/
theorem writeDir_eq (j : Unset) (disk : Disk) (hsmall : dir.header.size.toNat ≤ 512) :
    ∃ buffer, writeDir j disk dir = writeBlock disk dir.self.firstBlock buffer ∧
      ∀ k < sizeofFileHeader, buffer k = dir.header.bytes k := by
  have hfirst : word (putDirTemps j.bufferd 0 dir.elem) 4 = dir.self.firstBlock := by
    unfold Directory.elem putDirTemps
    rw [word_putDirTemps _ (Nat.succ_pos 0)]
    unfold putDirTemp strcpy
    rw [word_copy_outside (.inl (by unfold sizeofDirTemp; omega))]
    exact word_putWord _ _ _
  unfold writeDir
  rw [if_pos hsmall]
  dsimp only
  rw [hfirst]
  refine ⟨_, rfl, fun k hk => ?_⟩
  rw [copy_outside (.inl (Nat.lt_succ_of_lt hk))]
  have hin : copy j.buffer 0 dir.header.bytes 0 sizeofFileHeader (0 + k) =
      dir.header.bytes (0 + k) := copy_inside hk
  rwa [Nat.zero_add] at hin

end OsdevArchive.Silvios
