import OsdevArchive.Osso.FatDir

/-!
Scanning a directory of a FAT volume in calls of `fs_read_dir`. On a list of entries the loop is
a recursion on the list, which gives the entries in use as long as none of them has an attribute
that `LONGNAME_ENTRY` takes for a long name. The offset and the cluster of a descriptor stand
for a place in the list that every call moves on from.
-/

namespace OsdevArchive.Osso.Fat

open OsdevArchive.Lib.Chained OsdevArchive.Lib.Runs

/-! ### What is listed -/

namespace DirEntry

variable {de : DirEntry}

/-- The entry is in use, and it is not a part of a long name, which has all four of these
attributes. -/
def Listed (de : DirEntry) : Prop :=
  mark de ≠ 0 ∧ mark de ≠ space ∧ mark de ≠ deletedMark ∧ attributes de &&& 0x0F ≠ 0x0F

instance instDecidableListed (de : DirEntry) : Decidable (Listed de) :=
  inferInstanceAs (Decidable (_ ∧ _ ∧ _ ∧ _))

/-- `LONGNAME_ENTRY` is right about the entry, or does not matter: it is deleted. -/
def Plain (de : DirEntry) : Prop := mark de = deletedMark ∨ ¬ LongName de

def publicEntry (de : DirEntry) : PublicDirEntry :=
  ⟨fatFormat2Readable (filename de), publicAttribute de, fileSize de⟩

theorem valid_iff_listed (h : Plain de) : Valid de ↔ Listed de := by
  unfold Valid Listed
  obtain hdeleted | hplain := h
  · simp [hdeleted]
  · have hzero : attributes de &&& 0x0F = 0 := not_not.mp hplain
    have hlong : attributes de &&& 0x0F ≠ 0x0F := by
      rw [hzero]
      decide
    simp only [hplain, hlong, ne_eq, not_false_iff]

theorem not_longName_part (h : Plain de) : ¬ (LongName de ∧ ¬ isDeleted de = true) := by
  rintro ⟨hlong, halive⟩
  obtain hdeleted | hplain := h
  · apply halive
    change (mark de).getLsbD 7 = true
    rw [hdeleted]
    rfl
  · exact hplain hlong

end DirEntry

/-- The entries before the end mark. -/
def untilEnd (entries : List DirEntry) : List DirEntry :=
  entries.takeWhile fun de => DirEntry.mark de ≠ 0

theorem untilEnd_end {de : DirEntry} (rest : List DirEntry) (h : DirEntry.mark de = 0) :
    untilEnd (de :: rest) = [] := by
  unfold untilEnd
  rw [List.takeWhile_cons, if_neg (by simp [h])]

theorem untilEnd_cons {de : DirEntry} (rest : List DirEntry) (h : DirEntry.mark de ≠ 0) :
    untilEnd (de :: rest) = de :: untilEnd rest := by
  unfold untilEnd
  rw [List.takeWhile_cons, if_pos (decide_eq_true h)]

/-- The entries that are still to be listed from a place on. -/
def remaining (entries : List DirEntry) : List DirEntry :=
  (untilEnd entries).filter fun de => DirEntry.Listed de

@[simp] theorem remaining_nil : remaining [] = [] := rfl

theorem remaining_end {de : DirEntry} (rest : List DirEntry) (h : DirEntry.mark de = 0) :
    remaining (de :: rest) = [] := by
  unfold remaining
  rw [untilEnd_end rest h, List.filter_nil]

theorem remaining_cons {de : DirEntry} (rest : List DirEntry) (h : DirEntry.mark de ≠ 0) :
    remaining (de :: rest) =
      if DirEntry.Listed de then de :: remaining rest else remaining rest := by
  unfold remaining
  rw [untilEnd_cons rest h, List.filter_cons]
  simp

/-- The entries that a call for `n` entries goes through are plain: those with less than `n`
listed ones before them. -/
def PlainFor (n : Nat) (entries : List DirEntry) : Prop :=
  ∀ before de after, untilEnd entries = before ++ de :: after →
    (before.filter fun de => DirEntry.Listed de).length < n → DirEntry.Plain de

theorem PlainFor.head {n : Nat} {de : DirEntry} {rest : List DirEntry}
    (h : PlainFor n (de :: rest)) (hmark : DirEntry.mark de ≠ 0) (hn : 0 < n) :
    DirEntry.Plain de :=
  h [] de (untilEnd rest) (untilEnd_cons rest hmark) hn

theorem PlainFor.tail {n : Nat} {de : DirEntry} {rest : List DirEntry}
    (h : PlainFor n (de :: rest)) (hmark : DirEntry.mark de ≠ 0) :
    PlainFor (n - if DirEntry.Listed de then 1 else 0) rest := by
  intro before de' after hsplit hless
  refine h (de :: before) de' after ?_ ?_
  · rw [untilEnd_cons rest hmark, hsplit, List.cons_append]
  · rw [List.filter_cons]
    split at hless <;> rename_i hlisted
    · rw [if_pos (by simpa using hlisted), List.length_cons]
      omega
    · rw [if_neg (by simpa using hlisted)]
      omega

/-! ### The loop on a list -/

/-- The loop of `fs_read_dir` over the entries of a list, and how many of them it passes. -/
def scanList (count : Nat) : List DirEntry → Listing → Listing × Nat
  | [], l => (l, 0)
  | de :: rest, l =>
    if l.direntries.length < count ∧ DirEntry.mark de ≠ 0 then
      ((scanList count rest (listEntry de l)).1, (scanList count rest (listEntry de l)).2 + 1)
    else (l, 0)

/-- No part of a long name is waiting for its entry. -/
def Listing.Clean (l : Listing) : Prop :=
  l.p = maxLongFilenameLen ∧ l.longName maxLongFilenameLen = 0

/-- A plain entry is written if it is listed, with its short name. -/
theorem listEntry_plain {de : DirEntry} {l : Listing} (hplain : DirEntry.Plain de)
    (hclean : l.Clean) :
    listEntry de l = { l with
      direntries := l.direntries ++
        if DirEntry.Listed de then [DirEntry.publicEntry de] else [] } := by
  obtain ⟨hp, hend⟩ := hclean
  unfold listEntry
  rw [if_neg (DirEntry.not_longName_part hplain)]
  dsimp only
  by_cases hlisted : DirEntry.Listed de
  · have hvalid := (DirEntry.valid_iff_listed hplain).mpr hlisted
    rw [if_pos hvalid, if_pos hlisted, hp, hend]
    rfl
  · have hinvalid : ¬ DirEntry.Valid de := fun hv =>
      hlisted ((DirEntry.valid_iff_listed hplain).mp hv)
    rw [if_neg hinvalid, if_neg hlisted, List.append_nil]

/-- A scan of plain entries lists the next entries that are in use, and stops in front of the
others. -/
theorem scanList_plain {count : Nat} {entries : List DirEntry} {l : Listing} (hclean : l.Clean)
    (hplain : PlainFor (count - l.direntries.length) entries)
    (hroom : l.direntries.length ≤ count) :
    let n := count - l.direntries.length
    let r := scanList count entries l
    r.1.direntries = l.direntries ++ ((remaining entries).take n).map DirEntry.publicEntry ∧
      r.1.longName = l.longName ∧
      remaining (entries.drop r.2) = (remaining entries).drop n := by
  induction entries generalizing l with
  | nil => simp [scanList]
  | cons de rest ih =>
    intro n r
    by_cases hgo : l.direntries.length < count ∧ DirEntry.mark de ≠ 0
    · obtain ⟨hless, hmark⟩ := hgo
      have hn : 0 < n := Nat.sub_pos_of_lt hless
      have hde := hplain.head hmark hn
      have hentry := listEntry_plain hde hclean
      have hr : r = ((scanList count rest (listEntry de l)).1,
          (scanList count rest (listEntry de l)).2 + 1) := if_pos ⟨hless, hmark⟩
      have htail := hplain.tail hmark
      have hclean' : (listEntry de l).Clean := by
        rw [hentry]
        exact hclean
      rw [hr, remaining_cons rest hmark, List.drop_succ_cons]
      by_cases hlisted : DirEntry.Listed de
      · rw [if_pos hlisted] at htail hentry
        have hcount : (listEntry de l).direntries.length = l.direntries.length + 1 := by
          rw [hentry, List.length_append]
          rfl
        have hrest : count - (listEntry de l).direntries.length = n - 1 := by
          rw [hcount, Nat.sub_add_eq]
        obtain ⟨hlist, hname, hdrop⟩ := ih hclean' (by rwa [hrest]) (by omega)
        obtain ⟨m, hm⟩ : ∃ m, n = m + 1 := ⟨n - 1, by omega⟩
        rw [if_pos hlisted, hm]
        refine ⟨?_, ?_, ?_⟩
        · rw [hlist, hrest, hm, hentry, List.append_assoc]
          rfl
        · rw [hname, hentry]
        · rw [hdrop, hrest, hm]
          rfl
      · rw [if_neg hlisted] at htail hentry
        rw [List.append_nil] at hentry
        rw [hentry, if_neg hlisted]
        exact ih hclean htail hroom
    · have hr : r = (l, 0) := if_neg hgo
      rw [hr]
      by_cases hfull : l.direntries.length < count
      · have hmark : DirEntry.mark de = 0 := by
          by_contra hmark
          exact hgo ⟨hfull, hmark⟩
        simp [remaining_end rest hmark]
      · have hn : n = 0 := Nat.sub_eq_zero_of_le (Nat.le_of_not_lt hfull)
        simp [hn]

/-! ### Directories -/

/-- `MAX_DIR_ENTRIES`. -/
def maxDirEntries : Nat := 65536

/-- The entries that lie in a sequence of bytes. -/
def entriesOf (bytes : List Byte) : List DirEntry :=
  (List.range (bytes.length / 32)).map fun i => (bytes.drop (32 * i)).take 32

theorem entriesOf_length (bytes : List Byte) : (entriesOf bytes).length = bytes.length / 32 := by
  simp [entriesOf]

theorem entriesOf_getElem? (bytes : List Byte) {i : Nat} (h : i < bytes.length / 32) :
    (entriesOf bytes)[i]? = some ((bytes.drop (32 * i)).take 32) := by
  unfold entriesOf
  rw [List.getElem?_map, List.getElem?_range h, Option.map_some]

variable {v : Volume}

/-- A sub-directory: its entry in another directory, and the chain of its clusters, which hold
whole entries and not too many of them. -/
structure SubDirectory (v : Volume) where
  entry : DirEntry
  chain : List Dword
  isDirectory : DirEntry.attributes entry &&& 0x10 ≠ 0
  chained : v.Chain (DirEntry.startingCluster entry) chain
  aligned : 32 ∣ v.bytesPerCluster.toNat
  small : chain.length * v.bytesPerCluster.toNat ≤ 32 * maxDirEntries

namespace SubDirectory

variable (d : SubDirectory v)

def stored : List Byte := contents v.readCluster d.chain

theorem stored_length : d.stored.length = d.chain.length * v.bytesPerCluster.toNat :=
  contents_length v.readCluster_length _

def entries : List DirEntry := entriesOf d.stored

/-- The clusters fill up with entries. -/
theorem entries_length : 32 * d.entries.length = d.chain.length * v.bytesPerCluster.toNat := by
  unfold entries
  rw [entriesOf_length, d.stored_length]
  exact Nat.mul_div_cancel' (Dvd.dvd.mul_left d.aligned _)

/-- The descriptor stands in front of the entry `i`. -/
structure At (fd : FileData) (i : Nat) : Prop where
  notRoot : fd.isRoot = false
  entry : fd.dirEntry = d.entry
  offset : fd.fileOffset.toNat = 32 * i
  bound : i ≤ d.entries.length
  before : Before v fd (d.chain.drop (32 * i / v.bytesPerCluster.toNat))

theorem at_fsOpenDir (fd : FileData) (dirname : List Byte) :
    d.At (fsOpenDir fd dirname (some d.entry)) 0 where
  notRoot := rfl
  entry := rfl
  offset := rfl
  bound := Nat.zero_le _
  before := by
    refine ⟨?_, fun h => by cases h⟩
    simpa [fsOpenDir] using d.chained

variable {d}

/-- In front of an entry there is a cluster. -/
theorem At.fatEof_iff {fd : FileData} {i : Nat} (h : d.At fd i) :
    v.FatEof fd.currentCluster ↔ i = d.entries.length := by
  have hpos := v.bytesPerCluster_pos
  have htotal := d.entries_length
  have hbound := h.bound
  rw [h.before.chain.stop_iff, List.drop_eq_nil_iff, Nat.le_div_iff_mul_le hpos, ← htotal]
  omega

/-- A place in a cluster is the place of an entry, and the whole entry is there. -/
theorem place (d : SubDirectory v) (i : Nat) :
    ∃ k, 32 * i % v.bytesPerCluster.toNat = 32 * k ∧
      32 * k + 32 ≤ v.bytesPerCluster.toNat := by
  have hless := Nat.mod_lt (32 * i) v.bytesPerCluster_pos
  obtain ⟨k, hk⟩ : 32 ∣ 32 * i % v.bytesPerCluster.toNat :=
    (Nat.dvd_mod_iff d.aligned).mpr (Nat.dvd_mul_right 32 i)
  obtain ⟨m, hm⟩ := d.aligned
  exact ⟨k, hk, by omega⟩

/-- The buffered entry is the entry in front of which the descriptor stands. -/
theorem At.bufferedEntry {fd : FileData} {i : Nat} (h : d.At fd i)
    (hinside : i < d.entries.length) (hsynch : fd.inSynch = true) :
    some (bufferedEntry v fd) = d.entries[i]? := by
  have hgo : ¬ v.FatEof fd.currentCluster := fun hstop =>
    Nat.ne_of_lt hinside (h.fatEof_iff.mp hstop)
  obtain ⟨tail, hclusters, -⟩ := h.before.chain.eq_cons hgo
  obtain ⟨k, hplace, hfit⟩ := d.place i
  have hlength := v.readCluster_length fd.currentCluster
  have hindex : ((fd.fileOffset % v.bytesPerCluster) >>> 5).toNat = k := by
    rw [BitVec.toNat_ushiftRight, BitVec.toNat_umod, h.offset, hplace,
      Nat.shiftRight_eq_div_pow]
    exact Nat.mul_div_cancel_left k (by decide)
  have hstored : d.stored.drop (32 * i) =
      (contents v.readCluster (fd.currentCluster :: tail)).drop (32 * k) := by
    rw [← hclusters, ← hplace]
    exact contents_drop_place v.readCluster_length _ _
  have hbytes : i < d.stored.length / 32 := by
    rw [← entriesOf_length]
    exact hinside
  unfold Fat.bufferedEntry entries
  rw [entriesOf_getElem? _ hbytes, hindex, h.before.buffer hsynch, hstored, contents_cons,
    List.drop_append_of_le_length (by omega), List.take_append_of_le_length]
  rw [List.length_drop, hlength]
  omega

/-- The cluster of the next entry is the next one exactly at a cluster boundary. -/
theorem next_index (d : SubDirectory v) (i : Nat) :
    32 * (i + 1) / v.bytesPerCluster.toNat = 32 * i / v.bytesPerCluster.toNat +
      if 32 * (i + 1) % v.bytesPerCluster.toNat = 0 then 1 else 0 := by
  obtain ⟨k, hplace, hfit⟩ := d.place i
  have hpos := v.bytesPerCluster_pos
  have hdiv := Nat.div_add_mod (32 * i) v.bytesPerCluster.toNat
  have hnext : 32 * (i + 1) =
      v.bytesPerCluster.toNat * (32 * i / v.bytesPerCluster.toNat) + (32 * k + 32) := by omega
  rw [hnext, Nat.mul_add_mod, Nat.mul_add_div hpos]
  obtain hless | hfull := Nat.lt_or_eq_of_le hfit
  · rw [Nat.mod_eq_of_lt hless, if_neg (by omega), Nat.div_eq_of_lt hless]
  · rw [hfull, Nat.mod_self, if_pos rfl, Nat.div_self hpos]

theorem At.synchronize {fd : FileData} {i : Nat} (h : d.At fd i) :
    d.At (synchronize v fd) i := by
  have hsame := synchronize_same (v := v) fd
  exact ⟨hsame.root.trans h.notRoot, hsame.entry.trans h.entry, hsame.offset ▸ h.offset, h.bound,
    h.before.synchronize⟩

theorem inSynch_synchronize (fd : FileData) : (synchronize v fd).inSynch = true := by
  cases hsynch : fd.inSynch <;> simp [Fat.synchronize, getCluster, hsynch]

/-- The step to the next entry. -/
theorem At.next {fd : FileData} {i : Nat} (h : d.At fd i) (hinside : i < d.entries.length)
    (hsynch : fd.inSynch = true) :
    d.At (nextDir v fd).1 (i + 1) ∧ (nextDir v fd).2 = d.entries[i + 1]? ∧
      ((nextDir v fd).2.isSome → (nextDir v fd).1.inSynch = true) := by
  have htotal := d.entries_length
  have hsmall := d.small
  have hindex := d.next_index i
  have hoffset : (fd.fileOffset + 32).toNat = 32 * (i + 1) := by
    rw [BitVec.toNat_add, h.offset]
    change (32 * i + 32) % 2 ^ 32 = _
    rw [Nat.mod_eq_of_lt]
    · omega
    · unfold maxDirEntries at hsmall
      omega
  have hcross : (fd.fileOffset + 32) % v.bytesPerCluster = 0 ↔
      32 * (i + 1) % v.bytesPerCluster.toNat = 0 := by
    rw [← hoffset, ← BitVec.toNat_umod]
    exact ⟨fun hz => by rw [hz]; rfl, fun hz => BitVec.eq_of_toNat_eq hz⟩
  have hgo : ¬ v.FatEof fd.currentCluster := fun hstop =>
    Nat.ne_of_lt hinside (h.fatEof_iff.mp hstop)
  obtain ⟨tail, hclusters, -⟩ := h.before.chain.eq_cons hgo
  have hbefore := h.before
  unfold nextDir
  rw [if_neg (by simp [h.notRoot])]
  dsimp only
  by_cases hboundary : (fd.fileOffset + 32) % v.bytesPerCluster = 0
  · rw [if_pos hboundary]
    rw [if_pos (hcross.mp hboundary)] at hindex
    have hmoved : d.At (structNextCluster v { fd with fileOffset := fd.fileOffset + 32 })
        (i + 1) := by
      refine ⟨h.notRoot, h.entry, hoffset, hinside, ?_⟩
      rw [hclusters] at hbefore
      rw [hindex, ← List.drop_drop, hclusters]
      obtain ⟨-, -, hnext⟩ := hbefore.next
      exact ⟨hnext.chain, hnext.buffer⟩
    split
    · rename_i hstop
      have hend := hmoved.fatEof_iff.mp hstop
      refine ⟨hmoved, ?_, fun hsome => by cases hsome⟩
      rw [List.getElem?_eq_none (Nat.le_of_eq hend.symm)]
    · rename_i hmore
      have hnot : i + 1 ≠ d.entries.length := fun hend => hmore (hmoved.fatEof_iff.mpr hend)
      have hloaded := inSynch_synchronize (v := v)
        (structNextCluster v { fd with fileOffset := fd.fileOffset + 32 })
      exact ⟨hmoved.synchronize,
        hmoved.synchronize.bufferedEntry (Nat.lt_of_le_of_ne hinside hnot) hloaded,
        fun _ => hloaded⟩
  · rw [if_neg hboundary]
    rw [if_neg (mt hcross.mpr hboundary), Nat.add_zero] at hindex
    have hmoved : d.At { fd with fileOffset := fd.fileOffset + 32 } (i + 1) := by
      refine ⟨h.notRoot, h.entry, hoffset, hinside, ?_⟩
      rw [hindex]
      exact ⟨hbefore.chain, hbefore.buffer⟩
    have hnot : i + 1 ≠ d.entries.length := by
      intro hend
      apply mt hcross.mpr hboundary
      rw [hend, htotal]
      exact Nat.mul_mod_left _ _
    exact ⟨hmoved, hmoved.bufferedEntry (Nat.lt_of_le_of_ne hinside hnot) hsynch, fun _ => hsynch⟩

/-- Where a call can start: the quotients of the offset and of the cluster number agree, or the
offset is less than the size in the entry of the directory, which is zero as a rule. -/
def Resumes (d : SubDirectory v) (fd : FileData) : Prop :=
  fd.fileOffset / v.bytesPerCluster = fd.currentCluster / v.bytesPerCluster ∨
    fd.fileOffset < DirEntry.fileSize d.entry

instance instDecidableResumes (d : SubDirectory v) (fd : FileData) : Decidable (d.Resumes fd) :=
  inferInstanceAs (Decidable (_ ∨ _))

/-- The seek of a directory to its own offset changes nothing. -/
theorem At.seek {fd : FileData} {i : Nat} (h : d.At fd i) :
    fsLseek v fd fd.fileOffset seekSet =
      if fd.fileOffset < DirEntry.fileSize d.entry then (fd.fileOffset, fd) else (-1, fd) := by
  change seekTo v fd fd.fileOffset = _
  rw [← h.entry]
  unfold seekTo
  by_cases hless : fd.fileOffset < DirEntry.fileSize fd.dirEntry
  · rw [if_pos hless, if_neg (BitVec.not_le.mpr hless)]
    exact if_neg (not_not_intro rfl)
  · rw [if_neg hless, if_pos (BitVec.not_lt.mp hless)]

theorem At.not_negative {fd : FileData} {i : Nat} (h : d.At fd i) :
    ¬ fd.fileOffset.toInt < 0 := by
  have htotal := d.entries_length
  have hsmall := d.small
  have hbound := h.bound
  unfold maxDirEntries at hsmall
  rw [BitVec.toInt_eq_toNat_of_lt (by rw [h.offset]; omega)]
  exact Int.not_lt.mpr (Int.natCast_nonneg _)

/-- The start of a call: nothing is read where the offset cannot be resumed or nothing is
left. -/
theorem At.start {fd : FileData} {i : Nat} (h : d.At fd i) :
    startDir v fd =
      if d.Resumes fd ∧ i < d.entries.length then (Fat.synchronize v fd, d.entries[i]?)
      else (fd, none) := by
  have hroot : ¬ fd.isRoot = true := by simp [h.notRoot]
  have hnegative := h.not_negative
  have hseek := h.seek
  have hstay : (fsLseek v fd fd.fileOffset seekSet).2 = fd := by
    rw [hseek]
    split <;> rfl
  have hrejects : (fd.fileOffset / v.bytesPerCluster ≠ fd.currentCluster / v.bytesPerCluster ∧
      (fsLseek v fd fd.fileOffset seekSet).1.toInt < 0) ↔ ¬ d.Resumes fd := by
    rw [hseek]
    unfold Resumes
    split
    · rename_i hless
      exact iff_of_false (fun hs => hnegative hs.2) (fun hn => hn (.inr hless))
    · rename_i hmore
      rw [not_or]
      exact ⟨fun hs => ⟨hs.1, hmore⟩, fun hn => ⟨hn.1, (by decide : (-1 : Dword).toInt < 0)⟩⟩
  unfold startDir
  rw [if_neg hroot]
  dsimp only
  rw [hstay, ite_self]
  by_cases hresumes : d.Resumes fd
  · rw [if_neg (mt hrejects.mp (not_not_intro hresumes))]
    by_cases hinside : i < d.entries.length
    · have hgo : ¬ v.FatEof fd.currentCluster := fun hstop =>
        Nat.ne_of_lt hinside (h.fatEof_iff.mp hstop)
      rw [if_neg hgo, if_pos ⟨hresumes, hinside⟩]
      exact congrArg (Prod.mk _) (h.synchronize.bufferedEntry hinside (inSynch_synchronize fd))
    · have hstop : v.FatEof fd.currentCluster :=
        h.fatEof_iff.mpr (Nat.le_antisymm h.bound (Nat.le_of_not_lt hinside))
      rw [if_pos hstop, if_neg (fun hc => hinside hc.2)]
  · rw [if_pos (hrejects.mpr hresumes), if_neg (fun hc => hresumes hc.1)]

end SubDirectory

/-- A directory of a volume. The root directory of FAT32 is a chain of clusters, which the
driver does not read. -/
inductive Directory (v : Volume) where
  | root (hfat : v.fatType ≠ .fat32)
  | root32 (hfat : v.fatType = .fat32) (chain : List Dword) (chained : v.Chain v.rootClus chain)
  | sub (d : SubDirectory v)

namespace Directory

/-- What `fs_open_dir` finds for the name of the directory. -/
def located : Directory v → Option DirEntry
  | .root _ => none
  | .root32 _ _ _ => none
  | .sub d => some d.entry

def entries : Directory v → List DirEntry
  | .root _ => v.rootDir
  | .root32 _ chain _ => entriesOf (contents v.readCluster chain)
  | .sub d => d.entries

/-- The index of the entry in front of which a descriptor stands. -/
def index : Directory v → FileData → Nat
  | .root _, fd => fd.fileOffset.toNat
  | .root32 _ _ _, _ => 0
  | .sub _, fd => fd.fileOffset.toNat / 32

/-- Where a call can start. -/
def Resumes : Directory v → FileData → Prop
  | .root _, _ => True
  | .root32 _ _ _, _ => False
  | .sub d, fd => d.Resumes fd

/-- The descriptor is open for the directory, in front of the entry `i`. -/
structure Stands (d : Directory v) (fd : FileData) (i : Nat) : Prop where
  name : fd.currentFileName.isSome
  mode : fd.dirMode = true
  place : match d with
    | .root _ => fd.isRoot = true ∧ fd.fileOffset.toNat = i ∧ i ≤ v.rootDir.length
    | .root32 _ _ _ => fd.isRoot = true ∧ i = 0
    | .sub d => d.At fd i

/-- The entry in front of which the descriptor stands can be read. -/
def Loaded : Directory v → FileData → Prop
  | .root _, _ => True
  | .root32 _ _ _, _ => False
  | .sub _, fd => fd.inSynch = true

variable {d : Directory v}

theorem stands_fsOpenDir (d : Directory v) (fd : FileData) (dirname : List Byte) :
    d.Stands (fsOpenDir fd dirname d.located) 0 := by
  cases d with
  | root _ => exact ⟨rfl, rfl, rfl, rfl, Nat.zero_le _⟩
  | root32 _ _ _ => exact ⟨rfl, rfl, rfl, rfl⟩
  | sub d => exact ⟨rfl, rfl, d.at_fsOpenDir fd dirname⟩

theorem Stands.index_eq {fd : FileData} {i : Nat} (h : d.Stands fd i) : d.index fd = i := by
  cases d with
  | root _ => exact h.place.2.1
  | root32 _ _ _ => exact h.place.2.symm
  | sub d =>
    unfold index
    dsimp only
    rw [h.place.offset]
    exact Nat.mul_div_cancel_left i (by decide)

theorem nextDir_same (fd : FileData) :
    (nextDir v fd).1.currentFileName = fd.currentFileName ∧
      (nextDir v fd).1.dirMode = fd.dirMode := by
  unfold nextDir getCluster structNextCluster
  dsimp only
  split
  · exact ⟨rfl, rfl⟩
  · split
    · split
      · exact ⟨rfl, rfl⟩
      · split <;> exact ⟨rfl, rfl⟩
    · exact ⟨rfl, rfl⟩

/-- The step to the next entry of any directory. -/
theorem Stands.next {fd : FileData} {i : Nat} (h : d.Stands fd i) (hloaded : d.Loaded fd)
    (hinside : i < d.entries.length) :
    d.Stands (nextDir v fd).1 (i + 1) ∧ (nextDir v fd).2 = d.entries[i + 1]? ∧
      ((nextDir v fd).2.isSome → d.Loaded (nextDir v fd).1) := by
  obtain ⟨hname, hmode⟩ := nextDir_same (v := v) fd
  have hname' : (nextDir v fd).1.currentFileName.isSome := hname ▸ h.name
  have hmode' := hmode.trans h.mode
  cases d with
  | root hfat =>
    obtain ⟨hroot, hoffset, hbound⟩ := h.place
    have hnext : (fd.fileOffset + 1).toNat = i + 1 := by
      have hsmall := v.rootDir_length
      rw [BitVec.toNat_add, hoffset]
      change (i + 1) % 2 ^ 32 = _
      rw [Nat.mod_eq_of_lt (by omega)]
    have hstep : nextDir v fd = ({ fd with fileOffset := fd.fileOffset + 1 },
        v.rootDir[(fd.fileOffset + 1).toNat]?) := if_pos hroot
    rw [hstep, hnext]
    exact ⟨⟨h.name, h.mode, hroot, hnext, hinside⟩, rfl, fun _ => trivial⟩
  | root32 _ _ _ => exact hloaded.elim
  | sub d =>
    obtain ⟨hat, hentry, hsynch⟩ := SubDirectory.At.next h.place hinside hloaded
    exact ⟨⟨hname', hmode', hat⟩, hentry, hsynch⟩

/-- The start of a call on any directory. -/
theorem Stands.start {fd : FileData} {i : Nat} (h : d.Stands fd i) :
    ∃ fd', d.Stands fd' i ∧
      (startDir v fd = (fd', none) ∧ (d.Resumes fd → d.entries.drop i = []) ∨
        startDir v fd = (fd', d.entries[i]?) ∧ d.Loaded fd' ∧ i < d.entries.length) := by
  cases d with
  | root hfat =>
    obtain ⟨hroot, hoffset, hbound⟩ := h.place
    have hstart : startDir v fd = (fd, v.rootDir[fd.fileOffset.toNat]?) := if_pos hroot
    rw [hoffset] at hstart
    refine ⟨fd, h, ?_⟩
    obtain hinside | hend := Nat.lt_or_eq_of_le hbound
    · exact .inr ⟨hstart, trivial, hinside⟩
    · have hnone := Nat.le_of_eq hend.symm
      rw [List.getElem?_eq_none hnone] at hstart
      exact .inl ⟨hstart, fun _ => List.drop_eq_nil_of_le hnone⟩
  | root32 hfat _ _ =>
    have hstart : startDir v fd = (fd, v.rootDir[fd.fileOffset.toNat]?) := if_pos h.place.1
    rw [v.rootDir_fat32 hfat] at hstart
    exact ⟨fd, h, .inl ⟨hstart, fun hno => hno.elim⟩⟩
  | sub d =>
    have hat : d.At fd i := h.place
    have hstart := hat.start
    have hsame := synchronize_same (v := v) fd
    by_cases hgo : d.Resumes fd ∧ i < d.entries.length
    · rw [if_pos hgo] at hstart
      refine ⟨synchronize v fd, ⟨?_, hsame.mode.trans h.mode, hat.synchronize⟩,
        .inr ⟨hstart, SubDirectory.inSynch_synchronize fd, hgo.2⟩⟩
      rw [hsame.name]
      exact h.name
    · rw [if_neg hgo] at hstart
      refine ⟨fd, h, .inl ⟨hstart, fun hresumes => ?_⟩⟩
      exact List.drop_eq_nil_of_le (Nat.le_of_not_lt fun hlt => hgo ⟨hresumes, hlt⟩)

/-- The loop reads the list of the entries. -/
theorem Stands.readLoop {fuel : Nat} {fd : FileData} {de : DirEntry} {rest : List DirEntry}
    {i : Nat} (h : d.Stands fd i) (count : Dword) (l : Listing) (hloaded : d.Loaded fd)
    (hentries : d.entries.drop i = de :: rest) (hfuel : rest.length < fuel) :
    ∃ fd', readLoop v count fuel fd de l =
        some (fd', (scanList count.toNat (de :: rest) l).1) ∧
      d.Stands fd' (i + (scanList count.toNat (de :: rest) l).2) := by
  induction fuel generalizing fd de rest l i with
  | zero => omega
  | succ fuel ih =>
    have hinside : i < d.entries.length := by
      have hlength := congrArg List.length hentries
      rw [List.length_drop, List.length_cons] at hlength
      omega
    unfold Fat.readLoop scanList
    by_cases hgo : l.direntries.length < count.toNat ∧ DirEntry.mark de ≠ 0
    · rw [if_pos hgo, if_pos hgo]
      obtain ⟨hnext, hentry, hload⟩ := h.next hloaded hinside
      have hrest : d.entries.drop (i + 1) = rest := by
        rw [← List.drop_drop, hentries]
        rfl
      rw [← List.head?_drop, hrest] at hentry
      cases hstep : nextDir v fd with
      | mk fd' found =>
        rw [hstep] at hnext hentry hload
        cases rest with
        | nil =>
          obtain rfl : found = none := hentry
          exact ⟨fd', rfl, hnext⟩
        | cons de' rest =>
          obtain rfl : found = some de' := hentry
          obtain ⟨last, hread, hlast⟩ := ih hnext (listEntry de l) (hload rfl) hrest
            (Nat.lt_of_succ_lt_succ hfuel)
          rw [Nat.add_assoc, Nat.add_comm 1] at hlast
          exact ⟨last, hread, hlast⟩
    · rw [if_neg hgo, if_neg hgo]
      exact ⟨fd, rfl, h⟩

/-! ### Calls -/

/-- A call of `fs_read_dir`, with the entries that it gives. -/
def ReadDir (v : Volume) (s : Driver) (a : Dword × List PublicDirEntry) (t : Driver) : Prop :=
  fsReadDir v s a.1 = some (a.2, t)

/-- The calls that list what they should: those that can start where the last one stopped, or
have nothing left to list, and that go through plain entries only. -/
def Allowed (d : Directory v) (s : Driver) (a : Dword × List PublicDirEntry) : Prop :=
  (remaining (d.entries.drop (d.index s.fd)) = [] ∨ d.Resumes s.fd) ∧
    PlainFor a.1.toNat (d.entries.drop (d.index s.fd))

/-- A directory that is read has less entries than the offset can count. -/
theorem Loaded.length_lt {fd : FileData} (h : d.Loaded fd) : d.entries.length < 2 ^ 27 := by
  cases d with
  | root _ => exact Nat.lt_trans v.rootDir_length (by decide)
  | root32 _ _ _ => exact h.elim
  | sub d =>
    have htotal := d.entries_length
    have hsmall := d.small
    unfold maxDirEntries at hsmall
    change d.entries.length < 2 ^ 27
    omega

/-- Every call returns. Where it is allowed it gives the next entries that are still to be
listed. -/
theorem Stands.read {s : Driver} {i : Nat} (h : d.Stands s.fd i) (count : Dword) :
    ∃ found t j, ReadDir v s (count, found) t ∧ d.Stands t.fd j ∧
      (d.Allowed s (count, found) → s.longName maxLongFilenameLen = 0 →
        found = ((remaining (d.entries.drop i)).take count.toNat).map DirEntry.publicEntry ∧
        t.longName maxLongFilenameLen = 0 ∧
        remaining (d.entries.drop j) = (remaining (d.entries.drop i)).drop count.toNat) := by
  have hopen : ¬ (s.fd.currentFileName.isNone = true ∨ ¬ s.fd.dirMode = true) := by
    rw [← Option.not_isSome, h.name, h.mode]
    simp
  unfold ReadDir fsReadDir Allowed
  dsimp only
  rw [if_neg hopen, h.index_eq]
  obtain ⟨fd, hfd, ⟨hstart, hnone⟩ | ⟨hstart, hloaded, hinside⟩⟩ := h.start
  · rw [hstart]
    refine ⟨[], _, i, rfl, hfd, fun hallowed hend => ?_⟩
    have hnothing : remaining (d.entries.drop i) = [] := by
      obtain hrest | hresumes := hallowed.1
      · exact hrest
      · rw [hnone hresumes, remaining_nil]
    rw [hnothing]
    exact ⟨by simp, hend, by simp⟩
  · have hentries := List.drop_eq_getElem_cons hinside
    rw [List.getElem?_eq_getElem hinside] at hstart
    have hfuel : (d.entries.drop (i + 1)).length < 2 ^ 27 := by
      rw [List.length_drop]
      exact Nat.lt_of_le_of_lt (Nat.sub_le _ _) hloaded.length_lt
    obtain ⟨last, hread, hlast⟩ := hfd.readLoop count
      ⟨s.longName, maxLongFilenameLen, []⟩ hloaded hentries hfuel
    rw [hstart]
    dsimp only
    rw [hread]
    refine ⟨_, _, _, rfl, hlast, fun hallowed hend => ?_⟩
    rw [← hentries]
    have hplain : PlainFor (count.toNat - ([] : List PublicDirEntry).length)
        (d.entries.drop i) := hallowed.2
    obtain ⟨hlist, hname, hdrop⟩ := scanList_plain
      (l := ⟨s.longName, maxLongFilenameLen, []⟩) ⟨rfl, hend⟩ hplain (Nat.zero_le _)
    rw [List.drop_drop] at hdrop
    exact ⟨hlist, (congrFun hname _).trans hend, hdrop⟩

/-- A run of allowed calls moves on through the entries that are still to be listed. -/
theorem Stands.run {s t : Driver} {i : Nat} {calls : List (Dword × List PublicDirEntry)}
    (h : Run (Guarded d.Allowed (ReadDir v)) s calls t) (hs : d.Stands s.fd i)
    (hend : s.longName maxLongFilenameLen = 0) :
    ∃ j, d.Stands t.fd j ∧ (calls.map Prod.snd).flatten =
      ((remaining (d.entries.drop i)).take (calls.map fun a => a.1.toNat).sum).map
        DirEntry.publicEntry := by
  induction h generalizing i with
  | nil s => exact ⟨i, hs, rfl⟩
  | @cons s u t a calls hfirst _ ih =>
    obtain ⟨count, found⟩ := a
    obtain ⟨found', u', k, hread, hu, hcall⟩ := hs.read count
    obtain ⟨rfl, rfl⟩ : found = found' ∧ u = u' := by
      have hsame := hfirst.2.symm.trans hread
      simpa using hsame
    obtain ⟨hfound, hclean, hdrop⟩ := hcall hfirst.1 hend
    obtain ⟨j, ht, hrest⟩ := ih hu hclean
    refine ⟨j, ht, ?_⟩
    rw [List.map_cons, List.map_cons, List.flatten_cons, List.sum_cons, List.take_add,
      List.map_append, ← hdrop, ← hrest, ← hfound]

/-- Scanning a directory in calls: as long as they are allowed, they give one after the other
the next entries in use before the end mark, each once, under their readable names, and these
give back the names that are stored. Every further call returns. -/
theorem calls_list_entries (d : Directory v) (fd : FileData) (dirname : List Byte)
    (longName : Int → Byte) (hend : longName maxLongFilenameLen = 0)
    {calls : List (Dword × List PublicDirEntry)} {t : Driver}
    (h : Run (Guarded d.Allowed (ReadDir v)) ⟨fsOpenDir fd dirname d.located, longName⟩ calls
      t) :
    (calls.map Prod.snd).flatten =
        ((remaining d.entries).take (calls.map fun a => a.1.toNat).sum).map
          DirEntry.publicEntry ∧
      (∀ count, ∃ found t', ReadDir v t (count, found) t') ∧
      ∀ name, ShortName name → (readable2FatFormat (fatFormat2Readable name)).1 = name := by
  obtain ⟨j, ht, hlist⟩ := Stands.run h (d.stands_fsOpenDir fd dirname) hend
  refine ⟨hlist, fun count => ?_, fun name => readable2FatFormat_fatFormat2Readable⟩
  obtain ⟨found, t', -, hread, -⟩ := ht.read count
  exact ⟨found, t', hread⟩

end Directory

/-- The entry of a file or a directory, with only the fields that are read. -/
def sampleEntry (name : List Byte) (attributes : Byte) (cluster : BitVec 16) : DirEntry :=
  name ++ attributes :: List.replicate 14 0 ++
    [cluster.setWidth 8, (cluster >>> 8).setWidth 8, 0, 0, 0, 0]

/-- `A.TXT`. -/
def aTxt : DirEntry :=
  sampleEntry [0x41, 0x20, 0x20, 0x20, 0x20, 0x20, 0x20, 0x20, 0x54, 0x58, 0x54] 0x20 2

/-- `B`, with an entry of a deleted file before it. -/
def bFile : DirEntry :=
  sampleEntry [0x42, 0x20, 0x20, 0x20, 0x20, 0x20, 0x20, 0x20, 0x20, 0x20, 0x20] 0x20 3

/-- A volume with a root directory of four entries. Every cluster holds one entry. -/
def fourEntries : Volume where
  fatType := .fat16
  firstFat := fun _ => 0xFF
  bytesPerCluster := 512
  readCluster := fun _ => aTxt ++ List.replicate 480 0
  rootDir := [aTxt, 0xE5 :: aTxt.tail, bFile, List.replicate 32 0]
  rootClus := 0
  bytesPerCluster_pos := twoClusters.bytesPerCluster_pos
  readCluster_length := fun _ => by
    rw [List.length_append, List.length_replicate]
    rfl
  rootDir_length := by decide
  rootDir_fat32 := fun h => by cases h

def closed : FileData := ⟨none, [], 0, [], 0, false, false, false⟩

theorem PlainFor.of_forall {n : Nat} {entries : List DirEntry}
    (h : ∀ de ∈ entries, DirEntry.Plain de) : PlainFor n entries := by
  intro before de after hsplit _
  have hmem : de ∈ untilEnd entries := by simp [hsplit]
  exact h de (List.takeWhile_subset _ hmem)

instance DirEntry.instDecidablePlain (de : DirEntry) : Decidable (DirEntry.Plain de) :=
  inferInstanceAs (Decidable (_ ∨ _))

theorem root_in_two_calls :
    [⟨[0x41, 0x2E, 0x54, 0x58, 0x54], 0o100666, 0⟩, ⟨[0x42], 0o100666, 0⟩] =
      ((remaining fourEntries.rootDir).take 2).map DirEntry.publicEntry := by
  have hplain : ∀ de ∈ fourEntries.rootDir, DirEntry.Plain de := by decide
  let d : Directory fourEntries := .root (by decide)
  let s : Driver := ⟨fsOpenDir closed [] d.located, fun _ => 0⟩
  let t (i : Dword) : Driver := ⟨{ s.fd with fileOffset := i }, fun _ => 0⟩
  have hfirst : Directory.ReadDir fourEntries s
      (1, [⟨[0x41, 0x2E, 0x54, 0x58, 0x54], 0o100666, 0⟩]) (t 1) := rfl
  have hsecond : Directory.ReadDir fourEntries (t 1) (1, [⟨[0x42], 0o100666, 0⟩]) (t 3) := rfl
  have hrest : ∀ de ∈ d.entries.drop 1, DirEntry.Plain de := fun de hde =>
    hplain de (List.mem_of_mem_drop hde)
  exact (d.calls_list_entries closed [] (fun _ => 0) rfl
    (.cons ⟨⟨.inr trivial, .of_forall hplain⟩, hfirst⟩
      (.cons ⟨⟨.inr trivial, .of_forall hrest⟩, hsecond⟩ (.nil _)))).1

/-- A sub-directory in the cluster 600. -/
def highCluster : SubDirectory fourEntries where
  entry := sampleEntry [0x44, 0x20, 0x20, 0x20, 0x20, 0x20, 0x20, 0x20, 0x20, 0x20, 0x20] 0x10 600
  chain := [600]
  isDirectory := by decide
  chained := .cons (by decide) (.nil (by decide))
  aligned := by decide
  small := by decide

def highDriver : Driver := ⟨fsOpenDir closed [] (some highCluster.entry), fun _ => 0⟩

/-- A directory of size zero whose cluster number is not less than the bytes of a cluster: the
first call already seeks, and lists nothing. -/
theorem high_cluster_lists_nothing :
    ¬ ∀ (v : Volume) (d : Directory v) (fd : FileData) (dirname : List Byte)
      (longName : Int → Byte) (calls : List (Dword × List PublicDirEntry)) (t : Driver),
      longName maxLongFilenameLen = 0 →
      (∀ de ∈ d.entries, DirEntry.attributes de &&& 0x0F ≠ 0x0F) →
      (∀ a ∈ calls, 0 < a.1.toNat) →
      Run (Directory.ReadDir v) ⟨fsOpenDir fd dirname d.located, longName⟩ calls t →
      (calls.map Prod.snd).flatten =
        ((remaining d.entries).take (calls.map fun a => a.1.toNat).sum).map
          DirEntry.publicEntry := by
  intro hall
  have hcall : Directory.ReadDir fourEntries highDriver (10, []) highDriver := rfl
  have hlists := hall fourEntries (.sub highCluster) closed [] (fun _ => 0) _ highDriver rfl
    (by decide +kernel) (by simp) (.cons hcall (.nil _))
  revert hlists
  decide +kernel

end OsdevArchive.Osso.Fat
