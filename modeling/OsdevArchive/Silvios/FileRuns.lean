import OsdevArchive.Lib.Runs
import OsdevArchive.Silvios.Ownership

/-!
Runs of the file system from a formatted disk. Each call gets a directory or an open file of
the state; a call with one that is not there is not made.
-/

namespace OsdevArchive.Silvios

open OsdevArchive.Lib.Bitmap OsdevArchive.Lib.ByteBuffer OsdevArchive.Lib.Chained
open OsdevArchive.Lib.Owners OsdevArchive.Lib.Runs

/-! ### A formatted disk -/

/-- The bits below `k` of the word `i`, one after the other. -/
def setBits (vetCluster : VetCluster) (i k : Nat) : VetCluster :=
  (List.range k).foldl (fun v j => Function.update v i (v i + 1#32 <<< j)) vetCluster

/-- What `format` puts into `vet_cluster`. Its loops count to a number below zero, and do not
end, where there is no word that is full or none that is not. -/
def format (fsStart : Nat) : Option VetCluster :=
  if fsStart / bitsPerWord = 0 ∨ fsStart % bitsPerWord = 0 then none
  else some (setBits ((List.range (fsStart / bitsPerWord)).foldl
    (fun v i => setBits v i bitsPerWord) fun _ => 0) (fsStart / bitsPerWord)
    (fsStart % bitsPerWord))

def createRoot (j : Unset) (disk : Disk) (fsStart : Block) : Directory × Disk :=
  let root := internalMkDir j rootName fsStart
  (root, writeDir j disk root)

/-- A word whose bits are clear as bits of the map. -/
theorem getLsbD_clear {vetCluster : VetCluster} {i : Nat}
    (h : ∀ p, p / 32 = i → ¬ bit vetCluster p = true) (j : Nat) :
    (vetCluster i).getLsbD j = false := by
  obtain hj | hj := Nat.lt_or_ge j 32
  · have hdiv : (32 * i + j) / 32 = i := by omega
    have hmod : (32 * i + j) % 32 = j := by omega
    have hbit := h (32 * i + j) hdiv
    unfold bit at hbit
    rw [hdiv, hmod] at hbit
    simpa using hbit
  · exact BitVec.getLsbD_of_ge _ _ hj

theorem bit_setBits {vetCluster : VetCluster} {i k : Nat} (hk : k ≤ 32)
    (hclear : ∀ j, (vetCluster i).getLsbD j = false) (p : Nat) :
    bit (setBits vetCluster i k) p = true ↔
      bit vetCluster p = true ∨ p / 32 = i ∧ p % 32 < k := by
  induction k generalizing p with
  | zero =>
    change bit vetCluster p = true ↔ _
    simp
  | succ k ih =>
    have hlt : k < 32 := hk
    have hstep : setBits vetCluster i (k + 1) =
        mask (· + ·) (setBits vetCluster i k) (32 * i + k) := by
      have hdiv : (32 * i + k) / 32 = i := by omega
      have hmod : (32 * i + k) % 32 = k := by omega
      unfold setBits mask
      rw [List.range_succ, List.foldl_append, hdiv, hmod]
      rfl
    have hfree : bit (setBits vetCluster i k) (32 * i + k) = false := by
      rw [Bool.eq_false_iff, Ne, ih (Nat.le_of_lt hlt), not_or]
      refine ⟨?_, by omega⟩
      unfold bit
      have hdiv : (32 * i + k) / 32 = i := by omega
      rw [hdiv, hclear]
      decide
    rw [hstep, mask_add hfree, bit_or (by decide), Bool.or_eq_true, decide_eq_true_iff,
      ih (Nat.le_of_lt hlt), or_assoc]
    apply or_congr_right
    omega

theorem bit_fullWords (n p : Nat) :
    bit ((List.range n).foldl (fun v i => setBits v i 32) fun _ => 0) p = true ↔ p / 32 < n := by
  induction n generalizing p with
  | zero => simp [bit]
  | succ n ih =>
    rw [List.range_succ, List.foldl_append, List.foldl_cons, List.foldl_nil,
      bit_setBits (Nat.le_refl 32), ih]
    · omega
    · apply getLsbD_clear
      intro q hq
      rw [ih, hq]
      exact Nat.lt_irrefl n

/-- On a formatted disk, the blocks up to that of the root are busy. -/
theorem format_busy {fsStart : Block} {vetCluster : VetCluster}
    (h : format fsStart.toNat = some vetCluster) {b : Block} (hb : IsBlock b) :
    Busy vetCluster b ↔ b.toNat ≤ fsStart.toNat := by
  unfold format bitsPerWord at h
  split at h
  · cases h
  · obtain rfl := Option.some.inj h
    unfold IsBlock at hb
    unfold Busy
    rw [bit_setBits, bit_fullWords]
    · omega
    · omega
    · apply getLsbD_clear
      intro q hq
      rw [bit_fullWords, hq]
      exact Nat.lt_irrefl _

/-! ### Calls -/

/-- A magic code of a file. -/
abbrev FileCode := {m : BitVec 32 // m ≠ directory}

/-- The disk, the directories and the files that are open. -/
structure State where
  disk : Disk
  dirs : List Directory
  files : List File

inductive Call where
  | create (i : Nat) (name : Name) (code : FileCode)
  | fopen (i : Nat) (name : Name) (mode : Mode)
  | fputc (i : Nat) (c : Byte)
  | fflush (i : Nat)
  | rmFile (i : Nat) (name : Name)
  | mkDir (i : Nat) (name : Name)

/-- A call, and what it finds in its variables and in the memory that it gets. -/
structure Event where
  call : Call
  unset : Unset
  unset' : Unset
  memory : Buffer

/-- The state after the root has been made on a formatted disk. -/
def formatted (j : Unset) (blocks : Block → Buffer) (vetCluster : VetCluster) (fsStart : Block) :
    State :=
  let (root, disk) := createRoot j ⟨vetCluster, blocks⟩ fsStart
  ⟨disk, [root], []⟩

def perform (s : State) (e : Event) : Option State :=
  match e.call with
  | .create i name code => do
    let dir ← s.dirs[i]?
    let (dir, disk) := create e.unset s.disk dir name code
    some { s with disk := disk, dirs := s.dirs.set i dir }
  | .fopen i name mode => do
    let dir ← s.dirs[i]?
    let (file, dir, disk) ← fopen e.unset s.disk name dir mode
    some ⟨disk, s.dirs.set i dir, s.files ++ file.toList⟩
  | .fputc i c => do
    let file ← s.files[i]?
    some { s with files := s.files.set i (fputc e.memory c file).2 }
  | .fflush i => do
    let file ← s.files[i]?
    let (file, disk) := fflush s.disk file e.unset.buffer
    some { s with disk := disk, files := s.files.set i file }
  | .rmFile i name => do
    let dir ← s.dirs[i]?
    let (dir, disk) ← rmFile s.disk dir name
    some { s with disk := disk, dirs := s.dirs.set i dir }
  | .mkDir i name => do
    let dir ← s.dirs[i]?
    let (made, dir, disk) := mkDir e.unset e.unset' s.disk name dir
    some ⟨disk, s.dirs.set i dir ++ made.toList, s.files⟩

/-- What `rm_file` removes is a file, none of whose blocks ends a word of the map. -/
def Removable (disk : Disk) (dir : Directory) (name : Name) : Prop :=
  ∀ car, removedEntry dir name = some car → car.magicCode ≠ directory ∧
    ∀ l, HasBlocks disk car.firstBlock l → ∀ c ∈ l, ¬ EndsWord c

/-- A file with no blocks behind the first one that `fopen` reads. -/
def ReadsNoChain (disk : Disk) (dir : Directory) (name : Name) : Prop :=
  let header := FileHeader.ofBytes (disk.blocks (searchFilename name dir.elem))
  header.size.toNat < 512 ∨ header.nextBlock = 0

/-- A block is left for each one that is taken, only files that are not open are removed, and a
directory has room for one more entry and for the end of its table. -/
def Allowed (s : State) (e : Event) : Prop :=
  match e.call with
  | .create _ _ _ => 0 < freeNumber s.disk.vetCluster
  | .fopen i name mode => ∀ dir, s.dirs[i]? = some dir →
    if mode = .writeOnly then Removable s.disk dir name ∧
      (0 < freeNumber s.disk.vetCluster ∨ (removedEntry dir name).isSome)
    else ReadsNoChain s.disk dir name
  | .fputc _ _ => True
  | .fflush i => ∀ file, s.files[i]? = some file → file.firstBlock ∈ allOwners s.dirs ∧
    blocksBehind file.header.size.toNat ≤ freeNumber s.disk.vetCluster
  | .rmFile i name => ∀ dir, s.dirs[i]? = some dir → Removable s.disk dir name
  | .mkDir i name => ∀ dir, s.dirs[i]? = some dir → searchFilename name dir.elem = 0 →
    0 < freeNumber s.disk.vetCluster ∧ dir.elem.length + 1 < dirTempNumber

/-! ### What a call keeps -/

/-- A directory without blocks behind its first one. -/
def Plain (dir : Directory) : Prop := dir.header.nextBlock = 0 ∧ dir.header.size = 0

/-- The blocks of the files and directories are busy and their own. -/
def BlocksOwned (s : State) : Prop := ∃ chain, DiskOwned s.disk (allOwners s.dirs) chain

structure Invariant (s : State) : Prop where
  owned : BlocksOwned s
  plain : ∀ dir ∈ s.dirs, Plain dir

variable {disk disk' : Disk} {dir dir' : Directory} {name : Name} {owners rest : List Block}
  {chain : Block → List Block} {j j' : Unset} {s t : State} {e : Event}

theorem Plain.size_le (h : Plain dir) : dir.header.size.toNat ≤ 512 := by
  rw [h.2]
  decide

theorem create_owned (j : Unset) (name : Name) (code : BitVec 32)
    (h : DiskOwned disk owners chain) (hplain : Plain dir)
    (hfree : 0 < freeNumber disk.vetCluster) :
    ∃ b disk' chain', create j disk dir name code = (addEntryToTree name dir code b, disk') ∧
      DiskOwned disk' (b :: owners) chain' := by
  obtain ⟨b, vet, hfirst, hb, hbfree, hmarks, -⟩ := takes_next hfree
  unfold create
  rw [hfirst]
  dsimp only
  have hsmall : (addEntryToTree name dir code b).header.size.toNat ≤ 512 := hplain.size_le
  rw [if_pos hsmall]
  refine ⟨b, _, _, rfl, take_owned h hb hbfree hmarks (fun c hc => writeBlock_of_ne hc) ?_⟩
  refine (headLink_writeBlock (h := fillHeader code j.other) fun k hk => ?_).trans rfl
  have hin : copy j.created 0 (fillHeader code j.other).bytes 0 sizeofFileHeader (0 + k) =
      (fillHeader code j.other).bytes (0 + k) := copy_inside hk
  rwa [Nat.zero_add] at hin

/-- `rm_file` leaves the other files and directories their blocks, and has a free block after
it has removed a file. -/
theorem rmFile_owned (h : DiskOwned disk (dir.firstBlocks ++ rest) chain)
    (hok : Removable disk dir name) (hrun : rmFile disk dir name = some (dir', disk')) :
    DiskOwned disk' (dir'.firstBlocks ++ rest) chain ∧ dir'.header = dir.header ∧
      ((removedEntry dir name).isSome → 0 < freeNumber disk'.vetCluster) ∧
      (removedEntry dir name = none → disk' = disk) := by
  obtain ⟨hnone, rfl, rfl⟩ | ⟨car, hcar, rfl, hfree⟩ := rmFile_cases hrun
  · refine ⟨h, rfl, ?_, fun _ => rfl⟩
    rw [hnone]
    intro hsome
    cases hsome
  · obtain ⟨hcode, hends⟩ := hok car hcar
    have hperm := (owners_delEntry hcar hcode).append_right rest
    have hall := h.perm hperm.symm
    obtain ⟨htail, hapart⟩ := hall.tail
    have hmem : car.firstBlock ∈
        car.firstBlock :: ((delEntryToTree name dir).firstBlocks ++ rest) := List.mem_cons_self
    have howns := hall.owns _ hmem
    have hmarked (c : Block) (hc : c ∈ chain car.firstBlock) : Marked disk.vetCluster c :=
      hall.chain_marked hmem hc
    have hnodup : (chain car.firstBlock).Nodup := by
      have hdisjoint := hall.disjoint
      rw [List.cons_append, List.flatMap_cons] at hdisjoint
      exact (List.nodup_append.mp hdisjoint).1
    obtain ⟨hblocks, hfrees⟩ := freeEntryBlock_frees howns hnodup hmarked
      (hends _ howns) hfree
    refine ⟨?_, rfl, fun _ => ?_, fun hnone => ?_⟩
    · apply htail.change
      intro c hc
      obtain ⟨hblock, hbusy⟩ := htail.marked c hc
      obtain ⟨hhead, hnext⟩ := links_same (congrFun hblocks c)
      exact ⟨hhead, hnext, hblock, (hfrees c hblock).mpr ⟨hbusy, hapart c hc⟩⟩
    · have hfirst := (hmarked _ howns.mem).1
      refine freeNumber_pos.mpr ⟨car.firstBlock, hfirst, fun hbusy => ?_⟩
      exact ((hfrees _ hfirst).mp hbusy).2 howns.mem
    · rw [hcar] at hnone
      cases hnone

/-- A directory is written to its block again. -/
theorem writeDir_owned (h : DiskOwned disk owners chain) (hplain : Plain dir)
    (hmem : dir.self.firstBlock ∈ owners) :
    ∃ chain', DiskOwned (writeDir j disk dir) owners chain' := by
  obtain ⟨buffer, hwrite, hbytes⟩ := writeDir_eq j disk hplain.size_le
  rw [hwrite]
  have hhead :
      headLink (writeBlock disk dir.self.firstBlock buffer).blocks dir.self.firstBlock = 0 :=
    (headLink_writeBlock hbytes).trans hplain.1
  obtain ⟨hblock, hbusy⟩ := h.owner_marked hmem
  refine ⟨_, grow_owned h hmem (.nil hhead) (grown_nil hblock hbusy rfl fun c hc => ?_)⟩
  exact writeBlock_of_ne hc

/-- Opening a file with no chain to read writes nothing. -/
theorem readOnlyOpen_same {f f' : File} {buffer dati : Buffer}
    (hok : f.header.size.toNat < 512 ∨ f.header.nextBlock = 0)
    (h : readOnlyOpen disk f buffer dati = some (f', disk')) : disk' = disk := by
  unfold readOnlyOpen at h
  dsimp only at h
  split at h
  · exact (Prod.mk.inj (Option.some.inj h)).2.symm
  · rename_i hlarge
    have hlink := hok.resolve_left hlarge
    obtain ⟨⟨dati', vet⟩, hread, heq⟩ := Option.bind_eq_some_iff.mp h
    obtain ⟨steps, hsteps⟩ : ∃ n, walkBound = n + 1 := ⟨2 ^ 32 - 1, by decide⟩
    rw [hlink, hsteps] at hread
    unfold readChain at hread
    rw [if_pos rfl] at hread
    obtain ⟨-, rfl⟩ := Prod.mk.inj (Option.some.inj hread)
    exact (Prod.mk.inj (Option.some.inj heq)).2.symm

/-- The header that `fopen` reads, in the fields that a walk looks at. -/
theorem ofBytes_readBlock (disk : Disk) (b : Block) (buffer : Buffer) :
    (FileHeader.ofBytes (readBlock disk b buffer 0)).size =
        (FileHeader.ofBytes (disk.blocks b)).size ∧
      (FileHeader.ofBytes (readBlock disk b buffer 0)).nextBlock =
        (FileHeader.ofBytes (disk.blocks b)).nextBlock := by
  have hbyte (k : Nat) (hk : k < bytePerSector) :
      readBlock disk b buffer 0 k = disk.blocks b k := by
    have hin := @readBlock_inside disk b k buffer 0 hk
    rwa [Nat.zero_add] at hin
  constructor
  · apply word_congr
    intro k hk
    apply hbyte
    unfold bytePerSector
    omega
  · apply word_congr
    intro k hk
    apply hbyte
    unfold bytePerSector
    omega

theorem fopen_other {mode : Mode} {file : Option File} (hmode : mode ≠ .writeOnly)
    (hok : ReadsNoChain disk dir name)
    (h : fopen j disk name dir mode = some (file, dir', disk')) : dir' = dir ∧ disk' = disk := by
  unfold fopen at h
  rw [if_neg hmode] at h
  dsimp only [Option.bind_eq_bind, Option.bind_some] at h
  split at h
  · obtain ⟨-, h⟩ := Prod.mk.inj (Option.some.inj h)
    obtain ⟨rfl, rfl⟩ := Prod.mk.inj h
    exact ⟨rfl, rfl⟩
  · obtain ⟨hsize, hnext⟩ := ofBytes_readBlock disk (searchFilename name dir.elem) j.buffer
    unfold ReadsNoChain at hok
    dsimp only at hok
    rw [← hsize, ← hnext] at hok
    cases mode with
    | readOnly =>
      obtain ⟨⟨f, disk''⟩, hread, heq⟩ := Option.bind_eq_some_iff.mp h
      obtain ⟨-, h⟩ := Prod.mk.inj (Option.some.inj heq)
      obtain ⟨rfl, rfl⟩ := Prod.mk.inj h
      exact ⟨rfl, readOnlyOpen_same hok hread⟩
    | writeOnly => exact absurd rfl hmode
    | append =>
      obtain ⟨⟨f, disk''⟩, happend, heq⟩ := Option.bind_eq_some_iff.mp h
      obtain ⟨-, h⟩ := Prod.mk.inj (Option.some.inj heq)
      obtain ⟨rfl, rfl⟩ := Prod.mk.inj h
      obtain ⟨⟨f', disk₁⟩, hread, heq⟩ := Option.bind_eq_some_iff.mp happend
      obtain ⟨-, rfl⟩ := Prod.mk.inj (Option.some.inj heq)
      exact ⟨rfl, readOnlyOpen_same hok hread⟩

theorem fopen_writeOnly {file : Option File}
    (h : fopen j disk name dir .writeOnly = some (file, dir', disk')) :
    ∃ dir₁ disk₁, rmFile disk dir name = some (dir₁, disk₁) ∧
      create j disk₁ dir₁ name sconosciuto = (dir', disk') := by
  unfold fopen at h
  rw [if_pos rfl] at h
  obtain ⟨⟨dir₁, disk₁⟩, hrm, h⟩ := Option.bind_eq_some_iff.mp h
  refine ⟨dir₁, disk₁, hrm, ?_⟩
  dsimp only [Option.bind_eq_bind, Option.bind_some] at h
  split at h
  · exact (Prod.mk.inj (Option.some.inj h)).2
  · exact (Prod.mk.inj (Option.some.inj h)).2

/-- A call changes one directory, and leaves the others with their blocks. -/
theorem Invariant.directory {i : Nat} (h : Invariant s) (hi : s.dirs[i]? = some dir) :
    Plain dir ∧ ∃ rest chain, DiskOwned s.disk (dir.firstBlocks ++ rest) chain ∧
      ∀ dir', Plain dir' → (allOwners (s.dirs.set i dir')).Perm (dir'.firstBlocks ++ rest) ∧
        ∀ d ∈ s.dirs.set i dir', Plain d := by
  obtain ⟨rest, hperm, hset⟩ := allOwners_set hi
  obtain ⟨chain, howned⟩ := h.owned
  refine ⟨h.plain dir (List.mem_of_getElem? hi), rest, chain, howned.perm hperm.symm, ?_⟩
  intro dir' hplain
  refine ⟨hset dir', fun d hd => ?_⟩
  obtain hd | rfl := List.mem_or_eq_of_mem_set hd
  · exact h.plain d hd
  · exact hplain

theorem allOwners_append (dirs : List Directory) (dir : Directory) :
    allOwners (dirs ++ [dir]) = allOwners dirs ++ dir.firstBlocks := by
  unfold allOwners
  rw [List.flatMap_append, List.flatMap_singleton]

theorem mkDir_owned {made : Option Directory} (h : DiskOwned disk (dir.firstBlocks ++ rest) chain)
    (hplain : Plain dir) (hok : searchFilename name dir.elem = 0 → 0 < freeNumber disk.vetCluster)
    (hrun : mkDir j j' disk name dir = (made, dir', disk')) :
    Plain dir' ∧ (made = none ∧ dir' = dir ∧ disk' = disk ∨
      ∃ b new chain', made = some new ∧ new.firstBlocks = [b] ∧ Plain new ∧
        DiskOwned disk' (b :: (dir'.firstBlocks ++ rest)) chain') := by
  unfold mkDir at hrun
  split at hrun
  · obtain ⟨rfl, h⟩ := Prod.mk.inj hrun
    obtain ⟨rfl, rfl⟩ := Prod.mk.inj h
    exact ⟨hplain, .inl ⟨rfl, rfl, rfl⟩⟩
  · rename_i habsent
    obtain ⟨b, vet, hfirst, hb, hbfree, hmarks, -⟩ := takes_next (hok (not_not.mp habsent))
    rw [hfirst] at hrun
    dsimp only at hrun
    obtain ⟨new, hnew⟩ : ∃ w, w = addEntryToTree parentName (internalMkDir j name b) directory
        (addEntryToTree name dir directory b).self.firstBlock := ⟨_, rfl⟩
    rw [← hnew] at hrun
    obtain ⟨rfl, hrest⟩ := Prod.mk.inj hrun
    obtain ⟨rfl, rfl⟩ := Prod.mk.inj hrest
    have hself : new.self.firstBlock = b := by
      rw [hnew]
      rfl
    have hblocks : new.firstBlocks = [b] := by
      rw [hnew, owners_addDirectory]
      rfl
    have hnewPlain : Plain new := by
      rw [hnew]
      exact ⟨rfl, rfl⟩
    -- the new directory is written first, and then the one that it is in
    obtain ⟨buffer, hwrite, hbytes⟩ := writeDir_eq j { disk with vetCluster := vet }
      hnewPlain.size_le
    rw [hself] at hwrite
    have htaken : DiskOwned (writeDir j { disk with vetCluster := vet } new)
        (b :: (dir.firstBlocks ++ rest)) (Function.update chain b [b]) := by
      rw [hwrite]
      refine take_owned h hb hbfree hmarks (fun c hc => writeBlock_of_ne hc) ?_
      exact (headLink_writeBlock hbytes).trans hnewPlain.1
    have hdirPlain : Plain (addEntryToTree name dir directory b) := hplain
    obtain ⟨chain', hall⟩ := writeDir_owned (j := j') htaken hdirPlain
      (List.mem_cons_of_mem b (List.mem_append_left rest List.mem_cons_self))
    refine ⟨hdirPlain, .inr ⟨b, new, chain', rfl, hblocks, hnewPlain, ?_⟩⟩
    rw [owners_addDirectory]
    exact hall

theorem fopen_owned {mode : Mode} {file : Option File}
    (h : DiskOwned disk (dir.firstBlocks ++ rest) chain) (hplain : Plain dir)
    (hok : if mode = .writeOnly then Removable disk dir name ∧
      (0 < freeNumber disk.vetCluster ∨ (removedEntry dir name).isSome)
      else ReadsNoChain disk dir name)
    (hrun : fopen j disk name dir mode = some (file, dir', disk')) :
    Plain dir' ∧ ∃ chain', DiskOwned disk' (dir'.firstBlocks ++ rest) chain' := by
  split at hok
  · rename_i hwrite
    rw [hwrite] at hrun
    obtain ⟨dir₁, disk₁, hrm, hcreate⟩ := fopen_writeOnly hrun
    obtain ⟨hremoved, hheader, hsome, hnone⟩ := rmFile_owned h hok.1 hrm
    have hfree : 0 < freeNumber disk₁.vetCluster := by
      cases hremove : removedEntry dir name with
      | none =>
        rw [hremove] at hok
        rw [hnone hremove]
        exact hok.2.resolve_right Bool.false_ne_true
      | some car =>
        apply hsome
        rw [hremove]
        rfl
    have hplain₁ : Plain dir₁ := by
      unfold Plain
      rw [hheader]
      exact hplain
    obtain ⟨b, disk₂, chain', hcreate', hnew⟩ :=
      create_owned j name sconosciuto hremoved hplain₁ hfree
    rw [hcreate] at hcreate'
    obtain ⟨rfl, rfl⟩ := Prod.mk.inj hcreate'
    exact ⟨hplain₁, chain',
      hnew.perm ((owners_addEntry dir₁ name b (by decide)).append_right rest)⟩
  · rename_i hread
    obtain ⟨rfl, rfl⟩ := fopen_other hread hok hrun
    exact ⟨hplain, chain, h⟩

theorem perform_keeps (h : Invariant s) (hok : Allowed s e) (hstep : perform s e = some t) :
    Invariant t := by
  obtain ⟨call, unset, unset', memory⟩ := e
  cases call with
  | create i name code =>
    obtain ⟨dir, hi, hstep⟩ := Option.bind_eq_some_iff.mp hstep
    obtain ⟨hplain, rest, chain, howned, hset⟩ := h.directory hi
    obtain ⟨b, disk', chain', hcreate, hnew⟩ := create_owned unset name code.1 howned hplain hok
    rw [hcreate] at hstep
    obtain rfl := Option.some.inj hstep
    have hentry := (owners_addEntry dir name b code.2).append_right rest
    obtain ⟨hperm, hall⟩ := hset (addEntryToTree name dir code.1 b) hplain
    exact ⟨⟨chain', (hnew.perm hentry).perm hperm⟩, hall⟩
  | fopen i name mode =>
    obtain ⟨dir, hi, hstep⟩ := Option.bind_eq_some_iff.mp hstep
    obtain ⟨⟨file, dir', disk'⟩, hfopen, hstep⟩ := Option.bind_eq_some_iff.mp hstep
    obtain rfl := Option.some.inj hstep
    obtain ⟨hplain, rest, chain, howned, hset⟩ := h.directory hi
    obtain ⟨hplain', chain', hnew⟩ := fopen_owned howned hplain (hok dir hi) hfopen
    obtain ⟨hperm, hall⟩ := hset dir' hplain'
    exact ⟨⟨chain', hnew.perm hperm⟩, hall⟩
  | fputc i c =>
    obtain ⟨file, -, hstep⟩ := Option.bind_eq_some_iff.mp hstep
    obtain rfl := Option.some.inj hstep
    exact ⟨h.owned, h.plain⟩
  | fflush i =>
    obtain ⟨file, hi, hstep⟩ := Option.bind_eq_some_iff.mp hstep
    obtain rfl := Option.some.inj hstep
    obtain ⟨hmem, hroom⟩ := hok file hi
    obtain ⟨chain, howned⟩ := h.owned
    obtain ⟨hblock, hbusy⟩ := howned.owner_marked hmem
    obtain ⟨after, header, cs, hflush, -, -, hchain, hgrown⟩ :=
      fflush_stored unset.buffer hblock hbusy hroom
    have hnew := grow_owned howned hmem hchain hgrown
    rw [← hflush] at hnew
    exact ⟨⟨_, hnew⟩, h.plain⟩
  | rmFile i name =>
    obtain ⟨dir, hi, hstep⟩ := Option.bind_eq_some_iff.mp hstep
    obtain ⟨⟨dir', disk'⟩, hrm, hstep⟩ := Option.bind_eq_some_iff.mp hstep
    obtain rfl := Option.some.inj hstep
    obtain ⟨hplain, rest, chain, howned, hset⟩ := h.directory hi
    obtain ⟨hremoved, hheader, -, -⟩ := rmFile_owned howned (hok dir hi) hrm
    have hplain' : Plain dir' := by
      unfold Plain
      rw [hheader]
      exact hplain
    obtain ⟨hperm, hall⟩ := hset dir' hplain'
    exact ⟨⟨chain, hremoved.perm hperm⟩, hall⟩
  | mkDir i name =>
    obtain ⟨dir, hi, hstep⟩ := Option.bind_eq_some_iff.mp hstep
    obtain ⟨hplain, rest, chain, howned, hset⟩ := h.directory hi
    obtain ⟨made, dir', disk', hmk⟩ : ∃ made dir' disk',
      mkDir unset unset' s.disk name dir = (made, dir', disk') := ⟨_, _, _, rfl⟩
    rw [hmk] at hstep
    obtain rfl := Option.some.inj hstep
    obtain ⟨hplain', hmade⟩ :=
      mkDir_owned howned hplain (fun habsent => (hok dir hi habsent).1) hmk
    obtain ⟨hperm, hall⟩ := hset dir' hplain'
    obtain ⟨rfl, rfl, rfl⟩ | ⟨b, new, chain', rfl, hblocks, hnew, howned'⟩ := hmade
    · refine ⟨⟨chain, ?_⟩, ?_⟩
      · change DiskOwned s.disk (allOwners (s.dirs.set i dir' ++ [])) chain
        rw [List.append_nil]
        exact howned.perm hperm
      · change ∀ d ∈ s.dirs.set i dir' ++ [], Plain d
        rw [List.append_nil]
        exact hall
    · refine ⟨⟨chain', ?_⟩, fun d hd => ?_⟩
      · change DiskOwned disk' (allOwners (s.dirs.set i dir' ++ [new])) chain'
        rw [allOwners_append, hblocks]
        exact howned'.perm ((List.perm_append_singleton b _).trans (hperm.cons b))
      · obtain hd | hd := List.mem_append.mp hd
        · exact hall d hd
        · obtain rfl := List.mem_singleton.mp hd
          exact hnew

/-- Opening a file for reading leaves `vet_cluster` as it is. -/
def ReadsOnly (s : State) (e : Event) (t : State) : Prop :=
  ∀ i name, e.call = .fopen i name .readOnly → t.disk.vetCluster = s.disk.vetCluster

theorem perform_readsOnly (hok : Allowed s e) (hstep : perform s e = some t) : ReadsOnly s e t := by
  obtain ⟨call, unset, unset', memory⟩ := e
  rintro i name rfl
  obtain ⟨dir, hi, hstep⟩ := Option.bind_eq_some_iff.mp hstep
  obtain ⟨⟨file, dir', disk'⟩, hfopen, hstep⟩ := Option.bind_eq_some_iff.mp hstep
  obtain rfl := Option.some.inj hstep
  obtain ⟨-, rfl⟩ := fopen_other (by decide) (hok dir hi) hfopen
  rfl

/-- After the format, only the root has a block. -/
theorem formatted_invariant {blocks : Block → Buffer} {vetCluster : VetCluster} {fsStart : Block}
    (hroot : IsBlock fsStart) (h : format fsStart.toNat = some vetCluster) :
    Invariant (formatted j blocks vetCluster fsStart) := by
  have hplain : Plain (internalMkDir j rootName fsStart) := ⟨rfl, rfl⟩
  obtain ⟨buffer, hwrite, hbytes⟩ := writeDir_eq j ⟨vetCluster, blocks⟩ hplain.size_le
  have hbusy : Busy vetCluster fsStart := (format_busy h hroot).mpr (Nat.le_refl _)
  have hhead : headLink (writeDir j ⟨vetCluster, blocks⟩
      (internalMkDir j rootName fsStart)).blocks fsStart = 0 := by
    rw [hwrite]
    exact (headLink_writeBlock hbytes).trans hplain.1
  have hmarked : Marked (writeDir j ⟨vetCluster, blocks⟩
      (internalMkDir j rootName fsStart)).vetCluster fsStart := by
    rw [hwrite]
    exact ⟨hroot, hbusy⟩
  refine ⟨⟨Function.update (fun _ => []) fsStart [fsStart], ?_⟩, fun d hd => ?_⟩
  · refine owned_nil.cons ⟨[], rfl, .nil hhead⟩ (List.nodup_singleton _) fun c hc => ?_
    obtain rfl := List.mem_singleton.mp hc
    exact ⟨hmarked, List.not_mem_nil⟩
  · obtain rfl := List.mem_singleton.mp hd
    exact hplain

/-- Whose blocks are whose, for the two operations on the map and for every run of calls. -/
theorem blocks_owned_when_allowed (vetCluster : VetCluster) :
    (Takes vetCluster ↔ ∃ b, IsBlock b ∧ ¬ Busy vetCluster b) ∧
    (∀ b, IsBlock b → Busy vetCluster b → (Frees vetCluster b ↔ ¬ EndsWord b)) ∧
    ∀ j blocks fsStart es t, IsBlock fsStart → format fsStart.toNat = some vetCluster →
      Run (Guarded Allowed (Computes perform)) (formatted j blocks vetCluster fsStart) es t →
      BlocksOwned t ∧
        Run (fun s e t => Computes perform s e t ∧ ReadsOnly s e t)
          (formatted j blocks vetCluster fsStart) es t := by
  refine ⟨takes_iff, fun _ => frees_iff, ?_⟩
  intro j blocks fsStart es t hroot hformat hrun
  have hstart : Invariant (formatted j blocks vetCluster fsStart) :=
    formatted_invariant hroot hformat
  have hend : Invariant t := by
    apply hrun.guarded_invariant _ hstart
    intro s e u hs hok hstep
    exact perform_keeps hs hok hstep
  refine ⟨hend.owned, ?_⟩
  apply hrun.mono
  intro s e u hstep
  exact ⟨hstep.2, perform_readsOnly hstep.1 hstep.2⟩

/-- A kernel of 30 blocks. -/
def smallRoot : Block := 33

def cleared : Unset := ⟨fun _ => 0, fun _ => 0, fun _ => 0, fun _ => 0, fun _ => 0⟩

def nameA : Name := ⟨[0x41], by decide, by decide⟩

def fileMade (name : Name) : Event :=
  ⟨.create 0 name ⟨sconosciuto, by decide⟩, cleared, cleared, fun _ => 0⟩

/-- Two files are made on a new disk, the first one is removed and a third one is made. -/
def madeAndRemoved : List Event :=
  [fileMade nameA, fileMade ⟨[0x42], by decide, by decide⟩,
    ⟨.rmFile 0 nameA, cleared, cleared, fun _ => 0⟩, fileMade ⟨[0x43], by decide, by decide⟩]

/-- The third file gets the block of the first one. -/
theorem blocks_owned_after_removal : ∃ vetCluster t,
    format smallRoot.toNat = some vetCluster ∧
    Run (Guarded Allowed (Computes perform)) (formatted cleared (fun _ _ => 0) vetCluster smallRoot)
      madeAndRemoved t ∧
    allOwners t.dirs = [33, 35, 34] ∧ BlocksOwned t := by
  have heval : ((format smallRoot.toNat).bind fun v =>
      (perform (formatted cleared (fun _ _ => 0) v smallRoot) (fileMade nameA)).bind fun s₁ =>
      (perform s₁ (fileMade ⟨[0x42], by decide, by decide⟩)).bind fun s₂ =>
      (perform s₂ ⟨.rmFile 0 nameA, cleared, cleared, fun _ => 0⟩).bind fun s₃ =>
      (perform s₃ (fileMade ⟨[0x43], by decide, by decide⟩)).map fun t =>
        (bit v 39, bit s₁.disk.vetCluster 39, bit s₃.disk.vetCluster 39,
          s₂.dirs[0]?.bind fun dir => (removedEntry dir nameA).map fun car =>
            (car.magicCode, car.firstBlock, headLink s₂.disk.blocks 34), allOwners t.dirs)) =
      some (false, false, false, some (sconosciuto, 34, 0), [33, 35, 34]) := by
    rfl
  obtain ⟨vetCluster, hformat, heval⟩ := Option.bind_eq_some_iff.mp heval
  obtain ⟨s₁, h₁, heval⟩ := Option.bind_eq_some_iff.mp heval
  obtain ⟨s₂, h₂, heval⟩ := Option.bind_eq_some_iff.mp heval
  obtain ⟨s₃, h₃, heval⟩ := Option.bind_eq_some_iff.mp heval
  obtain ⟨t, h₄, heval⟩ := Option.map_eq_some_iff.mp heval
  simp only [Prod.mk.injEq] at heval
  obtain ⟨hroom, hroom₁, hroom₃, hremoved, howners⟩ := heval
  have hfree : ∀ v : VetCluster, bit v 39 = false → 0 < freeNumber v := by
    intro v hv
    refine freeNumber_pos.mpr ⟨40, ⟨by decide, by decide⟩, fun hbusy => ?_⟩
    exact Bool.false_ne_true (hv.symm.trans hbusy)
  have hremovable : Allowed s₂ ⟨.rmFile 0 nameA, cleared, cleared, fun _ => 0⟩ := by
    obtain ⟨dir, hdir, hremoved⟩ := Option.bind_eq_some_iff.mp hremoved
    obtain ⟨car, hcar, hremoved⟩ := Option.map_eq_some_iff.mp hremoved
    simp only [Prod.mk.injEq] at hremoved
    obtain ⟨hmagic, hfirst, hhead⟩ := hremoved
    intro dir' hdir' car' hcar'
    obtain rfl := Option.some.inj (hdir.symm.trans hdir')
    obtain rfl := Option.some.inj (hcar.symm.trans hcar')
    refine ⟨by rw [hmagic]; decide, fun l hl c hc => ?_⟩
    obtain ⟨cs, rfl, hchain⟩ := hl
    rw [hfirst] at hchain hc
    rw [hchain.eq_nil hhead] at hc
    obtain rfl := List.mem_singleton.mp hc
    decide
  have hfirst : Allowed (formatted cleared (fun _ _ => 0) vetCluster smallRoot) (fileMade nameA) :=
    hfree vetCluster hroom
  have hsecond : Allowed s₁ (fileMade ⟨[0x42], by decide, by decide⟩) := hfree _ hroom₁
  have hthird : Allowed s₃ (fileMade ⟨[0x43], by decide, by decide⟩) := hfree _ hroom₃
  have hrun : Run (Guarded Allowed (Computes perform)) _ madeAndRemoved t :=
    .cons ⟨hfirst, h₁⟩ (.cons ⟨hsecond, h₂⟩ (.cons ⟨hremovable, h₃⟩ (.single ⟨hthird, h₄⟩)))
  exact ⟨vetCluster, t, hformat, hrun, howners, ((blocks_owned_when_allowed vetCluster).2.2 _ _ _ _
    _ ⟨by decide, by decide⟩ hformat hrun).1⟩

/-- The last block of a word of the map stays busy. -/
theorem last_of_word_stays_busy : ∃ vetCluster, format smallRoot.toNat = some vetCluster ∧
    IsBlock 32 ∧ Busy vetCluster 32 ∧ ¬ Frees vetCluster 32 := by
  obtain ⟨vetCluster, hformat⟩ : ∃ v, format smallRoot.toNat = some v := ⟨_, rfl⟩
  have hblock : IsBlock 32 := ⟨by decide, by decide⟩
  have hbusy : Busy vetCluster 32 := (format_busy hformat hblock).mpr (by decide)
  refine ⟨vetCluster, hformat, hblock, hbusy, ?_⟩
  rw [frees_iff hblock hbusy]
  decide

end OsdevArchive.Silvios
