import OsdevArchive.Lib.Spans
import OsdevArchive.Osso.Fat
import OsdevArchive.Osso.FatRead

/-!
The two forms of a file name in the FAT driver of OSSO: eleven bytes of a directory entry, the
name and the extension padded with spaces, and a string with a dot between them. A string is
the list of its characters before the terminator. The directory functions: `fs_open_dir`, and the
loop of `fs_read_dir` over the entries from the offset of the descriptor on. For the root
directory the offset is the index of an entry.
-/

namespace OsdevArchive.Osso.Fat

open OsdevArchive.Lib.Chained OsdevArchive.Lib.Spans

def space : Byte := 0x20

def dot : Byte := 0x2E

def dirSep : Byte := 0x2F

/-- The first byte of the name of a deleted entry. -/
def deletedMark : Byte := 0xE5

/-- `for (; *(readable-1)==' '; readable--)`, where something else than spaces is there. -/
def stripSpaces (readable : List Byte) : List Byte :=
  readable.rdropWhile fun c => c = space

def fatFormat2Readable (fatformat : List Byte) : List Byte :=
  if fatformat.head? = some deletedMark then []
  else
    let readable := stripSpaces (fatformat.take 8)
    let ext := (fatformat.drop 8).take 3
    let readable := if ext = [space, space, space] then readable else readable ++ [dot]
    stripSpaces (readable ++ ext)

/-- `Readable2FATFormat`: the eleven bytes, and what `newp` is set to. -/
def readable2FatFormat (readable : List Byte) : List Byte × List Byte :=
  let readable := if readable.head? = some dirSep then readable.tail else readable
  let name := (readable.takeWhile fun c => c ≠ 0 ∧ c ≠ dirSep ∧ c ≠ dot).take 8
  let readable := readable.drop name.length
  let readable := if readable.head? = some dot then readable.tail else readable
  let ext := (readable.takeWhile fun c => c ≠ 0 ∧ c ≠ dirSep).take 3
  (name ++ List.replicate (8 - name.length) space ++
    (ext ++ List.replicate (3 - ext.length) space), readable.drop ext.length)

/-! ### Padding -/

/-- A field is what is left of it without its padding, padded again. -/
theorem stripSpaces_append (field : List Byte) :
    stripSpaces field ++ List.replicate (field.length - (stripSpaces field).length) space =
      field := by
  have hsplit : stripSpaces field ++ field.rtakeWhile (fun c => c = space) = field :=
    List.rdropWhile_append_rtakeWhile
  have hpad : field.rtakeWhile (fun c => c = space) =
      List.replicate (field.rtakeWhile fun c => c = space).length space := by
    rw [List.eq_replicate_iff]
    exact ⟨rfl, fun c hc => by simpa using List.mem_rtakeWhile_imp hc⟩
  have hlength := congrArg List.length hsplit
  rw [List.length_append] at hlength
  have hcount : field.length - (stripSpaces field).length =
      (field.rtakeWhile fun c => c = space).length := by omega
  rw [hcount, ← hpad, hsplit]

theorem stripSpaces_append_spaces (field : List Byte) (n : Nat) :
    stripSpaces (field ++ List.replicate n space) = stripSpaces field := by
  induction n with
  | zero => simp
  | succ n ih =>
    rw [List.replicate_succ', ← List.append_assoc]
    exact (List.rdropWhile_concat_pos _ _ _ (by simp)).trans ih

theorem mem_of_mem_stripSpaces {field : List Byte} {c : Byte} (h : c ∈ stripSpaces field) :
    c ∈ field :=
  (List.rdropWhile_prefix _ _).subset h

theorem stripSpaces_stripSpaces (field : List Byte) :
    stripSpaces (stripSpaces field) = stripSpaces field :=
  List.rdropWhile_idempotent _ _

/-- Stripping ends in the second part where something is left of it. -/
theorem stripSpaces_append_of_ne_nil (front : List Byte) {back : List Byte}
    (h : stripSpaces back ≠ []) : stripSpaces (front ++ back) = front ++ stripSpaces back := by
  have hpadded := stripSpaces_append back
  rw [← hpadded, ← List.append_assoc, stripSpaces_append_spaces, hpadded]
  refine List.rdropWhile_eq_self_iff.mpr fun hne => ?_
  rw [List.getLast_append_of_ne_nil hne h]
  exact List.rdropWhile_last_not _ _ h

theorem stripSpaces_ne_nil {ext : List Byte} (hlength : ext.length = 3)
    (h : ext ≠ [space, space, space]) : stripSpaces ext ≠ [] := by
  intro hnil
  have hall := List.rdropWhile_eq_nil_iff.mp hnil
  have hspaces : ext = List.replicate 3 space :=
    List.eq_replicate_iff.mpr ⟨hlength, fun c hc => by simpa using hall c hc⟩
  exact h hspaces

/-! ### The round trip -/

/-- A name in 8.3 format, as an entry in use holds it. -/
structure ShortName (name : List Byte) : Prop where
  length : name.length = 11
  chars : ∀ c ∈ name, c ≠ 0 ∧ c ≠ dirSep ∧ c ≠ dot
  notBlank : name.head? ≠ some space
  notDeleted : name.head? ≠ some deletedMark

/-- A string with a name and an extension that fit their fields. -/
theorem readable2FatFormat_parts {base ext rest : List Byte}
    (hbase : ∀ c ∈ base, c ≠ 0 ∧ c ≠ dirSep ∧ c ≠ dot) (hlength : base.length ≤ 8)
    (hext : ∀ c ∈ ext, c ≠ 0 ∧ c ≠ dirSep ∧ c ≠ dot) (hshort : ext.length ≤ 3)
    (hrest : rest = dot :: ext ∨ rest = [] ∧ ext = []) :
    readable2FatFormat (base ++ rest) =
      (base ++ List.replicate (8 - base.length) space ++
        (ext ++ List.replicate (3 - ext.length) space), []) := by
  have hhead : (base ++ rest).head? ≠ some dirSep := by
    cases base with
    | nil => obtain rfl | ⟨rfl, -⟩ := hrest <;> simp [dot, dirSep]
    | cons c cs =>
      intro hslash
      exact (hbase c List.mem_cons_self).2.1 (Option.some.inj hslash)
  have hname : ((base ++ rest).takeWhile fun c => c ≠ 0 ∧ c ≠ dirSep ∧ c ≠ dot) = base := by
    apply takeWhile_append_stop
    · intro c hc
      simpa using hbase c hc
    · intro c hc
      obtain rfl | ⟨rfl, -⟩ := hrest
      · obtain rfl : dot = c := Option.some.inj hc
        simp
      · cases hc
  have hbehind : (if rest.head? = some dot then rest.tail else rest) = ext := by
    obtain rfl | ⟨rfl, rfl⟩ := hrest <;> rfl
  have htail : (ext.takeWhile fun c => c ≠ 0 ∧ c ≠ dirSep) = ext := by
    rw [List.takeWhile_eq_self_iff]
    intro c hc
    simpa using ⟨(hext c hc).1, (hext c hc).2.1⟩
  unfold readable2FatFormat
  rw [if_neg hhead]
  dsimp only
  rw [hname, List.take_of_length_le hlength, List.drop_left, hbehind, htail,
    List.take_of_length_le hshort, List.drop_length]

/-- What the readable form is made of. -/
theorem fatFormat2Readable_parts {name : List Byte} (h : ShortName name) :
    fatFormat2Readable name = stripSpaces (name.take 8) ++
      (if stripSpaces (name.drop 8) = [] then [] else dot :: stripSpaces (name.drop 8)) := by
  have hlength : (name.drop 8).length = 3 := by rw [List.length_drop, h.length]
  have hext : (name.drop 8).take 3 = name.drop 8 :=
    List.take_of_length_le (Nat.le_of_eq hlength)
  unfold fatFormat2Readable
  rw [if_neg h.notDeleted, hext]
  dsimp only
  by_cases hblank : name.drop 8 = [space, space, space]
  · have hnone : stripSpaces [space, space, space] = [] := by decide
    rw [if_pos hblank, hblank, if_pos hnone, List.append_nil]
    exact (stripSpaces_append_spaces _ 3).trans (stripSpaces_stripSpaces _)
  · have hsome := stripSpaces_ne_nil hlength hblank
    rw [if_neg hblank, if_neg hsome, stripSpaces_append_of_ne_nil _ hsome, List.append_assoc]
    rfl

/-- The readable form of a short name gives the name back. -/
theorem readable2FatFormat_fatFormat2Readable {name : List Byte} (h : ShortName name) :
    (readable2FatFormat (fatFormat2Readable name)).1 = name := by
  have hbase : (name.take 8).length = 8 := by rw [List.length_take, h.length]; rfl
  have hext : (name.drop 8).length = 3 := by rw [List.length_drop, h.length]
  have hstrip (field : List Byte) : (stripSpaces field).length ≤ field.length :=
    (List.rdropWhile_prefix _ _).length_le
  have hchars {field : List Byte} (hsub : ∀ c ∈ field, c ∈ name) :
      ∀ c ∈ stripSpaces field, c ≠ 0 ∧ c ≠ dirSep ∧ c ≠ dot :=
    fun c hc => h.chars c (hsub c (mem_of_mem_stripSpaces hc))
  have hrest : ((if stripSpaces (name.drop 8) = [] then [] else
      dot :: stripSpaces (name.drop 8)) = dot :: stripSpaces (name.drop 8)) ∨
      ((if stripSpaces (name.drop 8) = [] then [] else
        dot :: stripSpaces (name.drop 8)) = [] ∧ stripSpaces (name.drop 8) = []) := by
    split
    · rename_i hnil
      exact .inr ⟨rfl, hnil⟩
    · exact .inl rfl
  rw [fatFormat2Readable_parts h, readable2FatFormat_parts
    (hchars fun c hc => List.mem_of_mem_take hc) ((hstrip _).trans (Nat.le_of_eq hbase))
    (hchars fun c hc => List.mem_of_mem_drop hc) ((hstrip _).trans (Nat.le_of_eq hext)) hrest]
  have hbaseFull := stripSpaces_append (name.take 8)
  have hextFull := stripSpaces_append (name.drop 8)
  rw [hbase] at hbaseFull
  rw [hext] at hextFull
  dsimp only
  rw [hbaseFull, hextFull, List.take_append_drop]

namespace DirEntry

variable (de : DirEntry)

/-- `LONGNAME_ENTRY`. -/
def LongName : Prop := attributes de &&& 0x0F ≠ 0

instance instDecidableLongName : Decidable (LongName de) :=
  inferInstanceAs (Decidable (_ ≠ _))

/-- `signature.is_deleted` of a `LongName_Entry`. -/
def isDeleted : Bool := (byteAt de 0).getLsbD 7

/-- The first byte of the name, by which an entry is in use, free or the last one. -/
def mark : Byte := byteAt de 0

/-- `VALID_ENTRY`. -/
def Valid : Prop :=
  mark de ≠ 0 ∧ mark de ≠ space ∧ mark de ≠ deletedMark ∧ ¬ LongName de

instance instDecidableValid : Decidable (Valid de) :=
  inferInstanceAs (Decidable (_ ∧ _ ∧ _ ∧ _))

/-- The attribute of an `FS_PUBLIC_DIR_ENTRY`. -/
def publicAttribute : Dword :=
  (if attributes de &&& 0x10 ≠ 0 then 0o40000 else 0o100000) |||
    (if attributes de &&& 0x20 = 0 then 0o111 else 0) |||
    (if attributes de &&& 0x01 ≠ 0 then 0o444 else 0o666)

end DirEntry

/-- The fields of an `FS_PUBLIC_DIR_ENTRY` that are set (`attr` is `attribute`). -/
structure PublicDirEntry where
  filename : List Byte
  attr : Dword
  fileSize : Dword
deriving DecidableEq

variable (v : Volume)

/-- `fs_open_dir` in the free descriptor `fd`, for the root directory or the entry that
`LocateEntry` finds. -/
def fsOpenDir (fd : FileData) (dirname : List Byte) : Option DirEntry → FileData
  | none =>
    { fd with
      currentFileName := some dirname
      isRoot := true
      currentCluster := 0
      inSynch := false
      dirMode := true
      fileOffset := 0 }
  | some de =>
    { fd with
      currentFileName := some dirname
      dirEntry := de
      currentCluster := DirEntry.startingCluster de
      isRoot := false
      inSynch := false
      dirMode := true
      fileOffset := 0 }

/-! ### Long names -/

/-- The index of the last character of `LongName`, where `p` starts. -/
def maxLongFilenameLen : Int := 255

/-- The variables that the entries change: `LongName`, `p`, and the entries that are written
to `direntries`. -/
structure Listing where
  longName : Int → Byte
  p : Int
  direntries : List PublicDirEntry

/-- The three copies of a part of a long name to `p`. -/
def storeLongName (longName : Int → Byte) (p : Int) (de : DirEntry) (index : Int) : Byte :=
  let i := index - p
  if 0 ≤ i ∧ i < 5 then DirEntry.byteAt de (1 + 2 * i.toNat)
  else if 5 ≤ i ∧ i < 11 then DirEntry.byteAt de (14 + 2 * (i - 5).toNat)
  else if 11 ≤ i ∧ i < 13 then DirEntry.byteAt de (28 + 2 * (i - 11).toNat)
  else longName index

/-- The string at `p`. -/
def longNameString (longName : Int → Byte) (p : Int) : List Byte :=
  ((List.range (maxLongFilenameLen - p).toNat).map fun i : Nat => longName (p + i)).takeWhile
    fun c => c ≠ 0

/-- The body of the loop of `fs_read_dir`, up to the step to the next entry. -/
def listEntry (de : DirEntry) (l : Listing) : Listing :=
  let l := if DirEntry.LongName de ∧ ¬ DirEntry.isDeleted de then
      { l with p := l.p - 13, longName := storeLongName l.longName (l.p - 13) de }
    else l
  if DirEntry.Valid de then
    let filename := if l.longName l.p ≠ 0 then longNameString l.longName l.p
      else fatFormat2Readable (DirEntry.filename de)
    { l with
      p := maxLongFilenameLen
      direntries := l.direntries ++
        [⟨filename, DirEntry.publicAttribute de, DirEntry.fileSize de⟩] }
  else l

/-! ### The loop -/

/-- The entry of the buffer at the offset of the descriptor. -/
def bufferedEntry (fd : FileData) : DirEntry :=
  (fd.cluster.drop (32 * ((fd.fileOffset % v.bytesPerCluster) >>> 5).toNat)).take 32

/-- The first entry of a call; `none` where it returns 0. -/
def startDir (fd : FileData) : FileData × Option DirEntry :=
  if fd.isRoot then (fd, v.rootDir[fd.fileOffset.toNat]?)
  else
    let moved := fd.fileOffset / v.bytesPerCluster ≠ fd.currentCluster / v.bytesPerCluster
    let seek := fsLseek v fd fd.fileOffset seekSet
    if moved ∧ seek.1.toInt < 0 then (fd, none)
    else
      let fd := if moved then seek.2 else fd
      if v.FatEof fd.currentCluster then (fd, none)
      else
        let fd := synchronize v fd
        (fd, some (bufferedEntry v fd))

/-- The step to the next entry; `none` where the loop breaks. -/
def nextDir (fd : FileData) : FileData × Option DirEntry :=
  if fd.isRoot then
    let fd := { fd with fileOffset := fd.fileOffset + 1 }
    (fd, v.rootDir[fd.fileOffset.toNat]?)
  else
    let fd := { fd with fileOffset := fd.fileOffset + 32 }
    if fd.fileOffset % v.bytesPerCluster = 0 then
      let fd := structNextCluster v fd
      if v.FatEof fd.currentCluster then (fd, none)
      else
        let fd := getCluster v fd fd.currentCluster
        (fd, some (bufferedEntry v fd))
    else (fd, some (bufferedEntry v fd))

/-- The loop of `fs_read_dir`, for at most `fuel` entries. -/
def readLoop (count : Dword) :
    Nat → FileData → DirEntry → Listing → Option (FileData × Listing)
  | 0, _, _, _ => none
  | fuel + 1, fd, de, l =>
    if l.direntries.length < count.toNat ∧ DirEntry.mark de ≠ 0 then
      match nextDir v fd with
      | (fd, none) => some (fd, listEntry de l)
      | (fd, some de') => readLoop count fuel fd de' (listEntry de l)
    else some (fd, l)

/-- The globals that a call changes. -/
structure Driver where
  fd : FileData
  longName : Int → Byte

/-- `fs_read_dir`: the entries that it writes and returns the number of. The loop may go on as
far as the offset does before it wraps. -/
def fsReadDir (s : Driver) (count : Dword) : Option (List PublicDirEntry × Driver) :=
  if s.fd.currentFileName.isNone ∨ ¬ s.fd.dirMode then some ([], s)
  else
    match startDir v s.fd with
    | (fd, none) => some ([], { s with fd := fd })
    | (fd, some de) =>
      (readLoop v count (2 ^ 27) fd de ⟨s.longName, maxLongFilenameLen, []⟩).map fun (fd, l) =>
        (l.direntries, ⟨fd, l.longName⟩)

end OsdevArchive.Osso.Fat
