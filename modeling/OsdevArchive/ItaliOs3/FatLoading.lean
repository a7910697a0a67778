import OsdevArchive.ItaliOs3.FatPaths

/-!
`carica_file` and `dim_file`: exactly when they take a file as long as its chain.
-/

namespace OsdevArchive.ItaliOs3.Fat

open OsdevArchive.Lib.ByteBuffer OsdevArchive.Lib.Chained

section Contract

variable (v : Volume) (dirs : List (List Byte)) (nome : List Byte)

/-- The clusters are copied one after the other, and both functions return their length. -/
def Copied (cs : List Nat) : Prop :=
  ∃ rounds, caricaFile v.toDisk rounds (pathOf dirs nome) =
      some ((contents (clusterData v) cs).length, contents (clusterData v) cs) ∧
    dimFile v.toDisk rounds (pathOf dirs nome) = some (contents (clusterData v) cs).length

/-- The chain of a file is copied; where there is no file, no chain is followed. -/
def Meets : Prop :=
  (∀ e cs, Finds v 0 dirs nome e → FileChain v (DirEntry.start e) cs → Copied v dirs nome cs) ∧
  ((∀ e, ¬ Finds v 0 dirs nome e) →
    caricaFile v.toDisk 0 (pathOf dirs nome) = some (0, []) ∧
      dimFile v.toDisk 0 (pathOf dirs nome) = some 0)

end Contract

variable {v : Volume} {dirs : List (List Byte)} {nome : List Byte} {cs : List Nat}

theorem contents_bytes (v : Volume) (cs : List Nat) :
    (contents (clusterData v) cs).length = cs.length * v.d.clusterBytes := by
  apply contents_length
  intro c
  unfold clusterData
  rw [List.length_map, List.length_range']

/-- A file that is found is taken right exactly if the disk has clusters of 512 bytes and its
chain ends in 0xFFF. -/
theorem copied_iff {start : Nat}
    (htrova : trovaFile v.toDisk ((pathOf dirs nome).length + 1) (pathOf dirs nome) v.d.rootDir =
      some start) (h : Chain (fatEntry v) EndMark start cs) (hne : cs ≠ []) (hin : InVolume v cs) :
    Copied v dirs nome cs ↔ v.d.clusterBytes = 512 ∧ EndsPlain v cs := by
  have hshort := chain_short h hin
  have hstart : start ≠ 0 := by
    obtain ⟨_, rfl, -⟩ := h.eq_cons fun hstop => hne (h.eq_nil hstop)
    have hfirst := (hin start List.mem_cons_self).1
    omega
  have hcarica (rounds : Nat) : caricaFile v.toDisk rounds (pathOf dirs nome) =
      leggiFile v.toDisk rounds start 0 [] := by
    unfold caricaFile
    rw [htrova]
    exact if_pos hstart
  have hdim (rounds : Nat) : dimFile v.toDisk rounds (pathOf dirs nome) =
      dimChain v.toDisk rounds start 0 := by
    unfold dimFile
    rw [htrova]
    exact if_pos hstart
  constructor
  · rintro ⟨rounds, hrun, -⟩
    rw [hcarica] at hrun
    by_cases hend : EndsPlain v cs
    · refine ⟨?_, hend⟩
      have hlength := leggiFile_length h hne hin hend (by omega) hrun
      rw [contents_bytes, Nat.zero_add] at hlength
      exact Nat.eq_of_mul_eq_mul_left (List.length_pos_of_ne_nil hne) hlength
    · rw [leggiFile_fails h hne hin hend] at hrun
      cases hrun
  · rintro ⟨hbytes, hend⟩
    refine ⟨cs.length, ?_, ?_⟩
    · rw [hcarica, leggiFile_eq h hne hin hend (by omega) hbytes, contents_bytes, hbytes,
        Nat.zero_add, List.nil_append]
    · rw [hdim, dimChain_eq h hne hin hend (by omega), contents_bytes, hbytes, Nat.zero_add]

/-- For a path that `trova_file` can follow, the file is taken right exactly if the disk has
clusters of 512 bytes and the chain ends in 0xFFF, or the file is empty. -/
theorem carica_file_meets_iff (hw : WellChained v) (hdirs : ∀ d ∈ dirs, Component d)
    (hn : Component nome) (hlength : (pathOf dirs nome).length < 100)
    (hplain : Plain v 0 dirs nome) :
    Meets v dirs nome ↔
      ∀ e cs, Finds v 0 dirs nome e → FileChain v (DirEntry.start e) cs → cs ≠ [] →
        v.d.clusterBytes = 512 ∧ EndsPlain v cs := by
  obtain ⟨r, htrova, hright, hnone⟩ :=
    trovaFile_finds hw .root hplain hdirs hn hlength (Nat.lt_succ_self _)
  have hroot : dirPos v 0 = v.d.rootDir := rfl
  rw [hroot] at htrova
  have hzero (rounds : Nat) (hr : r = 0) :
      caricaFile v.toDisk rounds (pathOf dirs nome) = some (0, []) ∧
        dimFile v.toDisk rounds (pathOf dirs nome) = some 0 := by
    unfold caricaFile dimFile
    rw [htrova, hr]
    exact ⟨rfl, rfl⟩
  constructor
  · rintro ⟨hall, -⟩ e cs he hchain hne
    obtain ⟨-, hnil⟩ | ⟨-, h, hin⟩ := hchain
    · exact absurd hnil hne
    · rw [hright e he] at htrova
      exact (copied_iff htrova h hne hin).mp (hall e cs he (.inr ⟨hne, h, hin⟩))
  · intro hok
    refine ⟨fun e cs he hchain => ?_, fun hno => hzero 0 (hnone hno)⟩
    have hcopy := hok e cs he hchain
    obtain ⟨hz, rfl⟩ | ⟨hne, h, hin⟩ := hchain
    · exact ⟨0, hzero 0 ((hright e he).trans hz)⟩
    · rw [hright e he] at htrova
      exact (copied_iff htrova h hne hin).mpr (hcopy hne)

/-! ### Two volumes -/

/-- A disk with the file `A.TXT` in its first cluster. -/
def sampleDisk (clusterSize : Nat) : Disk where
  bytes
    | 515 => 0xFF
    | 516 => 0x0F
    | 1024 => 0x41
    | 1032 => 0x54
    | 1033 => 0x58
    | 1034 => 0x54
    | 1050 => 2
    | n => if 1025 ≤ n ∧ n < 1032 then space else 0
  size := 2560
  boot := ⟨512, clusterSize, 1, 1, 16, 1⟩

/-- Its clusters have one sector or two. -/
def sampleVolume (big : Bool) : Volume where
  toDisk := sampleDisk (if big then 2 else 1)
  clusters := if big then 1 else 2
  few := by cases big <;> decide
  clusterBytes_pos := by cases big <;> decide
  clusterBytes_le := by cases big <;> decide
  small := by cases big <;> decide
  fat := by cases big <;> decide
  data := by cases big <;> decide
  full := by cases big <;> decide

/-- `a.txt`. -/
def sampleName : List Byte := [0x61, dot, 0x74, 0x78, 0x74]

theorem sampleVolume_live (big : Bool) : live (firstEntries (sampleVolume big) 0) =
    [entryAt (sampleVolume big) 1024] := by
  cases big <;> decide +kernel

theorem sampleVolume_chain (big : Bool) : FileChain (sampleVolume big) 2 [2] := by
  refine .inr ⟨List.cons_ne_nil _ _, .cons (by decide) (.nil ?_), ?_⟩
  · cases big <;> decide +kernel
  · cases big <;> decide

theorem sampleVolume_directory {big : Bool} {c : Nat} (h : IsDirectory (sampleVolume big) c) :
    c = 0 := by
  induction h with
  | root => rfl
  | @sub c es e _ hentries hlive _ hdir ih =>
    obtain ⟨-, rfl⟩ | ⟨hne, -⟩ := hentries
    · rw [sampleVolume_live, List.mem_singleton] at hlive
      have hnot : ¬ DirEntry.IsDir (entryAt (sampleVolume big) 1024) := by
        cases big <;> decide +kernel
      rw [hlive] at hdir
      exact absurd hdir hnot
    · exact absurd ih hne

theorem sampleVolume_entries {big : Bool} {es : List DirEntry}
    (h : Entries (sampleVolume big) 0 es) : es = firstEntries (sampleVolume big) 0 := by
  obtain ⟨-, heq⟩ | ⟨hne, -⟩ := h
  · exact heq
  · exact absurd rfl hne

theorem sampleVolume_start (big : Bool) :
    DirEntry.start (entryAt (sampleVolume big) 1024) = 2 := by
  cases big <;> decide +kernel

theorem sampleVolume_wellChained (big : Bool) : WellChained (sampleVolume big) := by
  intro c es hdir hentries e hlive _
  obtain rfl := sampleVolume_directory hdir
  obtain rfl := sampleVolume_entries hentries
  rw [sampleVolume_live, List.mem_singleton] at hlive
  rw [hlive, sampleVolume_start]
  exact ⟨_, sampleVolume_chain big⟩

theorem carica_file_meets_sample : Meets (sampleVolume false) [] sampleName := by
  have hplain : Plain (sampleVolume false) 0 [] sampleName := by
    refine ⟨by decide, ⟨entryAt (sampleVolume false) 1024, ?_, .inr (by decide +kernel)⟩, ?_⟩
    · exact mem_live (by rw [sampleVolume_live]; exact List.mem_singleton_self _)
    · intro e he _
      rw [sampleVolume_live, List.mem_singleton] at he
      rw [he]
      decide +kernel
  refine (carica_file_meets_iff (sampleVolume_wellChained false)
    (fun d hd => absurd hd List.not_mem_nil) (by unfold Component; decide) (by decide)
    hplain).mpr ?_
  intro e cs hfinds hchain _
  cases hfinds with
  | file hentries hfind =>
    have hmem := List.mem_of_find?_eq_some hfind
    rw [sampleVolume_entries hentries, sampleVolume_live, List.mem_singleton] at hmem
    rw [hmem, sampleVolume_start] at hchain
    obtain ⟨hzero, -⟩ | ⟨-, h, -⟩ := hchain
    · cases hzero
    · obtain ⟨hzero, -⟩ | ⟨-, k, -⟩ := sampleVolume_chain false
      · cases hzero
      · rw [h.unique k]
        exact ⟨rfl, endsPlain_single.mpr (by decide +kernel)⟩

/-- Half of a cluster of 1024 bytes is copied. -/
theorem large_cluster_cut : ¬ Meets (sampleVolume true) [] sampleName := by
  rintro ⟨hall, -⟩
  have hfind : (live (firstEntries (sampleVolume true) 0)).find? (isFile sampleName) =
      some (entryAt (sampleVolume true) 1024) := by
    rw [sampleVolume_live]
    decide +kernel
  have hchain := sampleVolume_chain true
  have hcopied := hall _ [2] (.file (.inl ⟨rfl, rfl⟩) hfind) (by rwa [sampleVolume_start])
  obtain ⟨hzero, -⟩ | ⟨hne, h, hin⟩ := hchain
  · cases hzero
  · have hbytes := ((copied_iff (by decide +kernel) h hne hin).mp hcopied).1
    exact absurd hbytes (by decide)

end OsdevArchive.ItaliOs3.Fat
