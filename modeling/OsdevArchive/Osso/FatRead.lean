import OsdevArchive.Lib.Runs
import OsdevArchive.Osso.Fat

/-!
Reading an open file of a FAT volume. A descriptor keeps its position twice, as an offset and
as a cluster, beside the buffer of that cluster. The loops of `fs_read` deliver what the chain
holds from the offset on; the cluster keeps up with the offset unless the read starts inside of
a cluster and ends before the end of it.
-/

namespace OsdevArchive.Osso.Fat

open OsdevArchive.Lib.Chained OsdevArchive.Lib.Runs

variable {v : Volume}

/-! ### The stages of a read -/

/-- The descriptor moves along its file: only the place and the buffer differ. -/
structure SameFile (fd fd' : FileData) : Prop where
  name : fd'.currentFileName = fd.currentFileName
  entry : fd'.dirEntry = fd.dirEntry
  mode : fd'.dirMode = fd.dirMode
  root : fd'.isRoot = fd.isRoot
  offset : fd'.fileOffset = fd.fileOffset

theorem SameFile.refl (fd : FileData) : SameFile fd fd :=
  ⟨rfl, rfl, rfl, rfl, rfl⟩

theorem SameFile.trans {a b c : FileData} (h : SameFile a b) (k : SameFile b c) :
    SameFile a c :=
  ⟨k.name.trans h.name, k.entry.trans h.entry, k.mode.trans h.mode, k.root.trans h.root,
    k.offset.trans h.offset⟩

/-- The descriptor stands in front of the clusters `cs`. -/
structure Before (v : Volume) (fd : FileData) (cs : List Dword) : Prop where
  chain : v.Chain fd.currentCluster cs
  buffer : fd.inSynch = true → fd.cluster = v.readCluster fd.currentCluster

theorem synchronize_cluster {fd : FileData} {cs : List Dword} (h : Before v fd cs) :
    (synchronize v fd).cluster = v.readCluster fd.currentCluster := by
  cases hsynch : fd.inSynch with
  | false => simp [synchronize, getCluster, hsynch]
  | true => simpa [synchronize, hsynch] using h.buffer hsynch

theorem synchronize_currentCluster (fd : FileData) :
    (synchronize v fd).currentCluster = fd.currentCluster := by
  cases hsynch : fd.inSynch <;> simp [synchronize, getCluster, hsynch]

theorem synchronize_same (fd : FileData) : SameFile fd (synchronize v fd) := by
  cases hsynch : fd.inSynch <;>
    simp only [synchronize, getCluster, hsynch] <;> exact ⟨rfl, rfl, rfl, rfl, rfl⟩

theorem Before.synchronize {fd : FileData} {cs : List Dword} (h : Before v fd cs) :
    Before v (synchronize v fd) cs where
  chain := by
    rw [synchronize_currentCluster]
    exact h.chain
  buffer := by
    intro _
    rw [synchronize_cluster h, synchronize_currentCluster]

theorem structNextCluster_same (fd : FileData) : SameFile fd (structNextCluster v fd) :=
  ⟨rfl, rfl, rfl, rfl, rfl⟩

/-- A descriptor in front of a cluster stands in front of the rest behind
`Struct_NextCluster`. -/
theorem Before.next {fd : FileData} {c : Dword} {cs : List Dword} (h : Before v fd (c :: cs)) :
    c = fd.currentCluster ∧ ¬ v.FatEof fd.currentCluster ∧
      Before v (structNextCluster v fd) cs := by
  have hgo : ¬ v.FatEof fd.currentCluster := by
    intro hstop
    cases h.chain.eq_nil hstop
  obtain ⟨tail, htail, hchain⟩ := h.chain.eq_cons hgo
  cases htail
  exact ⟨rfl, hgo, hchain, by simp [structNextCluster]⟩

/-- A transfer has counted the bytes that it has delivered. -/
def Transfer.Counted (r : Transfer) : Prop :=
  r.numbytes = BitVec.ofNat 32 r.memory.length

/-- A stage of a read: it delivers `bytes` and leaves the descriptor in front of `cs`. -/
structure Delivers (v : Volume) (r r' : Transfer) (bytes : List Byte) (cs : List Dword) :
    Prop where
  memory : r'.memory = r.memory ++ bytes
  counted : r.Counted → r'.Counted
  before : Before v r'.fd cs
  same : SameFile r.fd r'.fd

theorem Delivers.refl {r : Transfer} {cs : List Dword} (h : Before v r.fd cs) :
    Delivers v r r [] cs :=
  ⟨(List.append_nil _).symm, id, h, .refl _⟩

theorem Delivers.trans {a b c : Transfer} {xs ys : List Byte} {cs ds : List Dword}
    (h : Delivers v a b xs cs) (k : Delivers v b c ys ds) : Delivers v a c (xs ++ ys) ds where
  memory := by rw [k.memory, h.memory, List.append_assoc]
  counted := k.counted ∘ h.counted
  before := k.before
  same := h.same.trans k.same

theorem counted_append {r : Transfer} {bytes : List Byte} {n : Dword}
    (h : r.Counted) (hn : bytes.length = n.toNat) :
    r.numbytes + n = BitVec.ofNat 32 (r.memory ++ bytes).length := by
  rw [h, List.length_append, hn, BitVec.ofNat_add, BitVec.ofNat_toNat, BitVec.setWidth_eq]

theorem readFirst_idle {start : Dword} {r : Transfer}
    (h : start = 0 ∨ r.count = 0 ∨ v.FatEof r.fd.currentCluster) : readFirst v start r = r := by
  unfold readFirst
  rw [if_neg]
  rintro ⟨hstart, hcount, hgo⟩
  obtain h | h | h := h <;> contradiction

/-- The part of the first cluster. -/
theorem readFirst_delivers {start : Dword} {r : Transfer} {c : Dword} {cs : List Dword}
    (h : Before v r.fd (c :: cs)) (hstart : start ≠ 0) (hcount : r.count ≠ 0)
    (hinside : start.toNat < v.bytesPerCluster.toNat) :
    let n := min r.count.toNat (v.bytesPerCluster.toNat - start.toNat)
    Delivers v r (readFirst v start r) (((v.readCluster c).drop start.toNat).take n) cs ∧
      (readFirst v start r).count.toNat = r.count.toNat - n := by
  intro n
  obtain ⟨rfl, hgo, hnext⟩ := h.next
  have hsub : (v.bytesPerCluster - start).toNat = v.bytesPerCluster.toNat - start.toNat :=
    BitVec.toNat_sub_of_le (BitVec.le_def.mpr (Nat.le_of_lt hinside))
  obtain ⟨num, hnum, hmin⟩ : ∃ num : Dword, num.toNat = n ∧ num =
      if r.count < v.bytesPerCluster - start then r.count else v.bytesPerCluster - start := by
    refine ⟨_, ?_, rfl⟩
    split
    · rename_i hlt
      rw [BitVec.lt_def, hsub] at hlt
      exact (Nat.min_eq_left (Nat.le_of_lt hlt)).symm
    · rename_i hge
      rw [BitVec.lt_def, hsub, Nat.not_lt] at hge
      rw [hsub]
      exact (Nat.min_eq_right hge).symm
  have hbytes : (((v.readCluster r.fd.currentCluster).drop start.toNat).take n).length =
      num.toNat := by
    rw [List.length_take, List.length_drop, v.readCluster_length, hnum]
    omega
  unfold readFirst
  rw [if_pos ⟨hstart, hcount, hgo⟩, ← hmin]
  dsimp only
  rw [synchronize_cluster h, hnum]
  refine ⟨⟨rfl, ?_, ?_, ?_⟩, ?_⟩
  · exact fun hc => counted_append hc hbytes
  · obtain ⟨-, -, hafter⟩ := (synchronize_currentCluster (v := v) r.fd ▸ h.synchronize).next
    exact hafter
  · exact (synchronize_same _).trans (structNextCluster_same _)
  · rw [BitVec.toNat_sub_of_le, hnum]
    rw [BitVec.le_def, hnum]
    exact Nat.min_le_left _ _

/-- The whole clusters: as many as are asked for, or all that there are. -/
theorem readWhole_delivers {rounds : Nat} {r : Transfer} {cs : List Dword}
    (h : Before v r.fd cs) (hrounds : r.count.toNat ≤ rounds) :
    let whole := r.count.toNat / v.bytesPerCluster.toNat
    Delivers v r (readWhole v rounds r) (contents v.readCluster (cs.take whole)) (cs.drop whole) ∧
      (cs.drop whole ≠ [] →
        (readWhole v rounds r).count.toNat = r.count.toNat % v.bytesPerCluster.toNat) := by
  induction rounds generalizing r cs with
  | zero =>
    have hzero : r.count.toNat = 0 := Nat.le_zero.mp hrounds
    simp only [hzero, Nat.zero_div, Nat.zero_mod, List.take_zero, List.drop_zero]
    exact ⟨.refl h, fun _ => hzero⟩
  | succ rounds ih =>
    intro whole
    have hpos := v.bytesPerCluster_pos
    cases cs with
    | nil =>
      have hstop : v.FatEof r.fd.currentCluster := h.chain.stop_iff.mpr rfl
      have hidle : readWhole v (rounds + 1) r = r := if_neg fun hgo => hgo.1 hstop
      rw [hidle]
      simpa using Delivers.refl h
    | cons c cs =>
      obtain ⟨rfl, hgo, hnext⟩ := h.next
      by_cases hmore : v.bytesPerCluster ≤ r.count
      · have hle := BitVec.le_def.mp hmore
        have hcount := BitVec.toNat_sub_of_le hmore
        let r' : Transfer := ⟨structNextCluster v r.fd, r.count - v.bytesPerCluster,
          r.numbytes + v.bytesPerCluster, r.memory ++ v.readCluster r.fd.currentCluster⟩
        have hstep : readWhole v (rounds + 1) r = readWhole v rounds r' := if_pos ⟨hgo, hmore⟩
        have hround : Delivers v r r' (v.readCluster r.fd.currentCluster) cs :=
          ⟨rfl, fun hc => counted_append hc (v.readCluster_length _), hnext,
            structNextCluster_same _⟩
        have hwhole : whole = (r'.count.toNat) / v.bytesPerCluster.toNat + 1 := by
          rw [hcount]
          exact Nat.div_eq_sub_div hpos hle
        have hrest : r.count.toNat % v.bytesPerCluster.toNat =
            r'.count.toNat % v.bytesPerCluster.toNat := by
          rw [hcount]
          exact Nat.mod_eq_sub_mod hle
        obtain ⟨hmoved, hleft⟩ := ih (r := r') hnext (by rw [hcount]; omega)
        rw [hstep, hwhole, hrest, List.take_succ_cons, List.drop_succ_cons]
        exact ⟨hround.trans hmoved, hleft⟩
      · have hidle : readWhole v (rounds + 1) r = r := if_neg fun hgo => hmore hgo.2
        have hless : r.count.toNat < v.bytesPerCluster.toNat := by
          simpa [BitVec.le_def] using hmore
        have hnone : whole = 0 := Nat.div_eq_of_lt hless
        rw [hidle, hnone, Nat.mod_eq_of_lt hless]
        exact ⟨.refl h, fun _ => rfl⟩

/-- The part of the last cluster. -/
theorem readLast_delivers {r : Transfer} {cs : List Dword} (h : Before v r.fd cs)
    (hcount : cs ≠ [] → r.count.toNat < v.bytesPerCluster.toNat) :
    Delivers v r (readLast v r) ((contents v.readCluster cs).take r.count.toNat) cs := by
  cases cs with
  | nil =>
    have hstop : v.FatEof r.fd.currentCluster := h.chain.stop_iff.mpr rfl
    have hidle : readLast v r = r := if_neg fun hgo => hgo.2 hstop
    rw [hidle, contents_nil, List.take_nil]
    exact .refl h
  | cons c cs =>
    have hless := hcount (List.cons_ne_nil c cs)
    obtain ⟨rfl, hgo, -⟩ := h.next
    have hfit : r.count.toNat ≤ (v.readCluster r.fd.currentCluster).length := by
      rw [v.readCluster_length]
      exact Nat.le_of_lt hless
    rw [contents_cons, List.take_append_of_le_length hfit]
    by_cases hzero : r.count = 0
    · have hidle : readLast v r = r := if_neg fun hgo => hgo.1 hzero
      rw [hidle, hzero]
      simpa using Delivers.refl h
    · unfold readLast
      rw [if_pos ⟨hzero, hgo⟩]
      dsimp only
      rw [synchronize_cluster h]
      have hbytes := List.length_take_of_le hfit
      exact ⟨rfl, fun hc => counted_append hc hbytes, h.synchronize, synchronize_same _⟩

/-- Behind the first cluster: what is asked for, as far as the chain goes. -/
theorem readRest_delivers {r : Transfer} {cs : List Dword} (h : Before v r.fd cs) :
    Delivers v r (readLast v (readWhole v r.count.toNat r))
      ((contents v.readCluster cs).take r.count.toNat)
      (cs.drop (r.count.toNat / v.bytesPerCluster.toNat)) := by
  obtain ⟨hwhole, hcount⟩ := readWhole_delivers h (Nat.le_refl r.count.toNat)
  rw [contents_take v.readCluster_length]
  apply hwhole.trans
  by_cases hend : cs.drop (r.count.toNat / v.bytesPerCluster.toNat) = []
  · rw [hend] at hwhole ⊢
    simpa using readLast_delivers hwhole.before (fun hne => absurd rfl hne)
  · rw [← hcount hend]
    refine readLast_delivers hwhole.before fun _ => ?_
    rw [hcount hend]
    exact Nat.mod_lt _ v.bytesPerCluster_pos

/-! ### Files -/

/-- A file of a volume: its directory entry, and the chain of its clusters, which is long
enough for its size. -/
structure File (v : Volume) where
  entry : DirEntry
  chain : List Dword
  chained : v.Chain (DirEntry.startingCluster entry) chain
  covered : (DirEntry.fileSize entry).toNat ≤ chain.length * v.bytesPerCluster.toNat

namespace File

variable (f : File v)

def size : Nat := (DirEntry.fileSize f.entry).toNat

/-- What the clusters of the file hold. -/
def stored : List Byte := contents v.readCluster f.chain

def bytes : List Byte := f.stored.take f.size

theorem stored_length : f.stored.length = f.chain.length * v.bytesPerCluster.toNat :=
  contents_length v.readCluster_length _

theorem size_le : f.size ≤ f.chain.length * v.bytesPerCluster.toNat := f.covered

theorem size_lt : f.size < 2 ^ 32 := BitVec.isLt _

/-- The clusters from the one on that holds the byte at `offset`. -/
def clustersFrom (offset : Nat) : List Dword :=
  f.chain.drop (offset / v.bytesPerCluster.toNat)

/-- The descriptor is open for the file, and its cluster and its buffer are those of its
offset. -/
structure Opened (fd : FileData) : Prop where
  name : fd.currentFileName.isSome
  entry : fd.dirEntry = f.entry
  mode : fd.dirMode = false
  inside : fd.fileOffset.toNat ≤ f.size
  synced : Before v fd (f.clustersFrom fd.fileOffset.toNat)

theorem opened_fsOpen (fd : FileData) (filename : List Byte) :
    f.Opened (fsOpen fd filename f.entry) where
  name := rfl
  entry := rfl
  mode := rfl
  inside := Nat.zero_le _
  synced := by
    refine ⟨?_, fun h => by cases h⟩
    simpa [clustersFrom, fsOpen] using f.chained

/-- The index of the cluster in front of which a read of `count` bytes from `offset` on
leaves the descriptor. A part of the first cluster always moves it on. -/
def reached (v : Volume) (offset count : Nat) : Nat :=
  if offset % v.bytesPerCluster.toNat = 0 ∨ count = 0 then
    (offset + count) / v.bytesPerCluster.toNat
  else
    offset / v.bytesPerCluster.toNat + 1 +
      (count - (v.bytesPerCluster.toNat - offset % v.bytesPerCluster.toNat)) /
        v.bytesPerCluster.toNat

theorem reached_eq_of_even {offset count : Nat}
    (h : offset % v.bytesPerCluster.toNat = 0 ∨ count = 0) :
    reached v offset count =
      offset / v.bytesPerCluster.toNat + count / v.bytesPerCluster.toNat := by
  unfold reached
  rw [if_pos h]
  obtain heven | hnone := h
  · exact Nat.add_div_of_dvd_right (Nat.dvd_of_mod_eq_zero heven)
  · simp [hnone]

/-- The part of a block behind `start` and the blocks behind it, read in two pieces. -/
theorem take_part (c : Dword) (cs : List Dword) {start : Nat} (count : Nat)
    (hstart : start < v.bytesPerCluster.toNat) :
    let n := min count (v.bytesPerCluster.toNat - start)
    ((contents v.readCluster (c :: cs)).drop start).take count =
      ((v.readCluster c).drop start).take n ++
        (contents v.readCluster cs).take (count - n) := by
  intro n
  have hlength := v.readCluster_length c
  have hpart : ((v.readCluster c).drop start).length = v.bytesPerCluster.toNat - start := by
    rw [List.length_drop, hlength]
  have hle : start ≤ (v.readCluster c).length := by omega
  rw [contents_cons, List.drop_append_of_le_length hle, List.take_append, hpart]
  congr 1
  · rw [List.take_eq_take_iff, hpart]
    omega
  · congr 1
    omega

/-- The stages together deliver what the chain holds from the offset on. -/
theorem stages_deliver {r : Transfer} {start : Dword} {offset : Nat}
    (hstart : start.toNat = offset % v.bytesPerCluster.toNat)
    (h : Before v r.fd (f.clustersFrom offset)) :
    Delivers v r (readStages v start r) ((f.stored.drop offset).take r.count.toNat)
      (f.chain.drop (reached v offset r.count.toNat)) := by
  obtain ⟨first, hfirst⟩ : ∃ first, first = readFirst v start r := ⟨_, rfl⟩
  have hstages : readStages v start r = readLast v (readWhole v first.count.toNat first) := by
    rw [hfirst]
    rfl
  have hplace : f.stored.drop offset =
      (contents v.readCluster (f.clustersFrom offset)).drop start.toNat := by
    rw [hstart]
    exact contents_drop_place v.readCluster_length _ _
  rw [hplace, hstages]
  by_cases hidle : start = 0 ∨ r.count = 0
  · rw [readFirst_idle (hidle.imp_right Or.inl)] at hfirst
    have heven : offset % v.bytesPerCluster.toNat = 0 ∨ r.count.toNat = 0 := by
      rw [← hstart]
      exact hidle.imp (fun hz => by rw [hz]; rfl) (fun hz => by rw [hz]; rfl)
    have hbytes : ((contents v.readCluster (f.clustersFrom offset)).drop start.toNat).take
        r.count.toNat = (contents v.readCluster (f.clustersFrom offset)).take r.count.toNat := by
      obtain hzero | hzero := hidle <;> simp [hzero]
    rw [hfirst, hbytes, reached_eq_of_even heven, ← List.drop_drop]
    exact readRest_delivers h
  · obtain ⟨hsome, hcount⟩ := not_or.mp hidle
    have hinside : start.toNat < v.bytesPerCluster.toNat := by
      rw [hstart]
      exact Nat.mod_lt _ v.bytesPerCluster_pos
    have hodd : ¬ (offset % v.bytesPerCluster.toNat = 0 ∨ r.count.toNat = 0) := by
      rw [← hstart]
      rintro (hz | hz)
      · exact hsome (BitVec.eq_of_toNat_eq hz)
      · exact hcount (BitVec.eq_of_toNat_eq hz)
    unfold reached
    rw [if_neg hodd, ← hstart, ← List.drop_drop, ← List.drop_drop]
    change Delivers v r _ _ (((f.clustersFrom offset).drop 1).drop _)
    cases hclusters : f.clustersFrom offset with
    | nil =>
      rw [hclusters] at h
      have hstop : v.FatEof r.fd.currentCluster := h.chain.stop_iff.mpr rfl
      rw [readFirst_idle (.inr (.inr hstop))] at hfirst
      rw [hfirst]
      simpa using readRest_delivers h
    | cons c cs =>
      rw [hclusters] at h
      obtain ⟨hpart, hleft⟩ := readFirst_delivers h hsome hcount hinside
      rw [← hfirst] at hpart hleft
      have hrest := readRest_delivers hpart.before
      have hasked : r.count.toNat - (v.bytesPerCluster.toNat - start.toNat) =
          first.count.toNat := by
        rw [hleft]
        omega
      rw [take_part c cs r.count.toNat hinside, ← hleft, hasked, List.drop_one, List.tail_cons]
      exact hpart.trans hrest

/-- `fs_read` from the position of the descriptor on, whatever the size of the file is: `m` is
the number of bytes that is left of the request. -/
theorem readFrom_delivers {fd : FileData} (hopen : f.Opened fd) (count : Dword) :
    let m := (resizeCount fd fd.fileOffset count).toNat
    let r := readFrom v fd fd.fileOffset count
    r.2.1 = (f.stored.drop fd.fileOffset.toNat).take m ∧ r.1.toNat = r.2.1.length ∧
      ∃ fd', Before v fd' (f.chain.drop (reached v fd.fileOffset.toNat m)) ∧
        SameFile fd fd' ∧ r.2.2 = { fd' with fileOffset := fd.fileOffset + r.1 } := by
  intro m r
  let r₀ : Transfer := ⟨fd, resizeCount fd fd.fileOffset count, 0, []⟩
  have hstages := f.stages_deliver (r := r₀) BitVec.toNat_umod hopen.synced
  obtain ⟨done, hdone⟩ : ∃ done, done = readStages v (fd.fileOffset % v.bytesPerCluster) r₀ :=
    ⟨_, rfl⟩
  have hr : r = (done.numbytes, done.memory,
      { done.fd with fileOffset := done.fd.fileOffset + done.numbytes }) := by
    rw [hdone]
    rfl
  rw [← hdone] at hstages
  rw [hr]
  refine ⟨hstages.memory, ?_, _, hstages.before, hstages.same, ?_⟩
  · have hcounted : done.numbytes = BitVec.ofNat 32 done.memory.length := hstages.counted rfl
    have hle : done.memory.length ≤ m := by
      rw [hstages.memory]
      exact List.length_take_le _ _
    have hfits : m < 2 ^ 32 := BitVec.isLt _
    rw [hcounted, BitVec.toNat_ofNat, Nat.mod_eq_of_lt (Nat.lt_of_le_of_lt hle hfits)]
  · rw [hstages.same.offset]

/-! ### The contract of a read -/

/-- The 32-bit sum of the offset and the count is right about whether the request ends behind
the file, or nothing is stored there. -/
def WellClipped (offset count : Nat) : Prop :=
  offset + count < 2 ^ 32 ∨ f.size < (offset + count) % 2 ^ 32 ∨
    f.size = f.chain.length * v.bytesPerCluster.toNat

/-- A read of `n` bytes does not end in the inside of the cluster in which it starts, unless it
starts at the beginning. -/
def LeavesCluster (v : Volume) (offset n : Nat) : Prop :=
  offset % v.bytesPerCluster.toNat = 0 ∨ n = 0 ∨
    v.bytesPerCluster.toNat - offset % v.bytesPerCluster.toNat ≤ n

theorem resizeCount_toNat {fd : FileData} (hentry : fd.dirEntry = f.entry) {offset : Dword}
    (hoffset : offset.toNat ≤ f.size) (count : Dword) :
    (resizeCount fd offset count).toNat =
      if f.size < (offset.toNat + count.toNat) % 2 ^ 32 then f.size - offset.toNat
      else count.toNat := by
  unfold resizeCount
  rw [hentry]
  split
  · rename_i hbehind
    rw [BitVec.lt_def, BitVec.toNat_add] at hbehind
    exact (BitVec.toNat_sub_of_le (BitVec.le_def.mpr hoffset)).trans (if_pos hbehind).symm
  · rename_i hinside
    rw [BitVec.lt_def, BitVec.toNat_add] at hinside
    exact (if_neg hinside).symm

/-- The resized count is right, or it is too large and the request ends behind the file. -/
theorem resizeCount_cases {fd : FileData} (hentry : fd.dirEntry = f.entry) {offset : Dword}
    (hoffset : offset.toNat ≤ f.size) (count : Dword) :
    let m := (resizeCount fd offset count).toNat
    let n := min count.toNat (f.size - offset.toNat)
    m = n ∨ n = f.size - offset.toNat ∧ n ≤ m := by
  rw [f.resizeCount_toNat hentry hoffset]
  have hsize := f.size_lt
  dsimp only
  split <;> omega

theorem wellClipped_iff {fd : FileData} (hentry : fd.dirEntry = f.entry) {offset : Dword}
    (hoffset : offset.toNat ≤ f.size) (count : Dword) :
    f.WellClipped offset.toNat count.toNat ↔
      (resizeCount fd offset count).toNat = min count.toNat (f.size - offset.toNat) ∨
        f.size = f.chain.length * v.bytesPerCluster.toNat := by
  rw [f.resizeCount_toNat hentry hoffset]
  have hsize := f.size_lt
  have hcount : count.toNat < 2 ^ 32 := BitVec.isLt count
  unfold WellClipped
  split <;> omega

/-- What a file holds from an offset on is what its clusters hold there. -/
theorem bytes_drop_take (offset n : Nat) (hn : n ≤ f.size - offset) :
    (f.bytes.drop offset).take n = (f.stored.drop offset).take n := by
  unfold bytes
  rw [List.drop_take, List.take_take, Nat.min_eq_left hn]

/-- A read that leaves the cluster in which it starts moves the cluster as far as the
offset. -/
theorem reached_eq {offset m : Nat} (h : LeavesCluster v offset m) :
    reached v offset m = (offset + m) / v.bytesPerCluster.toNat := by
  have hpos := v.bytesPerCluster_pos
  unfold reached
  split
  · rfl
  · rename_i hodd
    obtain ⟨hplace, hsome⟩ := not_or.mp hodd
    obtain heven | hnone | hle := h
    · exact absurd heven hplace
    · exact absurd hnone hsome
    · have hsplit : offset + m =
          v.bytesPerCluster.toNat * (offset / v.bytesPerCluster.toNat + 1) +
            (m - (v.bytesPerCluster.toNat - offset % v.bytesPerCluster.toNat)) := by
        have hdiv := Nat.div_add_mod offset v.bytesPerCluster.toNat
        have hmod := Nat.mod_lt offset hpos
        rw [Nat.mul_add, Nat.mul_one]
        omega
      rw [hsplit, Nat.mul_add_div hpos]

/-- The clusters that a read reaches: those of the offset behind it, where it leaves the
cluster in which it starts. -/
theorem drop_reached {offset m n : Nat} (hm : m = n ∨ n = f.size - offset ∧ n ≤ m ∧
      f.size = f.chain.length * v.bytesPerCluster.toNat)
    (hoffset : offset ≤ f.size) (hleaves : LeavesCluster v offset n) :
    f.chain.drop (reached v offset m) = f.clustersFrom (offset + n) := by
  have hpos := v.bytesPerCluster_pos
  obtain rfl | ⟨hn, hle, hsize⟩ := hm
  · rw [reached_eq hleaves]
    rfl
  · have hleaves' : LeavesCluster v offset m := by
      obtain heven | hnone | hless := hleaves
      · exact .inl heven
      · have hend : offset = f.chain.length * v.bytesPerCluster.toNat := by omega
        exact .inl (hend ▸ Nat.mul_mod_left _ _)
      · exact .inr (.inr (Nat.le_trans hless hle))
    rw [reached_eq hleaves']
    have hlast : offset + n = f.chain.length * v.bytesPerCluster.toNat := by omega
    have hend : f.chain.length ≤ (offset + n) / v.bytesPerCluster.toNat := by
      rw [hlast, Nat.mul_div_cancel _ hpos]
    have hbeyond : f.chain.length ≤ (offset + m) / v.bytesPerCluster.toNat :=
      Nat.le_trans hend (Nat.div_le_div_right (Nat.add_le_add_left hle offset))
    rw [clustersFrom, List.drop_eq_nil_of_le hend, List.drop_eq_nil_of_le hbeyond]

/-- What is left of a cluster is left of the chain. -/
theorem rest_le {offset : Nat} (hoffset : offset < f.chain.length * v.bytesPerCluster.toNat) :
    v.bytesPerCluster.toNat - offset % v.bytesPerCluster.toNat ≤
      f.chain.length * v.bytesPerCluster.toNat - offset := by
  have hindex : offset / v.bytesPerCluster.toNat < f.chain.length :=
    (Nat.div_lt_iff_lt_mul v.bytesPerCluster_pos).mpr hoffset
  have hblocks := Nat.mul_le_mul_right v.bytesPerCluster.toNat (Nat.succ_le_of_lt hindex)
  have hdiv := Nat.div_add_mod' offset v.bytesPerCluster.toNat
  rw [Nat.succ_mul] at hblocks
  omega

/-- A read that ends in the inside of the cluster in which it starts leaves the descriptor in
front of the next one, with the offset still in the old one. -/
theorem not_before_of_stays {fd : FileData} {offset n : Nat}
    (hoffset : offset < f.chain.length * v.bytesPerCluster.toNat)
    (hstays : ¬ LeavesCluster v offset n)
    (h : Before v fd (f.chain.drop (reached v offset n))) :
    ¬ Before v fd (f.clustersFrom (offset + n)) := by
  intro hsynced
  have hdiv := Nat.div_add_mod' offset v.bytesPerCluster.toNat
  unfold LeavesCluster at hstays
  obtain ⟨hodd, hsome, hless⟩ : offset % v.bytesPerCluster.toNat ≠ 0 ∧ n ≠ 0 ∧
      n < v.bytesPerCluster.toNat - offset % v.bytesPerCluster.toNat := by omega
  have hindex : (offset + n) / v.bytesPerCluster.toNat = offset / v.bytesPerCluster.toNat := by
    apply Nat.div_eq_of_lt_le
    · omega
    · rw [Nat.succ_mul]
      omega
  have hreached : reached v offset n = offset / v.bytesPerCluster.toNat + 1 := by
    unfold reached
    rw [if_neg (not_or.mpr ⟨hodd, hsome⟩), Nat.sub_eq_zero_of_le (Nat.le_of_lt hless),
      Nat.zero_div, Nat.add_zero]
  have hinside : offset / v.bytesPerCluster.toNat < f.chain.length :=
    (Nat.div_lt_iff_lt_mul v.bytesPerCluster_pos).mpr hoffset
  unfold clustersFrom at hsynced
  rw [hindex] at hsynced
  rw [hreached] at h
  have hsame := hsynced.chain.drop_inj h.chain hinside
  omega

/-- A read at the position of the descriptor keeps its promise exactly if its count is resized
well and it leaves the cluster in which it starts. -/
theorem readFrom_correct_iff {fd : FileData} (hopen : f.Opened fd) (count : Dword) :
    let offset := fd.fileOffset.toNat
    let n := min count.toNat (f.size - offset)
    let r := readFrom v fd fd.fileOffset count
    (f.Opened r.2.2 ∧ r.1.toNat = n ∧ r.2.1 = (f.bytes.drop offset).take n ∧
        r.2.2.fileOffset.toNat = offset + n) ↔
      f.WellClipped offset count.toNat ∧ LeavesCluster v offset n := by
  intro offset n r
  obtain ⟨m, hm⟩ : ∃ m, m = (resizeCount fd fd.fileOffset count).toNat := ⟨_, rfl⟩
  obtain ⟨hmemory, hresult, fd', hbefore, hsame, hfd⟩ := f.readFrom_delivers hopen count
  have hcases : m = n ∨ n = f.size - offset ∧ n ≤ m :=
    hm ▸ f.resizeCount_cases hopen.entry hopen.inside count
  have hclipped : f.WellClipped offset count.toNat ↔
      m = n ∨ f.size = f.chain.length * v.bytesPerCluster.toNat :=
    hm ▸ f.wellClipped_iff hopen.entry hopen.inside count
  rw [← hm] at hmemory hbefore
  change r.1.toNat = r.2.1.length at hresult
  have hlength : r.2.1.length = min m (f.chain.length * v.bytesPerCluster.toNat - offset) := by
    rw [hmemory, List.length_take, List.length_drop, f.stored_length]
  have hsize := f.size_le
  have hinside : offset ≤ f.size := hopen.inside
  constructor
  · rintro ⟨hopened, hn, -, hoffset⟩
    have hclip : f.WellClipped offset count.toNat := by
      rw [hclipped]
      omega
    refine ⟨hclip, ?_⟩
    by_contra hstays
    have hnonzero : n ≠ 0 := fun hz => hstays (.inr (.inl hz))
    have hbound : n ≤ f.size - offset := Nat.min_le_right _ _
    have hplace : offset < f.chain.length * v.bytesPerCluster.toNat := by omega
    have hexact : m = n := by
      obtain hexact | hfull := hclipped.mp hclip
      · exact hexact
      · have hrest := f.rest_le hplace
        have hless : ¬ v.bytesPerCluster.toNat - offset % v.bytesPerCluster.toNat ≤ n :=
          fun hle => hstays (.inr (.inr hle))
        omega
    have hsynced := hopened.synced
    rw [hoffset, hfd] at hsynced
    rw [hexact] at hbefore
    exact f.not_before_of_stays hplace hstays hbefore ⟨hsynced.chain, hsynced.buffer⟩
  · rintro ⟨hclip, hleaves⟩
    have hmeans := hclipped.mp hclip
    have hn : r.1.toNat = n := by omega
    have hoffset : r.2.2.fileOffset.toNat = offset + n := by
      rw [hfd]
      change (fd.fileOffset + r.1).toNat = _
      have hlimit := f.size_lt
      rw [BitVec.toNat_add, hn, Nat.mod_eq_of_lt (by omega)]
    refine ⟨?_, hn, ?_, hoffset⟩
    · have hclusters := f.drop_reached (m := m) (n := n) (by omega) hinside hleaves
      rw [hclusters, ← hoffset] at hbefore
      refine ⟨?_, ?_, ?_, by omega, ?_⟩
      · rw [hfd]
        exact hsame.name ▸ hopen.name
      · rw [hfd]
        exact hsame.entry.trans hopen.entry
      · rw [hfd]
        exact hsame.mode.trans hopen.mode
      · rw [hfd] at hbefore ⊢
        exact ⟨hbefore.chain, hbefore.buffer⟩
    · rw [f.bytes_drop_take offset n (Nat.min_le_right _ _)]
      rw [hmemory, List.take_eq_take_iff, List.length_drop, f.stored_length]
      omega

/-! ### Seeking -/

theorem seekTo_rejects {fd : FileData} {offset : Dword} (h : f.size ≤ offset.toNat)
    (hentry : fd.dirEntry = f.entry) : seekTo v fd offset = (-1, fd) := by
  unfold seekTo
  rw [hentry]
  exact if_pos (BitVec.le_def.mpr h)

/-- A seek inside of the file. -/
theorem seekTo_opened {fd : FileData} (hopen : f.Opened fd) {offset : Dword}
    (h : offset.toNat < f.size) :
    (seekTo v fd offset).1 = offset ∧ (seekTo v fd offset).2.fileOffset = offset ∧
      f.Opened (seekTo v fd offset).2 := by
  unfold seekTo
  rw [hopen.entry, if_neg (fun hle => Nat.not_le_of_lt h (BitVec.le_def.mp hle))]
  dsimp only
  by_cases hmove : fd.fileOffset / v.bytesPerCluster = offset / v.bytesPerCluster
  · rw [if_neg (not_not_intro hmove)]
    refine ⟨rfl, rfl, hopen.name, rfl, hopen.mode, Nat.le_of_lt h, ?_, hopen.synced.buffer⟩
    have hindex := congrArg BitVec.toNat hmove
    rw [BitVec.toNat_udiv, BitVec.toNat_udiv] at hindex
    have hsame : f.clustersFrom fd.fileOffset.toNat = f.clustersFrom offset.toNat := by
      unfold clustersFrom
      rw [hindex]
    exact hsame ▸ hopen.synced.chain
  · rw [if_pos hmove]
    refine ⟨rfl, rfl, hopen.name, rfl, hopen.mode, Nat.le_of_lt h, ?_, fun hno => ?_⟩
    · rw [BitVec.toNat_udiv]
      exact f.chained.walk _
    · cases hno

end File

/-! ### Calls -/

/-- The calls on an open file. -/
inductive Call where
  | lseek (offset whence : Dword)
  | read (offset count : Dword)

/-- What a call returns and what it writes to `memory`. -/
structure Reply where
  result : Dword
  memory : List Byte

def perform (v : Volume) (fd : FileData) : Call → Reply × FileData
  | .lseek offset whence => (⟨(fsLseek v fd offset whence).1, []⟩, (fsLseek v fd offset whence).2)
  | .read offset count =>
    (⟨(fsRead v fd offset count).1, (fsRead v fd offset count).2.1⟩,
      (fsRead v fd offset count).2.2)

/-- A call, with its reply. -/
def Step (v : Volume) (fd : FileData) (a : Call × Reply) (fd' : FileData) : Prop :=
  perform v fd a.1 = (a.2, fd')

/-- The position of a read: the explicit offset, or the one of the descriptor. -/
def readPosition (fd : FileData) (offset : Dword) : Nat :=
  if 0 ≤ offset.toInt then offset.toNat else fd.fileOffset.toNat

theorem readPosition_explicit {fd : FileData} {offset : Dword} (h : 0 ≤ offset.toInt) :
    readPosition fd offset = offset.toNat :=
  if_pos h

theorem readPosition_current {fd : FileData} {offset : Dword} (h : ¬ 0 ≤ offset.toInt) :
    readPosition fd offset = fd.fileOffset.toNat :=
  if_neg h

namespace File

variable (f : File v)

/-- Where a seek counts from. -/
def seekBase (fd : FileData) (whence : Dword) : Dword :=
  if whence = seekCur then fd.fileOffset else if whence = seekEnd then BitVec.ofNat 32 f.size
  else 0

/-- What a call promises. A seek is rejected and changes nothing, or it sets the offset. A read
returns as many bytes as are asked for and left, delivers the bytes of the file, and advances
the offset by their number. The cluster and the buffer are then those of the offset. -/
def Meets (fd : FileData) (a : Call × Reply) (fd' : FileData) : Prop :=
  f.Opened fd' ∧
    match a.1 with
    | .lseek offset whence =>
      a.2.result = -1 ∧ fd' = fd ∨
        a.2.result = fd'.fileOffset ∧ fd'.fileOffset = offset + f.seekBase fd whence ∧
          fd'.fileOffset.toNat < f.size
    | .read offset count =>
      let position := readPosition fd offset
      let n := min count.toNat (f.size - position)
      a.2.result.toNat = n ∧ a.2.memory = (f.bytes.drop position).take n ∧
        fd'.fileOffset.toNat =
          (if position < f.size then position else fd.fileOffset.toNat) + n

/-- The calls that keep their promise: every seek, a read from behind the end of the file, and a
read whose count is resized well and that leaves the cluster in which it starts. -/
def Allowed (fd : FileData) (a : Call × Reply) : Prop :=
  match a.1 with
  | .lseek _ _ => True
  | .read offset count =>
    let position := readPosition fd offset
    0 ≤ offset.toInt ∧ f.size ≤ position ∨
      f.WellClipped position count.toNat ∧
        LeavesCluster v position (min count.toNat (f.size - position))

theorem absoluteOffset_eq {fd : FileData} (hentry : fd.dirEntry = f.entry)
    {offset whence target : Dword} (h : absoluteOffset fd offset whence = some target) :
    target = offset + f.seekBase fd whence := by
  have hsize : BitVec.ofNat 32 f.size = DirEntry.fileSize f.entry :=
    (BitVec.ofNat_toNat _ _).trans (BitVec.setWidth_eq _)
  unfold absoluteOffset at h
  unfold seekBase
  rw [hsize, ← hentry]
  split at h
  · rename_i hcur
    rw [if_pos hcur]
    exact (Option.some.inj h).symm
  · rename_i hcur
    rw [if_neg hcur]
    split at h
    · rename_i hend
      rw [if_pos hend]
      split at h
      · cases h
      · exact (Option.some.inj h).symm
    · rename_i hend
      rw [if_neg hend, ← Option.some.inj h]
      exact (BitVec.add_zero _).symm

/-- A seek keeps its promise. -/
theorem lseek_meets {fd : FileData} (hopen : f.Opened fd) (offset whence : Dword) :
    f.Meets fd (.lseek offset whence, (perform v fd (.lseek offset whence)).1)
      (perform v fd (.lseek offset whence)).2 := by
  unfold Meets perform fsLseek
  dsimp only
  split
  · exact ⟨hopen, .inl ⟨rfl, rfl⟩⟩
  · rename_i target htarget
    by_cases hinside : target.toNat < f.size
    · obtain ⟨hresult, hoffset, hopened⟩ := f.seekTo_opened hopen hinside
      refine ⟨hopened, .inr ⟨?_, ?_, ?_⟩⟩
      · exact hresult.trans hoffset.symm
      · exact hoffset.trans (f.absoluteOffset_eq hopen.entry htarget)
      · rw [hoffset]
        exact hinside
    · rw [f.seekTo_rejects (Nat.le_of_not_lt hinside) hopen.entry]
      exact ⟨hopen, .inl ⟨rfl, rfl⟩⟩

theorem fsRead_eq {fd : FileData} (hopen : f.Opened fd) (offset count : Dword) :
    fsRead v fd offset count =
      if 0 ≤ offset.toInt then
        if (seekTo v fd offset).1.toInt < 0 then (0, [], (seekTo v fd offset).2)
        else readFrom v (seekTo v fd offset).2 offset count
      else readFrom v fd fd.fileOffset count := by
  have hname : ¬ (fd.currentFileName.isNone = true ∨ fd.dirMode = true) := by
    rintro (hnone | hdir)
    · exact absurd (Option.isNone_iff_eq_none.mp hnone) (Option.isSome_iff_ne_none.mp hopen.name)
    · rw [hopen.mode] at hdir
      cases hdir
  unfold fsRead
  rw [if_neg hname]
  rfl

/-- A read keeps its promise exactly if it is allowed. -/
theorem read_meets_iff {fd : FileData} (hopen : f.Opened fd) (offset count : Dword) :
    f.Meets fd (.read offset count, (perform v fd (.read offset count)).1)
      (perform v fd (.read offset count)).2 ↔
      f.Allowed fd (.read offset count, (perform v fd (.read offset count)).1) := by
  unfold Meets Allowed perform
  dsimp only
  rw [f.fsRead_eq hopen]
  by_cases hexplicit : 0 ≤ offset.toInt
  · rw [readPosition_explicit hexplicit, if_pos hexplicit]
    by_cases hinside : offset.toNat < f.size
    · obtain ⟨hresult, hoffset, hopened⟩ := f.seekTo_opened hopen hinside
      have hcorrect := f.readFrom_correct_iff hopened count
      rw [hoffset] at hcorrect
      rw [hresult, if_neg (Int.not_lt.mpr hexplicit), if_pos hinside]
      apply hcorrect.trans
      exact (or_iff_right fun hbehind => Nat.not_le_of_lt hinside hbehind.2).symm
    · have hbehind := Nat.le_of_not_lt hinside
      rw [f.seekTo_rejects hbehind hopen.entry, if_neg hinside, Nat.sub_eq_zero_of_le hbehind,
        Nat.min_zero]
      exact iff_of_true ⟨hopen, rfl, rfl, rfl⟩ (.inl ⟨hexplicit, hbehind⟩)
  · rw [readPosition_current hexplicit, if_neg hexplicit, ite_self]
    apply (f.readFrom_correct_iff hopen count).trans
    exact (or_iff_right fun hbehind => hexplicit hbehind.1).symm

/-- The contract of the calls of a descriptor, from the moment the file is opened. -/
theorem calls_meet_iff_allowed (fd fd' : FileData) (filename : List Byte)
    (calls : List (Call × Reply)) :
    Run (fun s a t => Step v s a t ∧ f.Meets s a t) (fsOpen fd filename f.entry) calls fd' ↔
      Run (Guarded f.Allowed (Step v)) (fsOpen fd filename f.entry) calls fd' := by
  refine Run.meets_iff_guarded (I := f.Opened) ?_ (fun s a t _ _ h => h.1)
    (f.opened_fsOpen fd filename)
  rintro s ⟨call, reply⟩ t hopen hstep
  obtain ⟨hreply, ht⟩ : (perform v s call).1 = reply ∧ (perform v s call).2 = t :=
    Prod.mk.inj hstep
  rw [← hreply, ← ht]
  cases call with
  | lseek offset whence => exact iff_of_true (f.lseek_meets hopen offset whence) trivial
  | read offset count => exact f.read_meets_iff hopen offset count

end File

/-- A FAT16 volume with the chain 2, 3. Every byte of a cluster is its number. -/
def twoClusters : Volume where
  fatType := .fat16
  firstFat := fun address => if address = 4 then 3 else if address ∈ [6, 7] then 0xFF else 0
  bytesPerCluster := 512
  readCluster := fun cluster => List.replicate 512 (cluster.setWidth 8)
  rootDir := []
  rootClus := 0
  bytesPerCluster_pos := by decide
  readCluster_length := fun _ => List.length_replicate
  rootDir_length := by decide
  rootDir_fat32 := fun _ => rfl

/-- `DATA.BIN`, with 600 bytes. -/
def dataBin : File twoClusters where
  entry := [0x44, 0x41, 0x54, 0x41, 0x20, 0x20, 0x20, 0x20, 0x42, 0x49, 0x4E, 0x20, 0, 0, 0, 0,
    0, 0, 0, 0, 0, 0, 0, 0, 0, 0, 2, 0, 0x58, 2, 0, 0]
  chain := [2, 3]
  chained := .cons (by decide) (.cons (by decide) (.nil (by decide)))
  covered := by decide

/-- Behind a read of 100 bytes from the offset 100 the next one comes from the second cluster,
although the offset is 200. -/
theorem second_read_skips_cluster :
    ¬ ∀ (v : Volume) (f : File v) (fd fd' : FileData) (filename : List Byte)
      (calls : List (Call × Reply)),
      Run (Step v) (fsOpen fd filename f.entry) calls fd' →
      Run (fun s a t => Step v s a t ∧ f.Meets s a t) (fsOpen fd filename f.entry) calls fd' := by
  intro hall
  let fd : FileData := ⟨none, [], 0, [], 0, false, false, false⟩
  let s₀ := fsOpen fd [] dataBin.entry
  let first := perform twoClusters s₀ (.read 100 100)
  let second := perform twoClusters first.2 (.read (-1) 100)
  have hrun : Run (Step twoClusters) s₀
      [(.read 100 100, first.1), (.read (-1) 100, second.1)] second.2 :=
    .cons rfl (.cons rfl (.nil _))
  cases hall _ dataBin fd _ [] _ hrun with
  | cons hfirst hrest =>
    obtain rfl : first.2 = _ := (Prod.mk.inj hfirst.1).2
    cases hrest with
    | cons hsecond _ =>
      have hmemory := hsecond.2.2.2.1
      revert hmemory
      decide +kernel

end OsdevArchive.Osso.Fat
