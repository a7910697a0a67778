import Mathlib.Data.List.Induction
import Mathlib.Data.List.Range
import OsdevArchive.Lib.Chained
import OsdevArchive.Lib.Tiling
import OsdevArchive.Minirighi.Ext2Cwd
import OsdevArchive.Minirighi.Machine

/-!
The two passes of `Open_Dir` over the contents of a directory (`fs/ext2/ext2.c`), with all that
they read and write: the first one counts the entries in use and the bytes of their names, the
second one fills the arrays that were allocated in between. Both go from entry to entry by the
`rec_len` that is found there.
-/

namespace OsdevArchive.Minirighi.Ext2

open OsdevArchive.Lib.Chained OsdevArchive.Lib.Tiling OsdevArchive.Minirighi.Inet

/-- `tmp`, and behind its `i_size` bytes whatever follows in memory. It was allocated in the
kernel heap. -/
structure DirBuffer where
  tmp : Mem
  iSize : Nat
  fits : iSize ≤ kHeapEnd - kHeapStart

variable (b : DirBuffer)

/-! The fields of the `struct dir_ff` at an offset. -/

def DirBuffer.inode (i : Nat) : Nat := (loadLong b.tmp i).toNat

def DirBuffer.recLen (i : Nat) : Nat := loadWord b.tmp (i + 4)

def DirBuffer.nameLen (i : Nat) : Nat := (b.tmp (i + 6)).toNat

def DirBuffer.fileType (i : Nat) : Nat := (b.tmp (i + 7)).toNat

def DirBuffer.name (i : Nat) : Text := bytesAt b.tmp (i + dirHead) (b.nameLen i)

/-- `i += dir->rec_len`. -/
def DirBuffer.next (i : Nat) : Nat := wrap (i + b.recLen i)

/-- An access to `tmp`. -/
structure Access where
  off : Nat
  len : Nat

def Access.Inside (a : Access) : Prop := a.off + a.len ≤ b.iSize

/-- `dir->inode`, `dir->rec_len`, `dir->name_len` and `dir->file_type`. -/
def accInode (i : Nat) : Access := ⟨i, 4⟩

def accRecLen (i : Nat) : Access := ⟨i + 4, 2⟩

def accNameLen (i : Nat) : Access := ⟨i + 6, 1⟩

def accFileType (i : Nat) : Access := ⟨i + 7, 1⟩

/-- What the first loop reads of an entry. -/
def countAccesses (i : Nat) : List Access :=
  if b.inode i ≠ 0 then [accInode i, accNameLen i, accRecLen i] else [accInode i, accRecLen i]

/-- What the second loop reads of an entry. -/
def recordAccesses (i : Nat) : List Access :=
  if b.inode i ≠ 0 then
    [accInode i, accFileType i, ⟨i + dirHead, b.nameLen i⟩, accNameLen i, accRecLen i]
  else [accInode i, accRecLen i]

/-- The first pass. `used` are the entries that were counted; `count_dir` has 16 bits. -/
structure Counting where
  countDir : Nat
  len : Nat
  used : List Nat
  accesses : List Access

/-- The body of the first loop. -/
def Counting.visit (c : Counting) (i : Nat) : Counting :=
  if b.inode i ≠ 0 then
    { countDir := (c.countDir + 1) % 2 ^ 16
      len := wrap (c.len + b.nameLen i + 1)
      used := c.used ++ [i]
      accesses := c.accesses ++ countAccesses b i }
  else { c with accesses := c.accesses ++ countAccesses b i }

/-- What the second pass stores for the entry at `off`: the elements `idx` of `inode_dir`,
`file_type_dir` and `ext2_file_name`, and the name with its final zero from `text[start]` on. -/
structure Stored where
  off : Nat
  idx : Nat
  inode : Nat
  fileType : Nat
  start : Nat
  name : Text

/-- The second pass. -/
structure Recording where
  idx : Nat
  len : Nat
  stored : List Stored
  accesses : List Access

/-- The body of the second loop. -/
def Recording.visit (r : Recording) (i : Nat) : Recording :=
  if b.inode i ≠ 0 then
    { idx := r.idx + 1
      len := wrap (r.len + b.nameLen i + 1)
      stored := r.stored ++ [⟨i, r.idx, b.inode i, b.fileType i, r.len, b.name i⟩]
      accesses := r.accesses ++ recordAccesses b i }
  else { r with accesses := r.accesses ++ recordAccesses b i }

/-- The first pass; `none` if it does not end within `fuel` rounds. -/
def countEntries (fuel : Nat) : Option Counting :=
  pursue b.next (b.iSize ≤ ·) (Counting.visit b) fuel 0 ⟨0, 0, [], []⟩

/-- The second pass. -/
def recordEntries (fuel : Nat) : Option Recording :=
  pursue b.next (b.iSize ≤ ·) (Recording.visit b) fuel 0 ⟨0, 0, [], []⟩

/-- The places of `text` that are written for an entry. -/
def Stored.places (s : Stored) : List Nat := List.range' s.start (s.name.length + 1)

/-- Both passes end and read only `tmp`; the second one stores the entries that the first one
has counted, and so fills the arrays of `count_dir` elements and of `len` characters, each place
once. -/
def ReadsDirectory : Prop :=
  ∃ fuel c r, countEntries b fuel = some c ∧ recordEntries b fuel = some r ∧
    (∀ a ∈ c.accesses ++ r.accesses, a.Inside b) ∧
    r.stored.map Stored.off = c.used ∧
    r.stored.map Stored.idx = List.range c.countDir ∧
    r.stored.flatMap Stored.places = List.range c.len

/-- The entries that a pass comes to, at most `i_size` of them. -/
def DirBuffer.reached : List Nat := visited b.next (b.iSize ≤ ·) b.iSize 0

/-- The entry leads on, and what is read of it lies in `tmp`. -/
structure DirBuffer.EntryOk (i : Nat) : Prop where
  recLen : b.recLen i ≠ 0
  head : i + 6 ≤ b.iSize
  name : b.inode i ≠ 0 → i + dirHead + b.nameLen i ≤ b.iSize

/-- The entries in use. -/
def DirBuffer.used (l : List Nat) : List Nat := l.filter fun i => b.inode i ≠ 0

/-- The condition on the contents of a directory. -/
structure DirBuffer.Ok : Prop where
  entry : ∀ i ∈ b.reached, b.EntryOk i
  count : (b.used b.reached).length < 2 ^ 16

/-! ## What a pass makes of the entries it visits -/

variable {b} {l cs : List Nat} {i : Nat}

/-- The characters that the names of these entries take. -/
def DirBuffer.textLen (b : DirBuffer) (l : List Nat) : Nat :=
  extent (fun i => b.nameLen i + 1) (b.used l)

theorem used_concat : b.used (l ++ [i]) = b.used l ++ if b.inode i ≠ 0 then [i] else [] := by
  unfold DirBuffer.used
  rw [List.filter_append, List.filter_singleton]
  simp

theorem textLen_concat : b.textLen (l ++ [i]) =
    b.textLen l + if b.inode i ≠ 0 then b.nameLen i + 1 else 0 := by
  unfold DirBuffer.textLen
  rw [used_concat, extent_append]
  split <;> rfl

theorem places_concat {stored : List Stored} {s : Stored} :
    (stored ++ [s]).flatMap Stored.places = stored.flatMap Stored.places ++ s.places := by
  rw [List.flatMap_append, List.flatMap_singleton]

/-- What the first pass knows when it has visited the entries `l`. -/
structure Counted (b : DirBuffer) (l : List Nat) (c : Counting) : Prop where
  countDir : c.countDir = (b.used l).length % 2 ^ 16
  len : c.len = wrap (b.textLen l)
  used : c.used = b.used l
  accesses : c.accesses = l.flatMap (countAccesses b)

theorem counted (b : DirBuffer) (l : List Nat) :
    Counted b l (l.foldl (Counting.visit b) ⟨0, 0, [], []⟩) := by
  induction l using List.reverseRecOn with
  | nil => exact ⟨rfl, rfl, rfl, rfl⟩
  | append_singleton l i ih =>
    rw [List.foldl_concat]
    generalize l.foldl (Counting.visit b) ⟨0, 0, [], []⟩ = c at ih ⊢
    have haccesses : c.accesses ++ countAccesses b i = (l ++ [i]).flatMap (countAccesses b) := by
      rw [List.flatMap_append, List.flatMap_singleton, ih.accesses]
    unfold Counting.visit
    by_cases hi : b.inode i = 0
    · rw [if_neg (not_not.mpr hi)]
      have hused : b.used (l ++ [i]) = b.used l := by
        rw [used_concat, if_neg (not_not.mpr hi), List.append_nil]
      refine ⟨hused ▸ ih.countDir, ?_, hused ▸ ih.used, haccesses⟩
      rw [ih.len, textLen_concat, if_neg (not_not.mpr hi), Nat.add_zero]
    · rw [if_pos hi]
      have hused : b.used (l ++ [i]) = b.used l ++ [i] := by rw [used_concat, if_pos hi]
      refine ⟨?_, ?_, ?_, haccesses⟩
      · rw [hused, List.length_append, ih.countDir, Nat.mod_add_mod]
        rfl
      · rw [textLen_concat, if_pos hi, ih.len, Nat.add_assoc]
        exact Nat.mod_add_mod _ _ _
      · rw [hused, ih.used]

/-- What the second pass has stored when it has visited the entries `l`. -/
structure Recorded (b : DirBuffer) (l : List Nat) (r : Recording) : Prop where
  idx : r.idx = (b.used l).length
  len : r.len = wrap (b.textLen l)
  offs : r.stored.map Stored.off = b.used l
  idxs : r.stored.map Stored.idx = List.range (b.used l).length
  places : b.textLen l < 2 ^ 32 → r.stored.flatMap Stored.places = List.range (b.textLen l)
  accesses : r.accesses = l.flatMap (recordAccesses b)

theorem recorded (b : DirBuffer) (l : List Nat) :
    Recorded b l (l.foldl (Recording.visit b) ⟨0, 0, [], []⟩) := by
  induction l using List.reverseRecOn with
  | nil => exact ⟨rfl, rfl, rfl, rfl, fun _ => rfl, rfl⟩
  | append_singleton l i ih =>
    rw [List.foldl_concat]
    generalize l.foldl (Recording.visit b) ⟨0, 0, [], []⟩ = r at ih ⊢
    have haccesses :
        r.accesses ++ recordAccesses b i = (l ++ [i]).flatMap (recordAccesses b) := by
      rw [List.flatMap_append, List.flatMap_singleton, ih.accesses]
    unfold Recording.visit
    by_cases hi : b.inode i = 0
    · rw [if_neg (not_not.mpr hi)]
      have hused : b.used (l ++ [i]) = b.used l := by
        rw [used_concat, if_neg (not_not.mpr hi), List.append_nil]
      have htext : b.textLen (l ++ [i]) = b.textLen l := by
        rw [textLen_concat, if_neg (not_not.mpr hi), Nat.add_zero]
      exact ⟨hused ▸ ih.idx, htext ▸ ih.len, hused ▸ ih.offs, hused ▸ ih.idxs, htext ▸ ih.places,
        haccesses⟩
    · rw [if_pos hi]
      have hused : b.used (l ++ [i]) = b.used l ++ [i] := by rw [used_concat, if_pos hi]
      have htext : b.textLen (l ++ [i]) = b.textLen l + (b.nameLen i + 1) := by
        rw [textLen_concat, if_pos hi]
      have hlength : (b.used (l ++ [i])).length = (b.used l).length + 1 := by
        rw [hused, List.length_append]
        rfl
      refine ⟨?_, ?_, ?_, ?_, ?_, haccesses⟩
      · rw [hlength, ih.idx]
      · rw [htext, ih.len, Nat.add_assoc]
        exact Nat.mod_add_mod _ _ _
      · rw [hused, List.map_append, ih.offs]
        rfl
      · rw [hlength, List.range_succ, List.map_append, ih.idxs, ih.idx]
        rfl
      · intro hfits
        rw [htext] at hfits ⊢
        have hbefore : b.textLen l < 2 ^ 32 := by omega
        rw [places_concat, ih.places hbefore, List.range_eq_range', List.range_eq_range',
          ← List.range'_append_1, Nat.zero_add, ih.len, wrap_of_lt hbefore]
        unfold Stored.places DirBuffer.name bytesAt
        rw [List.length_map, List.length_range]

/-! ## The accesses of one entry -/

theorem entry_inside : (∀ a ∈ countAccesses b i ++ recordAccesses b i, a.Inside b) ↔
    i + 6 ≤ b.iSize ∧ (b.inode i ≠ 0 → i + dirHead + b.nameLen i ≤ b.iSize) := by
  unfold countAccesses recordAccesses
  by_cases hi : b.inode i = 0
  · simp [hi, Access.Inside, accInode, accRecLen]
    omega
  · simp [hi, Access.Inside, accInode, accRecLen, accNameLen, accFileType, dirHead]
    omega

/-! ## The passes -/

theorem next_eq_add (hi : i < b.iSize) : b.next i = i + b.recLen i := by
  have hrec : b.recLen i < 2 ^ 16 := by
    unfold DirBuffer.recLen loadWord
    omega
  have hsize : b.iSize ≤ 0x10000000 := b.fits
  exact wrap_of_lt (by omega)

theorem next_gt (hi : i < b.iSize) (hrec : b.recLen i ≠ 0) :
    b.iSize - b.next i < b.iSize - i := by
  rw [next_eq_add hi]
  omega

/-- A pass that ends comes to all entries that are reached, and each leads on. -/
theorem reached_of_chain (h : Chain b.next (b.iSize ≤ ·) 0 cs) :
    b.reached = cs ∧ ∀ i ∈ cs, i < b.iSize ∧ b.recLen i ≠ 0 := by
  have hgo : ∀ i ∈ cs, i < b.iSize ∧ b.recLen i ≠ 0 := by
    intro i hi
    have hlt : i < b.iSize := Nat.lt_of_not_le (h.go hi)
    refine ⟨hlt, fun hrec => h.next_ne hi ?_⟩
    rw [next_eq_add hlt, hrec, Nat.add_zero]
  refine ⟨h.visited ?_, hgo⟩
  have hlength := h.length_le (b.iSize - ·) fun i hi => next_gt (hgo i hi).1 (hgo i hi).2
  omega

/-- Where each entry leads on, the passes end. -/
theorem chain_reached (hrec : ∀ i ∈ b.reached, b.recLen i ≠ 0) :
    Chain b.next (b.iSize ≤ ·) 0 b.reached := by
  apply chain_of_measure (b.iSize - ·)
  · exact Nat.sub_le _ _
  · intro i hi
    omega
  · intro i hi
    exact next_gt (Nat.lt_of_not_le (go_of_mem_visited hi)) (hrec i hi)

theorem textLen_lt (h : (b.used l).length < 2 ^ 16) : b.textLen l < 2 ^ 32 := by
  have hle : b.textLen l ≤ (b.used l).length * 256 := by
    apply extent_le_length_mul
    intro i _
    have hname := (b.tmp (i + 6)).isLt
    unfold DirBuffer.nameLen
    omega
  omega

/-- `Open_Dir` goes through a directory as it should exactly if each entry that it comes to has a
nonzero `rec_len` and lies in the buffer with its name, and `count_dir` can count those in use. -/
theorem readsDirectory_iff (b : DirBuffer) : ReadsDirectory b ↔ b.Ok := by
  constructor
  · rintro ⟨fuel, c, r, hcount, hrecord, hinside, -, hidx, -⟩
    obtain ⟨cs, hchain, rfl⟩ := chain_of_pursue hcount
    obtain ⟨ds, hchain', rfl⟩ := chain_of_pursue hrecord
    obtain rfl := hchain.unique hchain'
    obtain ⟨hreached, hgo⟩ := reached_of_chain hchain
    have hc := counted b cs
    have hr := recorded b cs
    constructor
    · intro i hi
      rw [hreached] at hi
      have hentry : ∀ a ∈ countAccesses b i ++ recordAccesses b i, a.Inside b := by
        intro a ha
        apply hinside
        rw [hc.accesses, hr.accesses]
        rcases List.mem_append.mp ha with ha | ha
        · exact List.mem_append_left _ (List.mem_flatMap.mpr ⟨i, hi, ha⟩)
        · exact List.mem_append_right _ (List.mem_flatMap.mpr ⟨i, hi, ha⟩)
      obtain ⟨hhead, hname⟩ := entry_inside.mp hentry
      exact ⟨(hgo i hi).2, hhead, hname⟩
    · have hlength := congrArg List.length hidx
      rw [hr.idxs, hc.countDir, List.length_range, List.length_range] at hlength
      rw [hreached, hlength]
      exact Nat.mod_lt _ (by decide)
  · intro h
    have hchain := chain_reached fun i hi => (h.entry i hi).recLen
    have hc := counted b b.reached
    have hr := recorded b b.reached
    have htext := textLen_lt h.count
    refine ⟨b.reached.length + 1, _, _, hchain.pursue (Nat.lt_succ_self _) _,
      hchain.pursue (Nat.lt_succ_self _) _, ?_, ?_, ?_, ?_⟩
    · intro a ha
      rw [hc.accesses, hr.accesses] at ha
      have hmem : ∃ i ∈ b.reached, a ∈ countAccesses b i ++ recordAccesses b i := by
        rcases List.mem_append.mp ha with ha | ha
        · obtain ⟨i, hi, ha⟩ := List.mem_flatMap.mp ha
          exact ⟨i, hi, List.mem_append_left _ ha⟩
        · obtain ⟨i, hi, ha⟩ := List.mem_flatMap.mp ha
          exact ⟨i, hi, List.mem_append_right _ ha⟩
      obtain ⟨i, hi, ha⟩ := hmem
      exact entry_inside.mpr ⟨(h.entry i hi).head, (h.entry i hi).name⟩ a ha
    · rw [hr.offs, hc.used]
    · rw [hr.idxs, hc.countDir, Nat.mod_eq_of_lt h.count]
    · rw [hr.places htext, hc.len, wrap_of_lt htext]

/-- A directory that begins with an entry in use whose `rec_len` is zero. -/
def deadEnd : DirBuffer := ⟨ofBytes [2], 1024, by decide⟩

/-- The passes do not leave the entry. -/
theorem deadEnd_not_read : ¬ReadsDirectory deadEnd := by
  rintro ⟨fuel, c, r, hcount, -⟩
  obtain ⟨cs, hchain, -⟩ := chain_of_pursue hcount
  obtain ⟨tail, rfl, -⟩ := hchain.eq_cons (by decide)
  exact hchain.next_ne List.mem_cons_self (by decide)

/-! ## The listing -/

theorem usedEntries_of_chain {fuel : Nat} (h : Chain b.next (b.iSize ≤ ·) i cs)
    (hfuel : cs.length < fuel) (hhead : ∀ j ∈ cs, j + dirHead ≤ b.iSize) :
    usedEntries b.tmp b.iSize fuel i = .ok (b.used cs) := by
  induction h generalizing fuel with
  | nil hstop =>
    obtain ⟨fuel, rfl⟩ : ∃ k, fuel = k + 1 := ⟨fuel - 1, by omega⟩
    rw [usedEntries, if_pos hstop]
    rfl
  | @cons i cs hgo _ ih =>
    rw [List.length_cons] at hfuel
    obtain ⟨fuel, rfl⟩ : ∃ k, fuel = k + 1 := ⟨fuel - 1, by omega⟩
    have hfirst := hhead i List.mem_cons_self
    have hrest := ih (Nat.lt_of_succ_lt_succ hfuel) fun j hj => hhead j (List.mem_cons_of_mem i hj)
    have hzero : loadLong b.tmp i = 0 ↔ b.inode i = 0 := by
      unfold DirBuffer.inode
      rw [← BitVec.toNat_inj]
      rfl
    rw [usedEntries, if_neg hgo, if_neg (by omega)]
    change (usedEntries b.tmp b.iSize fuel (b.next i) >>= _) = _
    rw [hrest, ok_bind]
    unfold DirBuffer.used
    simp only [hzero, List.filter_cons]
    by_cases hi : b.inode i = 0 <;> simp [hi]

theorem mapM_readEntry (hname : ∀ i ∈ l, i + dirHead + b.nameLen i ≤ b.iSize) :
    l.mapM (readEntry b.tmp b.iSize) =
      .ok (l.map fun i => ⟨b.inode i, (b.name i).takeWhile (· ≠ 0)⟩) := by
  induction l with
  | nil => rfl
  | cons i l ih =>
    have hfirst := hname i List.mem_cons_self
    have hread : readEntry b.tmp b.iSize i =
        .ok ⟨b.inode i, (b.name i).takeWhile (· ≠ 0)⟩ := if_neg (Nat.not_lt.mpr hfirst)
    rw [List.mapM_cons, hread, ok_bind, ih fun j hj => hname j (List.mem_cons_of_mem i hj)]
    rfl

/-- Where every header lies in the buffer, the entries stored are those of the listing that
`FindFile` searches. -/
theorem readEntries_eq (h : b.Ok) (hhead : ∀ i ∈ b.reached, i + dirHead ≤ b.iSize) :
    readEntries b.tmp b.iSize = .ok ((b.used b.reached).map fun i =>
      ⟨b.inode i, (b.name i).takeWhile (· ≠ 0)⟩) := by
  have hchain := chain_reached fun i hi => (h.entry i hi).recLen
  have hlength := hchain.length_le (b.iSize - ·) fun i hi =>
    next_gt (Nat.lt_of_not_le (hchain.go hi)) (h.entry i hi).recLen
  have hused : usedEntries b.tmp b.iSize (b.iSize + 1) 0 = .ok (b.used b.reached) := by
    apply usedEntries_of_chain hchain _ hhead
    omega
  unfold readEntries
  rw [hused, ok_bind, if_neg (Nat.not_le.mpr h.count)]
  apply mapM_readEntry
  intro i hi
  obtain ⟨hreached, hinode⟩ := List.mem_filter.mp hi
  exact (h.entry i hreached).name (of_decide_eq_true hinode)

end OsdevArchive.Minirighi.Ext2
