import OsdevArchive.ItaliOs3.FatVolume
import Mathlib.Data.List.TakeWhile

/-!
Directories of a volume and the files that paths name, and where `trova_file` finds them: it
compares the names as they are padded in the entries, and looks through one stretch of the disk.
-/

namespace OsdevArchive.ItaliOs3.Fat

open OsdevArchive.Lib.ByteBuffer OsdevArchive.Lib.Chained

/-! ### Names -/

/-- `.` and `..`. -/
def DotName (s : List Byte) : Prop := s = [dot] ∨ s = [dot, dot]

instance instDecidableDotName (s : List Byte) : Decidable (DotName s) :=
  inferInstanceAs (Decidable (_ ∨ _))

def baseOf (s : List Byte) : List Byte :=
  if DotName s then s else s.takeWhile fun c => decide (c ≠ dot)

def extOf (s : List Byte) : List Byte := if DotName s then [] else s.drop ((baseOf s).length + 1)

/-- The names are the same but for the case. -/
abbrev Same (s t : List Byte) : Prop := s.map tolower = t.map tolower

/-- The entry has the name `s`. -/
def Names (s : List Byte) (e : DirEntry) : Prop :=
  Same (DirEntry.name e) (pad 8 (baseOf s)) ∧ Same (DirEntry.ext e) (pad 3 (extOf s))

instance instDecidableNames (s : List Byte) (e : DirEntry) : Decidable (Names s e) :=
  inferInstanceAs (Decidable (_ ∧ _))

/-- The entry is neither deleted nor a label. -/
def InUse (e : DirEntry) : Prop := List.getD e 0 0 ≠ 0xE5 ∧ (DirEntry.attr e).getLsbD 3 = false

instance instDecidableInUse (e : DirEntry) : Decidable (InUse e) :=
  inferInstanceAs (Decidable (_ ∧ _))

def isFile (s : List Byte) (e : DirEntry) : Bool :=
  decide (InUse e ∧ ¬ DirEntry.IsDir e ∧ Names s e)

def isSubdir (s : List Byte) (e : DirEntry) : Bool :=
  decide (InUse e ∧ DirEntry.IsDir e ∧ Names s e)

/-! ### Directories -/

section Directories

variable (v : Volume)

def entryAt (pos : Nat) : DirEntry := (List.range' pos dirEntrySize).map v.bytes

/-- Where the directory with first cluster `c` starts; 0 is the root directory. -/
def dirPos (c : Nat) : Nat := if c = 0 then v.d.rootDir else clusterByte v.toDisk c

/-- The number of the entries in the root directory, or in a cluster. -/
def dirRoom (c : Nat) : Nat :=
  if c = 0 then v.d.rootDirSize else v.d.clusterBytes / dirEntrySize

/-- `n` entries one behind the other. -/
def entriesFrom (pos : Nat) : Nat → List DirEntry
  | 0 => []
  | n + 1 => entryAt v pos :: entriesFrom (pos + dirEntrySize) n

/-- The entries from the first byte of the directory on. -/
def firstEntries (c : Nat) : List DirEntry := entriesFrom v (dirPos v c) (dirRoom v c)

/-- All entries of a directory, cluster by cluster. -/
def Entries (c : Nat) (es : List DirEntry) : Prop :=
  c = 0 ∧ es = firstEntries v 0 ∨
    c ≠ 0 ∧ ∃ cs, FileChain v c cs ∧ es = cs.flatMap (firstEntries v)

/-- The entries in front of the first one whose name starts with zero. -/
def live (es : List DirEntry) : List DirEntry := es.takeWhile fun e => decide (¬ DirEntry.Last e)

/-- The directories that can be reached from the root directory. -/
inductive IsDirectory : Nat → Prop where
  | root : IsDirectory 0
  | sub {c : Nat} {es : List DirEntry} {e : DirEntry} : IsDirectory c → Entries v c es →
      e ∈ live es → InUse e → DirEntry.IsDir e → IsDirectory (DirEntry.start e)

/-- Files and directories have well-formed chains. -/
def WellChained : Prop :=
  ∀ c es, IsDirectory v c → Entries v c es → ∀ e ∈ live es, InUse e →
    ∃ cs, FileChain v (DirEntry.start e) cs

/-- `Finds v c dirs nome e`: from the directory `c` on, the path through the directories `dirs`
leads to the file `nome`, which has the entry `e`. -/
inductive Finds : Nat → List (List Byte) → List Byte → DirEntry → Prop where
  | file {c : Nat} {nome : List Byte} {es : List DirEntry} {e : DirEntry} : Entries v c es →
      (live es).find? (isFile nome) = some e → Finds c [] nome e
  | dir {c : Nat} {d nome : List Byte} {dirs : List (List Byte)} {es : List DirEntry}
      {e e' : DirEntry} : Entries v c es → (live es).find? (isSubdir d) = some e →
      Finds (DirEntry.start e) dirs nome e' → Finds c (d :: dirs) nome e'

/-- The search ends in the root directory, or in the first cluster of another one. -/
def Ends (c : Nat) (accept : DirEntry → Bool) : Prop :=
  ∃ e ∈ firstEntries v c, DirEntry.Last e ∨ accept e = true

/-- What `trova_file` relies on, from the directory `c` on: an extension of three characters for
the file and none for the directories, searches that end in the first cluster, no entry of
another kind with a name that is looked for, and no way back to the root directory. -/
def Plain : Nat → List (List Byte) → List Byte → Prop
  | c, [], nome =>
    (extOf nome).length = 3 ∧ Ends v c (acceptFile nome) ∧
      ∀ e ∈ live (firstEntries v c), Names nome e → InUse e ∧ ¬ DirEntry.IsDir e
  | c, d :: dirs, nome =>
    (dot ∉ d ∨ DotName d) ∧ Ends v c (acceptDir d) ∧
      (∀ e ∈ live (firstEntries v c), DirEntry.IsDir e → Same (DirEntry.name e) (pad 8 d) →
        InUse e ∧ Same (DirEntry.ext e) (pad 3 [])) ∧
      ∀ e, (live (firstEntries v c)).find? (isSubdir d) = some e →
        DirEntry.start e ≠ 0 ∧ Plain (DirEntry.start e) dirs nome

/-- The path as it is written. -/
def pathOf (dirs : List (List Byte)) (nome : List Byte) : List Byte :=
  dirs.flatMap (fun d => d ++ [slash]) ++ nome

/-- A string without slashes. -/
def Component (s : List Byte) : Prop := ∀ c ∈ s, c ≠ 0 ∧ c ≠ slash

end Directories

variable {v : Volume} {c n rounds : Nat} {s t nome d : List Byte} {e : DirEntry}
  {es : List DirEntry} {dirs : List (List Byte)}

/-! ### Comparing names -/

theorem strcasecmp_iff : strcasecmp s t = true ↔ Same s t := by
  induction s generalizing t with
  | nil =>
    cases t with
    | nil => exact iff_of_true rfl rfl
    | cons b t => exact iff_of_false (by intro h; cases h) (by intro h; cases h)
  | cons a s ih =>
    cases t with
    | nil => exact iff_of_false (by intro h; cases h) (by intro h; cases h)
    | cons b t =>
      have hsame : Same (a :: s) (b :: t) ↔ tolower a = tolower b ∧ Same s t := List.cons_eq_cons
      rw [hsame]
      unfold strcasecmp
      by_cases hab : a = b
      · rw [if_neg (not_not.mpr hab), ih, hab, and_iff_right rfl]
      · rw [if_pos hab]
        by_cases hlow : tolower a = tolower b
        · rw [if_neg (not_not.mpr hlow), ih, and_iff_right hlow]
        · rw [if_pos hlow]
          exact iff_of_false (by decide) fun h => hlow h.1

theorem tolower_eq_zero {b : Byte} (h : tolower b = 0) : b = 0 := by
  revert b
  decide

theorem Same.length_eq (h : Same s t) : s.length = t.length := by
  have hlength := congrArg List.length h
  rwa [List.length_map, List.length_map] at hlength

/-- A string that is no shorter than an array is the same as its contents only if they have no
zero. -/
theorem cString_same (hlong : s.length ≤ t.length) (ht : ∀ b ∈ t, b ≠ 0) :
    Same (cString s) t ↔ Same s t := by
  have hwhole : (∀ b ∈ s, b ≠ 0) → cString s = s := by
    intro hs
    exact List.takeWhile_eq_self_iff.mpr fun b hb => decide_eq_true (hs b hb)
  constructor
  · intro h
    have hlength := h.length_eq
    obtain ⟨rest, hrest⟩ := List.takeWhile_prefix (fun b : Byte => decide (b ≠ 0)) (l := s)
    have hsum := congrArg List.length hrest
    rw [List.length_append] at hsum
    unfold cString at hlength h
    have hnone : rest = [] := List.eq_nil_of_length_eq_zero (by omega)
    rw [hnone, List.append_nil] at hrest
    rwa [hrest] at h
  · intro h
    rwa [hwhole]
    intro b hb hzero
    have hmem : tolower b ∈ t.map tolower := h ▸ List.mem_map_of_mem hb
    obtain ⟨b', hb', heq⟩ := List.mem_map.mp hmem
    refine ht b' hb' (tolower_eq_zero ?_)
    rw [heq, hzero]
    decide

theorem same_append {s' t' : List Byte} (h : s.length = t.length) :
    Same (s ++ s') (t ++ t') ↔ Same s t ∧ Same s' t' := by
  unfold Same
  rw [List.map_append, List.map_append]
  constructor
  · exact fun heq => List.append_inj heq (by rw [List.length_map, List.length_map, h])
  · rintro ⟨hleft, hright⟩
    rw [hleft, hright]

theorem pad_length (n : Nat) (s : List Byte) : (pad n s).length = max n s.length := by
  unfold pad
  rw [List.length_append, List.length_replicate]
  omega

theorem pad_full (h : n ≤ s.length) : pad n s = s := by
  unfold pad
  rw [Nat.sub_eq_zero_of_le h]
  exact List.append_nil s

theorem pad_no_zero (n : Nat) (hs : ∀ b ∈ s, b ≠ 0) : ∀ b ∈ pad n s, b ≠ 0 := by
  intro b hb
  obtain hin | hspace := List.mem_append.mp hb
  · exact hs b hin
  · rw [List.eq_of_mem_replicate hspace]
    decide

/-- In front of the first dot there is the base, behind it the rest. -/
theorem split_dot (s : List Byte) : dot ∉ s ∨
    ∃ rest, s = (s.takeWhile fun c => decide (c ≠ dot)) ++ dot :: rest := by
  induction s with
  | nil => exact .inl List.not_mem_nil
  | cons a s ih =>
    by_cases ha : a = dot
    · refine .inr ⟨s, ?_⟩
      rw [List.takeWhile_cons_of_neg (by simp [ha]), ha]
      rfl
    · obtain hnot | ⟨rest, hrest⟩ := ih
      · exact .inl fun hmem => (List.mem_cons.mp hmem).elim (fun h => ha h.symm) hnot
      · refine .inr ⟨rest, ?_⟩
        rw [List.takeWhile_cons_of_pos (by simp [ha]), List.cons_append, ← hrest]

/-! ### The tests -/

/-- A name with an extension of three characters is looked for as it is padded in an entry. -/
theorem analizzareFile_eq (hext : (extOf nome).length = 3) :
    analizzareFile nome = pad 8 (baseOf nome) ++ dot :: extOf nome ∧
      nome = baseOf nome ++ dot :: extOf nome := by
  have hdot : ¬ DotName nome := by
    intro h
    unfold extOf at hext
    rw [if_pos h] at hext
    cases hext
  have hbase : baseOf nome = nome.takeWhile fun c => decide (c ≠ dot) := if_neg hdot
  have hrest : extOf nome = nome.drop ((baseOf nome).length + 1) := if_neg hdot
  obtain hnot | ⟨rest, hsplit⟩ := split_dot nome
  · -- without a dot there is no extension
    have hall : baseOf nome = nome := by
      rw [hbase]
      exact List.takeWhile_eq_self_iff.mpr fun b hb =>
        decide_eq_true fun heq => hnot (heq ▸ hb)
    rw [hrest, hall, List.drop_eq_nil_of_le (Nat.le_succ _)] at hext
    cases hext
  · rw [← hbase] at hsplit
    have hdrop : extOf nome = rest :=
      calc extOf nome = (baseOf nome ++ dot :: rest).drop ((baseOf nome).length + 1) := by
            rw [← hsplit, hrest]
        _ = rest := List.drop_length_add_append 1
    have hlength : nome.length = (baseOf nome).length + 4 := by
      conv =>
        lhs
        rw [hsplit]
      rw [hdrop] at hext
      rw [List.length_append, List.length_cons, hext]
    refine ⟨?_, by rw [hdrop]; exact hsplit⟩
    unfold analizzareFile
    dsimp only
    rw [← hbase]
    by_cases hshort : (baseOf nome).length < 8
    · have htake : nome.take (baseOf nome).length = baseOf nome :=
        calc nome.take (baseOf nome).length
            = (baseOf nome ++ dot :: rest).take (baseOf nome).length := by rw [← hsplit]
          _ = baseOf nome := List.take_left' rfl
      rw [if_pos ⟨hshort, by omega⟩, htake, ← hrest, List.take_of_length_le (by omega)]
    · rw [if_neg fun h => hshort h.1, pad_full (by omega), hdrop]
      exact hsplit

/-- The fields of an entry have their lengths. -/
theorem entry_lengths (he : e.length = dirEntrySize) :
    (DirEntry.name e).length = 8 ∧ (DirEntry.ext e).length = 3 := by
  unfold dirEntrySize at he
  unfold DirEntry.name DirEntry.ext
  constructor
  · rw [List.length_take, he]
    rfl
  · rw [List.length_take, List.length_drop, he]
    rfl

theorem acceptFile_iff (he : e.length = dirEntrySize) (hext : (extOf nome).length = 3)
    (hn : Component nome) : acceptFile nome e = true ↔ Names nome e := by
  obtain ⟨hname, hextLength⟩ := entry_lengths he
  obtain ⟨hpattern, hsplit⟩ := analizzareFile_eq hext
  have hbase : ∀ b ∈ baseOf nome, b ≠ 0 := fun b hb =>
    (hn b (by rw [hsplit]; exact List.mem_append_left _ hb)).1
  have hrest : ∀ b ∈ extOf nome, b ≠ 0 := fun b hb =>
    (hn b (by rw [hsplit]; exact List.mem_append_right _ (List.mem_cons_of_mem _ hb))).1
  have hzero : ∀ b ∈ pad 8 (baseOf nome) ++ dot :: extOf nome, b ≠ 0 := by
    intro b hb
    obtain hleft | hright := List.mem_append.mp hb
    · exact pad_no_zero 8 hbase b hleft
    · obtain rfl | hin := List.mem_cons.mp hright
      · decide
      · exact hrest b hin
  have hlong : (DirEntry.name e ++ dot :: DirEntry.ext e).length ≤
      (pad 8 (baseOf nome) ++ dot :: extOf nome).length := by
    rw [List.length_append, List.length_append, pad_length, hname, List.length_cons,
      List.length_cons, hextLength, hext]
    omega
  unfold acceptFile nomeFile Names
  rw [strcasecmp_iff, hpattern, cString_same hlong hzero, pad_full (Nat.le_of_eq hext.symm)]
  by_cases hshort : (baseOf nome).length ≤ 8
  · rw [same_append (by rw [hname, pad_length]; omega)]
    exact and_congr_right fun _ => List.cons_inj_right _
  · -- a base that is too long is the name of no entry
    have hnot : ¬ Same (DirEntry.name e) (pad 8 (baseOf nome)) := by
      intro h
      have hlength := h.length_eq
      rw [hname, pad_length] at hlength
      omega
    refine iff_of_false (fun h => ?_) fun h => hnot h.1
    have hlength := h.length_eq
    rw [List.length_append, List.length_append, pad_length, hname, List.length_cons,
      List.length_cons, hextLength, hext] at hlength
    omega

/-- A directory is looked for by the first part of its name alone. -/
theorem acceptDir_iff (he : e.length = dirEntrySize) (hd : Component d) :
    acceptDir d e = true ↔ DirEntry.IsDir e ∧ Same (DirEntry.name e) (pad 8 d) := by
  have hlong : (DirEntry.name e).length ≤ (pad 8 d).length := by
    rw [(entry_lengths he).1, pad_length]
    omega
  unfold acceptDir nomeDir analizzareDir
  rw [Bool.and_eq_true, decide_eq_true_iff, strcasecmp_iff,
    cString_same hlong (pad_no_zero 8 fun b hb => (hd b hb).1)]

theorem names_dir_iff (hd : dot ∉ d ∨ DotName d) :
    Names d e ↔ Same (DirEntry.name e) (pad 8 d) ∧ Same (DirEntry.ext e) (pad 3 []) := by
  have hbase : baseOf d = d := by
    unfold baseOf
    split
    · rfl
    · rename_i hnot
      exact List.takeWhile_eq_self_iff.mpr fun b hb =>
        decide_eq_true fun heq => hd.resolve_right hnot (heq ▸ hb)
  have hext : extOf d = [] := by
    unfold extOf
    split
    · rfl
    · rw [hbase]
      exact List.drop_eq_nil_of_le (Nat.le_succ _)
  unfold Names
  rw [hbase, hext]

/-! ### Searching -/

theorem entriesFrom_length (pos n : Nat) : ∀ e ∈ entriesFrom v pos n, e.length = dirEntrySize := by
  induction n generalizing pos with
  | zero => exact fun e he => absurd he List.not_mem_nil
  | succ n ih =>
    intro e he
    obtain rfl | hin := List.mem_cons.mp he
    · unfold entryAt
      rw [List.length_map, List.length_range']
    · exact ih _ e hin

theorem live_cons_last (h : DirEntry.Last e) : live (e :: es) = [] :=
  List.takeWhile_cons_of_neg (by simp [h])

theorem live_cons (h : ¬ DirEntry.Last e) : live (e :: es) = e :: live es :=
  List.takeWhile_cons_of_pos (by simp [h])

/-- A search through `n` entries, of which one ends it. -/
theorem cercaEntry_eq {accept : DirEntry → Bool} {pos : Nat}
    (hdisk : pos + n * dirEntrySize ≤ v.size)
    (hends : ∃ e ∈ entriesFrom v pos n, DirEntry.Last e ∨ accept e = true) (hrounds : n ≤ rounds) :
    cercaEntry v.toDisk accept rounds pos = some ((live (entriesFrom v pos n)).find? accept) := by
  induction n generalizing pos rounds with
  | zero =>
    obtain ⟨e, he, -⟩ := hends
    exact absurd he List.not_mem_nil
  | succ n ih =>
    obtain ⟨rounds, rfl⟩ : ∃ k, rounds = k + 1 := ⟨rounds - 1, by omega⟩
    have hsmall := v.small
    rw [Nat.add_mul, Nat.one_mul] at hdisk
    have hread : leggiDir v.toDisk pos = some (entryAt v pos) := leggiFloppy_eq (by omega)
    have hnext : (pos + dirEntrySize) % 2 ^ 32 = pos + dirEntrySize :=
      Nat.mod_eq_of_lt (by omega)
    unfold cercaEntry entriesFrom
    dsimp only
    rw [hread, hnext]
    dsimp only [Option.bind_eq_bind, Option.bind_some]
    by_cases hlast : DirEntry.Last (entryAt v pos)
    · rw [if_pos hlast, live_cons_last hlast]
      rfl
    · rw [if_neg hlast, live_cons hlast, List.find?_cons]
      cases haccept : accept (entryAt v pos) with
      | true => rfl
      | false =>
        refine ih (by omega) ?_ (by omega)
        obtain ⟨e, he, hend⟩ := hends
        obtain rfl | hlater := List.mem_cons.mp he
        · rw [haccept] at hend
          exact absurd hend (not_or.mpr ⟨hlast, Bool.false_ne_true⟩)
        · exact ⟨e, hlater, hend⟩

/-- Where a search ends among the first entries, the others do not matter. -/
theorem find_live_append {p q : DirEntry → Bool} {xs ys : List DirEntry}
    (hends : ∃ e ∈ xs, DirEntry.Last e ∨ p e = true) (hsame : ∀ e ∈ live xs, p e = q e) :
    (live (xs ++ ys)).find? q = (live xs).find? p := by
  induction xs with
  | nil =>
    obtain ⟨e, he, -⟩ := hends
    exact absurd he List.not_mem_nil
  | cons x xs ih =>
    rw [List.cons_append]
    by_cases hlast : DirEntry.Last x
    · rw [live_cons_last hlast, live_cons_last hlast]
      rfl
    · rw [live_cons hlast] at hsame ⊢
      rw [live_cons hlast, List.find?_cons, List.find?_cons, ← hsame x List.mem_cons_self]
      cases hx : p x with
      | true => rfl
      | false =>
        refine ih ?_ fun e he => hsame e (List.mem_cons_of_mem x he)
        obtain ⟨e, he, hend⟩ := hends
        obtain rfl | hlater := List.mem_cons.mp he
        · rw [hx] at hend
          exact absurd hend (not_or.mpr ⟨hlast, Bool.false_ne_true⟩)
        · exact ⟨e, hlater, hend⟩

/-! ### Directories -/

theorem FileChain.head {cs : List Nat} (h : FileChain v c cs) (hc : c ≠ 0) :
    ∃ tail, cs = c :: tail ∧ 2 ≤ c ∧ c < v.clusters + 2 := by
  obtain ⟨hzero, -⟩ | ⟨hne, hchain, hin⟩ := h
  · exact absurd hzero hc
  · cases hchain with
    | nil _ => exact absurd rfl hne
    | cons _ _ => exact ⟨_, rfl, hin c List.mem_cons_self⟩

theorem entries_split (h : Entries v c es) : ∃ rest, es = firstEntries v c ++ rest := by
  obtain ⟨rfl, rfl⟩ | ⟨hc, cs, hchain, rfl⟩ := h
  · exact ⟨[], (List.append_nil _).symm⟩
  · obtain ⟨tail, rfl, -⟩ := hchain.head hc
    exact ⟨tail.flatMap (firstEntries v), List.flatMap_cons⟩

/-- A directory that can be reached has entries, and the first ones are on the disk. -/
theorem IsDirectory.entries (hw : WellChained v) (h : IsDirectory v c) :
    (∃ es, Entries v c es) ∧ dirPos v c + dirRoom v c * dirEntrySize ≤ v.size := by
  have hdata := v.data
  unfold dirPos dirRoom
  by_cases hc : c = 0
  · rw [if_pos hc, if_pos hc]
    refine ⟨⟨_, .inl ⟨hc, rfl⟩⟩, Nat.le_trans ?_ (Nat.le_trans (Nat.le_add_right _ _) hdata)⟩
    exact Nat.le_refl _
  · rw [if_neg hc, if_neg hc]
    cases h with
    | root => exact absurd rfl hc
    | @sub c' es' e hdir hentries hlive huse _ =>
      obtain ⟨cs, hchain⟩ := hw c' es' hdir hentries e hlive huse
      obtain ⟨tail, -, hlow, hhigh⟩ := hchain.head hc
      have hinside := clusterByte_inside hlow hhigh
      have hroom := Nat.div_mul_le_self v.d.clusterBytes dirEntrySize
      exact ⟨⟨_, .inr ⟨hc, cs, hchain, rfl⟩⟩, by omega⟩

theorem mem_live (he : e ∈ live es) : e ∈ es := (List.takeWhile_prefix _).subset he

/-- The test for the file agrees with what the file is. -/
theorem acceptFile_eq (hplain : Plain v c [] nome) (hn : Component nome) :
    ∀ e ∈ live (firstEntries v c), acceptFile nome e = isFile nome e := by
  obtain ⟨hext, -, hkind⟩ := hplain
  intro e he
  rw [Bool.eq_iff_iff, acceptFile_iff (entriesFrom_length _ _ e (mem_live he)) hext hn]
  unfold isFile
  rw [decide_eq_true_iff]
  constructor
  · intro hnames
    obtain ⟨huse, hfile⟩ := hkind e he hnames
    exact ⟨huse, hfile, hnames⟩
  · exact fun h => h.2.2

theorem acceptDir_eq {dirs : List (List Byte)} (hplain : Plain v c (d :: dirs) nome)
    (hd : Component d) :
    ∀ e ∈ live (firstEntries v c), acceptDir d e = isSubdir d e := by
  obtain ⟨hdot, -, hkind, -⟩ := hplain
  intro e he
  rw [Bool.eq_iff_iff, acceptDir_iff (entriesFrom_length _ _ e (mem_live he)) hd]
  unfold isSubdir
  rw [decide_eq_true_iff, names_dir_iff hdot]
  constructor
  · rintro ⟨hdir, hname⟩
    obtain ⟨huse, hext⟩ := hkind e he hdir hname
    exact ⟨huse, hdir, hname, hext⟩
  · exact fun h => ⟨h.2.1, h.2.2.1⟩

/-- A search in a directory that can be reached looks at its live entries. -/
theorem IsDirectory.search {p q : DirEntry → Bool} (hw : WellChained v) (h : IsDirectory v c)
    (hends : Ends v c p) (hsame : ∀ e ∈ live (firstEntries v c), p e = q e) :
    ∃ found, cercaEntry v.toDisk p v.size (dirPos v c) = some found ∧
      (live (firstEntries v c)).find? q = found ∧
      ∀ es, Entries v c es → (live es).find? q = found := by
  have hdisk := (h.entries hw).2
  have hrounds : dirRoom v c ≤ v.size := by
    unfold dirEntrySize at hdisk
    omega
  have hfirst := @find_live_append p q (firstEntries v c) [] hends hsame
  rw [List.append_nil] at hfirst
  refine ⟨_, cercaEntry_eq hdisk hends hrounds, hfirst, fun es hes => ?_⟩
  obtain ⟨rest, rfl⟩ := entries_split hes
  exact find_live_append hends hsame

theorem takeWhile_slash {rest : List Byte} (hd : Component d) :
    (d ++ slash :: rest).takeWhile (fun c => decide (c ≠ slash)) = d := by
  rw [List.takeWhile_append_of_pos fun b hb => decide_eq_true (hd b hb).2,
    List.takeWhile_cons_of_neg (by decide), List.append_nil]

theorem pathOf_cons (d : List Byte) (dirs : List (List Byte)) (nome : List Byte) :
    pathOf (d :: dirs) nome = d ++ slash :: pathOf dirs nome := by
  unfold pathOf
  rw [List.flatMap_cons, List.append_assoc, List.append_assoc]
  rfl

section Steps

variable {pos depth : Nat} {path : List Byte}

theorem trovaFile_file {found : Option DirEntry} (hn : Component nome) (hlength : nome.length < 100)
    (hsearch : cercaEntry v.toDisk (acceptFile nome) v.size pos = some found) :
    trovaFile v.toDisk (depth + 1) nome pos = some ((found.map DirEntry.start).getD 0) := by
  have hpezzo : nome.takeWhile (fun c => decide (c ≠ slash)) = nome :=
    List.takeWhile_eq_self_iff.mpr fun b hb => decide_eq_true (hn b hb).2
  unfold trovaFile
  dsimp only
  rw [if_neg (by omega), hpezzo, if_pos rfl, hsearch]
  rfl

theorem trovaFile_dir {found : Option DirEntry} (hd : Component d)
    (hlength : (d ++ slash :: path).length < 100)
    (hsearch : cercaEntry v.toDisk (acceptDir d) v.size pos = some found) :
    trovaFile v.toDisk (depth + 1) (d ++ slash :: path) pos =
      (found.map fun dir => trovaFile v.toDisk depth path
        (clusterByte v.toDisk (DirEntry.start dir))).getD (some 0) := by
  have htotal : (d ++ slash :: path).length = d.length + (path.length + 1) := by
    rw [List.length_append, List.length_cons]
  have hdrop : (d ++ slash :: path).drop (d.length + 1) = path := List.drop_length_add_append 1
  conv =>
    lhs
    unfold trovaFile
  dsimp only
  rw [if_neg (by omega), takeWhile_slash hd, if_neg (by omega), hsearch, hdrop]
  cases found with
  | none => rfl
  | some e => rfl

end Steps

/-- `trova_file` finds the first cluster of the file, or nothing where there is none. -/
theorem trovaFile_finds {depth : Nat} (hw : WellChained v) (hdir : IsDirectory v c)
    (hplain : Plain v c dirs nome) (hdirs : ∀ d ∈ dirs, Component d) (hn : Component nome)
    (hlength : (pathOf dirs nome).length < 100) (hdepth : (pathOf dirs nome).length < depth) :
    ∃ r, trovaFile v.toDisk depth (pathOf dirs nome) (dirPos v c) = some r ∧
      (∀ e, Finds v c dirs nome e → r = DirEntry.start e) ∧
      ((∀ e, ¬ Finds v c dirs nome e) → r = 0) := by
  induction dirs generalizing c depth with
  | nil =>
    obtain ⟨depth, rfl⟩ : ∃ k, depth = k + 1 := ⟨depth - 1, by omega⟩
    obtain ⟨es, hes⟩ := (hdir.entries hw).1
    obtain ⟨found, hsearch, -, hfound⟩ := hdir.search hw hplain.2.1 (acceptFile_eq hplain hn)
    refine ⟨_, trovaFile_file hn hlength hsearch, fun e he => ?_, fun hnone => ?_⟩
    · cases he with
      | file hentries hfind =>
        rw [hfound _ hentries] at hfind
        rw [hfind]
        rfl
    · cases found with
      | none => rfl
      | some e => exact absurd (.file hes (hfound es hes)) (hnone e)
  | cons d dirs ih =>
    obtain ⟨depth, rfl⟩ : ∃ k, depth = k + 1 := ⟨depth - 1, by omega⟩
    obtain ⟨es, hes⟩ := (hdir.entries hw).1
    have hd := hdirs d List.mem_cons_self
    obtain ⟨found, hsearch, hfirst, hfound⟩ :=
      hdir.search hw hplain.2.1 (acceptDir_eq hplain hd)
    rw [pathOf_cons] at hlength hdepth ⊢
    rw [trovaFile_dir hd hlength hsearch]
    rw [List.length_append, List.length_cons] at hlength hdepth
    cases found with
    | none =>
      refine ⟨0, rfl, fun e he => ?_, fun _ => rfl⟩
      cases he with
      | dir hentries hfind _ =>
        rw [hfound _ hentries] at hfind
        cases hfind
    | some e =>
      have hfind := hfound es hes
      have hsub : isSubdir d e = true := List.find?_some hfind
      unfold isSubdir at hsub
      obtain ⟨huse, hisDir, -⟩ := of_decide_eq_true hsub
      obtain ⟨hstart, hnext⟩ := hplain.2.2.2 e hfirst
      have hreach : IsDirectory v (DirEntry.start e) :=
        .sub hdir hes (List.mem_of_find?_eq_some hfind) huse hisDir
      obtain ⟨r, hrun, hright, hnone⟩ := ih hreach hnext
        (fun d' hd' => hdirs d' (List.mem_cons_of_mem d hd')) (by omega)
        (show (pathOf dirs nome).length < depth by omega)
      have hpos : dirPos v (DirEntry.start e) = clusterByte v.toDisk (DirEntry.start e) :=
        if_neg hstart
      rw [hpos] at hrun
      refine ⟨r, hrun, fun e' he' => ?_, fun hno => hnone fun e' he' => ?_⟩
      · cases he' with
        | dir hentries hfind' hrest =>
          rw [hfound _ hentries] at hfind'
          obtain rfl := Option.some.inj hfind'
          exact hright e' hrest
      · exact hno e' (.dir hes hfind he')

end OsdevArchive.ItaliOs3.Fat
