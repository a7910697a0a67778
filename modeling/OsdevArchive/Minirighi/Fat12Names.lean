import OsdevArchive.Minirighi.Fat12Chains

/-!
The entries of a directory of the FAT12 driver (`fs/fat/fat12.c`), the names that are built from
them, and the search for a name. Strings are the memory from their first character on.
-/

namespace OsdevArchive.Minirighi.Fat12

open OsdevArchive.Minirighi.Inet

/-! ## Entries -/

/-- `fat12_file_attr_t`. -/
structure FileAttr where
  readOnly : Bool
  hidden : Bool
  system : Bool
  label : Bool
  directory : Bool
  archive : Bool
  deriving DecidableEq

/-- `FileEntry_t`. -/
structure FileEntry where
  name : List Byte
  extension : List Byte
  attr : FileAttr
  reserved : List Byte
  time : Word
  date : Word
  startCluster : Word
  fileLength : BitVec 32
  deriving DecidableEq

def wordAt (buf : Nat → Byte) (a : Nat) : Word := buf (a + 1) ++ buf a

def bytesAt (buf : Nat → Byte) (a n : Nat) : List Byte := (List.range n).map fun k => buf (a + k)

/-- `buf.dir->Entry[ i ]`. -/
def entryAt (buf : Nat → Byte) (i : Nat) : FileEntry :=
  let a := fileEntrySize * i
  let attr := buf (a + 11)
  { name := bytesAt buf a 8
    extension := bytesAt buf (a + 8) 3
    attr :=
      { readOnly := attr.getLsbD 0
        hidden := attr.getLsbD 1
        system := attr.getLsbD 2
        label := attr.getLsbD 3
        directory := attr.getLsbD 4
        archive := attr.getLsbD 5 }
    reserved := bytesAt buf (a + 12) 10
    time := wordAt buf (a + 22)
    date := wordAt buf (a + 24)
    startCluster := wordAt buf (a + 26)
    fileLength := wordAt buf (a + 30) ++ wordAt buf (a + 28) }

/-! ## Strings -/

/-- `tolower`, with the upper case of the table `_ctype`. -/
def tolower (c : Byte) : Byte :=
  if 65 ≤ c.toNat ∧ c.toNat ≤ 90 ∨ 192 ≤ c.toNat ∧ c.toNat ≤ 222 ∧ c.toNat ≠ 215 then c + 32 else c

/-- `strnlen`, from the character `i` on. -/
def strnlen (s : Nat → Byte) : (count i : Nat) → Nat
  | 0, i => i
  | count + 1, i => if s i = 0 then i else strnlen s count (i + 1)

/-- Whether `strncasecmp` is 0, from the character `i` on. -/
def strncasecmp (s₁ s₂ : Nat → Byte) : (n i : Nat) → Bool
  | 0, _ => true
  | n + 1, i =>
      if tolower (s₁ i) ≠ tolower (s₂ i) then false
      else if s₁ i = 0 then true
      else strncasecmp s₁ s₂ n (i + 1)

/-- Whether `strcmp` with a literal is 0, from the character `i` on. -/
def strcmp (s : Nat → Byte) : (literal : List Byte) → (i : Nat) → Bool
  | [], i => s i = 0
  | c :: literal, i => s i = c && strcmp s literal (i + 1)

/-- A loop of `fat12_construct_file_name`, from the character `k` of the name on. -/
def constructPart (k : Nat) (name : Nat → Byte) : (field : List Byte) → Nat → Byte
  | [] => name
  | c :: field =>
      if c = 0x20 then Function.update name k 0
      else constructPart (k + 1) (Function.update name k (tolower c)) field

/-- `sizeof(name)`. -/
def nameSize : Nat := 13

/-- `fat12_construct_file_name`. -/
def constructFileName (f : FileEntry) : Nat → Byte :=
  let name := constructPart 0 (fun _ => 0) f.name
  if f.extension.headD 0 ≠ 0x20 then
    -- `strncat` puts the dot behind the name
    let dot := strnlen name nameSize 0
    let name := Function.update (Function.update name dot 0x2E) (dot + 1) 0
    constructPart (strnlen name nameSize 0) name f.extension
  else name

/-! ## The search -/

/-- How a search ends: with an entry, at an entry that ends the directory, or behind the last
entry. -/
inductive Found where
  | entry (i : Nat)
  | ended
  | nothing
  deriving DecidableEq

/-- Whether the entry has the name. -/
def HasName (filename buf : Nat → Byte) (i : Nat) : Prop :=
  strncasecmp filename (constructFileName (entryAt buf i)) nameSize 0 = true

instance decidableHasName (filename buf : Nat → Byte) : DecidablePred (HasName filename buf) :=
  fun _ => inferInstanceAs (Decidable (_ = true))

/-- The loop over the entries of a directory, from the entry `i` on. -/
def search (filename buf : Nat → Byte) : (rounds i : Nat) → Found
  | 0, _ => .nothing
  | rounds + 1, i =>
      if buf (fileEntrySize * i) = 0 then .ended
      else if buf (fileEntrySize * i) = 0xE5 then search filename buf rounds (i + 1)
      else if HasName filename buf i then .entry i
      else search filename buf rounds (i + 1)

/-- An entry that is neither deleted nor the end of the directory, and that has the name. -/
def Matches (filename buf : Nat → Byte) (i : Nat) : Prop :=
  buf (fileEntrySize * i) ≠ 0 ∧ buf (fileEntrySize * i) ≠ 0xE5 ∧ HasName filename buf i

instance decidableMatches (filename buf : Nat → Byte) : DecidablePred (Matches filename buf) :=
  fun _ => inferInstanceAs (Decidable (_ ∧ _))

/-- Of the `n` entries of a directory `i` is the first one that has the name. -/
structure FirstNamed (filename buf : Nat → Byte) (n i : Nat) : Prop where
  lt : i < n
  here : Matches filename buf i
  before : ∀ j < i, buf (fileEntrySize * j) ≠ 0 ∧ ¬Matches filename buf j

variable {filename buf : Nat → Byte} {n i k : Nat}

theorem search_skip (hused : buf (fileEntrySize * i) ≠ 0) (h : ¬Matches filename buf i) :
    search filename buf (n + 1) i = search filename buf n (i + 1) := by
  rw [search, if_neg hused]
  split
  · rfl
  · next hkept => exact if_neg fun hname => h ⟨hused, hkept, hname⟩

theorem search_match (h : Matches filename buf i) : search filename buf (n + 1) i = .entry i := by
  rw [search, if_neg h.1, if_neg h.2.1, if_pos h.2.2]

/-- What a search over `n` entries from the entry `i` on tells. -/
def Found.Tells (filename buf : Nat → Byte) (n i : Nat) : Found → Prop
  | .entry k => k < i + n ∧ Matches filename buf k ∧
      ∀ j, i ≤ j → j < k → buf (fileEntrySize * j) ≠ 0 ∧ ¬Matches filename buf j
  | .ended => ∃ k < i + n, buf (fileEntrySize * k) = 0 ∧
      ∀ j, i ≤ j → j < k → buf (fileEntrySize * j) ≠ 0 ∧ ¬Matches filename buf j
  | .nothing =>
      ∀ j, i ≤ j → j < i + n → buf (fileEntrySize * j) ≠ 0 ∧ ¬Matches filename buf j

theorem search_tells (filename buf : Nat → Byte) (n i : Nat) :
    (search filename buf n i).Tells filename buf n i := by
  induction n generalizing i with
  | zero => exact fun j hij hji => absurd hij (Nat.not_le.mpr hji)
  | succ n ih =>
    by_cases hused : buf (fileEntrySize * i) = 0
    · rw [search, if_pos hused]
      exact ⟨i, by omega, hused, fun j hij hji => absurd hij (Nat.not_le.mpr hji)⟩
    · by_cases hmatch : Matches filename buf i
      · rw [search_match hmatch]
        exact ⟨by omega, hmatch, fun j hij hji => absurd hij (Nat.not_le.mpr hji)⟩
      · rw [search_skip hused hmatch]
        have hstep : ∀ k, (∀ j, i + 1 ≤ j → j < k → buf (fileEntrySize * j) ≠ 0 ∧
            ¬Matches filename buf j) → ∀ j, i ≤ j → j < k → buf (fileEntrySize * j) ≠ 0 ∧
            ¬Matches filename buf j := by
          intro k h j hij hjk
          rcases Nat.lt_or_eq_of_le hij with hij | rfl
          · exact h j hij hjk
          · exact ⟨hused, hmatch⟩
        have hrest := ih (i + 1)
        have hbound : i + 1 + n = i + (n + 1) := by omega
        generalize search filename buf n (i + 1) = found at hrest
        cases found with
        | entry k =>
          obtain ⟨hk, hhere, hbefore⟩ := hrest
          exact ⟨hbound ▸ hk, hhere, hstep k hbefore⟩
        | ended =>
          obtain ⟨k, hk, hend, hbefore⟩ := hrest
          exact ⟨k, hbound ▸ hk, hend, hstep k hbefore⟩
        | nothing => exact hstep _ (hbound ▸ hrest)

/-- The search finds the first entry that has the name. -/
theorem search_eq_of_firstNamed (h : FirstNamed filename buf n i) :
    search filename buf n 0 = .entry i := by
  have htells := search_tells filename buf n 0
  generalize search filename buf n 0 = found at htells
  cases found with
  | entry k =>
    obtain ⟨-, hmatch, hbefore⟩ := htells
    rcases Nat.lt_trichotomy k i with hk | rfl | hk
    · exact absurd hmatch (h.before k hk).2
    · rfl
    · exact absurd h.here (hbefore i (Nat.zero_le i) hk).2
  | ended =>
    obtain ⟨k, -, hend, hbefore⟩ := htells
    rcases Nat.lt_trichotomy k i with hk | rfl | hk
    · exact absurd hend (h.before k hk).1
    · exact absurd hend h.here.1
    · exact absurd h.here (hbefore i (Nat.zero_le i) hk).2
  | nothing =>
    have hlt : i < 0 + n := by
      rw [Nat.zero_add]
      exact h.lt
    exact absurd h.here (htells i (Nat.zero_le i) hlt).2

/-- A search goes on where the search over the first entries has found nothing. -/
theorem search_append (m : Nat) : search filename buf (m + n) i =
    match search filename buf m i with
    | .nothing => search filename buf n (i + m)
    | found => found := by
  induction m generalizing i with
  | zero => rw [Nat.zero_add, search, Nat.add_zero]
  | succ m ih =>
    rw [Nat.add_right_comm, search, search, ih, Nat.add_assoc i 1 m, Nat.add_comm 1 m]
    split
    · rfl
    · split
      · rfl
      · split <;> rfl

/-- The same result, for entries that lie `m` entries behind. -/
def Found.shift (m : Nat) : Found → Found
  | .entry i => .entry (i + m)
  | found => found

theorem entryAt_congr {buf' : Nat → Byte} {i' : Nat}
    (h : ∀ k < fileEntrySize, buf (fileEntrySize * i + k) = buf' (fileEntrySize * i' + k)) :
    entryAt buf i = entryAt buf' i' := by
  have hbytes : ∀ a n, a + n ≤ fileEntrySize →
      bytesAt buf (fileEntrySize * i + a) n = bytesAt buf' (fileEntrySize * i' + a) n := by
    intro a n han
    unfold bytesAt
    apply List.map_congr_left
    intro k hk
    rw [Nat.add_assoc, Nat.add_assoc]
    exact h _ (by have := List.mem_range.mp hk; omega)
  have hword : ∀ a, a + 1 < fileEntrySize →
      wordAt buf (fileEntrySize * i + a) = wordAt buf' (fileEntrySize * i' + a) := by
    intro a ha
    unfold wordAt
    rw [Nat.add_assoc, Nat.add_assoc, h (a + 1) ha, h a (by omega)]
  have hname := hbytes 0 8 (by decide)
  rw [Nat.add_zero, Nat.add_zero] at hname
  unfold entryAt
  dsimp only
  rw [hname, h 11 (by decide), hbytes 8 3 (by decide), hbytes 12 10 (by decide),
    hword 22 (by decide), hword 24 (by decide), hword 26 (by decide), hword 28 (by decide),
    hword 30 (by decide)]

/-- The entries of a buffer are searched like the same entries elsewhere. -/
theorem search_shift {buf' : Nat → Byte} {m : Nat} (h : ∀ j < n, ∀ k < fileEntrySize,
      buf (fileEntrySize * (i + m + j) + k) = buf' (fileEntrySize * (i + j) + k)) :
    search filename buf n (i + m) = (search filename buf' n i).shift m := by
  induction n generalizing i with
  | zero => rfl
  | succ n ih =>
    have hfirst := h 0 (Nat.succ_pos n)
    rw [Nat.add_zero, Nat.add_zero] at hfirst
    have hbyte := hfirst 0 (by decide)
    rw [Nat.add_zero, Nat.add_zero] at hbyte
    have hname : HasName filename buf (i + m) ↔ HasName filename buf' i := by
      unfold HasName
      rw [entryAt_congr hfirst]
    have hnext := ih (i := i + 1) fun j hj => by
      have hj' := h (j + 1) (Nat.succ_lt_succ hj)
      rwa [Nat.add_comm j 1, ← Nat.add_assoc, ← Nat.add_assoc, Nat.add_right_comm i m 1] at hj'
    rw [Nat.add_right_comm i 1 m] at hnext
    rw [search, search, hbyte, hnext]
    simp only [hname]
    split
    · rfl
    · split
      · rfl
      · split <;> rfl

theorem search_congr {buf' : Nat → Byte} (h : ∀ j < n, ∀ k < fileEntrySize,
      buf (fileEntrySize * j + k) = buf' (fileEntrySize * j + k)) :
    search filename buf n 0 = search filename buf' n 0 := by
  have hshift : search filename buf n (0 + 0) = (search filename buf' n 0).shift 0 := by
    apply search_shift
    intro j hj k hk
    rw [Nat.add_zero, Nat.zero_add]
    exact h j hj k hk
  rw [Nat.add_zero] at hshift
  rw [hshift]
  cases search filename buf' n 0 <;> rfl

/-! ## Names as strings -/

/-- A string in memory. -/
def asString (s : List Byte) (i : Nat) : Byte := s.getD i 0

/-- The name of an entry: the name without its spaces and, behind a dot, the extension. -/
def displayName (f : FileEntry) : List Byte :=
  f.name.takeWhile (· ≠ 0x20) ++
    if f.extension.headD 0 = 0x20 then [] else 0x2E :: f.extension.takeWhile (· ≠ 0x20)

/-- The same string, but for the case. -/
abbrev SameName (s t : List Byte) : Prop := s.map tolower = t.map tolower

variable {s t : List Byte} {f : FileEntry}

theorem tolower_eq_zero {c : Byte} : tolower c = 0 ↔ c = 0 := by
  have hc := c.isLt
  have hadd : (c + 32).toNat = (c.toNat + 32) % 256 := BitVec.toNat_add c 32
  unfold tolower
  split
  · constructor
    · intro h
      rw [h] at hadd
      change 0 = _ at hadd
      omega
    · intro h
      have hzero : c.toNat = 0 := by
        rw [h]
        rfl
      omega
  · rfl

theorem tolower_tolower (c : Byte) : tolower (tolower c) = tolower c := by
  have hc := c.isLt
  have hadd : (c + 32).toNat = (c.toNat + 32) % 256 := BitVec.toNat_add c 32
  unfold tolower
  split
  · rw [if_neg (by omega)]
  · rfl

theorem asString_lt (h : i < s.length) : asString s i = s[i] := by
  unfold asString
  rw [List.getD_eq_getElem?_getD, List.getElem?_eq_getElem h]
  rfl

theorem asString_behind (h : s.length ≤ i) : asString s i = 0 := by
  unfold asString
  rw [List.getD_eq_getElem?_getD, List.getElem?_eq_none h]
  rfl

/-- Another character at the end of a string. -/
theorem update_asString (s : List Byte) (c : Byte) :
    Function.update (asString s) s.length c = asString (s ++ [c]) := by
  funext i
  unfold asString
  rw [Function.update_apply, List.getD_eq_getElem?_getD, List.getD_eq_getElem?_getD]
  rcases Nat.lt_trichotomy i s.length with h | rfl | h
  · rw [if_neg (by omega), List.getElem?_append_left h]
  · rw [if_pos rfl, List.getElem?_concat_length]
    rfl
  · rw [if_neg (by omega), List.getElem?_eq_none (by omega),
      List.getElem?_eq_none (by rw [List.length_append, List.length_singleton]; omega)]

/-- Ending a string where it ends. -/
theorem update_asString_zero (h : s.length ≤ i) :
    Function.update (asString s) i 0 = asString s := by
  rw [← asString_behind h]
  exact Function.update_eq_self i _

/-- A part of the name goes behind what is there. -/
theorem constructPart_asString (s : List Byte) (field : List Byte) :
    constructPart s.length (asString s) field =
      asString (s ++ (field.takeWhile (· ≠ 0x20)).map tolower) := by
  induction field generalizing s with
  | nil => rw [List.takeWhile_nil, List.map_nil, List.append_nil, constructPart]
  | cons c field ih =>
    rw [constructPart]
    by_cases hc : c = 0x20
    · rw [if_pos hc, update_asString_zero (Nat.le_refl _),
        List.takeWhile_cons_of_neg (by simpa using hc), List.map_nil, List.append_nil]
    · have hnext := ih (s ++ [tolower c])
      rw [List.length_append, List.length_singleton] at hnext
      rw [if_neg hc, update_asString, hnext, List.takeWhile_cons_of_pos (by simpa using hc),
        List.map_cons, List.append_assoc]
      rfl

theorem strnlen_asString (hs : ∀ c ∈ s, c ≠ 0) (h : s.length ≤ i + n) (hi : i ≤ s.length) :
    strnlen (asString s) n i = s.length := by
  induction n generalizing i with
  | zero => exact Nat.le_antisymm hi h
  | succ n ih =>
    rw [strnlen]
    rcases Nat.lt_or_eq_of_le hi with hlt | rfl
    · rw [asString_lt hlt, if_neg (hs _ (List.getElem_mem hlt))]
      exact ih (by omega) hlt
    · rw [asString_behind (Nat.le_refl _), if_pos rfl]

/-- The constructed name is the name as a string. -/
theorem constructFileName_eq (hname : ∀ c ∈ f.name, c ≠ 0) (hlength : f.name.length ≤ 8) :
    constructFileName f = asString ((displayName f).map tolower) := by
  have hbase := constructPart_asString [] f.name
  rw [List.nil_append] at hbase
  generalize hb : (f.name.takeWhile (· ≠ 0x20)).map tolower = base at hbase
  have hzero : ∀ c ∈ base, c ≠ 0 := by
    intro c hc
    rw [← hb] at hc
    obtain ⟨c', hc', rfl⟩ := List.mem_map.mp hc
    exact fun h => hname c' ((List.takeWhile_sublist _).subset hc') (tolower_eq_zero.mp h)
  have hshort : base.length ≤ 8 := by
    rw [← hb, List.length_map]
    exact Nat.le_trans (List.takeWhile_sublist _).length_le hlength
  have hfirst : constructPart 0 (fun _ => 0) f.name = asString base := hbase
  unfold constructFileName displayName
  rw [hfirst]
  dsimp only
  by_cases hext : f.extension.headD 0 = 0x20
  · rw [if_neg (not_not.mpr hext), if_pos hext, List.append_nil, hb]
  · rw [if_pos hext, if_neg hext,
      strnlen_asString hzero (by unfold nameSize; omega) (Nat.zero_le _), update_asString,
      update_asString_zero (by rw [List.length_append, List.length_singleton])]
    have hdot : ∀ c ∈ base ++ [0x2E], c ≠ (0 : Byte) := by
      intro c hc
      rcases List.mem_append.mp hc with hc | hc
      · exact hzero c hc
      · rw [List.mem_singleton.mp hc]
        decide
    have hfits : (base ++ [0x2E]).length ≤ 0 + nameSize := by
      rw [List.length_append, List.length_singleton]
      unfold nameSize
      omega
    rw [strnlen_asString hdot hfits (Nat.zero_le _), constructPart_asString, List.map_append, hb,
      List.map_cons, List.append_assoc]
    rfl

/-- Strings are compared without regard to case. -/
theorem strncasecmp_asString (hs : ∀ c ∈ s, c ≠ 0) (ht : ∀ c ∈ t, c ≠ 0) (hn : t.length < i + n)
    (his : i ≤ s.length) (hit : i ≤ t.length) :
    strncasecmp (asString s) (asString t) n i = true ↔ SameName (s.drop i) (t.drop i) := by
  induction n generalizing i with
  | zero => exact absurd hn (Nat.not_lt.mpr hit)
  | succ n ih =>
    rw [strncasecmp]
    rcases Nat.lt_or_eq_of_le his with his | his <;> rcases Nat.lt_or_eq_of_le hit with hit | hit
    · rw [asString_lt his, asString_lt hit, List.drop_eq_getElem_cons his,
        List.drop_eq_getElem_cons hit, if_neg (hs _ (List.getElem_mem his))]
      unfold SameName
      rw [List.map_cons, List.map_cons, List.cons.injEq]
      by_cases hc : tolower s[i] = tolower t[i]
      · rw [if_neg (not_not.mpr hc), and_iff_right hc]
        exact ih (by omega) his hit
      · rw [if_pos hc]
        exact iff_of_false Bool.false_ne_true fun h => hc h.1
    · rw [asString_behind (Nat.le_of_eq hit.symm), asString_lt his, List.drop_eq_getElem_cons his,
        List.drop_of_length_le (Nat.le_of_eq hit.symm), if_pos]
      · exact iff_of_false Bool.false_ne_true fun h => List.cons_ne_nil _ _ h
      · exact fun h => hs _ (List.getElem_mem his) (tolower_eq_zero.mp h)
    · rw [asString_behind (Nat.le_of_eq his.symm), asString_lt hit, List.drop_eq_getElem_cons hit,
        List.drop_of_length_le (Nat.le_of_eq his.symm), if_pos]
      · exact iff_of_false Bool.false_ne_true fun h => List.cons_ne_nil _ _ h.symm
      · exact fun h => ht _ (List.getElem_mem hit) (tolower_eq_zero.mp h.symm)
    · rw [asString_behind (Nat.le_of_eq his.symm), asString_behind (Nat.le_of_eq hit.symm),
        List.drop_of_length_le (Nat.le_of_eq his.symm),
        List.drop_of_length_le (Nat.le_of_eq hit.symm), if_neg (not_not.mpr rfl), if_pos rfl]
      exact iff_of_true rfl rfl

theorem bytesAt_length (buf : Nat → Byte) (a n : Nat) : (bytesAt buf a n).length = n := by
  unfold bytesAt
  rw [List.length_map, List.length_range]

/-- The name of an entry has no zeros. -/
def IsText (f : FileEntry) : Prop := ∀ c ∈ f.name ++ f.extension, c ≠ 0

theorem displayName_text (h : IsText f) : ∀ c ∈ displayName f, c ≠ 0 := by
  intro c hc
  unfold displayName at hc
  rcases List.mem_append.mp hc with hc | hc
  · exact h c (List.mem_append_left _ ((List.takeWhile_sublist _).subset hc))
  · split at hc
    · cases hc
    · rcases List.mem_cons.mp hc with rfl | hc
      · decide
      · exact h c (List.mem_append_right _ ((List.takeWhile_sublist _).subset hc))

theorem displayName_length (hname : f.name.length ≤ 8) (hext : f.extension.length ≤ 3) :
    (displayName f).length < nameSize := by
  have hbase := (List.takeWhile_sublist (fun c : Byte => decide (c ≠ 0x20)) (l := f.name)).length_le
  have htail := (List.takeWhile_sublist (fun c : Byte => decide (c ≠ 0x20))
    (l := f.extension)).length_le
  unfold displayName nameSize
  rw [List.length_append]
  split
  · rw [List.length_nil]
    omega
  · rw [List.length_cons]
    omega

/-- An entry has a name if that is its name but for the case. -/
theorem hasName_iff (hs : ∀ c ∈ s, c ≠ 0) (h : IsText (entryAt buf i)) :
    HasName (asString s) buf i ↔ SameName s (displayName (entryAt buf i)) := by
  have hname : (entryAt buf i).name.length ≤ 8 := Nat.le_of_eq (bytesAt_length ..)
  have hext : (entryAt buf i).extension.length ≤ 3 := Nat.le_of_eq (bytesAt_length ..)
  have htext : ∀ c ∈ (displayName (entryAt buf i)).map tolower, c ≠ 0 := by
    intro c hc
    obtain ⟨c', hc', rfl⟩ := List.mem_map.mp hc
    exact fun h0 => displayName_text h c' hc' (tolower_eq_zero.mp h0)
  have hlength := displayName_length hname hext
  unfold HasName
  rw [constructFileName_eq (fun c hc => h c (List.mem_append_left _ hc)) hname,
    strncasecmp_asString hs htext (by rwa [List.length_map, Nat.zero_add]) (Nat.zero_le _)
      (Nat.zero_le _), List.drop_zero, List.drop_zero]
  unfold SameName
  rw [List.map_map]
  simp only [Function.comp_def, tolower_tolower]

end OsdevArchive.Minirighi.Fat12
