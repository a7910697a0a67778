import OsdevArchive.Lib.Paths
import OsdevArchive.Minirighi.Fat12Lookup

/-!
What `__fat12_locate_file` finds. Each component is looked up in the directory reached so far; the
loop stops at the first entry that is no directory, whatever components are left.
-/

namespace OsdevArchive.Minirighi.Fat12

open OsdevArchive.Lib.Paths OsdevArchive.Minirighi.Inet

/-! ## Directory trees -/

/-- A mounted volume with the clusters of its directories. -/
structure Volume extends Ready where
  places : Places
  clusters : Word → List Word

variable (v : Volume)

def Volume.sectors (d : Word) : List Nat := sectorsOf v.places v.super d (v.clusters d)

/-- The contents of a directory. -/
def Volume.entries (d : Word) : Nat → Byte := contents v.disk (v.sectors d)

/-- The number of its entries. -/
def Volume.count (d : Word) : Nat := (v.sectors d).length * perSector

def Volume.entry (d : Word) (i : Nat) : FileEntry := entryAt (v.entries d) i

/-- An entry that is not deleted, before the end of the directory. -/
structure Volume.InUse (d : Word) (i : Nat) : Prop where
  lt : i < v.count d
  kept : v.entries d (fileEntrySize * i) ≠ 0xE5
  used : ∀ j ≤ i, v.entries d (fileEntrySize * j) ≠ 0

/-- The directory has an entry that ends it. -/
def Volume.Ended (d : Word) : Prop := ∃ i < v.count d, v.entries d (fileEntrySize * i) = 0

/-- An entry with the name. -/
def Volume.Lists (d : Word) (name : List Byte) (i : Nat) : Prop :=
  v.InUse d i ∧ SameName name (displayName (v.entry d i))

/-- The directory has the entry under the name: it is the first one with it. In the root directory
the names "." and ".." stand for itself. -/
def Volume.Holds (d : Word) (name : List Byte) (e : FileEntry) : Prop :=
  if d = 0 ∧ (name = [0x2E] ∨ name = [0x2E, 0x2E]) then e = rootEntry
  else ∃ i, v.Lists d name i ∧ (∀ j < i, ¬v.Lists d name j) ∧ e = v.entry d i

/-- The directory that an entry stands for. -/
def enters (e : FileEntry) : Option Word := if e.attr.directory then some e.startCluster else none

/-- A directory tree: its directories lie in well formed chains, and their entries for directories
are of directories of the tree. -/
structure Tree extends Volume where
  dirs : Set Word
  root : 0 ∈ dirs
  chains : ∀ d ∈ dirs, IsDirectory lfat d (clusters d)
  inside : ∀ d ∈ dirs, ∀ i, toVolume.InUse d i → (toVolume.entry d i).attr.directory = true →
    (toVolume.entry d i).startCluster ∈ dirs
  text : ∀ d ∈ dirs, ∀ i, toVolume.InUse d i → IsText (toVolume.entry d i)

/-- A path that is looked up from a directory of the tree. -/
structure Request extends Tree where
  dir : Word
  dir_mem : dir ∈ dirs
  path : List Byte
  path_text : ∀ c ∈ path, c ≠ 0

variable {v} {d : Word} {name : List Byte} {e e' : FileEntry}

/-- A directory has at most one entry under a name. -/
theorem Volume.Holds.unique (h : v.Holds d name e) (h' : v.Holds d name e') : e = e' := by
  unfold Volume.Holds at h h'
  split at h
  · next hdots =>
    rw [if_pos hdots] at h'
    exact h.trans h'.symm
  · next hdots =>
    rw [if_neg hdots] at h'
    obtain ⟨i, hi, hbefore, rfl⟩ := h
    obtain ⟨i', hi', hbefore', rfl⟩ := h'
    rcases Nat.lt_trichotomy i i' with hlt | rfl | hlt
    · exact absurd hi (hbefore' i hlt)
    · rfl
    · exact absurd hi' (hbefore i' hlt)

/-! ## Looking a name up -/

theorem strcmp_asString {s : List Byte} (hs : ∀ c ∈ s, c ≠ 0) {literal : List Byte}
    (hliteral : ∀ c ∈ literal, c ≠ 0) {i : Nat} (hi : i ≤ s.length) :
    strcmp (asString s) literal i = true ↔ s.drop i = literal := by
  induction literal generalizing i with
  | nil =>
    rw [strcmp, decide_eq_true_iff]
    rcases Nat.lt_or_eq_of_le hi with hi | rfl
    · rw [asString_lt hi, List.drop_eq_getElem_cons hi]
      exact iff_of_false (hs _ (List.getElem_mem hi)) (List.cons_ne_nil _ _)
    · rw [asString_behind (Nat.le_refl _), List.drop_length]
      exact iff_of_true rfl rfl
  | cons c literal ih =>
    rw [strcmp, Bool.and_eq_true, decide_eq_true_iff]
    rcases Nat.lt_or_eq_of_le hi with hi | rfl
    · rw [asString_lt hi, List.drop_eq_getElem_cons hi, List.cons.injEq,
        ih (fun c hc => hliteral c (List.mem_cons_of_mem _ hc)) hi]
    · rw [asString_behind (Nat.le_refl _), List.drop_length]
      exact iff_of_false (fun h => hliteral c List.mem_cons_self h.1.symm)
        (List.cons_ne_nil _ _).symm

theorem dots_asString (hname : ∀ c ∈ name, c ≠ 0) :
    Dots (asString name) ↔ name = [0x2E] ∨ name = [0x2E, 0x2E] := by
  unfold Dots
  rw [strcmp_asString hname (by decide) (Nat.zero_le _),
    strcmp_asString hname (by decide) (Nat.zero_le _), List.drop_zero]

section Lookup

variable {x : Tree} {env : LookupEnv} {fuel calls : Nat} {fe : FileEntry}

/-- Before an entry that ends the directory the code matches the entries with the name. -/
theorem matches_iff (hd : d ∈ x.dirs) (hname : ∀ c ∈ name, c ≠ 0) {i : Nat} (hi : i < x.count d)
    (hused : ∀ j ≤ i, x.entries d (fileEntrySize * j) ≠ 0) :
    Matches (asString name) (x.entries d) i ↔ x.Lists d name i := by
  unfold Matches Volume.Lists
  constructor
  · rintro ⟨-, hkept, hhas⟩
    have hinuse : x.InUse d i := ⟨hi, hkept, hused⟩
    exact ⟨hinuse, (hasName_iff hname (x.text d hd i hinuse)).mp hhas⟩
  · rintro ⟨hinuse, hsame⟩
    exact ⟨hused i (Nat.le_refl i), hinuse.kept,
      (hasName_iff hname (x.text d hd i hinuse)).mpr hsame⟩

/-- What a search of a whole directory finds. -/
theorem search_directory (hd : d ∈ x.dirs) (hname : ∀ c ∈ name, c ≠ 0) :
    match search (asString name) (x.entries d) (x.count d) 0 with
    | .entry i => x.Lists d name i ∧ ∀ j < i, ¬x.Lists d name j
    | .ended => (∀ i, ¬x.Lists d name i) ∧ x.Ended d
    | .nothing => (∀ i, ¬x.Lists d name i) ∧ ¬x.Ended d := by
  have htells := search_tells (asString name) (x.entries d) (x.count d) 0
  have hnone : ∀ k ≤ x.count d, (∀ j, 0 ≤ j → j < k → x.entries d (fileEntrySize * j) ≠ 0 ∧
      ¬Matches (asString name) (x.entries d) j) → ∀ j < k, ¬x.Lists d name j := by
    intro k hk hbefore j hjk hlists
    exact (hbefore j (Nat.zero_le j) hjk).2
      ((matches_iff hd hname (by omega) hlists.1.used).mpr hlists)
  generalize search (asString name) (x.entries d) (x.count d) 0 = found at htells
  cases found with
  | entry i =>
    obtain ⟨hi, hmatch, hbefore⟩ := htells
    rw [Nat.zero_add] at hi
    have hused : ∀ j ≤ i, x.entries d (fileEntrySize * j) ≠ 0 := by
      intro j hj
      rcases Nat.lt_or_eq_of_le hj with hj | rfl
      · exact (hbefore j (Nat.zero_le j) hj).1
      · exact hmatch.1
    exact ⟨(matches_iff hd hname hi hused).mp hmatch, hnone i (Nat.le_of_lt hi) hbefore⟩
  | ended =>
    obtain ⟨k, hk, hend, hbefore⟩ := htells
    rw [Nat.zero_add] at hk
    refine ⟨fun j hlists => ?_, k, hk, hend⟩
    rcases Nat.lt_or_ge j k with hj | hj
    · exact hnone k (Nat.le_of_lt hk) hbefore j hj hlists
    · exact hlists.1.used k hj hend
  | nothing =>
    change ∀ j, 0 ≤ j → j < 0 + x.count d → _ at htells
    rw [Nat.zero_add] at htells
    refine ⟨fun j hlists => hnone _ (Nat.le_refl _) htells j hlists.1.lt hlists, ?_⟩
    rintro ⟨k, hk, hend⟩
    exact (htells k (Nat.zero_le k) hk).1 hend

/-- A lookup finds the entry under the name. Without one it fails if the directory has an end;
else it gives a number that means nothing, and leaves `*f`. -/
theorem lookup_spec (henv : env.Serves) (hfuel : lfatLength ≤ fuel) (hd : d ∈ x.dirs)
    (hname : ∀ c ∈ name, c ≠ 0) (hne : name ≠ []) (fe : FileEntry) (calls : Nat) :
    ∃ ret fe' calls', getFileEntry x.places env fuel ⟨x.toSt, calls⟩ fe d (asString name) =
        .ok (ret, fe', ⟨x.toSt, calls'⟩) ∧
      (∀ e, x.Holds d name e → ret = some e.startCluster.toNat ∧ fe' = e) ∧
      ((∀ e, ¬x.Holds d name e) → fe' = fe ∧ (x.Ended d → ret = none) ∧
        (¬x.Ended d → ∃ r, ret = some r)) := by
  have hfirst : asString name 0 ≠ 0 := by
    have hpos := List.length_pos_of_ne_nil hne
    rw [asString_lt hpos]
    exact hname _ (List.getElem_mem hpos)
  obtain ⟨ret, fe', calls', hget, hspecial, hplain⟩ := getFileEntry_spec (p := x.places)
    x.checked henv hfuel (x.chains d hd) fe hfirst calls rfl
  refine ⟨ret, fe', calls', hget, ?_⟩
  rw [dots_asString hname] at hspecial hplain
  by_cases hdots : d = 0 ∧ (name = [0x2E] ∨ name = [0x2E, 0x2E])
  · obtain ⟨rfl, rfl⟩ := hspecial hdots
    have hholds : x.Holds d name rootEntry := by
      unfold Volume.Holds
      rw [if_pos hdots]
    refine ⟨fun e he => ?_, fun h => absurd hholds (h _)⟩
    rw [he.unique hholds]
    exact ⟨rfl, rfl⟩
  · have hgives := hplain hdots
    have hsearch := search_directory hd hname
    have hholds : ∀ e, x.Holds d name e ↔
        ∃ i, x.Lists d name i ∧ (∀ j < i, ¬x.Lists d name j) ∧ e = x.entry d i := by
      intro e
      unfold Volume.Holds
      rw [if_neg hdots]
    change Gives fe (x.entries d) (search (asString name) (x.entries d) (x.count d) 0) ret fe'
      at hgives
    generalize search (asString name) (x.entries d) (x.count d) 0 = found at hgives hsearch
    cases found with
    | entry i =>
      obtain ⟨rfl, rfl⟩ := hgives
      have hhere : x.Holds d name (x.entry d i) := (hholds _).mpr ⟨i, hsearch.1, hsearch.2, rfl⟩
      refine ⟨fun e he => ?_, fun h => absurd hhere (h _)⟩
      rw [he.unique hhere]
      exact ⟨rfl, rfl⟩
    | ended =>
      refine ⟨fun e he => ?_, fun _ => ⟨hgives.2, fun _ => hgives.1, fun h => absurd hsearch.2 h⟩⟩
      obtain ⟨i, hi, -⟩ := (hholds e).mp he
      exact absurd hi (hsearch.1 i)
    | nothing =>
      refine ⟨fun e he => ?_, fun _ => ⟨hgives.2, fun h => absurd h hsearch.2, fun _ => hgives.1⟩⟩
      obtain ⟨i, hi, -⟩ := (hholds e).mp he
      exact absurd hi (hsearch.1 i)

/-- An entry that stands for a directory is of one of the tree. -/
theorem enters_mem (hd : d ∈ x.dirs) (h : x.Holds d name e) {d' : Word}
    (henters : enters e = some d') :
    e.attr.directory = true ∧ e.startCluster = d' ∧ d' ∈ x.dirs := by
  unfold enters at henters
  split at henters
  · next hdir =>
    obtain rfl := Option.some.inj henters
    refine ⟨hdir, rfl, ?_⟩
    unfold Volume.Holds at h
    split at h
    · rw [h]
      exact x.root
    · obtain ⟨i, hlists, -, rfl⟩ := h
      exact x.inside d hd i hlists.1 hdir
  · cases henters

theorem enters_none (h : enters e = none) : e.attr.directory = false := by
  unfold enters at h
  split at h
  · cases h
  · next hdir => exact Bool.eq_false_of_not_eq_true hdir

theorem clusterOf_toNat (c : Word) : clusterOf (some c.toNat) = c := BitVec.ofNat_toNat _ c

/-- The next component of an entry that stands for a directory is looked up there. -/
theorem setRelativePath_spec (henv : env.Serves) (hfuel : lfatLength ≤ fuel) (hd : d ∈ x.dirs)
    (hname : ∀ c ∈ name, c ≠ 0) (hne : name ≠ []) (hholds : x.Holds d name e)
    (hdir : e.attr.directory = true) (f : FileEntry) (calls : Nat) :
    ∃ calls', setRelativePath x.places env fuel ⟨x.toSt, calls⟩ f d (asString name) =
      .ok (e.startCluster, ⟨x.toSt, calls'⟩) := by
  have hfirst : asString name 0 ≠ 0 := by
    have hpos := List.length_pos_of_ne_nil hne
    rw [asString_lt hpos]
    exact hname _ (List.getElem_mem hpos)
  obtain ⟨ret, fe', calls', hget, hfound, -⟩ := lookup_spec henv hfuel hd hname hne f calls
  obtain ⟨rfl, rfl⟩ := hfound e hholds
  unfold setRelativePath
  rw [if_neg hfirst, hget, ok_bind]
  dsimp only
  rw [if_pos hdir, clusterOf_toNat]
  exact ⟨calls', rfl⟩

/-- The components of a path. -/
def named (components : List (List Byte)) : List (List Byte) := components.filter (· ≠ [])

/-- The loop over the components walks eagerly: it stops at an entry that is no directory. No name
may be missing from a directory that has no end. -/
theorem explore_spec (henv : env.Serves) (hfuel : lfatLength ≤ fuel) (stack : Nat → FileEntry)
    {components : List (List Byte)} (hd : d ∈ x.dirs)
    (htext : ∀ name ∈ components, ∀ c ∈ name, c ≠ 0)
    (hmisses : MissesIn x.Holds enters x.Ended d (named components)) (ret : Option Nat)
    (fe : FileEntry) (calls : Nat) :
    ∃ ret' fe' calls', explore x.places env fuel stack true components d
        (ret, fe, ⟨x.toSt, calls⟩) = .ok (ret', fe', ⟨x.toSt, calls'⟩) ∧
      (named components = [] → ret' = ret ∧ fe' = fe) ∧
      (named components ≠ [] → ∃ r, Lands x.Holds enters d (named components) none r ∧
        (∀ e, r = some e → ret' = some e.startCluster.toNat ∧ fe' = e) ∧
        (r = none → ret' = none)) := by
  induction components generalizing d ret fe calls with
  | nil => exact ⟨ret, fe, calls, rfl, fun _ => ⟨rfl, rfl⟩, fun h => absurd rfl h⟩
  | cons name rest ih =>
    have htail : ∀ name ∈ rest, ∀ c ∈ name, c ≠ 0 :=
      fun name' hname' => htext name' (List.mem_cons_of_mem name hname')
    rw [explore, if_neg fun h => Bool.noConfusion h.2]
    by_cases hne : name = []
    · have hnamed : named (name :: rest) = named rest := by
        rw [hne]
        rfl
      rw [if_pos hne, hnamed]
      rw [hnamed] at hmisses
      exact ih hd htail hmisses ret fe calls
    · have hnamed : named (name :: rest) = name :: named rest :=
        List.filter_cons_of_pos (by simpa using hne)
      rw [if_neg hne, hnamed]
      rw [hnamed] at hmisses
      have hname := htext name List.mem_cons_self
      obtain ⟨ret₁, fe₁, calls₁, hget, hfound, hnone⟩ :=
        lookup_spec henv hfuel hd hname hne fe calls
      rw [hget, ok_bind]
      dsimp only
      by_cases hholds : ∃ e, x.Holds d name e
      · obtain ⟨e, hholds⟩ := hholds
        obtain ⟨rfl, rfl⟩ := hfound e hholds
        dsimp only
        cases henters : enters fe₁ with
        | none =>
          rw [enters_none henters]
          refine ⟨_, _, _, rfl, fun h => absurd h (List.cons_ne_nil _ _), fun _ =>
            ⟨some fe₁, .stop hholds henters, fun e he => ?_, fun h => by cases h⟩⟩
          rw [Option.some.inj he]
          exact ⟨rfl, rfl⟩
        | some d' =>
          obtain ⟨hdir, rfl, hd'⟩ := enters_mem hd hholds henters
          obtain ⟨calls₂, hset⟩ := setRelativePath_spec henv hfuel hd hname hne hholds hdir
            (stack calls₁) calls₁
          rw [if_pos hdir, hset, ok_bind]
          obtain ⟨ret', fe', calls', hrest, hnil, hcons⟩ := ih hd' htail
            (hmisses.2 fe₁ _ hholds henters) (some fe₁.startCluster.toNat) fe₁ calls₂
          refine ⟨ret', fe', calls', hrest, fun h => absurd h (List.cons_ne_nil _ _), fun _ => ?_⟩
          by_cases hlast : named rest = []
          · obtain ⟨rfl, rfl⟩ := hnil hlast
            rw [hlast]
            refine ⟨some fe', .enter hholds henters .done, fun e he => ?_, fun h => by cases h⟩
            rw [Option.some.inj he]
            exact ⟨rfl, rfl⟩
          · obtain ⟨r, hlands, hsome, hnone'⟩ := hcons hlast
            exact ⟨r, .enter hholds henters (hlands.of_ne_nil hlast), hsome, hnone'⟩
      · have hmissing : ∀ e, ¬x.Holds d name e := fun e he => hholds ⟨e, he⟩
        rw [(hnone hmissing).2.1 (hmisses.1 hmissing)]
        exact ⟨_, _, _, rfl, fun h => absurd h (List.cons_ne_nil _ _), fun _ =>
          ⟨none, .missing hmissing, fun _ he => absurd he.symm (Option.some_ne_none _),
            fun _ => rfl⟩⟩

/-- A path whose first name is missing from a directory without an end: `*fe` is not written, and if
it happens to be no directory, the loop ends without an error. -/
theorem explore_lost (henv : env.Serves) (hfuel : lfatLength ≤ fuel) (stack : Nat → FileEntry)
    {components : List (List Byte)} (hd : d ∈ x.dirs)
    (htext : ∀ name ∈ components, ∀ c ∈ name, c ≠ 0) {rest : List (List Byte)}
    (hnamed : named components = name :: rest) (hmissing : ∀ e, ¬x.Holds d name e)
    (hended : ¬x.Ended d) (hfe : fe.attr.directory = false) (ret : Option Nat) (calls : Nat) :
    ∃ r calls', explore x.places env fuel stack true components d (ret, fe, ⟨x.toSt, calls⟩) =
      .ok (some r, fe, ⟨x.toSt, calls'⟩) := by
  induction components with
  | nil => cases hnamed
  | cons name' rest' ih =>
    rw [explore, if_neg fun h => Bool.noConfusion h.2]
    by_cases hne : name' = []
    · have hskip : named (name' :: rest') = named rest' := by
        rw [hne]
        rfl
      rw [if_pos hne]
      rw [hskip] at hnamed
      exact ih (fun name'' hname'' => htext name'' (List.mem_cons_of_mem name' hname'')) hnamed
    · have hfirst : named (name' :: rest') = name' :: named rest' :=
        List.filter_cons_of_pos (by simpa using hne)
      obtain ⟨rfl, -⟩ := List.cons.inj (hfirst.symm.trans hnamed)
      obtain ⟨ret₁, fe₁, calls₁, hget, -, hnone⟩ :=
        lookup_spec henv hfuel hd (htext name' List.mem_cons_self) hne fe calls
      obtain ⟨rfl, -, hlost⟩ := hnone hmissing
      obtain ⟨r, rfl⟩ := hlost hended
      rw [if_neg hne, hget, ok_bind]
      dsimp only
      rw [hfe]
      exact ⟨r, calls₁, rfl⟩

theorem lands_mem {ns : List (List Byte)} {last r : Option FileEntry}
    (h : Lands x.Holds enters d ns last r) (hd : d ∈ x.dirs)
    (hlast : ∀ e, last = some e → e.attr.directory = true → e.startCluster ∈ x.dirs) :
    ∀ e, r = some e → e.attr.directory = true → e.startCluster ∈ x.dirs := by
  induction h with
  | done => exact hlast
  | enter hholds henters _ ih =>
    obtain ⟨-, hstart, hd'⟩ := enters_mem hd hholds henters
    apply ih hd'
    intro e he _
    rw [← Option.some.inj he, hstart]
    exact hd'
  | stop _ henters =>
    intro e he hdir
    rw [← Option.some.inj he, enters_none henters] at hdir
    cases hdir
  | missing _ => exact fun e he => absurd he.symm (Option.some_ne_none e)

end Lookup

/-! ## The whole path -/

def Request.components (x : Request) : List (List Byte) := named (x.path.splitOn slash)

def Request.Absolute (x : Request) : Prop := x.path.head? = some slash

instance decidableAbsolute (x : Request) : Decidable x.Absolute :=
  inferInstanceAs (Decidable (_ = _))

/-- The directory where the path begins. -/
def Request.origin (x : Request) : Word := if x.Absolute then 0 else x.dir

/-- The path leads to the entry: each component but the last is an entry for a directory in the
directory reached so far, and the last component is there. -/
def Request.Leads (x : Request) (e : FileEntry) : Prop :=
  Resolves x.Holds enters x.origin x.components e

/-- The entry as it is returned: that of a directory has the length of its clusters. -/
def Volume.returned (v : Volume) (e : FileEntry) : FileEntry :=
  if e.attr.directory then
    { e with fileLength := BitVec.ofNat 32 ((v.sectors e.startCluster).length * fatSectorSize) }
  else e

/-- `__fat12_locate_file` succeeds if and only if the path leads to an entry, and with that one;
whatever is in `*fe` and on the stack, and with rounds enough for the loops. -/
def LocatesExactly (x : Request) (env : LookupEnv) : Prop :=
  ∃ enough, ∀ fuel ≥ enough, ∀ stack fe ret fe',
    (∃ w, locateFile x.places env fuel stack x.toSt fe x.dir x.path = .ok (some ret, fe', w)) ↔
      ∃ e, x.Leads e ∧ ret = e.startCluster.toNat ∧ fe' = x.returned e

/-- The condition: the lookups are served, the path fits, it has a component unless it is relative,
no component but the last is an entry for something else than a directory, and no component is
missing from a directory that has no end. -/
structure LocateCondition (x : Request) (env : LookupEnv) : Prop where
  served : env.Serves
  short : x.path.length < pathLen
  target : x.Absolute → x.components ≠ []
  straight : Straight x.Holds enters x.origin x.components
  ends : MissesIn x.Holds enters x.Ended x.origin x.components

/-- Inputs for which the condition is needed, too: the lookups are served, the path fits, and no
component behind the first one is missing from a directory that has no end. There the code goes on
with the contents of its stack. -/
structure Determined (x : Request) (env : LookupEnv) : Prop where
  served : env.Serves
  short : x.path.length < pathLen
  later : ∀ name rest, x.components = name :: rest → ∀ e d', x.Holds x.origin name e →
    enters e = some d' → MissesIn x.Holds enters x.Ended d' rest

section Locate

variable {x : Request} {env : LookupEnv} {fuel : Nat} {fe : FileEntry} {ret : Option Nat}
  {w : Walk}

theorem splitOn_text {path : List Byte} (h : ∀ c ∈ path, c ≠ 0) :
    ∀ name ∈ path.splitOn slash, ∀ c ∈ name, c ≠ 0 := by
  induction path with
  | nil =>
    intro name hname c hc
    rw [List.splitOn_nil, List.mem_singleton] at hname
    rw [hname] at hc
    cases hc
  | cons b path ih =>
    have hrest := ih fun c hc => h c (List.mem_cons_of_mem b hc)
    rw [List.splitOn_cons_eq_if_modifyHead]
    split
    · intro name hname
      rcases List.mem_cons.mp hname with rfl | hname
      · exact fun c hc => by cases hc
      · exact hrest name hname
    · generalize path.splitOn slash = names at hrest ⊢
      cases names with
      | nil => exact hrest
      | cons first names =>
        rw [List.modifyHead_cons]
        intro name hname
        rcases List.mem_cons.mp hname with rfl | hname
        · intro c hc
          rcases List.mem_cons.mp hc with rfl | hc
          · exact h _ List.mem_cons_self
          · exact hrest first List.mem_cons_self c hc
        · exact hrest name (List.mem_cons_of_mem first hname)

theorem origin_mem (x : Request) : x.origin ∈ x.dirs := by
  unfold Request.origin
  split
  · exact x.root
  · exact x.dir_mem

/-- A path that fits is copied as a whole. -/
theorem locateFile_eq (hshort : x.path.length < pathLen) (stack : Nat → FileEntry)
    (fe : FileEntry) :
    locateFile x.places env fuel stack x.toSt fe x.dir x.path =
      explore x.places env fuel stack true (x.path.splitOn slash) x.origin
        (if x.Absolute then some 0 else none, fe, ⟨x.toSt, 0⟩) >>= fixLength fuel := by
  have hcheck : ¬x.super.check = false := by
    rw [x.checked]
    decide
  unfold locateFile
  rw [if_neg hcheck, List.take_of_length_le (Nat.le_of_lt hshort), decide_eq_true hshort]
  rfl

/-- The result is not changed at the end. -/
theorem fixLength_ret {r : Nat} {fe' : FileEntry} {w' : Walk}
    (h : fixLength fuel (ret, fe, w) = .ok (some r, fe', w')) : ret = some r := by
  unfold fixLength at h
  dsimp only at h
  split at h
  · obtain ⟨n, -, h⟩ := bind_ok h
    exact (Prod.mk.inj (Except.ok.inj h)).1
  · exact (Prod.mk.inj (Except.ok.inj h)).1

theorem fixLength_file (h : fe.attr.directory = false) :
    fixLength fuel (ret, fe, w) = .ok (ret, fe, w) := by
  unfold fixLength
  dsimp only
  rw [h]
  rfl

/-- At the end the length of a directory is set. -/
theorem fixLength_entry (hfuel : lfatLength ≤ fuel) {e : FileEntry} {calls : Nat}
    (h : e.attr.directory = true → e.startCluster ∈ x.dirs) :
    fixLength fuel (some e.startCluster.toNat, e, ⟨x.toSt, calls⟩) =
      .ok (some e.startCluster.toNat, x.returned e, ⟨x.toSt, calls⟩) := by
  unfold Volume.returned
  by_cases hdir : e.attr.directory = true
  · unfold fixLength
    dsimp only
    rw [if_pos hdir, if_pos hdir, clusterOf_toNat,
      howManyCluster_dir x.places x.checked (x.chains _ (h hdir)) hfuel, ok_bind,
      (check_geometry x.checked).1]
    rfl
  · rw [if_neg hdir]
    exact fixLength_file (Bool.eq_false_of_not_eq_true hdir)

theorem holds_unique (x : Request) (d : Word) (name : List Byte) (e e' : FileEntry)
    (h : x.Holds d name e) (h' : x.Holds d name e') : e = e' := h.unique h'

/-- Where no name is missing from a directory without an end, the result is the one of the eager
walk. -/
theorem locateFile_lands (hserved : env.Serves) (hshort : x.path.length < pathLen)
    (hends : MissesIn x.Holds enters x.Ended x.origin x.components) (hne : x.components ≠ [])
    (hfuel : lfatLength ≤ fuel) (stack : Nat → FileEntry) (fe : FileEntry) :
    ∃ r, Lands x.Holds enters x.origin x.components none r ∧ ∀ ret fe',
      (∃ w, locateFile x.places env fuel stack x.toSt fe x.dir x.path = .ok (some ret, fe', w)) ↔
        ∃ e, r = some e ∧ ret = e.startCluster.toNat ∧ fe' = x.returned e := by
  obtain ⟨ret₁, fe₁, calls, hexplore, -, hcons⟩ := explore_spec hserved hfuel stack
    (origin_mem x) (splitOn_text x.path_text) hends (if x.Absolute then some 0 else none) fe 0
  obtain ⟨r, hlands, hsome, hnone⟩ := hcons hne
  refine ⟨r, hlands, fun ret fe' => ?_⟩
  rw [locateFile_eq hshort, hexplore, ok_bind]
  cases r with
  | none =>
    rw [hnone rfl]
    constructor
    · rintro ⟨w, hw⟩
      exact absurd (fixLength_ret hw) (Option.some_ne_none ret).symm
    · rintro ⟨e, he, -⟩
      exact absurd he.symm (Option.some_ne_none e)
  | some e =>
    obtain ⟨rfl, rfl⟩ := hsome e rfl
    rw [fixLength_entry hfuel (lands_mem hlands (origin_mem x)
      (fun e he => absurd he.symm (Option.some_ne_none e)) fe₁ rfl)]
    constructor
    · rintro ⟨w, hw⟩
      obtain ⟨hret, hfe⟩ := Prod.mk.inj (Except.ok.inj hw)
      exact ⟨fe₁, rfl, (Option.some.inj hret).symm, (Prod.mk.inj hfe).1.symm⟩
    · rintro ⟨e, he, rfl, rfl⟩
      rw [Option.some.inj he]
      exact ⟨_, rfl⟩

theorem locates_of_condition (h : LocateCondition x env) : LocatesExactly x env := by
  obtain ⟨hserved, hshort, htarget, hstraight, hends⟩ := h
  refine ⟨lfatLength, fun fuel hfuel stack fe ret fe' => ?_⟩
  by_cases hnil : x.components = []
  · have hrelative : ¬x.Absolute := fun habsolute => htarget habsolute hnil
    obtain ⟨ret₁, fe₁, calls, hexplore, hstay, -⟩ := explore_spec hserved hfuel stack
      (origin_mem x) (splitOn_text x.path_text) hends (if x.Absolute then some 0 else none) fe 0
    obtain ⟨rfl, rfl⟩ := hstay hnil
    rw [locateFile_eq hshort, hexplore, ok_bind, if_neg hrelative]
    constructor
    · rintro ⟨w, hw⟩
      exact absurd (fixLength_ret hw) (Option.some_ne_none ret).symm
    · rintro ⟨e, hleads, -⟩
      exact absurd hnil hleads.ne_nil
  · obtain ⟨r, hlands, hrun⟩ := locateFile_lands hserved hshort hends hnil hfuel stack fe
    rw [hrun]
    unfold Request.Leads
    simp only [hlands.resolves_iff (holds_unique x) hstraight hnil]

/-- An entry of a file. -/
def plainEntry : FileEntry where
  name := []
  extension := []
  attr := ⟨false, false, false, false, false, false⟩
  reserved := []
  time := 0
  date := 0
  startCluster := 0
  fileLength := 0

theorem condition_of_locates (hdet : Determined x env) (h : LocatesExactly x env) :
    LocateCondition x env := by
  obtain ⟨hserved, hshort, hlater⟩ := hdet
  obtain ⟨enough, h⟩ := h
  have hfuel : lfatLength ≤ max enough lfatLength := Nat.le_max_right _ _
  have hrun := h (max enough lfatLength) (Nat.le_max_left _ _) (fun _ => plainEntry)
  have hends : MissesIn x.Holds enters x.Ended x.origin x.components := by
    cases hcomponents : x.components with
    | nil => trivial
    | cons name rest =>
      refine ⟨fun hmissing => ?_, hlater name rest hcomponents⟩
      by_contra hended
      obtain ⟨r, calls, hexplore⟩ := explore_lost hserved hfuel (fun _ => plainEntry)
        (origin_mem x) (splitOn_text x.path_text) hcomponents hmissing hended
        (show plainEntry.attr.directory = false from rfl) (if x.Absolute then some 0 else none) 0
      obtain ⟨e, hleads, -⟩ := (hrun plainEntry r plainEntry).mp
        ⟨_, by rw [locateFile_eq hshort, hexplore, ok_bind, fixLength_file rfl]⟩
      unfold Request.Leads at hleads
      rw [hcomponents] at hleads
      cases hleads with
      | last hholds => exact hmissing _ hholds
      | enter hholds _ _ => exact hmissing _ hholds
  refine ⟨hserved, hshort, fun habsolute hnil => ?_, ?_, hends⟩
  · obtain ⟨ret₁, fe₁, calls, hexplore, hstay, -⟩ := explore_spec hserved hfuel
      (fun _ => plainEntry) (origin_mem x) (splitOn_text x.path_text) hends
      (if x.Absolute then some 0 else none) plainEntry 0
    obtain ⟨rfl, rfl⟩ := hstay hnil
    obtain ⟨e, hleads, -⟩ := (hrun plainEntry 0 plainEntry).mp
      ⟨_, by rw [locateFile_eq hshort, hexplore, ok_bind, if_pos habsolute, fixLength_file rfl]⟩
    exact hleads.ne_nil hnil
  · by_contra hnot
    have hne : x.components ≠ [] := by
      intro hnil
      rw [hnil] at hnot
      exact hnot trivial
    obtain ⟨r, hlands, heager⟩ := locateFile_lands hserved hshort hends hne hfuel
      (fun _ => plainEntry) plainEntry
    obtain ⟨⟨e, rfl⟩, hnone⟩ := hlands.of_not_straight (holds_unique x) hnot
    obtain ⟨e', hleads, -⟩ := (hrun plainEntry _ _).mp ((heager _ _).mpr ⟨e, rfl, rfl, rfl⟩)
    exact hnone e' hleads

/-- `__fat12_locate_file` succeeds exactly on the paths that lead to an entry, if the condition
holds; and only then, unless a component behind the first one is missing from a directory that has
no end. -/
theorem locates_iff (x : Request) (env : LookupEnv) :
    (LocateCondition x env → LocatesExactly x env) ∧
      (Determined x env → LocatesExactly x env → LocateCondition x env) :=
  ⟨locates_of_condition, condition_of_locates⟩

end Locate

/-- A volume with one file in the root directory, "A". -/
def oneFile : Volume where
  super := ⟨512, 1, 1, 2, 224, 2880, 0xF0, 9⟩
  fat _ := 0
  lfat j := if j = 0 then 0xFF0 else if j = 1 then 0xFFF else 0
  dirty := false
  disk a := if a = 9728 then 0x41 else if 9728 < a ∧ a < 9739 then 0x20 else 0
  writes := []
  checked := check_floppy
  places := ⟨19, 31⟩
  clusters _ := []

theorem oneFile_first : oneFile.entries 0 (fileEntrySize * 0) = 0x41 ∧
    oneFile.entries 0 (fileEntrySize * 1) = 0 := by
  decide +kernel

theorem oneFile_inUse {i : Nat} : oneFile.InUse 0 i ↔ i = 0 := by
  constructor
  · intro h
    by_contra hne
    exact h.used 1 (Nat.one_le_iff_ne_zero.mpr hne) oneFile_first.2
  · rintro rfl
    refine ⟨by decide +kernel, ?_, fun j hj => ?_⟩
    · rw [oneFile_first.1]
      decide
    · rw [Nat.le_zero.mp hj, oneFile_first.1]
      decide

theorem oneFile_entry : (oneFile.entry 0 0).attr.directory = false ∧
    displayName (oneFile.entry 0 0) = [0x41] ∧
    ∀ c ∈ (oneFile.entry 0 0).name ++ (oneFile.entry 0 0).extension, c ≠ 0 := by
  decide +kernel

/-- The path "a/b". -/
def behindFile : Request where
  toVolume := oneFile
  dirs := {0}
  root := rfl
  chains d hd := fun h => absurd hd h
  inside d hd i hi hdir := by
    obtain rfl : d = 0 := hd
    rw [oneFile_inUse.mp hi, oneFile_entry.1] at hdir
    cases hdir
  text d hd i hi := by
    obtain rfl : d = 0 := hd
    rw [oneFile_inUse.mp hi]
    exact oneFile_entry.2.2
  dir := 0
  dir_mem := rfl
  path := [0x61, 0x2F, 0x62]
  path_text := by decide

/-- What serves every lookup. -/
def serving : LookupEnv := ⟨fun _ => true, fun _ => ⟨true, fun _ => none⟩⟩

theorem oneFile_holds {e : FileEntry} : oneFile.Holds 0 [0x61] e ↔ e = oneFile.entry 0 0 := by
  have hlists : oneFile.Lists 0 [0x61] 0 := by
    refine ⟨oneFile_inUse.mpr rfl, ?_⟩
    rw [oneFile_entry.2.1]
    decide
  unfold Volume.Holds
  rw [if_neg (by decide)]
  constructor
  · rintro ⟨i, hi, -, rfl⟩
    rw [oneFile_inUse.mp hi.1]
  · rintro rfl
    exact ⟨0, hlists, fun j hj => absurd hj (Nat.not_lt_zero j), rfl⟩

/-- The file "A" is found for the path "a/b". -/
theorem behindFile_found : ¬LocatesExactly behindFile serving := by
  have hcomponents : behindFile.components = [[0x61], [0x62]] := by decide +kernel
  have horigin : behindFile.origin = 0 := by decide +kernel
  have hplain : enters (oneFile.entry 0 0) = none := by
    unfold enters
    rw [oneFile_entry.1]
    rfl
  intro h
  have hdet : Determined behindFile serving := by
    refine ⟨⟨fun _ => rfl, fun _ => rfl, fun _ _ => rfl⟩, by decide, ?_⟩
    intro name rest heq e d' hholds henters
    rw [hcomponents] at heq
    obtain ⟨rfl, -⟩ := List.cons.inj heq
    rw [horigin] at hholds
    rw [oneFile_holds.mp hholds, hplain] at henters
    cases henters
  have hstraight := (condition_of_locates hdet h).straight
  rw [hcomponents, horigin] at hstraight
  exact List.cons_ne_nil _ _ ((hstraight _ (oneFile_holds.mpr rfl)).1 hplain)

end OsdevArchive.Minirighi.Fat12
