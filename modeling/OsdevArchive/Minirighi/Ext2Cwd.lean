import OsdevArchive.Lib.Runs
import OsdevArchive.Minirighi.Ext2Dir

/-!
When the four records of the current ext2 directory agree. A volume holds a tree of
directories; a list of names denotes a directory of it. `cd_ext2` keeps the path, the
depth, the inode number and the listing those of one list of names, unless `/` is
given below the root, `.` is met as a component, `..` as a component leads back to the
root, a long symbolic link is opened as a directory, an array overflows, or the
directory that has to be reopened cannot be read.
-/

namespace OsdevArchive.Minirighi.Ext2

open OsdevArchive.Lib.Runs OsdevArchive.Minirighi.Inet

/-- The path of a list of names. -/
def render (names : List Text) : Text := names.flatMap fun name => name ++ [slash]

/-- The names in a path. -/
def namesOf (path : Text) : List Text := (path.splitOn slash).dropLast

/-- A name that leads downwards. -/
def Proper (name : Text) : Prop := name ≠ dot ∧ name ≠ dotdot ∧ slash ∉ name

/-- Where a component leads from a list of names. -/
def next (names : List Text) (elem : Text) : List Text :=
  if elem = dotdot then names.dropLast else names ++ [elem]

/-- The entries of a directory, as `Open_Dir` reads them. -/
def Fs.entries (fs : Fs) (n : Nat) : Listing := do
  let ino ← fs.getInode n
  if isDir ino then
    match openDir fs.volume ino true none with
    | .ok (listing, true) => listing
    | _ => none
  else none

/-- What a name refers to in a directory. -/
def Fs.lookup (fs : Fs) (d : Nat) (name : Text) : Option (Nat × Inode) := do
  let entries ← fs.entries d
  let ino ← fs.getInode (findFile entries name)
  if findFile entries name = 0 then none else some (findFile entries name, ino)

/-- The directory of this name in a directory. -/
def Fs.child (fs : Fs) (d : Nat) (name : Text) : Option Nat := do
  let (m, ino) ← fs.lookup d name
  if isDir ino then some m else none

/-- The directory that a list of names denotes. -/
def Fs.resolve (fs : Fs) (names : List Text) : Option Nat := names.foldlM fs.child rootIno

/-- A volume whose directories form a tree: `Open_Dir` reads each of them, and `..` is
the parent. -/
structure Tree extends Fs where
  root : ∃ ino, getInode rootIno = some ino ∧ isDir ino = true
  opens : ∀ n ino, getInode n = some ino → isDir ino = true →
    ∃ listing, toFs.entries n = some listing
  rootParent : toFs.child rootIno dotdot = some rootIno
  parent : ∀ d name m, toFs.child d name = some m → name ≠ dot → name ≠ dotdot →
    toFs.child m dotdot = some d

/-- The four records denote the directory of a list of names. -/
structure Denotes (fs : Fs) (names : List Text) (s : Cwd) : Prop where
  proper : ∀ name ∈ names, Proper name
  mounted : s.mountExt2 = true
  path : s.pathExt2 = render names
  level : s.level = names.length
  inoCurrentDir : fs.resolve names = some s.inoCurrentDir
  listing : s.listing = fs.entries s.inoCurrentDir

/-- They denote the same directory. -/
def Agree (fs : Fs) (s : Cwd) : Prop := ∃ names, Denotes fs names s

/-- A component that leads to a directory stays among the names. -/
def stays (names : List Text) (elem : Text) : Bool :=
  decide (elem ≠ dot ∧ (elem = dotdot → names.length ≠ 1) ∧
    (elem ≠ dotdot → (render names ++ elem ++ [slash]).length < 1024))

/-- The condition on the components, from directory `d` with these names. After an
error the old directory must be readable. -/
def walkMeets (fs : Fs) (cd : Cd) : (k : Nat) → List Text → (names : List Text) → (d : Nat) → Bool
  | _, [], _, _ => true
  | k, elem :: rest, names, d =>
      elem.length < 256 &&
        match fs.lookup d elem with
        | none => cd.again
        | some (m, ino) =>
            if isDir ino && cd.io k then
              stays names elem && walkMeets fs cd (k + 1) rest (next names elem) m
            else cd.again && (isFastSymbolicLink ino && cd.io k → ino.iSize < 64)

/-- The condition on a call of `cd_ext2`. -/
def Meets (fs : Fs) (s : Cwd) (cd : Cd) : Prop :=
  if cd.param = [] then False
  else if cd.param = dot then True
  else if cd.param = [slash] then s.inoCurrentDir = rootIno ∧ cd.io 0 = true
  else if cd.param = dotdot ∧ s.level ≤ 1 then s.level = 1 → cd.io 0 = true
  else walkMeets fs cd 0 (elemPaths cd.param) (namesOf s.pathExt2) s.inoCurrentDir = true

instance (fs : Fs) (s : Cwd) (cd : Cd) : Decidable (Meets fs s cd) :=
  inferInstanceAs (Decidable (ite _ _ _))

variable {fs : Fs} {cd : Cd} {s : Cwd} {names : List Text} {elem name param : Text} {d m n k : Nat}
  {ino : Inode} {v : Volume} {io : Bool} {entries : List DirEntry} {old : Listing}

theorem render_append (names : List Text) (name : Text) :
    render (names ++ [name]) = render names ++ name ++ [slash] := by
  simp [render]

theorem namesOf_render (hslash : ∀ name ∈ names, slash ∉ name) :
    namesOf (render names) = names := by
  induction names with
  | nil => rfl
  | cons name rest ih =>
      obtain ⟨hname, hrest⟩ := List.forall_mem_cons.mp hslash
      have hsplit :
          (render (name :: rest)).splitOn slash = name :: (render rest).splitOn slash := by
        rw [← List.splitOn_append_cons_self_of_not_mem hname]
        simp [render]
      rw [namesOf, hsplit, List.dropLast_cons_of_ne_nil (List.splitOn_ne_nil slash _)]
      exact congrArg _ (ih hrest)

/-- With a name left, the loop stops within the path. -/
theorem cutPath_render (hne : names ≠ []) (hslash : slash ∉ name) :
    cutPath (render (names ++ [name])) = .ok (render names) := by
  obtain ⟨front, last, rfl⟩ : ∃ front last, names = front ++ [last] :=
    ⟨_, _, (List.dropLast_concat_getLast hne).symm⟩
  have hskip : ∀ c ∈ name.reverse, decide (c ≠ slash) = true := by
    intro c hc
    have hmem : c ∈ name := List.mem_reverse.mp hc
    simpa using fun heq : c = slash => hslash (heq ▸ hmem)
  have hdrop : (render (front ++ [last] ++ [name])).dropLast.reverse.dropWhile (· ≠ slash) =
      (render (front ++ [last])).reverse := by
    rw [render_append, List.dropLast_concat, List.reverse_append,
      List.dropWhile_append_of_pos hskip, render_append]
    simp
  have hreverse : (render (front ++ [last])).reverse = slash :: (render front ++ last).reverse := by
    rw [render_append]
    simp
  rw [cutPath, hdrop, hreverse]
  simp only [Except.ok.injEq]
  rw [← hreverse, List.reverse_reverse]

theorem not_mem_of_mem_splitOn {text : Text} (hmem : elem ∈ text.splitOn slash) : slash ∉ elem := by
  induction text generalizing elem with
  | nil => simp_all
  | cons c text ih =>
      rw [List.splitOn_cons_eq_if_modifyHead] at hmem
      split at hmem
      · rcases List.mem_cons.mp hmem with rfl | hrest
        · exact List.not_mem_nil
        · exact ih hrest
      · rename_i hc
        obtain ⟨first, rest, hsplit⟩ := List.exists_cons_of_ne_nil (List.splitOn_ne_nil slash text)
        rw [hsplit] at ih hmem
        rcases List.mem_cons.mp hmem with rfl | hrest
        · have hfirst := ih List.mem_cons_self
          exact List.not_mem_cons_of_ne_of_not_mem (fun heq => hc (by simp [heq])) hfirst
        · exact ih (List.mem_cons_of_mem _ hrest)

theorem not_mem_of_mem_elemPaths (hmem : elem ∈ elemPaths param) : slash ∉ elem := by
  obtain hnone | hsplit :
      elemPaths param = [] ∨ ∃ text : Text, elemPaths param = text.splitOn slash :=
    (ite_eq_or_eq _ _ _).imp_right fun h => ⟨_, h⟩
  · simp [hnone] at hmem
  · obtain ⟨text, htext⟩ := hsplit
    exact not_mem_of_mem_splitOn (htext ▸ hmem)

@[simp] theorem ok_bind {α β : Type} (a : α) (f : α → Except Fault β) :
    (Except.ok a >>= f) = f a := rfl

/-- `Open_Dir` of a directory with these entries, whatever was open before. -/
theorem openDir_of_entries (hino : fs.getInode n = some ino) (hdir : isDir ino = true)
    (hentries : fs.entries n = some entries) :
    openDir fs.volume ino true old = .ok (some entries, true) := by
  have hopen : (match openDir fs.volume ino true none with
      | .ok (listing, true) => listing
      | _ => none) = some entries := by
    simpa [Fs.entries, hino, hdir] using hentries
  have hsame : openDir fs.volume ino true old = openDir fs.volume ino true none := by
    simp [openDir, hdir]
  rw [hsame]
  split at hopen
  · rename_i listing heq
    rw [heq, hopen]
  · cases hopen

/-- A disk error, or a short symbolic link: the old listing is gone. -/
theorem openDir_fails (hkind : isDir ino || isFastSymbolicLink ino)
    (hfails : io = true → isFastSymbolicLink ino = true ∧ ino.iSize < 64) :
    openDir v ino io old = .ok (none, false) := by
  have hread : readDir v ino io = none := by
    cases io with
    | false => rfl
    | true =>
        obtain ⟨hlink, hsize⟩ := hfails rfl
        have hmode : ino.iMode &&& modeMask = modeLink := by simpa [isFastSymbolicLink] using hlink
        have hfile : openFile v ino modeLink = none := by simp [openFile, hsize]
        simp [readDir, hmode, hfile]
  simp [openDir, hkind, hread]

theorem lookup_eq_some (hlookup : fs.lookup d name = some (m, ino)) :
    ∃ entries, fs.entries d = some entries ∧ findFile entries name = m ∧ m ≠ 0 ∧
      fs.getInode m = some ino := by
  obtain ⟨entries, hentries, inode, hinode, hfound⟩ : ∃ entries, fs.entries d = some entries ∧
      ∃ inode, fs.getInode (findFile entries name) = some inode ∧
        (findFile entries name ≠ 0 ∧ findFile entries name = m ∧ inode = ino) := by
    simpa [Fs.lookup, Option.bind_eq_some_iff] using hlookup
  obtain ⟨hne, rfl, rfl⟩ := hfound
  exact ⟨entries, hentries, rfl, hne, hinode⟩

theorem child_eq_some :
    fs.child d name = some m ↔ ∃ ino, fs.lookup d name = some (m, ino) ∧ isDir ino = true := by
  simp [Fs.child, Option.bind_eq_some_iff]

theorem child_mem (hchild : fs.child d name = some m) :
    ∃ entries, fs.entries d = some entries ∧ ⟨m, name⟩ ∈ entries := by
  obtain ⟨ino, hlookup, -⟩ := child_eq_some.mp hchild
  obtain ⟨entries, hentries, hfound, hne, -⟩ := lookup_eq_some hlookup
  refine ⟨entries, hentries, ?_⟩
  unfold findFile at hfound
  cases hfind : entries.find? fun entry => entry.name = name with
  | none =>
      rw [hfind] at hfound
      exact absurd hfound.symm hne
  | some entry =>
      rw [hfind] at hfound
      have hname : entry.name = name := by simpa using List.find?_some hfind
      have hinode : entry.inode = m := hfound
      exact hname ▸ hinode ▸ List.mem_of_find?_eq_some hfind

theorem resolve_append (fs : Fs) (names : List Text) (name : Text) :
    fs.resolve (names ++ [name]) = (fs.resolve names).bind fun d => fs.child d name := by
  simp only [Fs.resolve, List.foldlM_append, List.foldlM_cons, List.foldlM_nil, bind_pure]
  rfl

/-- What a list of names denotes is a directory that can be opened. -/
theorem Tree.resolve_opens (tree : Tree) (hresolve : tree.resolve names = some d) :
    ∃ ino entries, tree.getInode d = some ino ∧ isDir ino = true ∧
      tree.entries d = some entries := by
  obtain ⟨ino, hino, hdir⟩ : ∃ ino, tree.getInode d = some ino ∧ isDir ino = true := by
    rcases List.eq_nil_or_concat names with rfl | ⟨front, last, rfl⟩
    · obtain rfl : rootIno = d := Option.some.inj hresolve
      exact tree.root
    · rw [List.concat_eq_append, resolve_append] at hresolve
      obtain ⟨p, -, hchild⟩ := Option.bind_eq_some_iff.mp hresolve
      obtain ⟨ino, hlookup, hdir⟩ := child_eq_some.mp hchild
      obtain ⟨-, -, -, -, hino⟩ := lookup_eq_some hlookup
      exact ⟨ino, hino, hdir⟩
  obtain ⟨entries, hentries⟩ := tree.opens d ino hino hdir
  exact ⟨ino, entries, hino, hdir, hentries⟩

/-- A component other than `.` leads to the directory of the next names. -/
theorem Tree.resolve_next (tree : Tree) (hproper : ∀ name ∈ names, Proper name)
    (hresolve : tree.resolve names = some d) (hchild : tree.child d elem = some m) :
    tree.resolve (next names elem) = some m := by
  unfold next
  split
  · rename_i hup
    subst hup
    rcases List.eq_nil_or_concat names with rfl | ⟨front, last, rfl⟩
    · obtain rfl : rootIno = d := Option.some.inj hresolve
      rw [tree.rootParent] at hchild
      exact hchild
    · rw [List.concat_eq_append] at hproper hresolve ⊢
      rw [resolve_append] at hresolve
      obtain ⟨p, hp, hlast⟩ := Option.bind_eq_some_iff.mp hresolve
      obtain ⟨hdot, hdotdot, -⟩ := hproper last (by simp)
      rw [tree.parent p last d hlast hdot hdotdot] at hchild
      rw [List.dropLast_concat, hp, hchild]
  · rw [resolve_append, hresolve]
    exact hchild

theorem next_proper (hproper : ∀ name ∈ names, Proper name) (hslash : slash ∉ elem)
    (hstays : stays names elem = true) : ∀ name ∈ next names elem, Proper name := by
  intro name hname
  unfold next at hname
  split at hname
  · exact hproper name ((List.dropLast_sublist names).subset hname)
  · rename_i hdown
    rcases List.mem_append.mp hname with hold | hnew
    · exact hproper name hold
    · obtain rfl := List.mem_singleton.mp hnew
      exact ⟨(of_decide_eq_true hstays).1, hdown, hslash⟩

/-- The path and the level follow the names. -/
theorem updatePath_next (hproper : ∀ name ∈ names, Proper name) (hstays : stays names elem = true) :
    updatePath elem (render names) names.length =
      .ok (render (next names elem), (next names elem).length) := by
  obtain ⟨-, hroot, hroom⟩ := of_decide_eq_true hstays
  unfold updatePath next
  split
  · rename_i hup
    rcases List.eq_nil_or_concat names with rfl | ⟨front, last, rfl⟩
    · rfl
    · rw [List.concat_eq_append] at hproper hroot ⊢
      have hfront : front ≠ [] := by
        rintro rfl
        exact hroot hup rfl
      have hpos : 0 < front.length := List.length_pos_of_ne_nil hfront
      have hcut := cutPath_render hfront (hproper last (by simp)).2.2
      have hup : (front ++ [last]).length - 1 = front.length := by simp
      rw [if_neg (by simp), hcut, hup, List.dropLast_concat]
      exact congrArg (fun path => Except.ok (path, _)) (if_neg hpos.ne')
  · rename_i hup
    have hroom := hroom hup
    rw [if_neg (by omega), render_append, List.length_append]
    rfl

/-- A component that leads to a directory: the four records move together. -/
theorem Tree.openElem_directory (tree : Tree) (hdenotes : Denotes tree.toFs names s)
    (hslash : slash ∉ elem) (hshort : elem.length < 256) (hstays : stays names elem = true)
    (hlookup : tree.lookup s.inoCurrentDir elem = some (m, ino)) (hdir : isDir ino = true) :
    ∃ t, openElem tree.toFs true elem s = .ok (t, true) ∧
      Denotes tree.toFs (next names elem) t ∧ t.inoCurrentDir = m := by
  obtain ⟨entries, hentries, hfound, hne, hino⟩ := lookup_eq_some hlookup
  have hlisting : s.listing = some entries := hdenotes.listing.trans hentries
  have hchild : tree.child s.inoCurrentDir elem = some m := child_eq_some.mpr ⟨ino, hlookup, hdir⟩
  have hresolve := tree.resolve_next hdenotes.proper hdenotes.inoCurrentDir hchild
  obtain ⟨opened, hopened⟩ := tree.opens m ino hino hdir
  have hupdate : updatePath elem s.pathExt2 s.level =
      .ok (render (next names elem), (next names elem).length) := by
    rw [hdenotes.path, hdenotes.level]
    exact updatePath_next hdenotes.proper hstays
  refine ⟨⟨render (next names elem), (next names elem).length, m, some opened, s.mountExt2⟩, ?_,
    ⟨?_, hdenotes.mounted, rfl, rfl, hresolve, hopened.symm⟩, rfl⟩
  · simp only [openElem, hlisting, hfound, hino, hdir, Bool.true_or, Bool.not_true, hne, if_false]
    rw [if_neg (by omega), openDir_of_entries hino hdir hopened]
    simp only [bind, Except.bind, hupdate]
    rfl
  · exact next_proper hdenotes.proper hslash hstays

/-- A name that is not there, and one whose inode is not: nothing changes yet. -/
theorem openElem_missing (io : Bool) (hdenotes : Denotes fs names s)
    (hopen : fs.entries s.inoCurrentDir = some entries) (hshort : elem.length < 256)
    (hlookup : fs.lookup s.inoCurrentDir elem = none) :
    openElem fs io elem s = .ok (s, false) := by
  have hlisting : s.listing = some entries := hdenotes.listing.trans hopen
  have hnone : findFile entries elem = 0 ∨ fs.getInode (findFile entries elem) = none := by
    by_contra hsome
    obtain ⟨hne, ino, hino⟩ : findFile entries elem ≠ 0 ∧
        ∃ ino, fs.getInode (findFile entries elem) = some ino := by
      simpa [not_or, ← Option.ne_none_iff_exists'] using hsome
    simp [Fs.lookup, hopen, hino, hne] at hlookup
  unfold openElem
  rw [if_neg (by omega)]
  simp only [hlisting]
  rcases hnone with hzero | hinode
  · rw [if_pos hzero]
  · split
    · rfl
    · rw [hinode]

/-- A file, a short symbolic link and a directory that cannot be read: an error, and
only the listing is touched. -/
theorem openElem_error (hdenotes : Denotes fs names s) (hshort : elem.length < 256)
    (hlookup : fs.lookup s.inoCurrentDir elem = some (m, ino))
    (hdir : ¬(isDir ino = true ∧ io = true))
    (hlink : isFastSymbolicLink ino = true ∧ io = true → ino.iSize < 64) :
    ∃ t, openElem fs io elem s = .ok (t, false) := by
  obtain ⟨entries, hentries, hfound, hne, hino⟩ := lookup_eq_some hlookup
  have hlisting : s.listing = some entries := hdenotes.listing.trans hentries
  simp only [openElem, hlisting, hfound, hino, hne, if_false]
  rw [if_neg (by omega)]
  split
  · exact ⟨s, rfl⟩
  · rename_i hkind
    have hkind : (isDir ino || isFastSymbolicLink ino) = true := by
      cases h : isDir ino || isFastSymbolicLink ino with
      | true => rfl
      | false => exact absurd (by rw [h]; rfl) hkind
    have hfails : io = true → isFastSymbolicLink ino = true ∧ ino.iSize < 64 := by
      intro hio
      have hislink : isFastSymbolicLink ino = true :=
        (Bool.or_eq_true _ _).mp hkind |>.resolve_left fun h => hdir ⟨h, hio⟩
      exact ⟨hislink, hlink ⟨hislink, hio⟩⟩
    rw [openDir_fails hkind hfails]
    exact ⟨_, rfl⟩

/-- The walk ends in agreement, or with an error after which the old directory can be
opened again. -/
theorem Tree.walk_denotes (tree : Tree) {elems : List Text} (hdenotes : Denotes tree.toFs names s)
    (hslash : ∀ elem ∈ elems, slash ∉ elem)
    (hmeets : walkMeets tree.toFs cd k elems names s.inoCurrentDir = true) :
    ∃ t ok, walk tree.toFs cd.io k elems s = .ok (t, ok) ∧ (ok = true → Agree tree.toFs t) ∧
      (ok = false → cd.again = true) := by
  induction elems generalizing k names s with
  | nil => exact ⟨s, true, rfl, fun _ => ⟨names, hdenotes⟩, by simp⟩
  | cons elem rest ih =>
      obtain ⟨hslash, hrest⟩ := List.forall_mem_cons.mp hslash
      unfold walkMeets at hmeets
      obtain ⟨hshort, hmeets⟩ := Bool.and_eq_true_iff.mp hmeets
      have hshort : elem.length < 256 := of_decide_eq_true hshort
      obtain ⟨-, entries, -, -, hopen⟩ := tree.resolve_opens hdenotes.inoCurrentDir
      split at hmeets
      · rename_i hlookup
        have helem := openElem_missing (cd.io k) hdenotes hopen hshort hlookup
        exact ⟨s, false, by simp [walk, helem], by simp, fun _ => hmeets⟩
      · rename_i m ino hlookup
        split at hmeets
        · rename_i hdir
          obtain ⟨hdir, hio⟩ := Bool.and_eq_true_iff.mp hdir
          obtain ⟨hstays, hmeets⟩ := Bool.and_eq_true_iff.mp hmeets
          obtain ⟨t, helem, hnext, rfl⟩ :=
            tree.openElem_directory hdenotes hslash hshort hstays hlookup hdir
          obtain ⟨u, ok, hwalk, hdone, herror⟩ := ih hnext hrest hmeets
          exact ⟨u, ok, by simp [walk, hio, helem, hwalk], hdone, herror⟩
        · rename_i hdir
          obtain ⟨hagain, hlink⟩ := Bool.and_eq_true_iff.mp hmeets
          have hdir : ¬(isDir ino = true ∧ cd.io k = true) :=
            fun h => hdir (Bool.and_eq_true_iff.mpr h)
          have hlink : isFastSymbolicLink ino = true ∧ cd.io k = true → ino.iSize < 64 :=
            fun h => of_decide_eq_true hlink (Bool.and_eq_true_iff.mpr h)
          obtain ⟨t, helem⟩ := openElem_error hdenotes hshort hlookup hdir hlink
          exact ⟨t, false, by simp [walk, helem], by simp, fun _ => hagain⟩

/-- Reopening the old directory undoes the walk. -/
theorem Tree.restore_eq (tree : Tree) (hdenotes : Denotes tree.toFs names s) (t : Cwd) :
    restore tree.toFs true s t = .ok s := by
  obtain ⟨ino, entries, hino, hdir, hopen⟩ := tree.resolve_opens hdenotes.inoCurrentDir
  have hlisting : s.listing = some entries := hdenotes.listing.trans hopen
  simp only [restore, hino, openDir_of_entries hino hdir hopen, ok_bind]
  rw [← hlisting]

theorem Tree.openRoot_eq (tree : Tree) (s : Cwd) : ∃ entries, tree.entries rootIno = some entries ∧
    openRoot tree.toFs true s =
      .ok ({ s with listing := some entries, level := 0, pathExt2 := [] }, true) := by
  have hroot : tree.resolve [] = some rootIno := rfl
  obtain ⟨ino, entries, hino, hdir, hopen⟩ := tree.resolve_opens hroot
  refine ⟨entries, hopen, ?_⟩
  simp only [openRoot, hino, openDir_of_entries hino hdir hopen, ok_bind]
  rfl

theorem denotes_root (hentries : fs.entries rootIno = some entries) :
    Denotes fs [] ⟨[], 0, rootIno, some entries, true⟩ where
  proper := by simp
  mounted := rfl
  path := rfl
  level := rfl
  inoCurrentDir := rfl
  listing := hentries.symm

/-- The calls that walk: an error on the way leaves everything as it was. -/
theorem Tree.walk_or_restore (tree : Tree) (hdenotes : Denotes tree.toFs names s)
    (hmeets : walkMeets tree.toFs cd 0 (elemPaths cd.param) (namesOf s.pathExt2)
      s.inoCurrentDir = true) :
    ∃ t ok, (walk tree.toFs cd.io 0 (elemPaths cd.param) s >>= fun (t, ok) =>
        if ok then .ok (t, true)
        else restore tree.toFs cd.again s t >>= fun t => .ok (t, false)) = .ok (t, ok) ∧
      Agree tree.toFs t ∧ (ok = false → t = s) := by
  rw [hdenotes.path, namesOf_render fun name hname => (hdenotes.proper name hname).2.2] at hmeets
  obtain ⟨t, ok, hwalk, hdone, herror⟩ :=
    tree.walk_denotes hdenotes (fun _ => not_mem_of_mem_elemPaths) hmeets
  rw [hwalk]
  cases ok with
  | true => exact ⟨t, true, rfl, hdone rfl, by simp⟩
  | false =>
      refine ⟨s, false, ?_, ⟨names, hdenotes⟩, fun _ => rfl⟩
      simp [herror rfl, tree.restore_eq hdenotes]

/-- The step lemma: a call that meets the condition returns, keeps the agreement, and
changes nothing when it fails. -/
theorem Tree.cdExt2_denotes (tree : Tree) (hdenotes : Denotes tree.toFs names s)
    (hmeets : Meets tree.toFs s cd) :
    ∃ t ok, cdExt2 tree.toFs cd s = .ok (t, ok) ∧ Agree tree.toFs t ∧ (ok = false → t = s) := by
  have hmounted := hdenotes.mounted
  obtain ⟨entries, hentries, hroot⟩ := tree.openRoot_eq s
  have hagree : Agree tree.toFs ⟨[], 0, rootIno, some entries, s.mountExt2⟩ :=
    ⟨[], hmounted ▸ denotes_root hentries⟩
  unfold Meets at hmeets
  split at hmeets
  · exact hmeets.elim
  rename_i hnonempty
  unfold cdExt2
  rw [if_neg (by simp [hmounted])]
  split at hmeets
  · rename_i hdot
    rw [if_pos hdot]
    exact ⟨s, true, rfl, ⟨names, hdenotes⟩, by simp⟩
  rename_i hdot
  rw [if_neg hdot]
  split at hmeets
  · rename_i hslash
    obtain ⟨hino, hio⟩ := hmeets
    rw [if_pos hslash, hio, hroot, hino]
    exact ⟨_, true, rfl, hagree, by simp⟩
  rename_i hslash
  rw [if_neg hslash]
  split at hmeets
  · rename_i hup
    obtain ⟨hup, hle⟩ := hup
    by_cases hzero : s.level = 0
    · rw [if_pos ⟨hzero, hup⟩]
      exact ⟨s, false, rfl, ⟨names, hdenotes⟩, fun _ => rfl⟩
    · have hone : s.level = 1 := by omega
      rw [if_neg fun h => hzero h.1, if_pos ⟨hone, hup⟩, hmeets hone, hroot]
      exact ⟨_, true, rfl, hagree, by simp⟩
  · rename_i hup
    rw [if_neg fun h => hup ⟨h.2, by omega⟩, if_neg fun h => hup ⟨h.2, by omega⟩, if_neg hnonempty]
    exact tree.walk_or_restore hdenotes hmeets

theorem Tree.initExt2_denotes (tree : Tree) (hinit : initExt2 tree.toFs io = .ok (some s)) :
    Denotes tree.toFs [] s := by
  have hroot : tree.resolve [] = some rootIno := rfl
  obtain ⟨ino, entries, hino, hdir, hopen⟩ := tree.resolve_opens hroot
  simp only [initExt2, hino] at hinit
  cases io with
  | true =>
      rw [openDir_of_entries hino hdir hopen] at hinit
      simp only [ok_bind, if_true, Except.ok.injEq, Option.some.injEq] at hinit
      exact hinit ▸ denotes_root hopen
  | false =>
      rw [openDir_fails (by simp [hdir]) (by simp)] at hinit
      simp at hinit

/-- In every run of `cd_ext2` whose calls all meet the condition the path, the level,
the inode number and the listing denote the same directory, and a further call that
meets it returns, keeps the agreement, and changes nothing when it fails. -/
theorem cd_agree (tree : Tree) (io : Bool) {start : Cwd} {cds : List Cd}
    (hinit : initExt2 tree.toFs io = .ok (some start))
    (hrun : Run (Guarded (Meets tree.toFs) (Changes tree.toFs)) start cds s) :
    Agree tree.toFs s ∧ ∀ cd, Meets tree.toFs s cd →
      ∃ t ok, cdExt2 tree.toFs cd s = .ok (t, ok) ∧ Agree tree.toFs t ∧ (ok = false → t = s) := by
  have hstep : ∀ s cd t, Agree tree.toFs s → Meets tree.toFs s cd → Changes tree.toFs s cd t →
      Agree tree.toFs t := by
    intro s cd t ⟨names, hdenotes⟩ hmeets ⟨ok, hcd⟩
    obtain ⟨t', ok', hcd', hagree, -⟩ := tree.cdExt2_denotes hdenotes hmeets
    obtain ⟨rfl, -⟩ := Prod.mk.inj (Except.ok.inj (hcd.symm.trans hcd'))
    exact hagree
  obtain ⟨names, hdenotes⟩ : Agree tree.toFs s :=
    hrun.guarded_invariant hstep ⟨[], tree.initExt2_denotes hinit⟩
  exact ⟨⟨names, hdenotes⟩, fun cd hmeets => tree.cdExt2_denotes hdenotes hmeets⟩

/-- The bytes of an entry on the disk, padded to four. -/
def entryBytes (inode recLen : Nat) (name : Text) : List Byte :=
  longBytes (BitVec.ofNat 32 inode) ++ wordBytes recLen ++ [BitVec.ofNat 8 name.length, 2] ++
    name ++ List.replicate ((4 - name.length % 4) % 4) 0

def usr : Text := [0x75, 0x73, 0x72]

/-- A volume with two directories of one block each, `/` and `/usr`. -/
def usrFs : Fs where
  volume :=
    { plainVolume with
      readBlock := fun blk => some <| ofBytes <|
        if blk = 102 then entryBytes 2 12 dot ++ entryBytes 2 12 dotdot ++ entryBytes 3 1000 usr
        else entryBytes 3 12 dot ++ entryBytes 2 1012 dotdot }
  getInode := fun n =>
    if n = 2 ∨ n = 3 then some ⟨modeDir, 1024, fun _ => 100 + n, by decide⟩ else none

theorem entries_usrFs (d : Nat) :
    usrFs.entries d =
      if d = 2 then some [⟨2, dot⟩, ⟨2, dotdot⟩, ⟨3, usr⟩]
      else if d = 3 then some [⟨3, dot⟩, ⟨2, dotdot⟩] else none := by
  split
  · subst d
    decide
  · split
    · subst d
      decide
    · simp [Fs.entries, usrFs, *]

def usrTree : Tree where
  toFs := usrFs
  root := ⟨_, rfl, rfl⟩
  opens := by
    intro n ino hino _
    have hn : n = 2 ∨ n = 3 := by
      by_contra hn
      simp [usrFs, hn] at hino
    rcases hn with rfl | rfl
    · exact ⟨_, entries_usrFs 2⟩
    · exact ⟨_, entries_usrFs 3⟩
  rootParent := by decide
  parent := by
    intro d name m hchild hdot hdotdot
    obtain ⟨entries, hentries, hmem⟩ := child_mem hchild
    rw [entries_usrFs] at hentries
    split at hentries
    · subst d
      obtain rfl := Option.some.inj hentries
      obtain rfl : m = 3 := by simp_all
      decide
    · split at hentries
      · obtain rfl := Option.some.inj hentries
        simp_all
      · cases hentries

/-- A call while the disk works. -/
def call (param : Text) : Cd := ⟨param, fun _ => true, true⟩

def atRoot : Cwd := ⟨[], 0, 2, usrFs.entries 2, true⟩

def atUsr : Cwd := ⟨usr ++ [slash], 1, 3, usrFs.entries 3, true⟩

/-- Down to `/usr`, and from there up again. -/
theorem cd_agree_usr : Agree usrFs atUsr ∧
    ∃ t ok, cdExt2 usrFs (call dotdot) atUsr = .ok (t, ok) ∧ Agree usrFs t ∧
      (ok = false → t = atUsr) := by
  have hcd : cdExt2 usrFs (call usr) atRoot = .ok (atUsr, true) := rfl
  have hrun : Run (Guarded (Meets usrFs) (Changes usrFs)) atRoot [call usr] atUsr :=
    .single ⟨by decide, true, hcd⟩
  obtain ⟨hagree, hnext⟩ := cd_agree usrTree true rfl hrun
  exact ⟨hagree, hnext (call dotdot) (by decide)⟩

/-- `cd /` from `/usr` leaves the inode number of `/usr` behind, and the next error
brings its listing back. -/
theorem slash_disagrees :
    ∃ s t, initExt2 usrFs true = .ok (some atRoot) ∧
      Run (Changes usrFs) atRoot [call usr, call [slash]] s ∧ ¬Agree usrFs s ∧
      cdExt2 usrFs (call [0x78]) s = .ok (t, false) ∧ t.listing ≠ s.listing := by
  have hdown : cdExt2 usrFs (call usr) atRoot = .ok (atUsr, true) := rfl
  have hslash : cdExt2 usrFs (call [slash]) atUsr =
      .ok (⟨[], 0, 3, usrFs.entries 2, true⟩, true) := rfl
  refine ⟨_, ⟨[], 0, 3, usrFs.entries 3, true⟩, rfl,
    .cons ⟨true, hdown⟩ (.single ⟨true, hslash⟩), ?_, rfl, by decide⟩
  rintro ⟨names, hdenotes⟩
  obtain rfl : names = [] := List.length_eq_zero_iff.mp hdenotes.level.symm
  exact absurd hdenotes.inoCurrentDir (by decide)

end OsdevArchive.Minirighi.Ext2
