import OsdevArchive.Lib.LinkedList
import OsdevArchive.Silvios.Directories
import OsdevArchive.Silvios.FileRoundTrip
import OsdevArchive.Silvios.FileRuns
import Mathlib.Data.Finset.Card
import Mathlib.Data.Finset.Range

/-!
The list of the entries of a directory of SilviOS in memory (`fs/entry.c`). The last entry is its
own successor. `del_entry_to_tree` counts the entries in front of the one that it takes out, and
walks to its predecessor a second time.
-/

namespace OsdevArchive.Silvios

open OsdevArchive.Lib.LinkedList

/-- A `struct entry *`. -/
abbrev EntryPtr := BitVec 32

/-- The entries in memory, the links, and the first entry of a directory. -/
structure Tree where
  next : EntryPtr → EntryPtr
  entry : EntryPtr → Entry
  elem : EntryPtr

/-- The first loop of `del_entry_to_tree`: the entry where it ends and `pos`. -/
def Tree.search (t : Tree) (name : Name) : Nat → EntryPtr → Nat → Option (EntryPtr × Nat)
  | 0, _, _ => none
  | steps + 1, en, pos =>
    if en = t.next en ∨ (t.entry en).name = name then some (en, pos)
    else t.search name steps (t.next en) (pos + 1)

/-- The turns of `while (--pos)`, whose counter goes round below zero. -/
def turns (pos : Nat) : Nat := (pos + (2 ^ 32 - 1)) % 2 ^ 32

/-- `del_entry_to_tree`. The predecessor gets the successor of the entry as its own, and itself if
the entry is the last one. -/
def Tree.delEntryToTree (t : Tree) (name : Name) : Option Tree := do
  let (en, pos) ← t.search name walkBound t.elem 0
  if (t.entry en).name = name then
    let prev := t.next^[turns pos] t.elem
    if en = t.next en then some { t with next := Function.update t.next prev prev }
    else some { t with next := Function.update t.next prev (t.next (t.next prev)) }
  else some t

/-! ### The list in memory -/

/-- The link of an entry, which the last one does not have. -/
def link (next : EntryPtr → EntryPtr) : Option EntryPtr → Option EntryPtr
  | none => none
  | some e => if e = next e then none else some (next e)

/-- The memory holds the entries of a list. -/
def Tree.Holds (t : Tree) (es : List Entry) : Prop :=
  ∃ cells, Linked (link t.next) (some t.elem) cells ∧ cells.map t.entry = es

variable {t : Tree} {name : Name} {next : EntryPtr → EntryPtr} {a b p : EntryPtr}
  {p' : Option EntryPtr} {front rest : List EntryPtr} {pos steps : Nat}

theorem link_some (next : EntryPtr → EntryPtr) (e : EntryPtr) :
    link next (some e) = if e = next e then none else some (next e) := rfl

theorem link_update (next : EntryPtr → EntryPtr) (a v : EntryPtr) :
    link (Function.update next a v) =
      Function.update (link next) (some a) (if a = v then none else some v) := by
  funext q
  cases q with
  | none => rfl
  | some e =>
    by_cases he : e = a
    · subst he
      rw [Function.update_self, link, Function.update_self]
    · have hne : some e ≠ some a := fun heq => he (Option.some.inj heq)
      rw [Function.update_of_ne hne, link, Function.update_of_ne he]
      rfl

/-- An entry with another one behind it is not its own successor. -/
theorem next_of_link {next : EntryPtr → EntryPtr} (h : link next (some a) = some b) :
    next a = b ∧ a ≠ next a := by
  rw [link_some] at h
  split at h
  · cases h
  · exact ⟨Option.some.inj h, ‹_›⟩

theorem iterate_next (h : Linked (link next) (some p) (front ++ a :: rest)) :
    next^[front.length] p = a := by
  induction front generalizing p with
  | nil => exact Option.some.inj h.1
  | cons e front ih =>
    obtain ⟨hhead, htail⟩ := h
    obtain rfl := Option.some.inj hhead
    have hnext : link next (some p) = some (next p) := by
      cases hlink : link next (some p) with
      | none =>
        rw [hlink] at htail
        have hne := List.append_ne_nil_of_right_ne_nil front (List.cons_ne_nil a rest)
        exact absurd htail.eq_nil hne
      | some q => rw [(next_of_link hlink).1]
    rw [hnext] at htail
    rw [List.length_cons, Function.iterate_succ_apply]
    exact ih htail

theorem length_le_of_nodup {cells : List EntryPtr} (h : cells.Nodup) :
    cells.length ≤ 2 ^ 32 := by
  have hnat : (cells.map BitVec.toNat).Nodup :=
    h.map fun _ _ heq => BitVec.eq_of_toNat_eq heq
  calc
    cells.length = (cells.map BitVec.toNat).toFinset.card := by
      rw [List.toFinset_card_of_nodup hnat, List.length_map]
    _ ≤ (Finset.range (2 ^ 32)).card := by
      apply Finset.card_le_card
      intro n hn
      obtain ⟨c, -, rfl⟩ := List.mem_map.mp (List.mem_toFinset.mp hn)
      exact Finset.mem_range.mpr c.isLt
    _ = 2 ^ 32 := Finset.card_range _

/-- The first loop goes to the first entry of the name, or to the last entry. -/
theorem search_eq (pos : Nat) (h : Linked (link t.next) (some p) (front ++ a :: rest))
    (hfront : ∀ e ∈ front, (t.entry e).name ≠ name)
    (ha : (t.entry a).name = name ∨ rest = []) (hsteps : front.length < steps) :
    t.search name steps p pos = some (a, pos + front.length) := by
  induction front generalizing p pos steps with
  | nil =>
    obtain ⟨steps, rfl⟩ := Nat.exists_eq_succ_of_ne_zero (Nat.ne_of_gt hsteps)
    obtain ⟨hhead, htail⟩ := h
    obtain rfl := Option.some.inj hhead
    have hstop : p = t.next p ∨ (t.entry p).name = name := by
      rcases ha with hname | rfl
      · exact .inr hname
      · left
        by_contra hne
        have hlink : link t.next (some p) = none := htail
        rw [link_some, if_neg hne] at hlink
        cases hlink
    rw [Tree.search, if_pos hstop]
    rfl
  | cons e front ih =>
    obtain ⟨steps, rfl⟩ := Nat.exists_eq_succ_of_ne_zero (Nat.ne_of_gt (Nat.zero_lt_of_lt hsteps))
    obtain ⟨hhead, htail⟩ := h
    obtain rfl := Option.some.inj hhead
    cases hlink : link t.next (some p) with
    | none =>
      rw [hlink] at htail
      exact absurd htail.eq_nil (List.append_ne_nil_of_right_ne_nil front (List.cons_ne_nil a rest))
    | some q =>
      obtain ⟨rfl, hne⟩ := next_of_link hlink
      rw [hlink] at htail
      rw [Tree.search, if_neg (not_or_intro hne (hfront p List.mem_cons_self)),
        ih (pos + 1) htail (fun f hf => hfront f (List.mem_cons_of_mem p hf))
          (Nat.lt_of_succ_lt_succ hsteps),
        List.length_cons, Nat.add_assoc, Nat.add_comm 1]

theorem link_last (h : Linked (link next) p' (front ++ [a])) : a = next a := by
  have hlast : link next (some a) = none := h.suffix.2
  rw [link_some] at hlast
  by_contra hne
  rw [if_neg hne] at hlast
  cases hlast

theorem link_inner (h : Linked (link next) p' (front ++ a :: b :: rest)) :
    next a = b ∧ a ≠ next a := next_of_link h.suffix.2.1

/-- The link that the predecessor gets takes the entry out of the list. -/
theorem holds_unlink {u : Tree} {v : EntryPtr}
    (hu : u = { t with next := Function.update t.next b v })
    (h : Linked (link t.next) (some t.elem) (front ++ b :: a :: rest))
    (hv : (if b = v then none else some v) = link t.next (some a)) :
    u.Holds ((front ++ b :: rest).map t.entry) := by
  refine ⟨front ++ b :: rest, ?_, by rw [hu]⟩
  rw [hu]
  show Linked (link (Function.update t.next b v)) (some t.elem) _
  rw [link_update, hv]
  exact h.unlink

/-- `del_entry_to_tree` leaves a list without an entry of the name as it is. -/
theorem delEntryToTree_absent {cells : List EntryPtr}
    (h : Linked (link t.next) (some t.elem) cells) (hne : cells ≠ [])
    (hnames : ∀ e ∈ cells, (t.entry e).name ≠ name) : t.delEntryToTree name = some t := by
  have hlength := length_le_of_nodup h.nodup
  obtain ⟨front, a, rfl⟩ : ∃ front a, cells = front ++ [a] :=
    ⟨_, _, (List.dropLast_append_getLast hne).symm⟩
  rw [List.length_append, List.length_singleton] at hlength
  have hroom : front.length < walkBound := hlength
  have hsearch :=
    search_eq 0 h (fun e he => hnames e (List.mem_append_left _ he)) (Or.inr rfl) hroom
  unfold Tree.delEntryToTree
  rw [hsearch]
  simp only [Option.bind_eq_bind, Option.bind_some]
  rw [if_neg (hnames a (List.mem_append_right front List.mem_cons_self))]

/-- `del_entry_to_tree` takes the first entry of a name out of the list, wherever it is behind the
first one. -/
theorem delEntryToTree_found (h : Linked (link t.next) (some t.elem) (front ++ b :: a :: rest))
    (hfront : ∀ e ∈ front ++ [b], (t.entry e).name ≠ name) (ha : (t.entry a).name = name) :
    ∃ u, t.delEntryToTree name = some u ∧ u.Holds ((front ++ b :: rest).map t.entry) := by
  have hlength := length_le_of_nodup h.nodup
  simp only [List.length_append, List.length_cons] at hlength
  have hsplit : front ++ b :: a :: rest = (front ++ [b]) ++ a :: rest := by
    rw [List.append_assoc, List.singleton_append]
  have hcount : (front ++ [b]).length = front.length + 1 := by
    rw [List.length_append, List.length_singleton]
  have hroom : (front ++ [b]).length < walkBound := by
    rw [hcount]
    unfold walkBound
    omega
  have hsearch := search_eq 0 (hsplit ▸ h) hfront (Or.inl ha) hroom
  have hturns : turns (0 + (front ++ [b]).length) = front.length := by
    rw [hcount]
    unfold turns
    omega
  have hprev : t.next^[front.length] t.elem = b := iterate_next h
  obtain ⟨hnext, -⟩ := link_inner h
  unfold Tree.delEntryToTree
  rw [hsearch]
  simp only [Option.bind_eq_bind, Option.bind_some]
  rw [if_pos ha, hturns, hprev, hnext]
  cases rest with
  | nil =>
    have hlast := link_last (hsplit ▸ h)
    rw [if_pos hlast]
    refine ⟨_, rfl, holds_unlink rfl h ?_⟩
    rw [if_pos rfl, link_some, if_pos hlast]
  | cons d rest =>
    have hinner := link_inner (hsplit ▸ h)
    rw [if_neg hinner.2]
    refine ⟨_, rfl, holds_unlink rfl h ?_⟩
    have hbd : b ≠ t.next a := by
      rw [hinner.1]
      rintro rfl
      have hnodup := (List.nodup_append.mp h.nodup).2.1
      exact (List.nodup_cons.mp hnodup).1 (List.mem_cons_of_mem a List.mem_cons_self)
    rw [if_neg hbd, link_some, if_neg hinner.2]

/-- In memory, `del_entry_to_tree` does to the list of a directory what is expected, if the name is
not that of the directory itself. -/
theorem delEntryToTree_spec {dir : Directory} (h : t.Holds dir.elem)
    (hname : name ≠ dir.self.name) :
    ∃ u, t.delEntryToTree name = some u ∧ u.Holds (delEntryToTree name dir).elem := by
  obtain ⟨cells, hcells, hmap⟩ := h
  obtain ⟨c, cs, rfl, hself, hentries⟩ := List.map_eq_cons_iff.mp hmap
  have hc : (t.entry c).name ≠ name := by
    rw [hself]
    exact hname.symm
  have hgone : (delEntryToTree name dir).elem =
      (c :: cs.eraseP fun e => (t.entry e).name = name).map t.entry := by
    unfold delEntryToTree Directory.elem
    rw [← hentries, List.eraseP_map, List.map_cons, hself]
    rfl
  rw [hgone]
  by_cases hsome : ∃ a ∈ cs, (t.entry a).name = name
  · obtain ⟨f, hf, hname'⟩ := hsome
    obtain ⟨a, front, rest, hfront, ha, rfl, herase⟩ :=
      List.exists_of_eraseP (p := fun e => decide ((t.entry e).name = name)) hf
        (decide_eq_true hname')
    obtain ⟨front', b, hsplit⟩ : ∃ front' b, c :: front = front' ++ [b] :=
      ⟨_, _, (List.dropLast_append_getLast (List.cons_ne_nil c front)).symm⟩
    have hwhole : ∀ l, c :: (front ++ l) = front' ++ b :: l := by
      intro l
      rw [← List.cons_append, hsplit, List.append_assoc, List.singleton_append]
    rw [hwhole] at hcells
    rw [herase, hwhole]
    apply delEntryToTree_found hcells _ (of_decide_eq_true ha)
    rw [← hsplit]
    intro e he
    rcases List.mem_cons.mp he with rfl | hmem
    · exact hc
    · exact fun heq => hfront e hmem (decide_eq_true heq)
  · have hnames : ∀ e ∈ c :: cs, (t.entry e).name ≠ name := by
      intro e he
      rcases List.mem_cons.mp he with rfl | hmem
      · exact hc
      · exact fun heq => hsome ⟨e, hmem, heq⟩
    refine ⟨t, delEntryToTree_absent hcells (List.cons_ne_nil c cs) hnames, c :: cs, hcells, ?_⟩
    rw [List.eraseP_of_forall_not]
    exact fun e he heq => hsome ⟨e, he, of_decide_eq_true heq⟩

/-- The block of a directory is read as it was written, within the tables, and a deletion takes the
first entry of its name out, exactly if there are up to ten entries with that of the directory
itself, whose type is `DIRECTORY`. -/
theorem directory_iff (j j' : Unset) (disk : Disk) (dir dire : Directory) (nome : Name)
    (hself : dir.self.firstBlock ≠ 0) (hblocks : ∀ e ∈ dir.entries, e.firstBlock ≠ 0)
    (hsize : dir.header.size.toNat ≤ 512)
    (hfound : searchFilename nome dire.elem = dir.self.firstBlock) :
    (Rebuilt j j' disk dir nome dire ∧
      ∀ (t : Tree) (name : Name), t.Holds dir.elem → name ≠ dir.self.name →
        ∃ u, t.delEntryToTree name = some u ∧
          u.Holds (dir.elem.eraseP fun e => e.name = name)) ↔
      dir.elem.length ≤ 10 ∧ dir.self.magicCode = directory := by
  rw [rebuilt_iff hsize hself hblocks hfound]
  apply and_iff_left
  intro t name ht hname
  obtain ⟨u, hu, hholds⟩ := delEntryToTree_spec ht hname
  refine ⟨u, hu, ?_⟩
  have hgone : (delEntryToTree name dir).elem = dir.elem.eraseP fun e => e.name = name := by
    unfold Directory.elem
    rw [List.eraseP_cons_of_neg fun heq => hname (of_decide_eq_true heq).symm]
    rfl
  rwa [hgone] at hholds

/-- The root directory with `n` files in it. -/
def rootWith (n : Fin 26) : Directory :=
  { rootDirectory with
    entries := List.ofFn fun i : Fin n =>
      ⟨sconosciuto, BitVec.ofNat 32 (65 + i),
        ⟨[BitVec.ofNat 8 (0x61 + i)], by revert n; decide, (by decide : 1 < 30)⟩⟩ }

theorem rootWith_nine :
    Rebuilt cleared cleared formattedDisk (rootWith 9) rootName (rootWith 9) := by
  have hiff := directory_iff cleared cleared formattedDisk (rootWith 9) (rootWith 9) rootName
    (by decide) (by decide) (by decide) (by decide)
  exact (hiff.mpr ⟨by decide, by decide⟩).1

/-- With ten files, the zero behind the entries is not in the table any more. -/
theorem rootWith_ten : (rootWith 10).header.size.toNat ≤ 512 ∧
    ¬ Rebuilt cleared cleared formattedDisk (rootWith 10) rootName (rootWith 10) := by
  refine ⟨by decide, ?_⟩
  rintro ⟨hwritten, -⟩
  have hlast := hwritten 11 ((mem_writtenElements 0 _ 11).mpr (by decide))
  exact absurd hlast (by decide)

end OsdevArchive.Silvios
