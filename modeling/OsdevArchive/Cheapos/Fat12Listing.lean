import OsdevArchive.Cheapos.Fat12Open
import OsdevArchive.Lib.Texts

/-!
The listing of a directory against the entries that it is made from. The lines grow over the
entries that have not been read yet; a line that reaches the next entry ends the scan there
with its terminator, or gives the entry another name.
-/

namespace OsdevArchive.Cheapos.Fat12Open

open Kstring Lib.Lines

/-- The end of a line. -/
def accapo : Byte := ascii '\n'

namespace FileEntry

def shownName (e : FileEntry) : List Byte :=
  if e.Flag 0x10 then
    (List.ofFn e.name).replace (ascii ' ') (ascii '\\') ++ List.ofFn e.extension ++ [ascii ' ']
  else List.ofFn e.name ++ [ascii '.'] ++ List.ofFn e.extension

def shownFlags (e : FileEntry) : List Byte :=
  [(0x10, 'D'), (0x01, 'R'), (0x02, 'S'), (0x04, 'H'), (0x08, 'V')].map fun (bit, letter) =>
    ascii (if e.Flag bit then letter else '-')

/-- A directory is shown without a size. -/
def shownSize (e : FileEntry) : List Byte :=
  if e.Flag 0x10 then []
  else ascii '\t' :: decimale 6 e.fileLenght.toNat ++ [' ', 'b', 'y', 't', 'e', 's'].map ascii

/-- The line of an entry: its name, its attributes and its size. -/
def line (e : FileEntry) : List Byte :=
  e.shownName ++ [ascii '\t'] ++ e.shownFlags ++ e.shownSize

/-- A live entry that is neither a dot entry nor one of a long name. -/
def Shown (e : FileEntry) : Prop :=
  e.name0 ≠ 0xE5 ∧ e.name0 ≠ ascii '.' ∧ e.attributes ≠ 0x0F

instance decidableShown (e : FileEntry) : Decidable e.Shown := inferInstanceAs (Decidable (_ ∧ _))

end FileEntry

/-- The entries that belong into a listing: those in front of the end mark that are shown. -/
def listed (es : List FileEntry) : List FileEntry :=
  (es.takeWhile fun e => e.name0 ≠ 0).filter fun e => e.Shown

/-- The entries of the buffer from `i` on. -/
def entriesFrom (image : Nat → Byte) (i n : Nat) : List FileEntry :=
  (List.range' i n).map (fatImgDir image)

def Session.entries (s : Session) : List FileEntry := entriesFrom s.image 0 (s.size / 32)

/-- What a reader of the session gets. -/
def Session.text (s : Session) : List Byte := (List.range s.size).map s.image

/-- How much an entry adds to the text. -/
def lineLength (e : FileEntry) : Nat := if e.Shown then e.line.length + 1 else 0

/-- The listing does no harm from entry `i` on, where the lines before take `c` bytes. While
they stay in front of the entry it is read as it was. Where they end at the entry, the
terminator ends the scan. Where they reach into it, it must be one that is skipped all the
same; an end mark is lost there. -/
def Spared : Nat → Nat → List FileEntry → Prop
  | _, _, [] => True
  | i, c, e :: es =>
      if c = 0 ∨ c < 32 * i then e.name0 = 0 ∨ Spared (i + 1) (c + lineLength e) es
      else if c = 32 * i then listed (e :: es) = []
      else e.attributes = 0x0F ∧ if e.name0 = 0 then listed es = [] else Spared (i + 1) c es

instance decidableSpared : ∀ i c es, Decidable (Spared i c es)
  | _, _, [] => inferInstanceAs (Decidable True)
  | i, c, e :: es =>
      have := decidableSpared (i + 1) (c + lineLength e) es
      have := decidableSpared (i + 1) c es
      inferInstanceAs (Decidable (if c = 0 ∨ c < 32 * i then
          e.name0 = 0 ∨ Spared (i + 1) (c + lineLength e) es
        else if c = 32 * i then listed (e :: es) = []
        else e.attributes = 0x0F ∧ if e.name0 = 0 then listed es = [] else Spared (i + 1) c es))

variable {s : Session} {T text a b : List Byte} {e aux : FileEntry} {es : List FileEntry}
  {i n k m : Nat}

/-! ### What is listed -/

theorem listed_end (h : e.name0 = 0) : listed (e :: es) = [] := by
  rw [listed, List.takeWhile_cons_of_neg, List.filter_nil]
  simpa using h

theorem listed_shown (h : e.name0 ≠ 0) (hshown : e.Shown) : listed (e :: es) = e :: listed es := by
  rw [listed, List.takeWhile_cons_of_pos, List.filter_cons_of_pos, listed]
  · simpa using hshown
  · simpa using h

theorem listed_skip (h : e.name0 ≠ 0) (hshown : ¬ e.Shown) : listed (e :: es) = listed es := by
  rw [listed, List.takeWhile_cons_of_pos, List.filter_cons_of_neg, listed]
  · simpa using hshown
  · simpa using h

/-! ### Printing -/

/-- The session after a text has been printed; nothing is written for no text. -/
def Session.laid (s : Session) (T : List Byte) : Session :=
  if T = [] then s
  else { s with image := writeText s.image s.cursore T, cursore := s.cursore + T.length }

theorem writeText_of_lt {image : Nat → Byte} (h : n < k) : writeText image k T n = image n := by
  rw [writeText, if_pos h]

theorem writeText_text {image : Nat → Byte} (h : n < T.length) :
    writeText image k T (k + n) = T[n] := by
  rw [writeText, if_neg (by omega), Nat.add_sub_cancel_left, List.getElem?_append_left h,
    List.getElem?_eq_getElem h, Option.getD_some]

theorem writeText_terminator {image : Nat → Byte} : writeText image k T (k + T.length) = 0 := by
  rw [writeText, if_neg (by omega), Nat.add_sub_cancel_left,
    List.getElem?_append_right (Nat.le_refl _), Nat.sub_self]
  rfl

theorem writeText_of_gt {image : Nat → Byte} (h : k + T.length < n) :
    writeText image k T n = image n := by
  rw [writeText, if_neg (by omega), List.getElem?_eq_none, Option.getD_none]
  rw [List.length_append, List.length_singleton]
  omega

/-- A text printed behind another one, over its terminator. -/
theorem writeText_writeText (image : Nat → Byte) (k : Nat) (a b : List Byte) :
    writeText (writeText image k a) (k + a.length) b = writeText image k (a ++ b) := by
  funext j
  rcases Nat.lt_or_ge j (k + a.length) with hfirst | hsecond
  · rw [writeText_of_lt hfirst]
    rcases Nat.lt_or_ge j k with hbefore | hinside
    · rw [writeText_of_lt hbefore, writeText_of_lt hbefore]
    · obtain ⟨d, rfl⟩ := Nat.exists_eq_add_of_le hinside
      have hd : d < a.length := by omega
      have hd' : d < (a ++ b).length := by
        rw [List.length_append]
        omega
      rw [writeText_text hd, writeText_text hd', List.getElem_append_left hd]
  · obtain ⟨d, rfl⟩ := Nat.exists_eq_add_of_le hsecond
    have hlength : (a ++ b).length = a.length + b.length := List.length_append
    rcases Nat.lt_trichotomy d b.length with hlt | rfl | hgt
    · have hd' : a.length + d < (a ++ b).length := by omega
      rw [writeText_text hlt, Nat.add_assoc, writeText_text hd',
        List.getElem_append_right (by omega)]
      simp only [Nat.add_sub_cancel_left]
    · rw [writeText_terminator, Nat.add_assoc, ← hlength, writeText_terminator]
    · rw [writeText_of_gt (by omega), writeText_of_gt (by omega), writeText_of_gt (by omega)]

/-- Printing goes on with the text. -/
theorem laid_print {stringa : List Char} {argomenti : Nat → Byte}
    (htext : ksprint (fun _ => []) stringa argomenti = text) (hne : text ≠ []) :
    (s.laid T).print stringa argomenti = s.laid (T ++ text) := by
  rw [Session.print, htext, Session.laid, Session.laid,
    if_neg fun h => hne (List.append_eq_nil_iff.mp h).2]
  split
  · subst T
    rfl
  · simp only [writeText_writeText, List.length_append, Nat.add_assoc]

/-! ### One line -/

theorem printName_laid (js : List (Fin 8)) (optbool : Bool) :
    Session.printName aux js optbool (s.laid T) = s.laid (T ++ if aux.Flag 0x10 ∧ optbool then
      (js.map aux.name).replace (ascii ' ') (ascii '\\') else js.map aux.name) := by
  induction js generalizing T optbool with
  | nil => simp [Session.printName]
  | cons j js ih =>
    rw [Session.printName]
    split
    · rename_i hblank
      rw [laid_print (ksprint_lit (by decide)) (List.cons_ne_nil _ _), ih, if_neg (by simp),
        if_pos ⟨hblank.1, hblank.2.2⟩, List.map_cons, hblank.2.1, List.replace_cons_self,
        List.append_assoc]
      rfl
    · rename_i hchar
      rw [laid_print (ksprint_char _) (List.cons_ne_nil _ _), ih, List.append_assoc]
      congr 2
      split
      · rename_i hdir
        have hne : (ascii ' ' == aux.name j) = false := by
          apply beq_false_of_ne
          exact fun h => hchar ⟨hdir.1, h.symm, hdir.2⟩
        rw [List.map_cons, List.replace_cons, hne]
        rfl
      · rfl

theorem printExtension_laid (js : List (Fin 3)) :
    js.foldl (fun s j => s.print ['%', 'c'] (charArg (aux.extension j))) (s.laid T) =
      s.laid (T ++ js.map aux.extension) := by
  induction js generalizing T with
  | nil => simp
  | cons j js ih =>
    rw [List.foldl_cons, laid_print (ksprint_char _) (List.cons_ne_nil _ _), ih,
      List.append_assoc]
    rfl

theorem printFlags_laid {s₀ : Session} :
    let s := (s₀.laid T).printFlag aux ['\t', '%', 'c'] 0x10 'D'
    let s := s.printFlag aux ['%', 'c'] 0x01 'R'
    let s := s.printFlag aux ['%', 'c'] 0x02 'S'
    let s := s.printFlag aux ['%', 'c'] 0x04 'H'
    s.printFlag aux ['%', 'c'] 0x08 'V' = s₀.laid (T ++ ([ascii '\t'] ++ aux.shownFlags)) := by
  simp only [Session.printFlag]
  rw [laid_print (ksprint_tab_char _) (List.cons_ne_nil _ _),
    laid_print (ksprint_char _) (List.cons_ne_nil _ _),
    laid_print (ksprint_char _) (List.cons_ne_nil _ _),
    laid_print (ksprint_char _) (List.cons_ne_nil _ _),
    laid_print (ksprint_char _) (List.cons_ne_nil _ _)]
  simp only [List.append_assoc]
  rfl

theorem line_of_dir (h : e.Flag 0x10) :
    e.line = (List.ofFn e.name).replace (ascii ' ') (ascii '\\') ++ List.ofFn e.extension ++
      [ascii ' '] ++ ([ascii '\t'] ++ e.shownFlags) := by
  rw [FileEntry.line, FileEntry.shownName, if_pos h, FileEntry.shownSize, if_pos h,
    List.append_nil, List.append_assoc _ [ascii '\t']]

theorem line_of_file (h : ¬ e.Flag 0x10) :
    e.line = List.ofFn e.name ++ [ascii '.'] ++ List.ofFn e.extension ++
      ([ascii '\t'] ++ e.shownFlags) ++ (ascii '\t' :: decimale 6 e.fileLenght.toNat ++
        [' ', 'b', 'y', 't', 'e', 's'].map ascii) := by
  rw [FileEntry.line, FileEntry.shownName, if_neg h, FileEntry.shownSize, if_neg h,
    List.append_assoc _ [ascii '\t']]

/-- What is printed for an entry is its line. -/
theorem printEntry_laid : (s.laid T).printEntry aux = s.laid (T ++ (aux.line ++ [accapo])) := by
  have hname : (List.finRange 8).map aux.name = List.ofFn aux.name := List.ofFn_eq_map.symm
  have hext : (List.finRange 3).map aux.extension = List.ofFn aux.extension :=
    List.ofFn_eq_map.symm
  by_cases hdir : aux.Flag 0x10
  · simp only [Session.printEntry, printName_laid, hname, hdir, and_self, if_true,
      printExtension_laid, hext]
    rw [laid_print (ksprint_lit (by decide)) (List.cons_ne_nil _ _), printFlags_laid,
      laid_print (ksprint_lit (by decide)) (List.cons_ne_nil _ _), line_of_dir hdir]
    simp only [List.append_assoc, accapo]
  · simp only [Session.printEntry, printName_laid, hname, hdir, false_and, if_false]
    rw [laid_print (ksprint_lit (by decide)) (List.cons_ne_nil _ _), printExtension_laid, hext,
      printFlags_laid,
      laid_print (ksprint_bytes _) (List.append_ne_nil_of_right_ne_nil _ (by simp)),
      laid_print (ksprint_lit (by decide)) (List.cons_ne_nil _ _), line_of_file hdir]
    simp only [List.append_assoc, accapo]

theorem line_length (e : FileEntry) :
    18 ≤ e.line.length ∧ e.line.length ≤ 35 ∧ (e.Flag 0x10 → e.line.length ≤ 30) := by
  by_cases hdir : e.Flag 0x10
  · rw [line_of_dir hdir]
    simp [FileEntry.shownFlags]
  · have hdigits : (Nat.digits 10 e.fileLenght.toNat).length ≤ 10 :=
      digits_length_le (Nat.lt_trans e.fileLenght.isLt (by decide))
    rw [line_of_file hdir]
    simp only [List.length_append, List.length_cons, List.length_ofFn, decimale_length,
      FileEntry.shownFlags, List.length_map, List.length_nil]
    refine ⟨by omega, by omega, fun h => absurd h hdir⟩

theorem line_ne_nil (e : FileEntry) : e.line ≠ [] := by
  apply List.ne_nil_of_length_pos
  exact Nat.lt_of_lt_of_le (by decide) (line_length e).1

/-! ### What is read behind the text -/

/-- The end of the line of a file. -/
def coda : List Byte := ['b', 'y', 't', 'e', 's', '\n'].map ascii

/-- The text has not reached entry `i`. -/
def Intact (T : List Byte) (i : Nat) : Prop := T = [] ∨ T.length < 32 * i

/-- The text has reached entry `i` with the end of a line. -/
def Spilled (T : List Byte) (i m : Nat) : Prop :=
  2 ≤ m ∧ m ≤ 5 ∧ ∃ front, front.length = 32 * i ∧ T = front ++ coda.drop m

/-- A text that did not reach into an entry does not reach far into the next one. -/
theorem reach (h : T.length ≤ 32 * i) (e : FileEntry) :
    (T ++ (e.line ++ [accapo])).length ≤ 32 * (i + 1) ∨
      ∃ m, Spilled (T ++ (e.line ++ [accapo])) (i + 1) m := by
  obtain ⟨-, hlong, hdirLength⟩ := line_length e
  rcases Nat.lt_or_ge (32 * (i + 1)) (T ++ (e.line ++ [accapo])).length with hlt | hge
  · right
    have hlength : (T ++ (e.line ++ [accapo])).length = T.length + e.line.length + 1 := by
      simp [Nat.add_assoc]
    have hfile : ¬ e.Flag 0x10 := by
      intro hdir
      have hshort := hdirLength hdir
      omega
    obtain ⟨front, hfront⟩ : ∃ front, T ++ (e.line ++ [accapo]) = front ++ coda := by
      rw [line_of_file hfile]
      refine ⟨T ++ (List.ofFn e.name ++ [ascii '.'] ++ List.ofFn e.extension ++
        ([ascii '\t'] ++ e.shownFlags) ++ (ascii '\t' :: decimale 6 e.fileLenght.toNat ++
          [ascii ' '])), ?_⟩
      simp [coda, accapo]
    rw [hfront] at hlt hlength ⊢
    have hcoda : (front ++ coda).length = front.length + 6 := List.length_append
    refine ⟨32 * (i + 1) - front.length, by omega, by omega,
      (front ++ coda).take (32 * (i + 1)), ?_, ?_⟩
    · rw [List.length_take]
      omega
    · have hdrop : (front ++ coda).drop (32 * (i + 1)) =
          coda.drop (32 * (i + 1) - front.length) := by
        rw [List.drop_append, List.drop_eq_nil_of_le (by omega), List.nil_append]
      rw [← hdrop, List.take_append_drop]
  · exact .inl hge

theorem fileEntry_congr {image image' : Nat → Byte} (h : ∀ k, image (n + k) = image' (n + k)) :
    fileEntry image n = fileEntry image' n := by
  simp only [fileEntry, dword, Nat.add_assoc, h]

theorem laid_behind (hcur : s.cursore = 0) (hn : T.length < n) :
    (s.laid T).image n = s.image n := by
  rw [Session.laid]
  split
  · rfl
  · apply writeText_of_gt
    rwa [hcur, Nat.zero_add]

theorem laid_inside (hcur : s.cursore = 0) (hn : n < T.length) :
    (s.laid T).image n = T[n] := by
  have hne : T ≠ [] := List.ne_nil_of_length_pos (Nat.zero_lt_of_lt hn)
  have htext : writeText s.image s.cursore T (s.cursore + n) = T[n] := writeText_text hn
  rw [hcur, Nat.zero_add] at htext
  rw [Session.laid, if_neg hne, hcur]
  exact htext

theorem read_intact (hcur : s.cursore = 0) (h : Intact T i) :
    fatImgDir (s.laid T).image i = fatImgDir s.image i := by
  obtain rfl | hlt := h
  · rfl
  · apply fileEntry_congr
    intro k
    exact laid_behind hcur (by omega)

/-- A terminator at the start of an entry is taken for the end mark. -/
theorem read_terminator (hcur : s.cursore = 0) (hne : T ≠ []) (h : T.length = 32 * i) :
    (fatImgDir (s.laid T).image i).name0 = 0 := by
  have hterminator : writeText s.image s.cursore T (s.cursore + T.length) = 0 :=
    writeText_terminator
  rw [hcur, Nat.zero_add, h] at hterminator
  rw [Session.laid, if_neg hne, hcur]
  exact hterminator

/-- An entry that a text has reached into keeps its attributes and has another name. -/
theorem read_spilled (hcur : s.cursore = 0) (h : Spilled T i m) :
    (fatImgDir (s.laid T).image i).attributes = (fatImgDir s.image i).attributes ∧
      coda.drop m <+: List.ofFn (fatImgDir (s.laid T).image i).name := by
  obtain ⟨hlow, hhigh, front, hfront, rfl⟩ := h
  have hlength : (coda.drop m).length = 6 - m := List.length_drop
  have hwhole : (front ++ coda.drop m).length = 32 * i + (6 - m) := by
    rw [List.length_append, hfront, hlength]
  constructor
  · apply laid_behind hcur
    omega
  · apply List.prefix_iff_getElem.mpr
    refine ⟨by rw [hlength, List.length_ofFn]; omega, ?_⟩
    intro j hj
    rw [List.getElem_ofFn]
    have hin : 32 * i + j < (front ++ coda.drop m).length := by omega
    have hread := laid_inside hcur hin
    rw [List.getElem_append_right (by omega)] at hread
    simp only [hfront, Nat.add_sub_cancel_left] at hread
    exact hread.symm

/-- The line of such an entry starts with what is left over from the one before. -/
theorem line_spilled (hmem : coda.drop m <+: List.ofFn e.name) : coda.drop m <+: e.line := by
  have hblank : ascii ' ' ∉ coda.drop m := by
    intro h
    exact absurd (List.drop_subset m coda h) (by decide)
  by_cases hdir : e.Flag 0x10
  · obtain ⟨rest, hrest⟩ := hmem
    rw [line_of_dir hdir, ← hrest, List.replace_append_right hblank]
    simp only [List.append_assoc]
    exact List.prefix_append _ _
  · rw [line_of_file hdir]
    simp only [List.append_assoc]
    exact hmem.trans (List.prefix_append _ _)

/-! ### The scan -/

theorem printEntries_end (h : (fatImgDir s.image i).name0 = 0) :
    s.printEntries (n + 1) i = s := by
  simp only [Session.printEntries, h, ne_eq, not_true_eq_false, false_and, and_false, if_false,
    if_true]

theorem printEntries_shown (h : (fatImgDir s.image i).name0 ≠ 0)
    (hshown : (fatImgDir s.image i).Shown) :
    s.printEntries (n + 1) i = (s.printEntry (fatImgDir s.image i)).printEntries n (i + 1) := by
  have hall : (fatImgDir s.image i).name0 ≠ 0xE5 ∧ (fatImgDir s.image i).name0 ≠ 0 ∧
      (fatImgDir s.image i).name0 ≠ ascii '.' ∧ (fatImgDir s.image i).attributes ≠ 0x0F :=
    ⟨hshown.1, h, hshown.2⟩
  rw [Session.printEntries, if_pos hall, if_neg h]

theorem printEntries_skip (h : (fatImgDir s.image i).name0 ≠ 0)
    (hshown : ¬ (fatImgDir s.image i).Shown) :
    s.printEntries (n + 1) i = s.printEntries n (i + 1) := by
  have hnot : ¬ ((fatImgDir s.image i).name0 ≠ 0xE5 ∧ (fatImgDir s.image i).name0 ≠ 0 ∧
      (fatImgDir s.image i).name0 ≠ ascii '.' ∧ (fatImgDir s.image i).attributes ≠ 0x0F) :=
    fun hall => hshown ⟨hall.1, hall.2.2⟩
  rw [Session.printEntries, if_neg hnot, if_neg h]

theorem entriesFrom_succ (image : Nat → Byte) (i n : Nat) :
    entriesFrom image i (n + 1) = fatImgDir image i :: entriesFrom image (i + 1) n := rfl

/-- The text of some entries. -/
def listing (es : List FileEntry) : List Byte := terminated accapo (es.map FileEntry.line)

theorem listing_cons : listing (e :: es) = e.line ++ [accapo] ++ listing es := terminated_cons

theorem listing_eq_nil_iff : listing es = [] ↔ es = [] := by
  rw [listing, terminated_eq_nil_iff, List.map_eq_nil_iff]

/-- Whatever it reads, the scan prints lines of entries. -/
theorem printEntries_laid :
    ∃ out, (s.laid T).printEntries n i = s.laid (T ++ listing out) ∧ out.length ≤ n := by
  induction n generalizing i T with
  | zero => exact ⟨[], by rw [listing_eq_nil_iff.mpr rfl, List.append_nil]; rfl, Nat.le_refl _⟩
  | succ n ih =>
    by_cases hend : (fatImgDir (s.laid T).image i).name0 = 0
    · refine ⟨[], ?_, Nat.zero_le _⟩
      rw [printEntries_end hend, listing_eq_nil_iff.mpr rfl, List.append_nil]
    · by_cases hshown : (fatImgDir (s.laid T).image i).Shown
      · obtain ⟨out, hout, hfew⟩ := ih (i := i + 1)
          (T := T ++ ((fatImgDir (s.laid T).image i).line ++ [accapo]))
        refine ⟨fatImgDir (s.laid T).image i :: out, ?_, Nat.succ_le_succ hfew⟩
        rw [printEntries_shown hend hshown, printEntry_laid, hout, listing_cons,
          List.append_assoc]
      · obtain ⟨out, hout, hfew⟩ := ih (i := i + 1) (T := T)
        exact ⟨out, by rw [printEntries_skip hend hshown, hout], Nat.le_succ_of_le hfew⟩

/-- The lines of the entries `out` are printed behind a text, where `es` are the entries in the
buffer from `i` on: there is something in a listing that starts in front of the entry if
there should be, and it is right if no entry comes to harm. -/
structure Prints (i : Nat) (T : List Byte) (es out : List FileEntry) : Prop where
  few : out.length ≤ es.length
  some : Intact T i → (out = [] ↔ listed es = [])
  right : (∀ e ∈ listed es, accapo ∉ e.line) →
    (listing out = listing (listed es) ↔ Spared i T.length es)

theorem Intact.condition (h : Intact T i) : T.length = 0 ∨ T.length < 32 * i :=
  h.imp_left fun hnil => List.length_eq_zero_iff.mpr hnil

theorem Prints.nil : Prints i T [] [] where
  few := Nat.le_refl _
  some _ := Iff.rfl
  right _ := iff_of_true rfl trivial

theorem Prints.finish (h : Intact T i) (hend : e.name0 = 0) : Prints i T (e :: es) [] where
  few := Nat.zero_le _
  some _ := iff_of_true rfl (listed_end hend)
  right _ := by
    rw [listed_end hend, Spared, if_pos h.condition]
    exact iff_of_true rfl (.inl hend)

theorem Prints.skip {out : List FileEntry} (h : Intact T i) (hend : e.name0 ≠ 0)
    (hshown : ¬ e.Shown) (hrest : Prints (i + 1) T es out) : Prints i T (e :: es) out where
  few := Nat.le_succ_of_le hrest.few
  some _ := by
    rw [listed_skip hend hshown]
    exact hrest.some (h.imp_right fun hlt => by omega)
  right := by
    rw [listed_skip hend hshown, Spared, if_pos h.condition, lineLength, if_neg hshown,
      or_iff_right hend]
    exact hrest.right

theorem Prints.shown {out : List FileEntry} (h : Intact T i) (hend : e.name0 ≠ 0)
    (hshown : e.Shown) (hrest : Prints (i + 1) (T ++ (e.line ++ [accapo])) es out) :
    Prints i T (e :: es) (e :: out) where
  few := Nat.succ_le_succ hrest.few
  some _ := by
    rw [listed_shown hend hshown]
    exact iff_of_false (List.cons_ne_nil _ _) (List.cons_ne_nil _ _)
  right := by
    intro hsep
    rw [listed_shown hend hshown] at hsep ⊢
    rw [listing_cons, listing_cons, List.append_right_inj, Spared, if_pos h.condition, lineLength,
      if_pos hshown, or_iff_right hend]
    have hright := hrest.right fun x hx => hsep x (List.mem_cons_of_mem _ hx)
    rwa [List.length_append, List.length_append, List.length_singleton] at hright

/-- The terminator hides the rest. -/
theorem Prints.hidden (hne : T ≠ []) (hreach : T.length = 32 * i) : Prints i T (e :: es) [] where
  few := Nat.zero_le _
  some h := by
    obtain hnil | hlt := h
    · exact absurd hnil hne
    · omega
  right _ := by
    have hpos := List.length_pos_iff.mpr hne
    rw [Spared, if_neg (by omega), if_pos hreach, eq_comm, listing_eq_nil_iff.mpr rfl,
      listing_eq_nil_iff]

theorem Spilled.not_intact (h : Spilled T i m) : ¬ Intact T i := by
  obtain ⟨hlow, hhigh, front, hfront, rfl⟩ := h
  have hlength : (front ++ coda.drop m).length = 32 * i + (6 - m) := by
    rw [List.length_append, hfront, List.length_drop]
    rfl
  rintro (hnil | hlt)
  · rw [hnil, List.length_nil] at hlength
    omega
  · omega

theorem Spilled.length (h : Spilled T i m) : 32 * i < T.length ∧ T.length ≤ 32 * i + 4 := by
  obtain ⟨hlow, hhigh, front, hfront, rfl⟩ := h
  have hlength : (front ++ coda.drop m).length = 32 * i + (6 - m) := by
    rw [List.length_append, hfront, List.length_drop]
    rfl
  omega

theorem Spilled.spared_iff (h : Spilled T i m) : Spared i T.length (e :: es) ↔
    e.attributes = 0x0F ∧ if e.name0 = 0 then listed es = [] else Spared (i + 1) T.length es := by
  have hlength := h.length
  rw [Spared, if_neg (by omega), if_neg (by omega)]

/-- An entry of a long name is skipped under another name as well. -/
theorem Prints.spill_skip {out : List FileEntry} (h : Spilled T i m) (hlong : e.attributes = 0x0F)
    (hrest : Prints (i + 1) T es out) : Prints i T (e :: es) out where
  few := Nat.le_succ_of_le hrest.few
  some hintact := absurd hintact h.not_intact
  right := by
    rw [h.spared_iff, and_iff_right hlong]
    split
    · rename_i hend
      have hbefore : Intact T (i + 1) := by
        have hlength := h.length
        exact .inr (by omega)
      intro _
      rw [listed_end hend, listing_eq_nil_iff.mpr rfl, listing_eq_nil_iff]
      exact hrest.some hbefore
    · rename_i hend
      rw [listed_skip hend fun hshown => hshown.2.2 hlong]
      exact hrest.right

theorem accapo_mem_coda (hm : m ≤ 5) : accapo ∈ coda.drop m := by
  have hall : ∀ m ≤ 5, accapo ∈ coda.drop m := by decide
  exact hall m hm

/-- A name that starts with the end of a line is no name of the directory. -/
theorem Prints.spill_shown {out : List FileEntry} (h : Spilled T i m) (hlong : e.attributes ≠ 0x0F)
    (hline : coda.drop m <+: aux.line) (hfew : out.length ≤ es.length) :
    Prints i T (e :: es) (aux :: out) where
  few := Nat.succ_le_succ hfew
  some hintact := absurd hintact h.not_intact
  right := by
    intro hsep
    rw [h.spared_iff]
    refine iff_of_false ?_ fun hspared => hlong hspared.1
    intro heq
    obtain ⟨rest, hrest⟩ := hline
    rw [listing_cons, ← hrest, List.append_assoc, List.append_assoc] at heq
    obtain ⟨l, hl, hshort⟩ : ∃ l ∈ (listed (e :: es)).map FileEntry.line,
        l.length < (coda.drop m).length := by
      apply exists_short_of_terminated heq.symm (accapo_mem_coda h.2.1)
      exact List.forall_mem_map.mpr hsep
    obtain ⟨x, -, rfl⟩ := List.mem_map.mp hl
    have hlow := (line_length x).1
    have hcoda : (coda.drop m).length = 6 - m := List.length_drop
    omega

theorem name_mem_coda (hm : m ≤ 5) (h : coda.drop m <+: List.ofFn e.name) :
    e.name0 ∈ coda := by
  obtain ⟨x, rest, hx⟩ := List.exists_cons_of_ne_nil (List.ne_nil_of_mem (accapo_mem_coda hm))
  rw [hx, List.ofFn_succ] at h
  obtain ⟨rfl, -⟩ : x = e.name0 ∧ _ := List.cons_prefix_cons.mp h
  apply List.drop_subset m coda
  rw [hx]
  exact List.mem_cons_self

/-- The scan from entry `i` on prints the lines of some entries behind the text. -/
theorem printEntries_prints (hcur : s.cursore = 0)
    (hT : T.length ≤ 32 * i ∨ ∃ m, Spilled T i m) :
    ∃ out, (s.laid T).printEntries n i = s.laid (T ++ listing out) ∧
      Prints i T (entriesFrom s.image i n) out := by
  induction n generalizing i T with
  | zero => exact ⟨[], by rw [listing_eq_nil_iff.mpr rfl, List.append_nil]; rfl, .nil⟩
  | succ n ih =>
    rw [entriesFrom_succ]
    obtain hle | ⟨m, hspill⟩ := hT
    · by_cases hintact : Intact T i
      · -- the entry is read as it was
        have hread := read_intact hcur hintact
        have hnext : T.length ≤ 32 * (i + 1) := by omega
        by_cases hend : (fatImgDir s.image i).name0 = 0
        · refine ⟨[], ?_, .finish hintact hend⟩
          rw [printEntries_end (by rw [hread]; exact hend), listing_eq_nil_iff.mpr rfl,
            List.append_nil]
        · by_cases hshown : (fatImgDir s.image i).Shown
          · obtain ⟨out, hout, hprints⟩ := ih (reach hle (fatImgDir s.image i))
            refine ⟨_ :: out, ?_, .shown hintact hend hshown hprints⟩
            rw [printEntries_shown (by rw [hread]; exact hend) (by rw [hread]; exact hshown),
              hread, printEntry_laid, hout, listing_cons, List.append_assoc]
          · obtain ⟨out, hout, hprints⟩ := ih (.inl hnext)
            refine ⟨out, ?_, .skip hintact hend hshown hprints⟩
            rw [printEntries_skip (by rw [hread]; exact hend) (by rw [hread]; exact hshown), hout]
      · -- the terminator stands in the first byte of the entry
        obtain ⟨hne, hge⟩ := not_or.mp hintact
        have hreach : T.length = 32 * i := Nat.le_antisymm hle (Nat.le_of_not_lt hge)
        refine ⟨[], ?_, .hidden hne hreach⟩
        rw [printEntries_end (read_terminator hcur hne hreach), listing_eq_nil_iff.mpr rfl,
          List.append_nil]
    · -- the entry has another name
      obtain ⟨hattributes, hname⟩ := read_spilled hcur hspill
      have hfirst : ∀ b ∈ coda, b ≠ 0 ∧ b ≠ 0xE5 ∧ b ≠ ascii '.' := by decide
      obtain ⟨hend, hdeleted, hdot⟩ := hfirst _ (name_mem_coda hspill.2.1 hname)
      have hlength := hspill.length
      by_cases hlong : (fatImgDir s.image i).attributes = 0x0F
      · obtain ⟨out, hout, hprints⟩ := ih (T := T) (i := i + 1) (.inl (by omega))
        refine ⟨out, ?_, .spill_skip hspill hlong hprints⟩
        rw [printEntries_skip hend fun hshown => hshown.2.2 (hattributes.trans hlong), hout]
      · have hshown : (fatImgDir (s.laid T).image i).Shown :=
          ⟨hdeleted, hdot, fun h => hlong (hattributes.symm.trans h)⟩
        obtain ⟨out, hout, hfew⟩ := printEntries_laid (s := s) (n := n) (i := i + 1)
          (T := T ++ ((fatImgDir (s.laid T).image i).line ++ [accapo]))
        refine ⟨fatImgDir (s.laid T).image i :: out, ?_,
          .spill_shown hspill hlong (line_spilled hname) ?_⟩
        · rw [printEntries_shown hend hshown, printEntry_laid, hout, listing_cons,
            List.append_assoc]
        · rwa [entriesFrom, List.length_map, List.length_range']

/-! ### The listing of a path -/

theorem mem_replace_iff {l : List Byte} {c x y : Byte} (hx : c ≠ x) (hy : c ≠ y) :
    c ∈ l.replace x y ↔ c ∈ l := by
  induction l with
  | nil => rfl
  | cons b l ih =>
    rw [List.replace_cons]
    split
    · rename_i heq
      obtain rfl := eq_of_beq heq
      simp [hx, hy]
    · simp [ih]

theorem accapo_not_mem_shownFlags : accapo ∉ e.shownFlags := by
  intro h
  obtain ⟨p, hp, heq⟩ := List.mem_map.mp h
  have hletter : ∀ p ∈ [((0x10 : Byte), 'D'), (0x01, 'R'), (0x02, 'S'), (0x04, 'H'), (0x08, 'V')],
      ascii p.2 ≠ accapo := by decide
  simp only at heq
  split at heq
  · exact hletter p hp heq
  · exact absurd heq (by decide)

theorem accapo_not_mem_decimale {w : Nat} : accapo ∉ decimale w n := by
  intro h
  exact absurd (mem_decimale h).1 (by decide)

/-- Only a name can bring a line feed into a line. -/
theorem accapo_mem_line :
    accapo ∈ e.line ↔ (∃ j, e.name j = accapo) ∨ ∃ j, e.extension j = accapo := by
  have htab : accapo ∉ [ascii '\t'] := by decide
  by_cases hdir : e.Flag 0x10
  · have hblank : accapo ∉ [ascii ' '] := by decide
    rw [line_of_dir hdir]
    simp only [List.mem_append, hblank, htab, accapo_not_mem_shownFlags, or_false,
      mem_replace_iff (show accapo ≠ ascii ' ' by decide) (show accapo ≠ ascii '\\' by decide),
      List.mem_ofFn]
  · have hdot : accapo ∉ [ascii '.'] := by decide
    have htab' : accapo ≠ ascii '\t' := by decide
    have hbytes : accapo ∉ [' ', 'b', 'y', 't', 'e', 's'].map ascii := by decide
    rw [line_of_file hdir]
    simp only [List.mem_append, List.mem_cons, hdot, htab, htab', hbytes,
      accapo_not_mem_shownFlags, accapo_not_mem_decimale, or_false, List.mem_ofFn]

theorem listing_length : (listing es).length ≤ 36 * es.length := by
  induction es with
  | nil => exact Nat.le_refl _
  | cons e es ih =>
    have hlong := (line_length e).2.1
    rw [listing_cons, List.length_append, List.length_append, List.length_singleton,
      List.length_cons]
    omega

theorem laid_cursore (hcur : s.cursore = 0) : (s.laid T).cursore = T.length := by
  rw [Session.laid]
  split
  · rw [hcur, ‹T = []›, List.length_nil]
  · show s.cursore + T.length = T.length
    rw [hcur, Nat.zero_add]

/-- A session whose directory is listed holds the lines of some entries, without the last line
feed. With no line the size goes below zero. -/
theorem mappaDir_text (hsize : s.size ≤ fat12ImgSize) :
    ∃ out, Prints 0 [] s.entries out ∧ (out = [] → s.mappaDir.text ≠ []) ∧
      (out ≠ [] → s.mappaDir.text ++ [accapo] = listing out) := by
  have hcur : ({ s with cursore := 0 } : Session).cursore = 0 := rfl
  obtain ⟨out, hout, hprints⟩ := printEntries_prints (T := []) (n := s.size / 32) (i := 0) hcur
    (.inl (Nat.zero_le _))
  have hstart : ({ s with cursore := 0 } : Session).laid [] = { s with cursore := 0 } := if_pos rfl
  rw [hstart, List.nil_append] at hout
  have hdirSize : s.mappaDir.size = ((listing out).length + (2 ^ 32 - 1)) % 2 ^ 32 := by
    rw [Session.mappaDir, hout, laid_cursore hcur]
  have himage : s.mappaDir.image =
      (({ s with cursore := 0 } : Session).laid (listing out)).image := by
    rw [Session.mappaDir, hout]
  refine ⟨out, hprints, ?_, ?_⟩
  · rintro rfl hnil
    have hempty := List.range_eq_nil.mp (List.map_eq_nil_iff.mp hnil)
    exact absurd (hdirSize.symm.trans hempty) (by decide)
  · intro hne
    have hlines : out.map FileEntry.line ≠ [] := mt List.map_eq_nil_iff.mp hne
    obtain ⟨front, hfront⟩ : ∃ front, listing out = front ++ [accapo] :=
      ⟨_, terminated_eq_intercalate hlines⟩
    have hlength : (listing out).length = front.length + 1 := by
      rw [hfront, List.length_append, List.length_singleton]
    have hfew : out.length ≤ s.size / 32 := by
      have hall := hprints.few
      rwa [entriesFrom, List.length_map, List.length_range'] at hall
    have hbound : (listing out).length ≤ 36 * out.length := listing_length
    have hlast : s.mappaDir.size = front.length := by
      rw [hdirSize, hlength]
      rw [fat12ImgSize] at hsize
      omega
    rw [hfront, List.append_left_inj, Session.text, hlast]
    apply List.ext_getElem
    · rw [List.length_map, List.length_range]
    · intro k hk hk'
      have hin : k < (listing out).length := by
        rw [hlength]
        exact Nat.lt_succ_of_lt hk'
      have hread := laid_inside hcur hin
      rw [List.getElem_map, List.getElem_range, himage, hread]
      simp only [hfront, List.getElem_append_left hk']

/-! ### The listing of a path, exactly -/

/-- A directory that a path leads to is listed right, one line for each entry that is shown,
if and only if there is such an entry, no name or extension among them holds a line feed, and
no line comes over what is read later. -/
theorem fat12Open_lists_iff {f : Floppy} {old : Nat → Byte} {nomefile : List Byte}
    (hpath : f.percorso old nomefile = some (s, []))
    (hsize : s.size ≤ fat12ImgSize) :
    (∃ opened, fat12Open (some f) true old (ascii '\\' :: nomefile) = some opened ∧
        lines accapo opened.text = (listed s.entries).map FileEntry.line) ↔
      listed s.entries ≠ [] ∧ (∀ e ∈ listed s.entries,
        (∀ j, e.name j ≠ accapo) ∧ ∀ j, e.extension j ≠ accapo) ∧ Spared 0 0 s.entries := by
  have hopen : fat12Open (some f) true old (ascii '\\' :: nomefile) = some s.mappaDir := by
    simp [fat12Open, hpath]
  obtain ⟨out, hprints, hnone, hsome⟩ := mappaDir_text hsize
  have hname : (∀ e ∈ listed s.entries, accapo ∉ e.line) ↔ ∀ e ∈ listed s.entries,
      (∀ j, e.name j ≠ accapo) ∧ ∀ j, e.extension j ≠ accapo := by
    simp only [accapo_mem_line, not_or, not_exists, ne_eq]
  have hnil : out = [] ↔ listed s.entries = [] := hprints.some (.inl rfl)
  have hshort : ∀ l ∈ (listed s.entries).map FileEntry.line, l ≠ [] :=
    List.forall_mem_map.mpr fun e _ => line_ne_nil e
  rw [← hname]
  constructor
  · rintro ⟨opened, hopened, hlines⟩
    obtain rfl := Option.some.inj (hopen.symm.trans hopened)
    have hne : listed s.entries ≠ [] := by
      intro hempty
      rw [hempty, List.map_nil, lines, if_neg (hnone (hnil.mpr hempty))] at hlines
      exact List.splitOn_ne_nil _ _ hlines
    obtain ⟨htext, hsep⟩ := (lines_eq_iff (mt List.map_eq_nil_iff.mp hne) hshort).mp hlines
    rw [hsome (mt hnil.mp hne)] at htext
    have hsep' := List.forall_mem_map.mp hsep
    exact ⟨hne, hsep', (hprints.right hsep').mp htext⟩
  · rintro ⟨hne, hsep, hspared⟩
    refine ⟨_, hopen, (lines_eq_iff (mt List.map_eq_nil_iff.mp hne) hshort).mpr ⟨?_, ?_⟩⟩
    · rw [hsome (mt hnil.mp hne)]
      exact (hprints.right hsep).mpr hspared
    · exact List.forall_mem_map.mpr hsep

/-- A volume whose root directory starts with two entries of these attributes. -/
def twoEntries (first second : Byte) : Floppy where
  volume := ⟨fun _ => 0, 0, 19, 31⟩
  rootEntCnt := 16
  disk k :=
    if k < 512 * 19 + 64 then
      if k % 32 < 11 then ascii (if k < 512 * 19 + 32 then 'A' else 'B')
      else if k % 32 = 11 then if k < 512 * 19 + 32 then first else second
      else 0
    else 0

/-- A directory has a short line, so that a file behind it is listed as well. -/
theorem fat12Open_lists_iff_directory :
    ∃ s, (twoEntries 0x10 0).percorso (fun _ => 0) [] = some (s, []) ∧
      (listed s.entries).length = 2 ∧
      ∃ opened, fat12Open (some (twoEntries 0x10 0)) true (fun _ => 0) [ascii '\\'] = some opened ∧
        lines accapo opened.text = (listed s.entries).map FileEntry.line := by
  refine ⟨_, rfl, by decide +kernel, ?_⟩
  apply (fat12Open_lists_iff rfl (by decide)).mpr
  decide +kernel

/-- Of two files at the start of the root only the first is listed. -/
theorem second_file_hidden : ∃ s, (twoEntries 0 0).percorso (fun _ => 0) [] = some (s, []) ∧
    s.size ≤ fat12ImgSize ∧ (listed s.entries).length = 2 ∧
    ¬ ∃ opened, fat12Open (some (twoEntries 0 0)) true (fun _ => 0) [ascii '\\'] = some opened ∧
      lines accapo opened.text = (listed s.entries).map FileEntry.line := by
  have hone : (fat12Open (some (twoEntries 0 0)) true (fun _ => 0) [ascii '\\']).all
      (fun opened => (lines accapo opened.text).length == 1) = true := by decide +kernel
  refine ⟨_, rfl, by decide, by decide +kernel, ?_⟩
  rintro ⟨opened, hopened, hlines⟩
  rw [hopened, Option.all_some, hlines, List.length_map] at hone
  exact absurd hone (by decide +kernel)

end OsdevArchive.Cheapos.Fat12Open
