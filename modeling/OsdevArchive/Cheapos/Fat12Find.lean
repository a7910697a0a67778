import OsdevArchive.Cheapos.Fat12Open
import OsdevArchive.Lib.Searches
import OsdevArchive.Lib.Texts
import Mathlib.Tactic.MkIffOfInductiveProp

/-!
The search for a name in a directory of cheapos (`fat12_findindir` of `fs_fat12.c`). A name is
held against an entry one character after the other, and a dot moves on to the extension; what
stands between the end of the base and the dot is not looked at, and at the end of the name a
single byte is.
-/

namespace OsdevArchive.Cheapos.Fat12Open

open Kstring OsdevArchive.Lib.FirstMatch OsdevArchive.Lib.Tokens

/-- A file name: the characters of a string in front of its terminator. -/
structure NomeFile where
  caratteri : List Byte
  senzaNul : 0 ∉ caratteri

/-- What stands in front of the dot of a name. -/
def base (nome : List Byte) : List Byte := nome.takeWhile (· ≠ ascii '.')

/-- What stands behind the dot of a name. -/
def estensione (nome : List Byte) : List Byte := (nome.dropWhile (· ≠ ascii '.')).tail

/-- Part of a name in a field that is filled up with blanks. -/
def campo (parte : List Byte) (j : Nat) : Byte := parte[j]?.getD (ascii ' ')

/-- The entry has the name. -/
structure HaNome (nome : List Byte) (e : FileEntry) : Prop where
  base_le : (base nome).length ≤ 8
  estensione_le : (estensione nome).length ≤ 3
  unPunto : ascii '.' ∉ estensione nome
  name : ∀ j : Fin 8, e.name j = campo (base nome) j
  extension : ∀ j : Fin 3, e.extension j = campo (estensione nome) j

/-- An entry in front of the end of the directory that is not deleted and is no part of a long
name. -/
@[mk_iff]
structure Viva (dirImg : Nat → Byte) (entries k : Nat) : Prop where
  lt : k < entries
  davanti : ∀ j ≤ k, (fatImgDir dirImg j).name0 ≠ 0
  presente : (fatImgDir dirImg k).name0 ≠ 0xE5
  corta : (fatImgDir dirImg k).attributes ≠ 0x0F

/-- What is expected of a search: the first live entry that has the name. -/
def Cercato (dirImg : Nat → Byte) (entries : Nat) (nome : List Byte) : Option Nat → Prop :=
  Finds fun k => Viva dirImg entries k ∧ HaNome nome (fatImgDir dirImg k)

/-! ### The columns of a name -/

/-- The byte of an entry that each character of a name is held against, from byte `i` on. -/
def colonne : List Byte → Nat → List (Nat × Byte)
  | [], _ => []
  | c :: nomefile, i =>
      if c = 0 then []
      else if c = ascii '.' then
        match nomefile with
        | [] => [(8, 0)]
        | d :: nomefile => (8, d) :: colonne nomefile 9
      else (i, c) :: colonne nomefile (i + 1)

/-- The byte of an entry behind the last of these. -/
def fine : List Byte → Nat → Nat
  | [], i => i
  | c :: nomefile, i =>
      if c = 0 then i
      else if c = ascii '.' then
        match nomefile with
        | [] => 9
        | _ :: nomefile => fine nomefile 9
      else fine nomefile (i + 1)

/-- Every character is the byte of its column, and behind the last stands a blank or nothing of
the name. -/
@[mk_iff]
structure Concorda (image : Nat → Byte) (a : Nat) (memoria : List Byte) : Prop where
  uguali : ∀ p ∈ colonne memoria 0, uguale p.2 (image (a + p.1)) = true
  dietro : image (a + fine memoria 0) = ascii ' ' ∨ 11 < fine memoria 0

/-- The entry has the name and is passed over: a character is not in ASCII, the name ends with
its dot, or its extension fills the field and the byte behind the field is no blank. -/
@[mk_iff]
structure Mancata (nome : List Byte) (e : FileEntry) : Prop where
  haNome : HaNome nome e
  diversa : (∃ c ∈ nome, 128 ≤ c.toNat) ∨ nome.getLast? = some (ascii '.') ∨
    (estensione nome).length = 3 ∧ e.attributes ≠ ascii ' '

/-- The characters that there are agree with the entry, but it has another name. Behind a dot
at the end of the name, the terminator and what stands behind it count as characters. -/
structure Confusa (dirImg : Nat → Byte) (nome dietro : List Byte) (k : Nat) : Prop where
  concorda : Concorda dirImg (32 * k) (nome ++ 0 :: dietro)
  altra : ¬ HaNome nome (fatImgDir dirImg k)

variable {image dirImg : Nat → Byte} {a i k entries : Nat}
  {parte coda memoria nome dietro : List Byte}

section columns

variable {c d : Byte}

theorem colonne_nul (coda : List Byte) (i : Nat) : colonne (0 :: coda) i = [] := by
  cases coda <;> rfl

theorem fine_nul (coda : List Byte) (i : Nat) : fine (0 :: coda) i = i := by
  cases coda <;> rfl

theorem colonne_punto (coda : List Byte) (i : Nat) :
    colonne (ascii '.' :: d :: coda) i = (8, d) :: colonne coda 9 :=
  rfl

theorem fine_punto (coda : List Byte) (i : Nat) : fine (ascii '.' :: d :: coda) i = fine coda 9 :=
  rfl

theorem colonne_cons (hnul : c ≠ 0) (hdot : c ≠ ascii '.') (coda : List Byte) (i : Nat) :
    colonne (c :: coda) i = (i, c) :: colonne coda (i + 1) := by
  cases coda <;> simp only [colonne, if_neg hnul, if_neg hdot]

theorem fine_cons (hnul : c ≠ 0) (hdot : c ≠ ascii '.') (coda : List Byte) (i : Nat) :
    fine (c :: coda) i = fine coda (i + 1) := by
  cases coda <;> simp only [fine, if_neg hnul, if_neg hdot]

end columns

/-- The comparison succeeds where every character is the byte of its column. -/
theorem confronta_eq_some {l : Nat} : confronta image a memoria i = some l ↔
    fine memoria i = l ∧ ∀ p ∈ colonne memoria i, uguale p.2 (image (a + p.1)) = true := by
  fun_induction confronta image a memoria i with
  | case1 i => simp [show fine [] i = i from rfl, show colonne [] i = [] from rfl]
  | case2 nomefile i =>
    rw [fine_nul, colonne_nul]
    simp
  | case3 i hu =>
    have hfine : fine [ascii '.'] i = 9 := rfl
    have hcolonne : colonne [ascii '.'] i = [(8, 0)] := rfl
    simpa [hfine, hcolonne] using fun _ => hu
  | case4 i hu =>
    have hcolonne : colonne [ascii '.'] i = [(8, 0)] := rfl
    simpa [hcolonne] using fun _ => hu
  | case5 i d nomefile hu _ ih => simp [fine_punto, colonne_punto, hu, ih]
  | case6 i d nomefile hu => simp [fine_punto, colonne_punto, hu]
  | case7 c nomefile i hnul hdot hu ih =>
    simp [fine_cons hnul hdot, colonne_cons hnul hdot, hu, ih]
  | case8 c nomefile i hnul hdot hu => simp [fine_cons hnul hdot, colonne_cons hnul hdot, hu]

/-- A terminator behind the name changes nothing, as there are zeros behind it anyway. -/
theorem colonne_terminata (nome : List Byte) (i : Nat) :
    colonne (nome ++ [0]) i = colonne nome i ∧ fine (nome ++ [0]) i = fine nome i := by
  fun_induction colonne nome i with
  | case1 i => exact ⟨rfl, rfl⟩
  | case2 nomefile i =>
    rw [List.cons_append, colonne_nul, fine_nul, fine_nul]
    exact ⟨rfl, rfl⟩
  | case3 i _ => exact ⟨rfl, rfl⟩
  | case4 i d nomefile _ ih =>
    rw [List.cons_append, List.cons_append, colonne_punto, fine_punto, fine_punto, ih.1, ih.2]
    exact ⟨rfl, rfl⟩
  | case5 c nomefile i hnul hdot ih =>
    rw [List.cons_append, colonne_cons hnul hdot, fine_cons hnul hdot, fine_cons hnul hdot, ih.1,
      ih.2]
    exact ⟨rfl, rfl⟩

theorem confronta_terminata (image : Nat → Byte) (a : Nat) (nome : List Byte) (i : Nat) :
    confronta image a (nome ++ [0]) i = confronta image a nome i := by
  apply Option.ext
  intro l
  rw [confronta_eq_some, confronta_eq_some, (colonne_terminata nome i).1,
    (colonne_terminata nome i).2]

/-- A part of the name without dots takes one column after the other. -/
theorem mem_colonne {p : Nat × Byte} (hnul : 0 ∉ parte) (hdot : ascii '.' ∉ parte) :
    p ∈ colonne (parte ++ coda) i ↔
      (∃ j, parte[j]? = some p.2 ∧ p.1 = i + j) ∨ p ∈ colonne coda (i + parte.length) := by
  induction parte generalizing i with
  | nil => simp
  | cons c parte ih =>
    rw [List.mem_cons, not_or] at hnul hdot
    rw [List.cons_append, colonne_cons (Ne.symm hnul.1) (Ne.symm hdot.1), List.mem_cons,
      ih hnul.2 hdot.2, List.length_cons, Nat.add_right_comm i 1, ← Nat.add_assoc, ← or_assoc]
    apply or_congr_left
    constructor
    · rintro (rfl | ⟨j, hj, hp⟩)
      · exact ⟨0, rfl, rfl⟩
      · exact ⟨j + 1, hj, by omega⟩
    · rintro ⟨_ | j, hj, hp⟩
      · exact .inl (Prod.ext hp (Option.some.inj hj).symm)
      · exact .inr ⟨j, hj, by omega⟩

theorem fine_append (hnul : 0 ∉ parte) (hdot : ascii '.' ∉ parte) :
    fine (parte ++ coda) i = fine coda (i + parte.length) := by
  induction parte generalizing i with
  | nil => rfl
  | cons c parte ih =>
    rw [List.mem_cons, not_or] at hnul hdot
    rw [List.cons_append, fine_cons (Ne.symm hnul.1) (Ne.symm hdot.1), ih hnul.2 hdot.2,
      List.length_cons, Nat.add_right_comm i 1, ← Nat.add_assoc]

/-- The characters of a part of the name are the bytes of a field from `a` on. -/
def Scritta (image : Nat → Byte) (a : Nat) (parte : List Byte) : Prop :=
  ∀ j c, parte[j]? = some c → uguale c (image (a + j)) = true

theorem concorda_senza_punto (hnul : 0 ∉ nome) (hdot : ascii '.' ∉ nome) :
    Concorda image a (nome ++ 0 :: dietro) ↔
      Scritta image a nome ∧ (image (a + nome.length) = ascii ' ' ∨ 11 < nome.length) := by
  have hfine : fine (nome ++ 0 :: dietro) 0 = nome.length := by
    rw [fine_append hnul hdot, fine_nul, Nat.zero_add]
  rw [concorda_iff, hfine]
  apply and_congr_left'
  constructor
  · intro h j c hj
    exact h (j, c) ((mem_colonne hnul hdot).mpr (.inl ⟨j, hj, (Nat.zero_add j).symm⟩))
  · intro h p hp
    rw [mem_colonne hnul hdot, colonne_nul] at hp
    rcases hp with ⟨j, hj, hp⟩ | hnone
    · rw [hp, Nat.zero_add]
      exact h j p.2 hj
    · cases hnone

theorem concorda_punto {b x : List Byte} {d : Byte} (hb : 0 ∉ b) (hbdot : ascii '.' ∉ b)
    (hx : 0 ∉ x) (hxdot : ascii '.' ∉ x) :
    Concorda image a (b ++ ascii '.' :: d :: (x ++ 0 :: dietro)) ↔
      Scritta image a b ∧ Scritta image (a + 8) (d :: x) ∧
        (image (a + 8 + (d :: x).length) = ascii ' ' ∨ 3 < (d :: x).length) := by
  have hfine : fine (b ++ ascii '.' :: d :: (x ++ 0 :: dietro)) 0 = 8 + (d :: x).length := by
    rw [fine_append hb hbdot, fine_punto, fine_append hx hxdot, fine_nul, List.length_cons]
    omega
  rw [concorda_iff, hfine, ← and_assoc, Nat.add_assoc]
  refine and_congr ⟨fun h => ⟨fun j c hj => ?_, fun j c hj => ?_⟩, fun h p hp => ?_⟩ ?_
  · exact h (j, c) ((mem_colonne hb hbdot).mpr (.inl ⟨j, hj, (Nat.zero_add j).symm⟩))
  · have hmem : (8 + j, c) ∈ colonne (b ++ ascii '.' :: d :: (x ++ 0 :: dietro)) 0 := by
      rw [mem_colonne hb hbdot, colonne_punto, List.mem_cons, mem_colonne hx hxdot]
      cases j with
      | zero => exact .inr (.inl (Prod.ext rfl (Option.some.inj hj).symm))
      | succ j => exact .inr (.inr (.inl ⟨j, hj, by omega⟩))
    have hu := h _ hmem
    rwa [← Nat.add_assoc] at hu
  · rw [mem_colonne hb hbdot, colonne_punto, List.mem_cons, mem_colonne hx hxdot,
      colonne_nul] at hp
    rcases hp with ⟨j, hj, hp⟩ | rfl | ⟨j, hj, hp⟩ | hnone
    · rw [hp, Nat.zero_add]
      exact h.1 j p.2 hj
    · exact h.2 0 d rfl
    · have hu := h.2 (j + 1) p.2 hj
      rwa [show a + 8 + (j + 1) = a + p.1 by omega] at hu
    · cases hnone
  · exact or_congr_right (by omega)

/-! ### The entry that has the name -/

theorem senza_punto (hdot : ascii '.' ∉ parte) : ∀ c ∈ parte, decide (c ≠ ascii '.') = true :=
  fun _ hc => decide_eq_true fun heq => hdot (heq ▸ hc)

theorem parti_base (hdot : ascii '.' ∉ nome) : base nome = nome ∧ estensione nome = [] := by
  have hstop : Stops (fun c => decide (c ≠ ascii '.')) [] := by
    rintro c ⟨⟩
  have htake := takeWhile_append_stops (senza_punto hdot) hstop
  have hdrop := dropWhile_append_stops (senza_punto hdot) hstop
  rw [List.append_nil] at htake hdrop
  rw [base, estensione, htake, hdrop]
  exact ⟨rfl, rfl⟩

theorem parti_estensione {b x : List Byte} (hb : ascii '.' ∉ b) :
    base (b ++ ascii '.' :: x) = b ∧ estensione (b ++ ascii '.' :: x) = x := by
  have hstop : Stops (fun c => decide (c ≠ ascii '.')) (ascii '.' :: x) :=
    stops_cons (decide_eq_false (not_not.mpr rfl))
  rw [base, estensione, takeWhile_append_stops (senza_punto hb) hstop,
    dropWhile_append_stops (senza_punto hb) hstop]
  exact ⟨rfl, rfl⟩

theorem campo_eq {j : Nat} {c : Byte} (h : parte[j]? = some c) : campo parte j = c := by
  rw [campo, h]
  rfl

theorem campo_blank {j : Nat} (h : parte.length ≤ j) : campo parte j = ascii ' ' := by
  rw [campo, List.getElem?_eq_none h]
  rfl

/-- Where the bytes are those of a filled up field, only ASCII characters agree with them. -/
theorem scritta_iff {n : Nat} (hfield : ∀ j < n, image (a + j) = campo parte j)
    (hlength : parte.length ≤ n) : Scritta image a parte ↔ ∀ c ∈ parte, c.toNat < 128 := by
  have hbyte : ∀ j c, parte[j]? = some c → image (a + j) = c := by
    intro j c hj
    have hlt : j < parte.length := (List.getElem?_eq_some_iff.mp hj).1
    rw [hfield j (by omega), campo_eq hj]
  constructor
  · intro hs c hc
    obtain ⟨j, hj⟩ := List.mem_iff_getElem?.mp hc
    have hu := hs j c hj
    simp only [uguale, Bool.and_eq_true, decide_eq_true_eq] at hu
    exact hu.1
  · intro hs j c hj
    rw [uguale, hbyte j c hj, decide_eq_true (hs c (List.mem_of_getElem? hj))]
    exact beq_self_eq_true c

theorem HaNome.bytes (h : HaNome nome (fileEntry image a)) :
    (∀ j < 8, image (a + j) = campo (base nome) j) ∧
      ∀ j < 3, image (a + 8 + j) = campo (estensione nome) j :=
  ⟨fun j hj => h.name ⟨j, hj⟩, fun j hj => h.extension ⟨j, hj⟩⟩

/-- A name without an extension has blanks behind it. -/
theorem HaNome.concorda_base (h : HaNome nome (fileEntry image a)) (hnul : 0 ∉ nome)
    (hdot : ascii '.' ∉ nome) :
    Concorda image a (nome ++ 0 :: dietro) ↔ ∀ c ∈ nome, c.toNat < 128 := by
  obtain ⟨hname, hext⟩ := h.bytes
  have hbase := h.base_le
  obtain ⟨hb, hx⟩ := parti_base hdot
  rw [hb] at hname hbase
  rw [hx] at hext
  have hdietro : image (a + nome.length) = ascii ' ' := by
    by_cases hfull : nome.length < 8
    · rw [hname _ hfull, campo_blank (Nat.le_refl _)]
    · have hfirst := hext 0 (by omega)
      rw [campo_blank (Nat.zero_le _)] at hfirst
      rwa [show a + nome.length = a + 8 + 0 by omega]
  rw [concorda_senza_punto hnul hdot, scritta_iff hname hbase]
  exact and_iff_left (.inl hdietro)

section extension

variable {b x : List Byte} {d : Byte}

/-- The terminator is held against the first byte of the empty extension. -/
theorem HaNome.not_concorda_punto (h : HaNome (b ++ [ascii '.']) (fileEntry image a))
    (hnul : 0 ∉ b) (hb : ascii '.' ∉ b) :
    ¬ Concorda image a (b ++ [ascii '.'] ++ 0 :: dietro) := by
  intro hc
  have hblank : image (a + 8) = ascii ' ' := by
    have hfirst := h.bytes.2 0 (by omega)
    rwa [(parti_estensione hb).2, campo_blank (Nat.zero_le _)] at hfirst
  have hmem : (8, 0) ∈ colonne (b ++ [ascii '.'] ++ 0 :: dietro) 0 := by
    rw [List.append_assoc, List.singleton_append, mem_colonne hnul hb, colonne_punto]
    exact .inr List.mem_cons_self
  have hu := hc.uguali _ hmem
  rw [hblank] at hu
  cases hu

/-- Behind an extension that fills its field stand the attributes. -/
theorem HaNome.concorda_estensione (h : HaNome (b ++ ascii '.' :: d :: x) (fileEntry image a))
    (hnul : 0 ∉ b) (hb : ascii '.' ∉ b) (hx : 0 ∉ x) :
    Concorda image a (b ++ ascii '.' :: d :: x ++ 0 :: dietro) ↔
      (∀ c ∈ b ++ ascii '.' :: d :: x, c.toNat < 128) ∧
        ¬ ((d :: x).length = 3 ∧ (fileEntry image a).attributes ≠ ascii ' ') := by
  obtain ⟨hname, hext⟩ := h.bytes
  have hbase := h.base_le
  have hestensione := h.estensione_le
  have hunico := h.unPunto
  obtain ⟨hbase', hest'⟩ := parti_estensione (x := d :: x) hb
  rw [hbase'] at hname hbase
  rw [hest'] at hext hestensione hunico
  rw [List.mem_cons, not_or] at hunico
  have hdietro : (image (a + 8 + (d :: x).length) = ascii ' ' ∨ 3 < (d :: x).length) ↔
      ¬ ((d :: x).length = 3 ∧ (fileEntry image a).attributes ≠ ascii ' ') := by
    rcases Nat.lt_or_eq_of_le hestensione with hshort | hfull
    · have hblank := hext _ hshort
      rw [campo_blank (Nat.le_refl _)] at hblank
      exact iff_of_true (.inl hblank) fun hboth => absurd hboth.1 (by omega)
    · rw [hfull]
      simp [fileEntry]
  have hpunto : (∀ c ∈ ascii '.' :: d :: x, c.toNat < 128) ↔ ∀ c ∈ d :: x, c.toNat < 128 := by
    rw [List.forall_mem_cons]
    exact and_iff_right (by decide)
  rw [List.append_assoc, List.cons_append, List.cons_append,
    concorda_punto hnul hb hx hunico.2, scritta_iff hname hbase, scritta_iff hext hestensione,
    hdietro, List.forall_mem_append, hpunto, and_assoc]

end extension

/-- Where an entry that has the name does not agree with it. -/
theorem HaNome.concorda_iff (h : HaNome nome (fileEntry image a)) (hnul : 0 ∉ nome) :
    Concorda image a (nome ++ 0 :: dietro) ↔
      ¬ ((∃ c ∈ nome, 128 ≤ c.toNat) ∨ nome.getLast? = some (ascii '.') ∨
        (estensione nome).length = 3 ∧ (fileEntry image a).attributes ≠ ascii ' ') := by
  rw [not_or, not_or, not_exists]
  simp only [not_and, not_le]
  by_cases hdot : ascii '.' ∈ nome
  · obtain ⟨b, x, rfl, hb⟩ := List.eq_append_cons_of_mem hdot
    have hunico := h.unPunto
    rw [(parti_estensione hb).2] at hunico ⊢
    simp only [List.mem_append, List.mem_cons, not_or] at hnul
    cases x with
    | nil =>
      exact iff_of_false (h.not_concorda_punto hnul.1 hb) fun hall =>
        hall.2.1 List.getLast?_concat
    | cons d x =>
      have hlast : (b ++ ascii '.' :: d :: x).getLast? ≠ some (ascii '.') := by
        intro hlast
        rw [List.getLast?_append_cons, List.getLast?_cons_cons] at hlast
        exact hunico (List.mem_of_getLast? hlast)
      rw [h.concorda_estensione hnul.1 hb fun hmem => hnul.2.2 (List.mem_cons_of_mem _ hmem),
        and_iff_right hlast, not_and]
  · have hlast : nome.getLast? ≠ some (ascii '.') := fun hlast =>
      hdot (List.mem_of_getLast? hlast)
    rw [h.concorda_base hnul hdot, (parti_base hdot).2, and_iff_right hlast]
    exact (and_iff_left fun hnone => by cases hnone).symm

/-- The entries that are passed over are those that have the name and do not agree with it. -/
theorem mancata_iff_not_concorda (hnul : 0 ∉ nome) (dietro : List Byte) (k : Nat) :
    Mancata nome (fatImgDir dirImg k) ↔ HaNome nome (fatImgDir dirImg k) ∧
      ¬ Concorda dirImg (32 * k) (nome ++ 0 :: dietro) := by
  rw [mancata_iff]
  apply and_congr_right
  intro hnome
  rw [HaNome.concorda_iff hnome hnul, not_not]
  rfl

/-! ### The search -/

theorem confronta_any : ((confronta image a memoria 0).any fun i =>
    image (a + i) == ascii ' ' || decide (11 < i)) = true ↔ Concorda image a memoria := by
  rw [concorda_iff, Option.any_eq_true]
  constructor
  · rintro ⟨l, hl, hstop⟩
    obtain ⟨rfl, hcolonne⟩ := confronta_eq_some.mp hl
    rw [Bool.or_eq_true, beq_iff_eq, decide_eq_true_eq] at hstop
    exact ⟨hcolonne, hstop⟩
  · rintro ⟨hcolonne, hstop⟩
    refine ⟨_, confronta_eq_some.mpr ⟨rfl, hcolonne⟩, ?_⟩
    rwa [Bool.or_eq_true, beq_iff_eq, decide_eq_true_eq]

/-- The loop of the search finds the first live entry that agrees with the name. -/
theorem fat12Findindir_finds (dirImg : Nat → Byte) (memoria : List Byte) (entries entrynum : Nat) :
    Finds (fun k => entrynum ≤ k ∧ k < entrynum + entries ∧
        (∀ j, entrynum ≤ j → j ≤ k → (fatImgDir dirImg j).name0 ≠ 0) ∧
        (fatImgDir dirImg k).name0 ≠ 0xE5 ∧ (fatImgDir dirImg k).attributes ≠ 0x0F ∧
        Concorda dirImg (32 * k) memoria)
      (fat12Findindir dirImg memoria entries entrynum) := by
  induction entries generalizing entrynum with
  | zero =>
    intro k hk
    omega
  | succ entries ih =>
    simp only [fat12Findindir]
    split
    · rename_i hend
      intro k hk
      exact hk.2.2.1 entrynum (Nat.le_refl _) hk.1 hend
    · rename_i hgo
      split
      · rename_i hfound
        refine ⟨⟨Nat.le_refl _, by omega, ?_, hfound.1, hfound.2.1,
          confronta_any.mp hfound.2.2⟩, ?_⟩
        · intro j hle hge
          rwa [Nat.le_antisymm hge hle]
        · intro j hj hjp
          omega
      · rename_i hother
        apply (ih (entrynum + 1)).congr
        intro k
        constructor
        · rintro ⟨hle, hlt, hall, hrest⟩
          refine ⟨by omega, by omega, fun j hj hjk => ?_, hrest⟩
          rcases Nat.lt_or_eq_of_le hj with hlater | rfl
          · exact hall j hlater hjk
          · exact hgo
        · rintro ⟨hle, hlt, hall, hpresente, hcorta, hconc⟩
          have hne : k ≠ entrynum := by
            rintro rfl
            exact hother ⟨hpresente, hcorta, confronta_any.mpr hconc⟩
          exact ⟨by omega, by omega, fun j hj => hall j (by omega), hpresente, hcorta, hconc⟩

theorem fat12Findindir_terminata (dirImg : Nat → Byte) (nome : List Byte) (entries k : Nat) :
    fat12Findindir dirImg (nome ++ [0]) entries k = fat12Findindir dirImg nome entries k := by
  induction entries generalizing k with
  | zero => rfl
  | succ entries ih => simp only [fat12Findindir, confronta_terminata, ih]

/-- Without the live entries that are passed over or taken for another, or with the right entry
in front of them, `fat12_findindir` finds what is expected; otherwise it does not. -/
theorem fat12Findindir_iff (dirImg : Nat → Byte) (dirSize : BitVec 32) (nome : NomeFile)
    (dietro : List Byte) :
    Cercato dirImg (dirSize.toNat / 32) nome.caratteri
        (fat12Findindir dirImg (nome.caratteri ++ 0 :: dietro) (dirSize.toNat / 32) 0) ↔
      ∀ k, Viva dirImg (dirSize.toNat / 32) k →
        Mancata nome.caratteri (fatImgDir dirImg k) ∨ Confusa dirImg nome.caratteri dietro k →
        ∃ j < k, Viva dirImg (dirSize.toNat / 32) j ∧
          HaNome nome.caratteri (fatImgDir dirImg j) ∧
          ¬ Mancata nome.caratteri (fatImgDir dirImg j) := by
  obtain ⟨nome, hnul⟩ := nome
  generalize dirSize.toNat / 32 = entries
  have hfinds := (fat12Findindir_finds dirImg (nome ++ 0 :: dietro) entries 0).congr
    (q := fun k => Viva dirImg entries k ∧ Concorda dirImg (32 * k) (nome ++ 0 :: dietro))
    fun k => by
      rw [viva_iff]
      simp [and_assoc]
  have hmancata : ∀ k, Mancata nome (fatImgDir dirImg k) ↔ HaNome nome (fatImgDir dirImg k) ∧
      ¬ Concorda dirImg (32 * k) (nome ++ 0 :: dietro) :=
    mancata_iff_not_concorda hnul dietro
  rw [Cercato, hfinds.iff_preceded]
  constructor
  · intro h k hviva hwrong
    have hdiff : ¬ (Viva dirImg entries k ∧ HaNome nome (fatImgDir dirImg k) ↔
        Viva dirImg entries k ∧ Concorda dirImg (32 * k) (nome ++ 0 :: dietro)) := by
      intro hiff
      rcases hwrong with hm | ⟨hconc, haltra⟩
      · obtain ⟨hnome, hnot⟩ := (hmancata k).mp hm
        exact hnot (hiff.mp ⟨hviva, hnome⟩).2
      · exact haltra (hiff.mpr ⟨hviva, hconc⟩).2
    obtain ⟨j, hj, hp, hq⟩ := h k hdiff
    exact ⟨j, hj, hp.1, hp.2, fun hm => ((hmancata j).mp hm).2 hq.2⟩
  · intro h k hdiff
    have hviva : Viva dirImg entries k := by
      by_contra hnone
      exact hdiff (iff_of_false (fun hp => hnone hp.1) fun hq => hnone hq.1)
    have hwrong : Mancata nome (fatImgDir dirImg k) ∨ Confusa dirImg nome dietro k := by
      rw [hmancata]
      by_cases hnome : HaNome nome (fatImgDir dirImg k)
      · exact .inl ⟨hnome, fun hc => hdiff (iff_of_true ⟨hviva, hnome⟩ ⟨hviva, hc⟩)⟩
      · refine .inr ⟨?_, hnome⟩
        by_contra hc
        exact hdiff (iff_of_false (fun hp => hnome hp.2) fun hq => hc hq.2)
    obtain ⟨j, hj, hviva', hnome, hnot⟩ := h k hviva hwrong
    refine ⟨j, hj, ⟨hviva', hnome⟩, hviva', ?_⟩
    by_contra hc
    exact hnot ((hmancata j).mpr ⟨hnome, hc⟩)

/-- `FOO.TXT`. -/
def fooTxt : NomeFile where
  caratteri := ['F', 'O', 'O', '.', 'T', 'X', 'T'].map ascii
  senzaNul := by decide

/-- A directory that holds the file `FOO.TXT`, without attributes. -/
def dirFoo (a : Nat) : Byte :=
  (['F', 'O', 'O', ' ', ' ', ' ', ' ', ' ', 'T', 'X', 'T'].map ascii)[a]?.getD 0

/-- The file is not found: behind its extension stands no blank. -/
theorem dirFoo_missed : ¬ Cercato dirFoo ((512 : BitVec 32).toNat / 32) fooTxt.caratteri
    (fat12Findindir dirFoo (fooTxt.caratteri ++ [0]) ((512 : BitVec 32).toNat / 32) 0) := by
  have hnone : fat12Findindir dirFoo (fooTxt.caratteri ++ [0]) ((512 : BitVec 32).toNat / 32) 0 =
      none := by
    decide
  have hviva : Viva dirFoo ((512 : BitVec 32).toNat / 32) 0 :=
    { lt := by decide
      davanti := fun j hj => by
        obtain rfl := Nat.le_zero.mp hj
        decide
      presente := by decide
      corta := by decide }
  have hnome : HaNome fooTxt.caratteri (fatImgDir dirFoo 0) :=
    { base_le := by decide
      estensione_le := by decide
      unPunto := by decide
      name := by decide
      extension := by decide }
  rw [hnone]
  exact fun hnot => hnot 0 ⟨hviva, hnome⟩

end OsdevArchive.Cheapos.Fat12Open
