import OsdevArchive.Cheapos.Fat12Find
import OsdevArchive.Cheapos.Fat12Load
import OsdevArchive.Cheapos.Mem

/-!
How `fat12_open` of cheapos (`fs_fat12.c`) ends: with the memory of the session given back, with
a session, or not at all. An entry that is no directory is entered like one, and the length of a
directory that cannot be read is kept as an unsigned number, which only a further name of the
path shows to be too large.
-/

namespace OsdevArchive.Cheapos.Fat12Open

open Fat12Mount Kstring Mem OsdevArchive.Lib.Chained

/-- `sizeof(struct fat12_session_t)`. -/
def sessionSize : MemT := 131084

/-- How a call ends, with the tables of the memory; `ciclo` is a chain without an end. -/
inductive Esito where
  | ciclo
  | falso (mem : Tables)
  | vero (session : Session) (mem : Tables)

/-- `mem_free((mem_t)*session)` and `return FALSE`. -/
def rilascia (base : MemT) (mem : Tables) : Esito := .falso (mem.memFree base).2

/-- The entry that a string stands for in the directory; behind the string the memory goes on. -/
def Session.voce (s : Session) (memoria : List Byte) : Option FileEntry :=
  (fat12Findindir s.image memoria (s.size / 32) 0).map (fatImgDir s.image)

namespace Floppy

variable (f : Floppy)

/-- The branch for the last name of a path. -/
def mappa (base : MemT) (mem : Tables) (s : Session) (memoria : List Byte) : Esito :=
  match s.voce memoria with
  | none => rilascia base mem
  | some entry =>
    if entry.attributes &&& 0x10 ≠ 0 then rilascia base mem
    else if entry.fileLenght.toNat > fat12ImgSize then rilascia base mem
    else
      match f.fat12Loadfiledir entry.startCluster s.image with
      | none => .ciclo
      | some (size, image) =>
        if size < 0 then rilascia base mem
        else
          .vero { directory := false, cursore := 0, size := entry.fileLenght.toNat, image := image }
            mem

/-- A directory over the one that holds its entry. -/
def entra (s : Session) (entry : FileEntry) : Option Session :=
  (f.fat12Loadfiledir entry.startCluster s.image).map fun (size, image) =>
    { directory := true, cursore := 0, size := (size % 2 ^ 32).toNat, image := image }

/-- The loop of `fat12_open` with the name that is being gathered. What stands on the stack
behind a name may depend on how far the path has been read. -/
def cammina (base : MemT) (mem : Tables) (dietro : List Byte → List Byte) :
    Session → List Byte → List Byte → Esito
  | s, buffer, [] =>
      if buffer = [] then .vero s.mappaDir mem
      else f.mappa base mem s (buffer ++ 0 :: dietro [])
  | s, buffer, c :: nomefile =>
      if c = ascii '\\' then
        match s.voce (buffer ++ 0 :: dietro (c :: nomefile)) with
        | none => rilascia base mem
        | some entry =>
          -- `!Attributes & 0x10` is never true, and a length is never negative
          if s.size > fat12ImgSize then rilascia base mem
          else
            match f.entra s entry with
            | none => .ciclo
            | some s => cammina base mem dietro s [] nomefile
      else if buffer.length + 1 < 24 then cammina base mem dietro s (buffer ++ [c]) nomefile
      else rilascia base mem

end Floppy

/-- `fat12_open`, with what the memory of the session holds before. -/
def fat12OpenEsito (montato : Option Floppy) (dietro : List Byte → List Byte) (mem : Tables)
    (old : Nat → Byte) : List Byte → Esito
  | [] => .falso mem
  | c :: nomefile =>
    match montato with
    | none => .falso mem
    | some f =>
      if c ≠ ascii '\\' then .falso mem
      else
        let (base, mem) := mem.memAlloc sessionSize
        if base = 0 then .falso mem
        else
          match f.fat12Loadfiledir 0 old with
          | none => .ciclo
          | some (sectors, image) =>
            if sectors < 0 then rilascia base mem
            else
              let s :=
                { directory := true, cursore := 0, size := f.rootEntCnt * 32, image := image }
              f.cammina base mem dietro s [] nomefile

/-! ### What is expected -/

/-- The chain from a cluster on ends with an end mark. -/
inductive Floppy.Termina (f : Floppy) : Nat → Prop where
  | fine {c : Nat} : fat12IsEndMark c = true → Termina f c
  | segue {c : Nat} : fat12IsUserData c = true → Termina f (fat12Nextcluster f.volume c) →
      Termina f c

/-- What is read from a cluster on: the root directory, which is no chain, or a chain that ends
with an end mark. -/
def Floppy.Letta (f : Floppy) (startcluster : Nat) : Prop :=
  startcluster = 0 ∨ f.Termina startcluster

/-- Where the walk along a path is: in a directory, with a part of a name and with what is left
of the path. -/
structure Punto where
  s : Session
  buffer : List Byte
  nomefile : List Byte

/-- The walk along a path, with the entries that it passes through. -/
inductive Floppy.Cammino (f : Floppy) (dietro : List Byte → List Byte) :
    Punto → List FileEntry → Punto → Prop where
  | qui {p : Punto} : Cammino f dietro p [] p
  | carattere {s : Session} {buffer nomefile : List Byte} {c : Byte} {es : List FileEntry}
      {q : Punto} : c ≠ ascii '\\' → buffer.length + 1 < 24 →
      Cammino f dietro ⟨s, buffer ++ [c], nomefile⟩ es q →
      Cammino f dietro ⟨s, buffer, c :: nomefile⟩ es q
  | scende {s s' : Session} {buffer nomefile : List Byte} {e : FileEntry} {es : List FileEntry}
      {q : Punto} : s.voce (buffer ++ 0 :: dietro (ascii '\\' :: nomefile)) = some e →
      s.size ≤ fat12ImgSize → f.entra s e = some s' → Cammino f dietro ⟨s', [], nomefile⟩ es q →
      Cammino f dietro ⟨s, buffer, ascii '\\' :: nomefile⟩ (e :: es) q

/-- An entry that is neither a directory nor a volume label. -/
def FileEntry.Regolare (e : FileEntry) : Prop := ¬ e.Flag 0x10 ∧ ¬ e.Flag 0x08

namespace Floppy

variable (f : Floppy) (dietro : List Byte → List Byte)

/-- A file that may be opened. -/
structure Apribile (e : FileEntry) : Prop where
  regolare : e.Regolare
  corta : e.fileLenght.toNat ≤ fat12ImgSize
  letta : f.Letta e.startCluster

/-- The path leads through directories to a file or to a directory, and all that was read on the
way has an end. -/
def Lecita (p : Punto) : Prop :=
  ∃ es s buffer, f.Cammino dietro p es ⟨s, buffer, []⟩ ∧
    (∀ e ∈ es, e.Flag 0x10 ∧ f.Letta e.startCluster) ∧
    (buffer ≠ [] → ∃ e, s.voce (buffer ++ 0 :: dietro []) = some e ∧ f.Apribile e)

/-- The last name, if there is one, stands for something that is taken for a file. -/
def Arriva (s : Session) (buffer : List Byte) : Prop :=
  buffer ≠ [] → ∃ e, s.voce (buffer ++ 0 :: dietro []) = some e ∧ ¬ e.Flag 0x10 ∧
    e.fileLenght.toNat ≤ fat12ImgSize ∧ f.Letta e.startCluster

/-- The walk is refused: a name is too long or not there, the directory does not fit, or the last
name does not stand for a file that can be read. -/
inductive Fermo : Punto → Prop where
  | lungo {s : Session} {buffer nomefile : List Byte} {c : Byte} : c ≠ ascii '\\' →
      24 ≤ buffer.length + 1 → Fermo ⟨s, buffer, c :: nomefile⟩
  | manca {s : Session} {buffer nomefile : List Byte} :
      s.voce (buffer ++ 0 :: dietro (ascii '\\' :: nomefile)) = none →
      Fermo ⟨s, buffer, ascii '\\' :: nomefile⟩
  | grande {s : Session} {buffer nomefile : List Byte} : fat12ImgSize < s.size →
      Fermo ⟨s, buffer, ascii '\\' :: nomefile⟩
  | mancaFile {s : Session} {buffer : List Byte} : buffer ≠ [] →
      s.voce (buffer ++ 0 :: dietro []) = none → Fermo ⟨s, buffer, []⟩
  | file {s : Session} {buffer : List Byte} {e : FileEntry} : buffer ≠ [] →
      s.voce (buffer ++ 0 :: dietro []) = some e →
      (e.Flag 0x10 ∨ fat12ImgSize < e.fileLenght.toNat ∨
        (∃ clusters, f.Catena e.startCluster clusters) ∧ ¬ f.Letta e.startCluster) →
      Fermo ⟨s, buffer, []⟩

variable {f} {dietro} {image : Nat → Byte} {startcluster : Nat} {clusters : List Nat}

/-! ### Directories and files -/

/-- A chain without a cycle has fewer clusters than the table may have entries. -/
theorem Catena.length_lt (h : f.Catena startcluster clusters) : clusters.length < 4096 := by
  have hsub : clusters ⊆ List.range 0xFF7 := by
    intro c hc
    have hgo := not_not.mp (h.go hc)
    simp only [fat12IsUserData, Bool.and_eq_true, decide_eq_true_eq] at hgo
    exact List.mem_range.mpr hgo.2
  have hle := (h.nodup.subperm hsub).length_le
  rw [List.length_range] at hle
  omega

/-- The loop ends if the chain does. -/
theorem loadChain_isSome (h : f.Catena startcluster clusters) (i : Nat) (image : Nat → Byte) :
    ∃ t, f.loadChain 4096 startcluster i image = some t := by
  have hload : f.carica 4096 startcluster ⟨i, image, []⟩ = some _ := h.pursue h.length_lt _
  have heq : (f.carica 4096 startcluster ⟨i, image, []⟩).map (fun t => (t.i, t.image)) =
      (f.loadChain 4096 startcluster i image).map Prod.snd :=
    carica_loadChain _
  rw [hload] at heq
  cases ht : f.loadChain 4096 startcluster i image with
  | none =>
    rw [ht] at heq
    cases heq
  | some t => exact ⟨t, rfl⟩

theorem termina_userData (hgo : fat12IsUserData startcluster = true) :
    f.Termina startcluster ↔ f.Termina (fat12Nextcluster f.volume startcluster) := by
  constructor
  · intro h
    cases h with
    | fine hmark =>
      simp only [fat12IsUserData, fat12IsEndMark, Bool.and_eq_true, decide_eq_true_eq] at hgo hmark
      omega
    | segue _ hrest => exact hrest
  · exact .segue hgo

theorem termina_of_not_userData (hstop : ¬ fat12IsUserData startcluster = true) :
    f.Termina startcluster ↔ fat12IsEndMark startcluster = true := by
  constructor
  · intro h
    cases h with
    | fine hmark => exact hmark
    | segue hgo _ => exact absurd hgo hstop
  · exact .fine

/-- Where the loop ends, and whether with an end mark. -/
theorem loadChain_some {fuel i last j : Nat} {image' : Nat → Byte}
    (h : f.loadChain fuel startcluster i image = some (last, j, image')) :
    (∃ clusters, f.Catena startcluster clusters) ∧
      (fat12IsEndMark last = true ↔ f.Termina startcluster) := by
  induction fuel generalizing startcluster i image with
  | zero => cases h
  | succ fuel ih =>
    rw [loadChain] at h
    split at h
    · rename_i hgo
      obtain ⟨⟨clusters, hchain⟩, hlast⟩ := ih h
      exact ⟨⟨_, .cons (not_not.mpr hgo) hchain⟩, hlast.trans (termina_userData hgo).symm⟩
    · rename_i hstop
      cases h
      exact ⟨⟨[], .nil hstop⟩, (termina_of_not_userData hstop).symm⟩

theorem Letta.catena (h : f.Letta startcluster) : ∃ clusters, f.Catena startcluster clusters := by
  rcases h with rfl | h
  · exact ⟨[], .nil (by decide)⟩
  · induction h with
    | fine hmark =>
      refine ⟨[], .nil fun hgo => ?_⟩
      simp only [fat12IsUserData, fat12IsEndMark, Bool.and_eq_true, decide_eq_true_eq] at hgo hmark
      omega
    | segue hgo _ ih =>
      obtain ⟨clusters, hchain⟩ := ih
      exact ⟨_, .cons (not_not.mpr hgo) hchain⟩

/-- All that `fat12_loadfiledir` can do. -/
theorem loadfiledir_cases (f : Floppy) (startcluster : Nat) (image : Nat → Byte) :
    (f.fat12Loadfiledir startcluster image = none ∧ ∀ clusters, ¬ f.Catena startcluster clusters) ∨
      ∃ size image', f.fat12Loadfiledir startcluster image = some (size, image') ∧
        (0 ≤ size ∧ f.Letta startcluster ∨
          size = -1 ∧ (∃ clusters, f.Catena startcluster clusters) ∧ ¬ f.Letta startcluster) := by
  by_cases hroot : startcluster = 0
  · exact .inr ⟨_, _, if_pos hroot, .inl ⟨Int.natCast_nonneg _, .inl hroot⟩⟩
  · have hletta : f.Letta startcluster ↔ f.Termina startcluster := or_iff_right hroot
    rw [fat12Loadfiledir, if_neg hroot]
    cases hload : f.loadChain 4096 startcluster 0 image with
    | none =>
      refine .inl ⟨rfl, fun clusters hchain => ?_⟩
      obtain ⟨t, ht⟩ := loadChain_isSome hchain 0 image
      rw [hload] at ht
      cases ht
    | some t =>
      obtain ⟨last, i, image'⟩ := t
      obtain ⟨hchain, hmark⟩ := loadChain_some hload
      refine .inr ⟨_, _, rfl, ?_⟩
      by_cases hend : fat12IsEndMark last = true
      · rw [if_pos hend]
        exact .inl ⟨Int.natCast_nonneg _, hletta.mpr (hmark.mp hend)⟩
      · rw [if_neg hend]
        exact .inr ⟨rfl, hchain, fun h => hend (hmark.mpr (hletta.mp h))⟩

/-- A directory that a further name is looked up in has been read to its end. -/
theorem entra_letta {s s' : Session} {e : FileEntry} (h : f.entra s e = some s')
    (hsize : s'.size ≤ fat12ImgSize) : f.Letta e.startCluster := by
  rcases loadfiledir_cases f e.startCluster s.image with
    ⟨hload, -⟩ | ⟨size, image, hload, ⟨-, hletta⟩ | ⟨rfl, -, -⟩⟩
  · rw [entra, hload] at h
    cases h
  · exact hletta
  · rw [entra, hload] at h
    obtain rfl := Option.some.inj h
    have hbig : fat12ImgSize < ((-1 : Int) % 2 ^ 32).toNat := by decide
    exact absurd hsize (Nat.not_le.mpr hbig)

/-! ### The walk -/

variable {base : MemT} {mem : Tables} {p q : Punto} {es : List FileEntry} {s : Session}
  {buffer : List Byte}

/-- A directory that the walk goes on from fits. -/
theorem Cammino.size_le (h : f.Cammino dietro p es q) (hes : es ≠ []) :
    p.s.size ≤ fat12ImgSize := by
  induction h with
  | qui => exact absurd rfl hes
  | carattere _ _ _ ih => exact ih hes
  | scende _ hsize _ _ _ => exact hsize

/-- Each directory but the last has been read to its end. -/
theorem Cammino.letta (h : f.Cammino dietro p es q) :
    ∀ e ∈ es.dropLast, f.Letta e.startCluster := by
  induction h with
  | qui => exact fun e he => absurd he List.not_mem_nil
  | carattere _ _ _ ih => exact ih
  | @scende s s' buffer nomefile e es q _ _ hentra hrest ih =>
    by_cases hlast : es = []
    · rw [hlast]
      exact fun e he => absurd he List.not_mem_nil
    · rw [List.dropLast_cons_of_ne_nil hlast]
      refine List.forall_mem_cons.mpr ⟨?_, ih⟩
      exact entra_letta hentra (hrest.size_le hlast)

/-- A path leads one way. -/
theorem Cammino.unique {es' : List FileEntry} {s' : Session} {buffer' : List Byte}
    (h : f.Cammino dietro p es ⟨s, buffer, []⟩) (h' : f.Cammino dietro p es' ⟨s', buffer', []⟩) :
    es = es' ∧ s = s' ∧ buffer = buffer' := by
  generalize hq : Punto.mk s buffer [] = q at h
  induction h generalizing es' with
  | qui =>
    subst hq
    cases h'
    exact ⟨rfl, rfl, rfl⟩
  | carattere hc _ _ ih =>
    cases h' with
    | carattere _ _ hrest => exact ih hrest hq
    | scende => exact absurd rfl hc
  | scende hvoce _ hentra _ ih =>
    cases h' with
    | carattere hc => exact absurd rfl hc
    | scende hvoce' _ hentra' hrest =>
      rw [hvoce] at hvoce'
      cases hvoce'
      rw [hentra] at hentra'
      cases hentra'
      obtain ⟨rfl, hsame⟩ := ih hrest hq
      exact ⟨rfl, hsame⟩

/-- What the call comes to is decided where the walk leads to. -/
theorem cammina_eq (base : MemT) (mem : Tables) (h : f.Cammino dietro p es q) :
    f.cammina base mem dietro p.s p.buffer p.nomefile =
      f.cammina base mem dietro q.s q.buffer q.nomefile := by
  induction h with
  | qui => rfl
  | carattere hc hlength _ ih => rw [cammina, if_neg hc, if_pos hlength, ih]
  | scende hvoce hsize hentra _ ih =>
    rw [cammina, if_pos rfl, hvoce]
    simp only [hentra, if_neg (Nat.not_lt.mpr hsize)]
    exact ih

/-- What is done with the last name when it stands for a file that is not too large. -/
theorem mappa_eq {e : FileEntry} {memoria : List Byte} (base : MemT) (mem : Tables)
    (hvoce : s.voce memoria = some e) (hfile : ¬ e.Flag 0x10)
    (hlength : ¬ fat12ImgSize < e.fileLenght.toNat) :
    f.mappa base mem s memoria =
      match f.fat12Loadfiledir e.startCluster s.image with
      | none => .ciclo
      | some (size, image) =>
        if size < 0 then rilascia base mem
        else .vero { directory := false, cursore := 0, size := e.fileLenght.toNat, image := image }
          mem := by
  rw [mappa, hvoce]
  exact (if_neg hfile).trans (if_neg hlength)

theorem cammina_fermo (base : MemT) (mem : Tables) (h : f.Fermo dietro q) :
    f.cammina base mem dietro q.s q.buffer q.nomefile = rilascia base mem := by
  cases h with
  | lungo hc hlength => rw [cammina, if_neg hc, if_neg (Nat.not_lt.mpr hlength)]
  | manca hvoce => rw [cammina, if_pos rfl, hvoce]
  | @grande s buffer nomefile hsize =>
    rw [cammina, if_pos rfl]
    cases s.voce (buffer ++ 0 :: dietro (ascii '\\' :: nomefile)) with
    | none => rfl
    | some e => exact if_pos hsize
  | mancaFile hbuffer hvoce => rw [cammina, if_neg hbuffer, mappa, hvoce]
  | @file s buffer e hbuffer hvoce hrefused =>
    rw [cammina, if_neg hbuffer]
    by_cases hfile : e.Flag 0x10
    · rw [mappa, hvoce]
      exact if_pos hfile
    by_cases hlength : fat12ImgSize < e.fileLenght.toNat
    · rw [mappa, hvoce]
      exact (if_neg hfile).trans (if_pos hlength)
    obtain ⟨⟨clusters, hchain⟩, hnot⟩ := (hrefused.resolve_left hfile).resolve_left hlength
    rw [mappa_eq base mem hvoce hfile hlength]
    rcases loadfiledir_cases f e.startCluster s.image with
      ⟨-, hnone⟩ | ⟨size, image, hload, ⟨-, hletta⟩ | ⟨rfl, -, -⟩⟩
    · exact absurd hchain (hnone clusters)
    · exact absurd hletta hnot
    · rw [hload]
      rfl

theorem cammina_arriva (base : MemT) (mem : Tables) (h : f.Arriva dietro s buffer) :
    ∃ t, f.cammina base mem dietro s buffer [] = .vero t mem := by
  rw [cammina]
  split
  · exact ⟨_, rfl⟩
  · rename_i hbuffer
    obtain ⟨e, hvoce, hfile, hlength, hletta⟩ := h hbuffer
    obtain ⟨clusters, hchain⟩ := hletta.catena
    rw [mappa_eq base mem hvoce hfile (Nat.not_lt.mpr hlength)]
    rcases loadfiledir_cases f e.startCluster s.image with
      ⟨-, hnone⟩ | ⟨size, image, hload, ⟨hsize, -⟩ | ⟨-, -, hnot⟩⟩
    · exact absurd hchain (hnone clusters)
    · rw [hload]
      exact ⟨_, if_neg (Int.not_lt.mpr hsize)⟩
    · exact absurd hletta hnot

/-- At the end of the path. -/
theorem cammina_nil_cases (f : Floppy) (dietro : List Byte → List Byte) (base : MemT)
    (mem : Tables) (s : Session) (buffer : List Byte) :
    f.Arriva dietro s buffer ∨ f.Fermo dietro ⟨s, buffer, []⟩ ∨
      f.cammina base mem dietro s buffer [] = .ciclo := by
  by_cases hbuffer : buffer = []
  · exact .inl fun hne => absurd hbuffer hne
  cases hvoce : s.voce (buffer ++ 0 :: dietro []) with
  | none => exact .inr (.inl (.mancaFile hbuffer hvoce))
  | some e =>
    by_cases hrefused : e.Flag 0x10 ∨ fat12ImgSize < e.fileLenght.toNat ∨
        (∃ clusters, f.Catena e.startCluster clusters) ∧ ¬ f.Letta e.startCluster
    · exact .inr (.inl (.file hbuffer hvoce hrefused))
    obtain ⟨hfile, hlength, hread⟩ : ¬ e.Flag 0x10 ∧ ¬ fat12ImgSize < e.fileLenght.toNat ∧
        ¬ ((∃ clusters, f.Catena e.startCluster clusters) ∧ ¬ f.Letta e.startCluster) := by
      rwa [not_or, not_or] at hrefused
    rcases loadfiledir_cases f e.startCluster s.image with
      ⟨hload, -⟩ | ⟨size, image, -, ⟨-, hletta⟩ | ⟨-, hbad⟩⟩
    · refine .inr (.inr ?_)
      rw [cammina, if_neg hbuffer, mappa_eq base mem hvoce hfile hlength, hload]
    · exact .inl fun _ => ⟨e, hvoce, hfile, Nat.not_lt.mp hlength, hletta⟩
    · exact absurd hbad hread

/-- The walk arrives, is refused, or follows a chain that has no end. -/
theorem cammina_cases (f : Floppy) (dietro : List Byte → List Byte) (base : MemT) (mem : Tables)
    (p : Punto) :
    (∃ es s buffer, f.Cammino dietro p es ⟨s, buffer, []⟩ ∧ f.Arriva dietro s buffer) ∨
      (∃ es q, f.Cammino dietro p es q ∧ f.Fermo dietro q) ∨
      f.cammina base mem dietro p.s p.buffer p.nomefile = .ciclo := by
  obtain ⟨s, buffer, nomefile⟩ := p
  induction nomefile generalizing s buffer with
  | nil =>
    rcases cammina_nil_cases f dietro base mem s buffer with harrive | hstop | hcycle
    · exact .inl ⟨[], s, buffer, .qui, harrive⟩
    · exact .inr (.inl ⟨[], _, .qui, hstop⟩)
    · exact .inr (.inr hcycle)
  | cons c nomefile ih =>
    by_cases hc : c = ascii '\\'
    · subst hc
      cases hvoce : s.voce (buffer ++ 0 :: dietro (ascii '\\' :: nomefile)) with
      | none => exact .inr (.inl ⟨[], _, .qui, .manca hvoce⟩)
      | some e =>
        by_cases hsize : fat12ImgSize < s.size
        · exact .inr (.inl ⟨[], _, .qui, .grande hsize⟩)
        cases hentra : f.entra s e with
        | none =>
          refine .inr (.inr ?_)
          rw [cammina, if_pos rfl, hvoce]
          simp only [hentra, if_neg hsize]
        | some s' =>
          have hstep : ∀ {es q}, f.Cammino dietro ⟨s', [], nomefile⟩ es q →
              f.Cammino dietro ⟨s, buffer, ascii '\\' :: nomefile⟩ (e :: es) q :=
            .scende hvoce (Nat.not_lt.mp hsize) hentra
          rcases ih s' [] with ⟨es, t, b, hwalk, harrive⟩ | ⟨es, q, hwalk, hstop⟩ | hcycle
          · exact .inl ⟨_, t, b, hstep hwalk, harrive⟩
          · exact .inr (.inl ⟨_, q, hstep hwalk, hstop⟩)
          · exact .inr (.inr ((cammina_eq base mem (hstep .qui)).trans hcycle))
    · by_cases hlength : buffer.length + 1 < 24
      · have hstep : ∀ {es q}, f.Cammino dietro ⟨s, buffer ++ [c], nomefile⟩ es q →
            f.Cammino dietro ⟨s, buffer, c :: nomefile⟩ es q :=
          .carattere hc hlength
        rcases ih s (buffer ++ [c]) with ⟨es, t, b, hwalk, harrive⟩ | ⟨es, q, hwalk, hstop⟩ | hcycle
        · exact .inl ⟨_, t, b, hstep hwalk, harrive⟩
        · exact .inr (.inl ⟨_, q, hstep hwalk, hstop⟩)
        · exact .inr (.inr ((cammina_eq base mem (hstep .qui)).trans hcycle))
      · exact .inr (.inl ⟨[], _, .qui, .lungo hc (Nat.not_lt.mp hlength)⟩)

/-- Where the walk arrives, the path is what it is to be exactly if all that it entered are
directories, the last of them has been read to its end, and the file is no volume label. -/
theorem lecita_iff (hwalk : f.Cammino dietro p es ⟨s, buffer, []⟩)
    (harrive : f.Arriva dietro s buffer) :
    f.Lecita dietro p ↔ (∀ e ∈ es, e.Flag 0x10) ∧ (∀ e ∈ es.getLast?, f.Letta e.startCluster) ∧
      (buffer ≠ [] → ∀ e, s.voce (buffer ++ 0 :: dietro []) = some e → ¬ e.Flag 0x08) := by
  constructor
  · rintro ⟨es', s', buffer', hwalk', hall, hfile⟩
    obtain ⟨rfl, rfl, rfl⟩ := hwalk.unique hwalk'
    refine ⟨fun e he => (hall e he).1, fun e he => (hall e (List.mem_of_getLast? he)).2, ?_⟩
    intro hbuffer e hvoce
    obtain ⟨e', hvoce', hok⟩ := hfile hbuffer
    rw [hvoce] at hvoce'
    cases hvoce'
    exact hok.regolare.2
  · rintro ⟨hdir, hlast, hlabel⟩
    refine ⟨es, s, buffer, hwalk, fun e he => ⟨hdir e he, ?_⟩, fun hbuffer => ?_⟩
    · by_cases hend : some e = es.getLast?
      · exact hlast e hend.symm
      · exact hwalk.letta e (List.mem_dropLast_of_mem_of_ne_getLast? he hend)
    · obtain ⟨e, hvoce, hfile, hlength, hletta⟩ := harrive hbuffer
      exact ⟨e, hvoce, ⟨hfile, hlabel hbuffer e hvoce⟩, hlength, hletta⟩

end Floppy

/-! ### The memory of the session -/

/-- No region is in use that was not in use before. -/
def Resa (prima dopo : Tables) : Prop := ∀ j, (dopo.used j).flag = true → dopo.used j = prima.used j

/-- `mem_free` takes back what `mem_alloc` has given: there is room in the table of free regions,
and the first region in use at that address is the new one. -/
def Restituibile (prima mem : Tables) (base : MemT) : Prop :=
  (∃ i, (mem.free i).flag = false) ∧
    ∀ j, cerca (fun j => (mem.used j).flag && (mem.used j).base == base) = some j →
      (prima.used j).flag = false

section memory

variable {prima mem : Tables} {base : MemT} {i : Fin memFreeSize} {j : Fin memUsedSize} {n : MemT}

theorem take_used_self : (prima.take i j n).used j =
    { base := (prima.free i).base, size := n, flag := true } :=
  Function.update_self ..

theorem take_used_ne {k : Fin memUsedSize} (hk : k ≠ j) :
    (prima.take i j n).used k = prima.used k :=
  Function.update_of_ne hk ..

theorem not_resa (hj : (prima.used j).flag = false) (hin : (mem.used j).flag = true) :
    ¬ Resa prima mem := by
  intro h
  rw [h j hin, hj] at hin
  cases hin

/-- Of the regions in use, the one that is taken back is to be the new one. -/
theorem resa_give_iff {k : Fin memUsedSize} (i' : Fin memFreeSize)
    (hj : (prima.used j).flag = false) (hk : ((prima.take i j n).used k).flag = true) :
    Resa prima ((prima.take i j n).give k i') ↔ (prima.used k).flag = false := by
  have hsame : ∀ m, m ≠ k → ((prima.take i j n).give k i').used m = (prima.take i j n).used m :=
    fun m hm => Function.update_of_ne hm ..
  constructor
  · intro h
    by_contra hin
    have hne : j ≠ k := by
      rintro rfl
      exact hin hj
    refine not_resa hj ?_ h
    rw [hsame j hne, take_used_self]
  · intro hout m hm
    have hkj : k = j := by
      by_contra hne
      rw [take_used_ne hne, hout] at hk
      cases hk
    subst hkj
    have hne : m ≠ k := by
      rintro rfl
      simp only [Tables.give, Function.update_self, Bool.false_eq_true] at hm
    rw [hsame m hne]
    exact take_used_ne hne

/-- After a block has been given, `mem_free` leaves the memory as it was exactly if the block can
be taken back. -/
theorem resa_memFree_iff (hj : (prima.used j).flag = false) :
    Resa prima ((prima.take i j n).memFree (prima.free i).base).2 ↔
      Restituibile prima (prima.take i j n) (prima.free i).base := by
  have hnew : ((prima.take i j n).used j).flag = true := by rw [take_used_self]
  have hfound : ((prima.take i j n).used j).base = (prima.free i).base := by rw [take_used_self]
  rw [Restituibile, Tables.memFree]
  cases hk : cerca fun k =>
      ((prima.take i j n).used k).flag &&
        ((prima.take i j n).used k).base == (prima.free i).base with
  | none =>
    have hnone := cerca_none hk j
    simp [hnew, hfound] at hnone
  | some k =>
    have hused := cerca_some hk
    rw [Bool.and_eq_true] at hused
    have hfirst : (∀ m, some k = some m → (prima.used m).flag = false) ↔
        (prima.used k).flag = false :=
      ⟨fun h => h k rfl, by rintro h _ ⟨⟩; exact h⟩
    rw [hfirst]
    simp only
    cases hi : cerca fun i' => !((prima.take i j n).free i').flag with
    | none =>
      apply iff_of_false (not_resa hj hnew)
      rintro ⟨⟨i', hfree⟩, -⟩
      have hfull := cerca_none hi i'
      rw [hfree] at hfull
      cases hfull
    | some i' =>
      have hfree : ∃ i', ((prima.take i j n).free i').flag = false :=
        ⟨i', Bool.not_eq_true' _ ▸ cerca_some hi⟩
      rw [and_iff_right hfree]
      exact resa_give_iff i' hj hused.1

end memory

/-! ### The call -/

/-- Where the walk along a path begins. -/
def Floppy.partenza (f : Floppy) (old : Nat → Byte) (nomefile : List Byte) : Punto where
  s :=
    { directory := true
      cursore := 0
      size := f.rootEntCnt * 32
      image := f.floppyRead f.volume.rootdirStartcluster.toNat (f.rootEntCnt * 32 / 512) 0 old }
  buffer := []
  nomefile := nomefile

/-- What is expected of a call. -/
def Esito.Corretto (montato : Option Floppy) (dietro : List Byte → List Byte) (mem : Tables)
    (old : Nat → Byte) (path : List Byte) : Esito → Prop
  | .ciclo => True
  | .falso mem' => Resa mem mem'
  | .vero _ _ => ∃ f nomefile, montato = some f ∧ path = ascii '\\' :: nomefile ∧
      f.Lecita dietro (f.partenza old nomefile)

/-- Where the walk arrives, nothing was taken for a directory, or for a file, that is none, and
where it is refused, the block can be taken back. -/
structure Floppy.Sicuro (f : Floppy) (dietro : List Byte → List Byte) (prima mem : Tables)
    (base : MemT) (p : Punto) : Prop where
  arriva : ∀ es s buffer, f.Cammino dietro p es ⟨s, buffer, []⟩ → f.Arriva dietro s buffer →
    (∀ e ∈ es, e.Flag 0x10) ∧ (∀ e ∈ es.getLast?, f.Letta e.startCluster) ∧
      (buffer ≠ [] → ∀ e, s.voce (buffer ++ 0 :: dietro []) = some e → ¬ e.Flag 0x08)
  fermo : ∀ es q, f.Cammino dietro p es q → f.Fermo dietro q → Restituibile prima mem base

variable {f : Floppy} {dietro : List Byte → List Byte} {p : Punto}

theorem fat12OpenEsito_cons (f : Floppy) (dietro : List Byte → List Byte) (mem : Tables)
    (old : Nat → Byte) (nomefile : List Byte) :
    fat12OpenEsito (some f) dietro mem old (ascii '\\' :: nomefile) =
      if (mem.memAlloc sessionSize).1 = 0 then .falso (mem.memAlloc sessionSize).2
      else f.cammina (mem.memAlloc sessionSize).1 (mem.memAlloc sessionSize).2 dietro
        (f.partenza old nomefile).s [] nomefile :=
  rfl

theorem Floppy.cammina_eq_vero {es : List FileEntry} {s : Session} {buffer : List Byte}
    (base : MemT) (mem : Tables) (hwalk : f.Cammino dietro p es ⟨s, buffer, []⟩)
    (harrive : f.Arriva dietro s buffer) :
    ∃ t, f.cammina base mem dietro p.s p.buffer p.nomefile = .vero t mem := by
  rw [cammina_eq base mem hwalk]
  exact cammina_arriva base mem harrive

theorem Floppy.cammina_eq_rilascia {es : List FileEntry} {q : Punto} (base : MemT) (mem : Tables)
    (hwalk : f.Cammino dietro p es q) (hstop : f.Fermo dietro q) :
    f.cammina base mem dietro p.s p.buffer p.nomefile = rilascia base mem := by
  rw [cammina_eq base mem hwalk]
  exact cammina_fermo base mem hstop

/-- From the root directory on, in memory that has been given. -/
theorem Floppy.cammina_corretto_iff {prima : Tables} {i : Fin memFreeSize} {j : Fin memUsedSize}
    {n : MemT} (old : Nat → Byte) (nomefile : List Byte) (hj : (prima.used j).flag = false)
    (hp : f.partenza old nomefile = p) :
    (f.cammina (prima.free i).base (prima.take i j n) dietro p.s p.buffer p.nomefile).Corretto
        (some f) dietro prima old (ascii '\\' :: nomefile) ↔
      f.Sicuro dietro prima (prima.take i j n) (prima.free i).base p := by
  have hvero := fun {es s buffer} (hwalk : f.Cammino dietro p es ⟨s, buffer, []⟩) =>
    f.cammina_eq_vero (prima.free i).base (prima.take i j n) hwalk
  have hfalso := fun {es q} (hwalk : f.Cammino dietro p es q) =>
    f.cammina_eq_rilascia (prima.free i).base (prima.take i j n) hwalk
  rcases f.cammina_cases dietro (prima.free i).base (prima.take i j n) p with
    ⟨es, s, buffer, hwalk, harrive⟩ | ⟨es, q, hwalk, hstop⟩ | hcycle
  · obtain ⟨t, ht⟩ := hvero hwalk harrive
    have hlecita : (f.cammina (prima.free i).base (prima.take i j n) dietro p.s p.buffer
        p.nomefile).Corretto (some f) dietro prima old (ascii '\\' :: nomefile) ↔
          f.Lecita dietro p := by
      rw [ht, ← hp]
      constructor
      · rintro ⟨_, _, ⟨⟩, ⟨⟩, h⟩
        exact h
      · exact fun h => ⟨f, nomefile, rfl, rfl, h⟩
    rw [hlecita, lecita_iff hwalk harrive]
    constructor
    · intro h
      refine ⟨fun es' s' buffer' hwalk' _ => ?_, fun es' q hwalk' hstop => ?_⟩
      · obtain ⟨rfl, rfl, rfl⟩ := hwalk.unique hwalk'
        exact h
      · rw [hfalso hwalk' hstop] at ht
        cases ht
    · exact fun h => h.arriva es s buffer hwalk harrive
  · have hout := hfalso hwalk hstop
    rw [hout]
    refine (resa_memFree_iff hj).trans
      ⟨fun h => ⟨fun es' s buffer hwalk' harrive => ?_, fun _ _ _ _ => h⟩,
        fun h => h.fermo es q hwalk hstop⟩
    obtain ⟨t, ht⟩ := hvero hwalk' harrive
    rw [hout] at ht
    cases ht
  · rw [hcycle]
    refine iff_of_true trivial ⟨fun es s buffer hwalk harrive => ?_, fun es q hwalk hstop => ?_⟩
    · obtain ⟨t, ht⟩ := hvero hwalk harrive
      rw [hcycle] at ht
      cases ht
    · have hout := hfalso hwalk hstop
      rw [hcycle] at hout
      cases hout

/-- `fat12_open` does what is expected exactly if it is not given a block at address 0 and, where
it is given another one, the walk is safe. -/
theorem fat12OpenEsito_corretto_iff (montato : Option Floppy) (dietro : List Byte → List Byte)
    (mem : Tables) (old : Nat → Byte) (path : List Byte) :
    (fat12OpenEsito montato dietro mem old path).Corretto montato dietro mem old path ↔
      ∀ f nomefile, montato = some f → path = ascii '\\' :: nomefile →
        ∀ base mem', mem.memAlloc sessionSize = (base, mem') →
          if base = 0 then mem' = mem
          else f.Sicuro dietro mem mem' base (f.partenza old nomefile) := by
  have hnothing : Resa mem mem := fun _ _ => rfl
  cases path with
  | nil => exact iff_of_true hnothing fun _ _ _ h => absurd h (List.cons_ne_nil _ _).symm
  | cons c nomefile =>
    cases montato with
    | none => exact iff_of_true hnothing fun _ _ h => absurd h (Option.some_ne_none _).symm
    | some f =>
      by_cases hc : c = ascii '\\'
      · subst hc
        have hcond : (∀ f' nomefile', some f = some f' →
            ascii '\\' :: nomefile = ascii '\\' :: nomefile' → ∀ base mem',
            mem.memAlloc sessionSize = (base, mem') →
              if base = 0 then mem' = mem
              else f'.Sicuro dietro mem mem' base (f'.partenza old nomefile')) ↔
            if (mem.memAlloc sessionSize).1 = 0 then (mem.memAlloc sessionSize).2 = mem
            else f.Sicuro dietro mem (mem.memAlloc sessionSize).2 (mem.memAlloc sessionSize).1
              (f.partenza old nomefile) := by
          constructor
          · exact fun h => h f nomefile rfl rfl _ _ rfl
          · rintro h _ _ ⟨⟩ ⟨⟩ _ _ halloc
            rwa [halloc] at h
        rw [hcond, fat12OpenEsito_cons]
        rcases memAlloc_cases mem sessionSize with hrefused | ⟨i, j, -, -, hj, halloc⟩
        · rw [hrefused, if_pos rfl, if_pos rfl]
          exact iff_of_true hnothing rfl
        · rw [halloc]
          split
          · have hin : ((mem.take i j (padding sessionSize)).used j).flag = true := by
              rw [take_used_self]
            refine iff_of_false (not_resa hj hin) ?_
            intro (hsame : mem.take i j (padding sessionSize) = mem)
            rw [hsame, hj] at hin
            cases hin
          · exact f.cammina_corretto_iff old nomefile hj rfl
      · rw [fat12OpenEsito]
        simp only [ne_eq, hc, not_false_eq_true, if_true]
        exact iff_of_true hnothing fun _ _ _ h => absurd (List.cons.inj h).1 hc

/-- A volume with one file, `A`, which is empty. -/
def fileA : Floppy where
  volume :=
    { fatImg := fun _ => 0, fatSize := 3074, rootdirStartcluster := 19, datiStartcluster := 18 }
  rootEntCnt := 16
  disk a :=
    if a = 512 * 19 then ascii 'A'
    else if a < 512 * 19 + 11 then ascii ' '
    else if a = 512 * 19 + 11 then 0x20
    else 0

/-- `\A\` is opened, although `A` is a file. -/
theorem fileA_opened :
    ¬ (fat12OpenEsito (some fileA) (fun _ => []) (memInit 16) (fun _ => 0)
        (['\\', 'A', '\\'].map ascii)).Corretto (some fileA) (fun _ => []) (memInit 16) (fun _ => 0)
          (['\\', 'A', '\\'].map ascii) := by
  let s := (fileA.partenza (fun _ => 0) (['A', '\\'].map ascii)).s
  have hfind : fat12Findindir s.image (['A'].map ascii ++ [0]) (s.size / 32) 0 = some 0 := by decide
  have hvoce : s.voce (['A'].map ascii ++ [0]) = some (fatImgDir s.image 0) := by
    rw [Session.voce, hfind]
    rfl
  obtain ⟨s', hentra⟩ : ∃ s', fileA.entra s (fatImgDir s.image 0) = some s' := ⟨_, rfl⟩
  have hwalk : fileA.Cammino (fun _ => []) (fileA.partenza (fun _ => 0) (['A', '\\'].map ascii))
      [fatImgDir s.image 0] ⟨s', [], []⟩ :=
    .carattere (by decide) (by decide) (.scende hvoce (by decide) hentra .qui)
  have harrive : fileA.Arriva (fun _ => []) s' [] := fun h => absurd rfl h
  have hbase : ((memInit 16).memAlloc sessionSize).1 ≠ 0 := by decide +kernel
  obtain ⟨t, ht⟩ := fileA.cammina_eq_vero ((memInit 16).memAlloc sessionSize).1
    ((memInit 16).memAlloc sessionSize).2 hwalk harrive
  have hcall : fat12OpenEsito (some fileA) (fun _ => []) (memInit 16) (fun _ => 0)
      (['\\', 'A', '\\'].map ascii) = .vero t ((memInit 16).memAlloc sessionSize).2 := by
    rw [List.map_cons, fat12OpenEsito_cons, if_neg hbase]
    exact ht
  rw [hcall]
  rintro ⟨f, nomefile, ⟨⟩, ⟨⟩, h⟩
  have hdir := ((Floppy.lecita_iff hwalk harrive).mp h).1 _ List.mem_cons_self
  revert hdir
  decide

/-! ### Without the memory -/

/-- The session of a call that returns TRUE. -/
def Esito.sessione : Esito → Option Session
  | .vero session _ => some session
  | _ => none

theorem voce_terminata (s : Session) (buffer : List Byte) :
    s.voce (buffer ++ [0]) =
      (fat12Findindir s.image buffer (s.size / 32) 0).map (fatImgDir s.image) := by
  rw [Session.voce, fat12Findindir_terminata]

theorem Floppy.mappa_sessione (f : Floppy) (base : MemT) (mem : Tables) (s : Session)
    (buffer : List Byte) :
    (f.mappa base mem s (buffer ++ [0])).sessione = f.mappaFile s buffer := by
  rw [mappa, mappaFile, voce_terminata]
  cases fat12Findindir s.image buffer (s.size / 32) 0 with
  | none => rfl
  | some opt =>
    simp only [Option.map_some, Option.bind_eq_bind, Option.bind_some]
    split
    · rfl
    · split
      · rfl
      · cases f.fat12Loadfiledir (fatImgDir s.image opt).startCluster s.image with
        | none => rfl
        | some r =>
          simp only [Option.bind_some]
          split <;> rfl

/-- With zeros on the stack, a walk is the one along the tokens of the path. -/
theorem Floppy.cammina_sessione (f : Floppy) (base : MemT) (mem : Tables) (s : Session)
    (buffer nomefile : List Byte) :
    (f.cammina base mem (fun _ => []) s buffer nomefile).sessione =
      (f.segui s buffer nomefile).bind fun r =>
        if r.2 = [] then some r.1.mappaDir else f.mappaFile r.1 r.2 := by
  induction nomefile generalizing s buffer with
  | nil =>
    rw [cammina, segui]
    simp only [Option.bind_some]
    split
    · rfl
    · exact f.mappa_sessione base mem s buffer
  | cons c nomefile ih =>
    rw [cammina, segui]
    split
    · rw [voce_terminata, scendi]
      cases fat12Findindir s.image buffer (s.size / 32) 0 with
      | none => rfl
      | some opt =>
        simp only [Option.map_some, Option.bind_eq_bind, Option.bind_some, entra]
        split
        · rfl
        · cases f.fat12Loadfiledir (fatImgDir s.image opt).startCluster s.image with
          | none => rfl
          | some r => exact ih _ _
    · split
      · exact ih s (buffer ++ [c])
      · rfl

/-- The session is the one of `fat12Open`. -/
theorem fat12OpenEsito_sessione (montato : Option Floppy) (mem : Tables) (old : Nat → Byte)
    (path : List Byte) :
    (fat12OpenEsito montato (fun _ => []) mem old path).sessione =
      fat12Open montato (decide ((mem.memAlloc sessionSize).1 ≠ 0)) old path := by
  cases path with
  | nil => rfl
  | cons c nomefile =>
    cases montato with
    | none => rfl
    | some f =>
      rw [fat12Open]
      by_cases hc : c = ascii '\\'
      · subst hc
        rw [fat12OpenEsito_cons]
        by_cases hbase : (mem.memAlloc sessionSize).1 = 0
        · rw [if_pos hbase, decide_eq_false (not_not.mpr hbase)]
          rfl
        · rw [if_neg hbase, decide_eq_true hbase, f.cammina_sessione]
          rfl
      · rw [fat12OpenEsito]
        simp [hc, Esito.sessione]

end OsdevArchive.Cheapos.Fat12Open
