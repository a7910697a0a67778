import OsdevArchive.Cheapos.MemMove
import OsdevArchive.Lib.Cursor

/-!
Sessions of cheapos with a cursor: those of FAT12 volumes (`fs_fat12.c`) and those of the files
of the kernel (`fs_kernel.c`). The numbers are words of 32 bits. A session, the buffer of a
`read` and three bytes behind it are separate objects; a `read` that gives `mem_copy` a negative
number has 2 GB and more overwritten, and nothing is said about what is left.
-/

namespace OsdevArchive.Cheapos.Sessions

open OsdevArchive.Lib.Cursor OsdevArchive.Lib.Runs MemCopy

/-- An `int` or `unsigned int`. -/
abbrev Word := BitVec 32

/-- `fat12_session_t`. -/
structure Fat12Session where
  directory : Word
  size : Word
  cursore : Word
  image : Int → BitVec 8

/-- `kernelfs_session_t`. -/
structure KernelfsSession where
  cursore : Word
  size : Word
  image : Int → BitVec 8

abbrev Esito (σ : Type) := Result σ (BitVec 8)

abbrev Chiamata := Call Word Word (BitVec 8)

/-- Where a seek is to go: from the cursor on, from the start, or back from the end. -/
def posizione (v : View (BitVec 8)) (modo : Word) (puntatore : Int) : Int :=
  if modo = 0 then v.cursor + puntatore
  else if modo = 1 then puntatore
  else v.size - 1 - puntatore

/-- `newcursore` of both drivers, or `puntatore` itself. -/
def newcursore (cursore size modo puntatore : Word) : Word :=
  if modo = 0 then cursore + puntatore
  else if modo = 1 then puntatore
  else size - 1 - puntatore

namespace Fat12Session

variable (s : Fat12Session)

/-- `newcursore>=0 && newcursore<FATFSSESSION->size`; the size is unsigned. -/
def Dentro (newcursore : Word) : Prop := 0 ≤ newcursore.toInt ∧ newcursore < s.size

instance (newcursore : Word) : Decidable (s.Dentro newcursore) :=
  inferInstanceAs (Decidable (_ ∧ _))

/-- `KFSSESSION->cursore = ...`, which is the first word of a `kernelfs_session_t`. -/
def kfsCursore (cursore : Word) : Fat12Session := { s with directory := cursore }

/-- `fat12_seek`. -/
def fat12Seek (modo puntatore : Word) : Word × Fat12Session :=
  let s :=
    if modo = 0 then
      if s.Dentro (s.cursore + puntatore) then s.kfsCursore (s.directory + puntatore) else s
    else if modo = 1 then
      if s.Dentro puntatore then s.kfsCursore puntatore else s
    else if modo = 2 then
      if s.Dentro (s.size - 1 - puntatore) then s.kfsCursore (s.size - 1 - puntatore) else s
    else s
  (s.cursore, s)

/-- `fat12_read`. -/
def fat12Read (caratteri : Word) (buffer : Int → BitVec 8) : Option (Esito Fat12Session) :=
  let cardacopiare := if s.cursore + caratteri < s.size then caratteri else s.size - s.cursore
  if cardacopiare.toInt < 0 then none
  else some
    { value := cardacopiare.toInt
      session := { s with cursore := s.cursore + cardacopiare }
      buffer := memCopy (fun _ => s.image) s.cursore.toNat buffer 0 cardacopiare.toNat }

def vista : View (BitVec 8) where
  size := s.size.toNat
  cursor := s.cursore.toNat
  content := s.image

/-- The seeks that are not rejected. -/
def Accetta (modo puntatore : Word) : Prop :=
  modo.toNat < 3 ∧ s.Dentro (newcursore s.cursore s.size modo puntatore)

/-- A seek is rejected or asks for the position at which the cursor is. A read is of no
negative count that leads beyond the addresses of the image; or it is of a negative one that
is taken for a number beyond the end. -/
def Riesce : Chiamata → Prop
  | .seek modo puntatore =>
      s.Accetta modo puntatore → posizione s.vista modo puntatore.toInt = s.cursore.toNat
  | .read caratteri _ =>
      (0 ≤ caratteri.toInt ∧ s.cursore.toNat + caratteri.toInt < 2 ^ 32) ∨
        (caratteri.toInt < 0 ∧ s.cursore.toNat + caratteri.toInt < 0 ∧
          s.size.toNat ≤ s.cursore.toNat + caratteri.toInt + 2 ^ 32 ∧
          s.size.toNat < s.cursore.toNat + 2 ^ 31)

end Fat12Session

/-- The driver of `fs_fat12.c`. -/
def fat12 : Driver Fat12Session Word Word (BitVec 8) where
  view := Fat12Session.vista
  int := BitVec.toInt
  position := posizione
  accepts := Fat12Session.Accetta
  call s
    | .seek modo puntatore =>
        some
          { value := (s.fat12Seek modo puntatore).1.toInt
            session := (s.fat12Seek modo puntatore).2
            buffer := fun _ => 0 }
    | .read caratteri buffer => s.fat12Read caratteri buffer

namespace KernelfsSession

variable (s : KernelfsSession)

/-- `newcursore>=0 && newcursore<KFSSESSION->size` -/
def Dentro (newcursore : Word) : Prop := 0 ≤ newcursore.toInt ∧ newcursore.toInt < s.size.toInt

instance (newcursore : Word) : Decidable (s.Dentro newcursore) :=
  inferInstanceAs (Decidable (_ ∧ _))

/-- `kernel_seek`. -/
def kernelSeek (modo puntatore : Word) : Word × KernelfsSession :=
  let s :=
    if modo = 0 then
      if s.Dentro (s.cursore + puntatore) then { s with cursore := s.cursore + puntatore } else s
    else if modo = 1 then
      if s.Dentro puntatore then { s with cursore := puntatore } else s
    else if modo = 2 then
      if s.Dentro (s.size - 1 - puntatore) then { s with cursore := s.size - 1 - puntatore } else s
    else s
  (s.cursore, s)

/-- `kernel_read`. -/
def kernelRead (caratteri : Word) (buffer : Int → BitVec 8) : Option (Esito KernelfsSession) :=
  let cardacopiare :=
    if (s.cursore + caratteri).toInt < s.size.toInt then caratteri else s.size - s.cursore
  if cardacopiare.toInt < 0 then none
  else some
    { value := cardacopiare.toInt
      session := { s with cursore := s.cursore + cardacopiare }
      buffer := memCopy (fun _ => s.image) s.cursore.toInt buffer 0 cardacopiare.toNat }

def vista : View (BitVec 8) where
  size := s.size.toInt
  cursor := s.cursore.toInt
  content := s.image

/-- The seeks that are not rejected. -/
def Accetta (modo puntatore : Word) : Prop :=
  modo.toNat < 3 ∧ s.Dentro (newcursore s.cursore s.size modo puntatore)

/-- A seek; or a read of no negative count, the sum of which with the cursor is an `int`. -/
def Riesce : Chiamata → Prop
  | .seek _ _ => True
  | .read caratteri _ => 0 ≤ caratteri.toInt ∧ s.cursore.toInt + caratteri.toInt < 2 ^ 31

end KernelfsSession

/-- The driver of `fs_kernel.c`. -/
def kernelfs : Driver KernelfsSession Word Word (BitVec 8) where
  view := KernelfsSession.vista
  int := BitVec.toInt
  position := posizione
  accepts := KernelfsSession.Accetta
  call s
    | .seek modo puntatore =>
        some
          { value := (s.kernelSeek modo puntatore).1.toInt
            session := (s.kernelSeek modo puntatore).2
            buffer := fun _ => 0 }
    | .read caratteri buffer => s.kernelRead caratteri buffer

theorem toInt_cases (x : Word) :
    (x.toNat < 2 ^ 31 ∧ x.toInt = x.toNat) ∨ (2 ^ 31 ≤ x.toNat ∧ x.toInt = x.toNat - 2 ^ 32) := by
  rw [BitVec.toInt_eq_toNat_cond]
  have hlt := x.isLt
  split <;> omega

/-- What `mem_copy` puts into a buffer. -/
theorem memCopy_buffer {image buffer : Int → BitVec 8} {cursore : Int} {n : Nat} {k : Int}
    (hlow : 0 ≤ k) (hk : k < n) :
    memCopy (fun _ => image) cursore buffer 0 n k = image (cursore + k) := by
  rw [memCopy_apply, if_pos (by omega), Int.sub_zero]

/-! ### Sessions of a FAT12 volume -/

namespace Fat12Session

variable {s : Fat12Session} {modo puntatore caratteri : Word}

/-- A seek writes the wrong field. -/
theorem fat12Seek_kept (s : Fat12Session) (modo puntatore : Word) :
    (s.fat12Seek modo puntatore).2.vista = s.vista := by
  unfold fat12Seek
  split
  · split <;> rfl
  · split
    · split <;> rfl
    · split
      · split <;> rfl
      · rfl

theorem expected_read (h : s.vista.Within) {buffer : Int → BitVec 8} {n : Word}
    (hn : n.toInt = n.toNat) (hle : s.cursore.toNat + n.toNat ≤ s.size.toNat)
    (hmin : 0 ≤ caratteri.toInt →
      n.toInt = min caratteri.toInt (s.size.toNat - s.cursore.toNat)) :
    fat12.Expected s (.read caratteri buffer)
      { value := n.toInt
        session := { s with cursore := s.cursore + n }
        buffer := memCopy (fun _ => s.image) s.cursore.toNat buffer 0 n.toNat } := by
  have hsize := s.size.isLt
  have hsum : (s.cursore + n).toNat = s.cursore.toNat + n.toNat := by
    rw [BitVec.toNat_add, Nat.mod_eq_of_lt (by omega)]
  apply Driver.expected_read h
  · simp only [hn]
    omega
  · simp only [hn, fat12, vista]
    omega
  · exact hmin
  · simp only [fat12, vista, hn, hsum, Nat.cast_add]
  · intro k hlow hk
    exact memCopy_buffer hlow (hn ▸ hk)

theorem fat12Read_iff (h : s.vista.Within) (buffer : Int → BitVec 8) :
    (∃ r, s.fat12Read caratteri buffer = some r ∧ fat12.Expected s (.read caratteri buffer) r) ↔
      s.Riesce (.read caratteri buffer) := by
  have hle : s.cursore.toNat ≤ s.size.toNat := Int.ofNat_le.mp h.2
  have hsize := s.size.isLt
  have hcaratteri := toInt_cases caratteri
  have hsum : (s.cursore + caratteri).toNat = (s.cursore.toNat + caratteri.toNat) % 2 ^ 32 :=
    BitVec.toNat_add ..
  have hrest : (s.size - s.cursore).toNat = s.size.toNat - s.cursore.toNat :=
    BitVec.toNat_sub_of_le (BitVec.le_def.mpr hle)
  have hresto := toInt_cases (s.size - s.cursore)
  simp only [Riesce, fat12Read]
  by_cases hless : s.cursore + caratteri < s.size
  · have hless' := BitVec.lt_def.mp hless
    rw [if_pos hless]
    by_cases hneg : caratteri.toInt < 0
    · rw [if_pos hneg]
      exact iff_of_false (by rintro ⟨r, ⟨⟩, -⟩) (by omega)
    · rw [if_neg hneg]
      constructor
      · rintro ⟨r, hr, hexpected⟩
        obtain rfl := Option.some.inj hr
        have hvalue : caratteri.toInt = min caratteri.toInt (s.size.toNat - s.cursore.toNat) :=
          (hexpected.answers (Int.not_lt.mp hneg)).1
        omega
      · intro hok
        exact ⟨_, rfl, expected_read h (by omega) (by omega) (by omega)⟩
  · have hmore := mt BitVec.lt_def.mpr hless
    rw [if_neg hless]
    by_cases hneg : (s.size - s.cursore).toInt < 0
    · rw [if_pos hneg]
      exact iff_of_false (by rintro ⟨r, ⟨⟩, -⟩) (by omega)
    · rw [if_neg hneg]
      exact iff_of_true ⟨_, rfl, expected_read h (by omega) (by omega) (by omega)⟩ (by omega)

theorem expected_iff (h : s.vista.Within) (c : Chiamata) :
    (∃ r, fat12.call s c = some r ∧ fat12.Expected s c r) ↔ s.Riesce c := by
  cases c with
  | seek modo puntatore =>
    have hkept := fat12Seek_kept s modo puntatore
    constructor
    · rintro ⟨r, hr, hexpected⟩ haccetta
      obtain rfl := Option.some.inj hr
      exact (hexpected.answers.1 haccetta).symm.trans (congrArg View.cursor hkept)
    · intro hok
      exact ⟨_, rfl, Driver.expected_stay h hkept hok⟩
  | read caratteri buffer => exact fat12Read_iff h buffer

end Fat12Session

/-! ### Sessions of a file of the kernel -/

namespace KernelfsSession

variable {s : KernelfsSession} {modo puntatore caratteri : Word}

/-- What an accepted seek leaves, and any other one. -/
theorem kernelSeek_vista (s : KernelfsSession) (modo puntatore : Word) :
    (s.Accetta modo puntatore → (s.kernelSeek modo puntatore).2.vista =
      { s.vista with cursor := (newcursore s.cursore s.size modo puntatore).toInt }) ∧
    (¬s.Accetta modo puntatore → (s.kernelSeek modo puntatore).2.vista = s.vista) := by
  have htwo : ¬modo = 0 → ¬modo = 1 → ¬modo = 2 → ¬modo.toNat < 3 := by
    intro hzero hone htwo
    bv_omega
  unfold kernelSeek Accetta newcursore
  split
  · rename_i hzero
    subst hzero
    split
    · exact ⟨fun _ => rfl, fun hnot => absurd ⟨by decide, ‹_›⟩ hnot⟩
    · exact ⟨fun hin => absurd hin.2 ‹_›, fun _ => rfl⟩
  · split
    · rename_i hone
      subst hone
      split
      · exact ⟨fun _ => rfl, fun hnot => absurd ⟨by decide, ‹_›⟩ hnot⟩
      · exact ⟨fun hin => absurd hin.2 ‹_›, fun _ => rfl⟩
    · split
      · rename_i htwo
        subst htwo
        split
        · exact ⟨fun _ => rfl, fun hnot => absurd ⟨by decide, ‹_›⟩ hnot⟩
        · exact ⟨fun hin => absurd hin.2 ‹_›, fun _ => rfl⟩
      · rename_i hzero hone htwo'
        exact ⟨fun hin => absurd hin.1 (htwo hzero hone htwo'), fun _ => rfl⟩

/-- A position that is not negative has not wrapped around. -/
theorem newcursore_toInt (h : s.vista.Within) (modo puntatore : Word)
    (hpos : 0 ≤ (newcursore s.cursore s.size modo puntatore).toInt) :
    (newcursore s.cursore s.size modo puntatore).toInt =
      posizione s.vista modo puntatore.toInt := by
  have hlow : 0 ≤ s.cursore.toInt := h.1
  have hhigh : s.cursore.toInt ≤ s.size.toInt := h.2
  have hcursore := toInt_cases s.cursore
  have hsize := toInt_cases s.size
  have hpuntatore := toInt_cases puntatore
  unfold newcursore at hpos ⊢
  unfold posizione
  split
  · rename_i hzero
    rw [if_pos hzero] at hpos
    have hsum := toInt_cases (s.cursore + puntatore)
    rw [BitVec.toNat_add] at hsum
    simp only [vista]
    omega
  · rename_i hzero
    rw [if_neg hzero] at hpos
    split
    · rfl
    · rename_i hone
      rw [if_neg hone] at hpos
      have hdiff := toInt_cases (s.size - 1 - puntatore)
      have hone : (1 : Word).toNat = 1 := rfl
      rw [BitVec.toNat_sub, BitVec.toNat_sub, hone] at hdiff
      simp only [vista]
      omega

theorem expected_read (h : s.vista.Within) {buffer : Int → BitVec 8} {n : Word}
    (hn : n.toInt = n.toNat) (hle : s.cursore.toInt + n.toNat ≤ s.size.toInt)
    (hmin : 0 ≤ caratteri.toInt → n.toInt = min caratteri.toInt (s.size.toInt - s.cursore.toInt)) :
    kernelfs.Expected s (.read caratteri buffer)
      { value := n.toInt
        session := { s with cursore := s.cursore + n }
        buffer := memCopy (fun _ => s.image) s.cursore.toInt buffer 0 n.toNat } := by
  have hlow : 0 ≤ s.cursore.toInt := h.1
  have hhigh : s.cursore.toInt ≤ s.size.toInt := h.2
  have hcursore := toInt_cases s.cursore
  have hsize := toInt_cases s.size
  have hsum := toInt_cases (s.cursore + n)
  rw [BitVec.toNat_add] at hsum
  apply Driver.expected_read h
  · simp only [hn]
    omega
  · simp only [hn, kernelfs, vista]
    omega
  · exact hmin
  · simp only [kernelfs, vista, hn]
    congr 1
    omega
  · intro k hlow hk
    exact memCopy_buffer hlow (hn ▸ hk)

theorem kernelRead_iff (h : s.vista.Within) (buffer : Int → BitVec 8) :
    (∃ r, s.kernelRead caratteri buffer = some r ∧
      kernelfs.Expected s (.read caratteri buffer) r) ↔ s.Riesce (.read caratteri buffer) := by
  have hlow : 0 ≤ s.cursore.toInt := h.1
  have hhigh : s.cursore.toInt ≤ s.size.toInt := h.2
  have hcursore := toInt_cases s.cursore
  have hsize := toInt_cases s.size
  have hcaratteri := toInt_cases caratteri
  have hsum := toInt_cases (s.cursore + caratteri)
  have hresto := toInt_cases (s.size - s.cursore)
  rw [BitVec.toNat_add] at hsum
  have hrest : (s.size - s.cursore).toNat = s.size.toNat - s.cursore.toNat :=
    BitVec.toNat_sub_of_le (BitVec.le_def.mpr (by omega))
  simp only [Riesce, kernelRead]
  by_cases hless : (s.cursore + caratteri).toInt < s.size.toInt
  · rw [if_pos hless]
    by_cases hneg : caratteri.toInt < 0
    · rw [if_pos hneg]
      exact iff_of_false (by rintro ⟨r, ⟨⟩, -⟩) (by omega)
    · rw [if_neg hneg]
      constructor
      · rintro ⟨r, hr, hexpected⟩
        obtain rfl := Option.some.inj hr
        have hvalue : caratteri.toInt = min caratteri.toInt (s.size.toInt - s.cursore.toInt) :=
          (hexpected.answers (Int.not_lt.mp hneg)).1
        omega
      · intro hok
        exact ⟨_, rfl, expected_read h (by omega) (by omega) (by omega)⟩
  · rw [if_neg hless, if_neg (by omega)]
    exact iff_of_true ⟨_, rfl, expected_read h (by omega) (by omega) (by omega)⟩ (by omega)

theorem expected_iff (h : s.vista.Within) (c : Chiamata) :
    (∃ r, kernelfs.call s c = some r ∧ kernelfs.Expected s c r) ↔ s.Riesce c := by
  cases c with
  | seek modo puntatore =>
    obtain ⟨hmoved, hkept⟩ := kernelSeek_vista s modo puntatore
    refine iff_of_true ⟨_, rfl, ?_⟩ trivial
    by_cases haccetta : s.Accetta modo puntatore
    · have hin := haccetta.2
      have hposition := newcursore_toInt h modo puntatore hin.1
      rw [Dentro, hposition] at hin
      rw [hposition] at hmoved
      exact Driver.expected_seek haccetta (hmoved haccetta) ⟨hin.1, Int.le_of_lt hin.2⟩
    · exact Driver.expected_stay h (hkept haccetta) fun hin => absurd hin haccetta
  | read caratteri buffer => exact kernelRead_iff h buffer

end KernelfsSession

/-- The calls on a session all do what is expected exactly when each of them, in the state in
which it is made, meets the condition of its driver. -/
theorem sessions_iff (calls : List Chiamata) :
    (∀ s : Fat12Session, s.vista.Within → ∀ t : Option Fat12Session,
      Run (fun s c t => Updates fat12.step s c t ∧ fat12.Meets s c t) (some s) calls t ↔
        Run (Guarded (Driver.Allowed Fat12Session.Riesce) (Updates fat12.step)) (some s) calls t) ∧
    ∀ s : KernelfsSession, s.vista.Within → ∀ t : Option KernelfsSession,
      Run (fun s c t => Updates kernelfs.step s c t ∧ kernelfs.Meets s c t) (some s) calls t ↔
        Run (Guarded (Driver.Allowed KernelfsSession.Riesce) (Updates kernelfs.step)) (some s)
          calls t :=
  ⟨fun _ h => Driver.run_iff_guarded (fun _ c h => Fat12Session.expected_iff h c) h calls,
    fun _ h => Driver.run_iff_guarded (fun _ c h => KernelfsSession.expected_iff h c) h calls⟩

/-- Files of ten bytes: one is read, in the other a position is sought and read. -/
theorem sessions_iff_ten :
    (∃ t, Run (fun s c t => Updates fat12.step s c t ∧ fat12.Meets s c t)
      (some ⟨0, 10, 0, fun _ => 0⟩) [.read 4 fun _ => 0, .read 20 fun _ => 0] t) ∧
    ∃ t, Run (fun s c t => Updates kernelfs.step s c t ∧ kernelfs.Meets s c t)
      (some ⟨0, 10, fun _ => 0⟩) [.seek 1 7, .read 20 fun _ => 0] t := by
  constructor
  · have hrun : ∃ t, Run (Guarded (Driver.Allowed Fat12Session.Riesce) (Updates fat12.step))
        (some ⟨0, 10, 0, fun _ => 0⟩) [.read 4 fun _ => 0, .read 20 fun _ => 0] t :=
      ⟨_, .cons ⟨⟨_, rfl, .inl (by decide)⟩, rfl⟩
        (.cons ⟨⟨_, rfl, .inl (by decide)⟩, rfl⟩ (.nil _))⟩
    obtain ⟨t, ht⟩ := hrun
    exact ⟨t, ((sessions_iff _).1 _ ⟨by decide, by decide⟩ _).mpr ht⟩
  · have hrun : ∃ t, Run (Guarded (Driver.Allowed KernelfsSession.Riesce) (Updates kernelfs.step))
        (some ⟨0, 10, fun _ => 0⟩) [.seek 1 7, .read 20 fun _ => 0] t :=
      ⟨_, .cons ⟨⟨_, rfl, trivial⟩, rfl⟩ (.cons ⟨⟨_, rfl, by decide, by decide⟩, rfl⟩ (.nil _))⟩
    obtain ⟨t, ht⟩ := hrun
    exact ⟨t, ((sessions_iff _).2 _ ⟨by decide, by decide⟩ _).mpr ht⟩

/-- A seek to position 5 of a file of ten bytes is accepted, and the cursor stays in front. -/
theorem fat12_seek_stays : ¬∃ t, Run (fun s c t => Updates fat12.step s c t ∧ fat12.Meets s c t)
    (some ⟨0, 10, 0, fun _ => 0⟩) [.seek 1 5] t := by
  rintro ⟨t, hrun⟩
  cases hrun with
  | cons hstep _ =>
    obtain ⟨-, s, hs, hmeets⟩ := hstep
    obtain rfl := Option.some.inj hs
    have hok := (Fat12Session.expected_iff ⟨by decide, by decide⟩ _).mp hmeets
    exact absurd (hok ⟨by decide, by decide⟩) (by decide)

end OsdevArchive.Cheapos.Sessions
