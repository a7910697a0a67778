import OsdevArchive.Lib.ByteBuffer
import OsdevArchive.ItaliOs3.Fat

/-!
The loop of `leggi_floppy` in ItaliOs3 (`fs/fat.cc`), sector by sector. What `read_block` reads is
given by `disk`; the cells of `mybuffer` from 512 on, and those behind it, hold what was on the
stack.
-/

namespace OsdevArchive.ItaliOs3.Floppy

open OsdevArchive.Lib.ByteBuffer

/-- The variables of the loop: `o` is how far `buffer` has come, and `pbuffer` the place in
`mybuffer` it points to. -/
structure Giro where
  mybuffer : Buffer
  pbuffer : Nat
  pos : Nat
  offsetbasso : Nat
  buffer : Buffer
  o : Nat
  lung : Nat

/-- The loop, with the turns that are left. -/
def giri (disk : Buffer) : Nat → Giro → Buffer
  | 0, g => g.buffer
  | n + 1, g =>
    let mybuffer := copy g.mybuffer 0 disk (g.pos * 512) 512
    let pbuffer := if g.offsetbasso ≠ 0 then g.pbuffer + g.offsetbasso else g.pbuffer
    if g.lung ≤ 512 then copy g.buffer g.o mybuffer pbuffer g.lung
    else
      giri disk n
        { mybuffer := mybuffer
          pbuffer := pbuffer
          pos := g.pos + 512
          offsetbasso := 0
          buffer := copy g.buffer g.o mybuffer 0 512
          o := g.o + 512
          lung := g.lung - 512 }

/-- `leggi_floppy`: `buffer` afterwards. -/
def leggiFloppy (disk mybuffer buffer : Buffer) (vpos lung : Nat) : Buffer :=
  let numSet := lung / 512 + 1
  let pos := vpos / 512
  let (offsetbasso, numSet) :=
    if pos * 512 = vpos then (0, numSet) else (vpos - pos * 512, numSet + 1)
  let numSet := if vpos + numSet * 512 < vpos + lung then numSet + 1 else numSet
  giri disk numSet
    { mybuffer := mybuffer
      pbuffer := 0
      pos := pos
      offsetbasso := offsetbasso
      buffer := buffer
      o := 0
      lung := lung }

/-- The byte that comes to the place `k`, `off` being the offset in the first sector: whole sectors
512 apart, and then the rest at the offset in `mybuffer`. -/
def byteLetto (disk mybuffer : Buffer) (pos off lung k : Nat) : Byte :=
  let intere := (lung - 1) / 512
  if k / 512 < intere then disk ((pos + 512 * (k / 512)) * 512 + k % 512)
  else
    let c := off + (k - 512 * intere)
    if c < 512 then disk ((pos + 512 * intere) * 512 + c) else mybuffer c

/-! ### What the loop reads -/

variable {disk mybuffer buffer : Buffer} {pos off lung n k : Nat}

theorem copy_sector (k : Nat) : copy mybuffer 0 disk (pos * 512) 512 k =
    if k < 512 then disk (pos * 512 + k) else mybuffer k := by
  unfold copy
  simp only [Nat.zero_le, true_and, Nat.zero_add, Nat.sub_zero]

theorem copy_apply (dst : Buffer) (o : Nat) (src : Buffer) (p n k : Nat) :
    copy dst o src p n (o + k) = if k < n then src (p + k) else dst (o + k) := by
  by_cases hk : k < n
  · rw [if_pos hk, copy_inside hk]
  · rw [if_neg hk, copy_outside (by omega)]

/-- The next turn goes on with the bytes behind the first sector. -/
theorem byteLetto_next (hlung : 512 < lung) (hk : 512 ≤ k) :
    byteLetto disk (copy mybuffer 0 disk (pos * 512) 512) (pos + 512) off (lung - 512) (k - 512) =
      byteLetto disk mybuffer pos off lung k := by
  obtain ⟨m, hm⟩ : ∃ m, m = (lung - 512 - 1) / 512 := ⟨_, rfl⟩
  have hintere : (lung - 1) / 512 = m + 1 := by omega
  have hword : k / 512 = (k - 512) / 512 + 1 := by omega
  have hmod : k % 512 = (k - 512) % 512 := by omega
  have hcell : k - 512 * (m + 1) = k - 512 - 512 * m := by omega
  have hsector (i : Nat) : pos + 512 * (i + 1) = pos + 512 + 512 * i := by omega
  unfold byteLetto
  dsimp only
  rw [hintere, hword, hmod, ← hm, hcell, hsector, hsector, copy_sector]
  simp only [Nat.add_lt_add_iff_right]
  split
  · rfl
  · split <;> rfl

theorem byteLetto_first (hlung : 512 < lung) (hk : k < 512) :
    byteLetto disk mybuffer pos off lung k = disk (pos * 512 + k) := by
  unfold byteLetto
  dsimp only
  have hzero : k / 512 = 0 := by omega
  rw [if_pos (by omega), hzero, Nat.mod_eq_of_lt hk]
  rfl

theorem byteLetto_last (hlung : lung ≤ 512) :
    byteLetto disk mybuffer pos off lung k =
      copy mybuffer 0 disk (pos * 512) 512 (off + k) := by
  have hzero : (lung - 1) / 512 = 0 := by omega
  unfold byteLetto
  dsimp only
  rw [hzero, if_neg (Nat.not_lt_zero _), copy_sector]
  rfl

/-- What the loop leaves in `buffer`, if it has a turn for each sector. -/
theorem giri_spec (hturns : lung / 512 < n) {offsetbasso pbuffer : Nat}
    (hoff : pbuffer + offsetbasso = off) (o p : Nat) :
    giri disk n ⟨mybuffer, pbuffer, pos, offsetbasso, buffer, o, lung⟩ p =
      if o ≤ p ∧ p < o + lung then byteLetto disk mybuffer pos off lung (p - o) else buffer p := by
  induction n generalizing mybuffer pbuffer pos offsetbasso buffer o lung with
  | zero => omega
  | succ n ih =>
    have hsum : (if offsetbasso ≠ 0 then pbuffer + offsetbasso else pbuffer) = off := by
      split <;> omega
    rw [giri]
    dsimp only
    rw [hsum]
    rcases Nat.lt_or_ge 512 lung with hlung | hlung
    · rw [if_neg (Nat.not_le.mpr hlung), ih (by omega) (Nat.add_zero off)]
      by_cases hin : o ≤ p ∧ p < o + lung
      · rw [if_pos hin]
        by_cases hlater : o + 512 ≤ p
        · rw [if_pos (by omega)]
          have hplace : p - (o + 512) = p - o - 512 := by omega
          rw [hplace]
          exact byteLetto_next hlung (by omega)
        · rw [if_neg (by omega), byteLetto_first hlung (by omega)]
          unfold copy
          rw [if_pos (by omega), if_pos (by omega)]
          congr 1
          omega
      · rw [if_neg hin, if_neg (by omega)]
        exact copy_outside (by omega)
    · rw [if_pos hlung]
      by_cases hin : o ≤ p ∧ p < o + lung
      · rw [if_pos hin, byteLetto_last hlung]
        exact if_pos hin
      · rw [if_neg hin]
        exact if_neg hin

/-- What `leggi_floppy` leaves in `buffer`. -/
theorem leggiFloppy_apply (disk mybuffer buffer : Buffer) (vpos lung p : Nat) :
    leggiFloppy disk mybuffer buffer vpos lung p =
      if p < lung then byteLetto disk mybuffer (vpos / 512) (vpos % 512) lung p else buffer p := by
  have hturns (turns : Nat) (hle : lung / 512 + 1 ≤ turns) :
      lung / 512 < if vpos + turns * 512 < vpos + lung then turns + 1 else turns := by
    split <;> omega
  unfold leggiFloppy
  by_cases haligned : vpos / 512 * 512 = vpos
  · have hoff : 0 + 0 = vpos % 512 := by omega
    simp only [if_pos haligned]
    rw [giri_spec (hturns _ (Nat.le_refl _)) hoff]
    simp only [Nat.zero_le, true_and, Nat.zero_add, Nat.sub_zero]
  · have hoff : 0 + (vpos - vpos / 512 * 512) = vpos % 512 := by omega
    simp only [if_neg haligned]
    rw [giri_spec (hturns _ (Nat.le_succ _)) hoff]
    simp only [Nat.zero_le, true_and, Nat.zero_add, Nat.sub_zero]

/-! ### Ranges that are read exactly -/

/-- `buffer` gets the bytes of the range, in order, and no others. -/
def Esatta (disk mybuffer buffer : Buffer) (vpos lung : Nat) : Prop :=
  leggiFloppy disk mybuffer buffer vpos lung = copy buffer 0 disk vpos lung

theorem esatta_iff_bytes {vpos : Nat} : Esatta disk mybuffer buffer vpos lung ↔
    ∀ k < lung, byteLetto disk mybuffer (vpos / 512) (vpos % 512) lung k = disk (vpos + k) := by
  unfold Esatta
  constructor
  · intro h k hk
    have hbyte := congrFun h k
    rw [leggiFloppy_apply, if_pos hk] at hbyte
    rw [hbyte]
    have hcopy := copy_apply buffer 0 disk vpos lung k
    rwa [Nat.zero_add, if_pos hk] at hcopy
  · intro h
    funext p
    have hcopy := copy_apply buffer 0 disk vpos lung p
    rw [Nat.zero_add] at hcopy
    rw [leggiFloppy_apply, hcopy]
    split
    · exact h p ‹_›
    · rfl

/-- Within one sector, the bytes of the range are read. -/
theorem byteLetto_sector {vpos : Nat} (hrange : vpos % 512 + lung ≤ 512) (hk : k < lung) :
    byteLetto disk mybuffer (vpos / 512) (vpos % 512) lung k = disk (vpos + k) := by
  rw [byteLetto_last (by omega), copy_sector, if_pos (by omega)]
  congr 1
  omega

/-- Some byte of a range that is not within one sector is read elsewhere. -/
theorem exists_elsewhere {vpos : Nat} (hrange : 512 < vpos % 512 + lung) :
    ∃ k < lung, ∀ disk mybuffer : Buffer, (∀ p, p ≠ vpos + k → disk p = 0) →
      (∀ c, mybuffer c = 0) →
      byteLetto disk mybuffer (vpos / 512) (vpos % 512) lung k = 0 := by
  rcases Nat.lt_or_ge 512 lung with hlung | hlung
  · rcases Nat.eq_zero_or_pos (vpos % 512) with hoff | hoff
    · refine ⟨512, hlung, ?_⟩
      intro disk mybuffer hdisk _
      unfold byteLetto
      dsimp only
      split
      · exact hdisk _ (by omega)
      · have hintere : (lung - 1) / 512 = 1 := by omega
        rw [hintere, hoff, if_pos (by decide)]
        exact hdisk _ (by omega)
    · refine ⟨0, by omega, ?_⟩
      intro disk mybuffer hdisk _
      rw [byteLetto_first hlung (by decide)]
      exact hdisk _ (by omega)
  · refine ⟨512 - vpos % 512, by omega, ?_⟩
    intro disk mybuffer _ hstack
    rw [byteLetto_last hlung, copy_sector, if_neg (by omega)]
    exact hstack _

/-- A range is read exactly from every disk if and only if it is within one sector; on a given disk,
if the bytes at the places that are read are those of the range. -/
theorem leggiFloppy_iff (vpos lung : Nat) :
    ((∀ disk mybuffer buffer : Buffer, Esatta disk mybuffer buffer vpos lung) ↔
      vpos % 512 + lung ≤ 512) ∧
    ∀ disk mybuffer buffer : Buffer, Esatta disk mybuffer buffer vpos lung ↔
      ∀ k < lung,
        byteLetto disk mybuffer (vpos / 512) (vpos % 512) lung k = disk (vpos + k) := by
  refine ⟨⟨?_, ?_⟩, fun _ _ _ => esatta_iff_bytes⟩
  · intro hall
    by_contra hrange
    obtain ⟨k, hk, helse⟩ := exists_elsewhere (Nat.not_le.mp hrange)
    -- The disk holds a one in the place that is not read, and zeros everywhere else.
    obtain ⟨disk, hone, hzero⟩ : ∃ disk : Buffer, disk (vpos + k) = 1 ∧
        ∀ p, p ≠ vpos + k → disk p = 0 :=
      ⟨fun p => if p = vpos + k then 1 else 0, if_pos rfl, fun _ hp => if_neg hp⟩
    have hread := esatta_iff_bytes.mp (hall disk (fun _ => 0) (fun _ => 0)) k hk
    rw [helse disk _ hzero fun _ => rfl, hone] at hread
    exact absurd hread (by decide)
  · intro hrange disk mybuffer buffer
    exact esatta_iff_bytes.mpr fun k hk => byteLetto_sector hrange hk

/-- The three bytes of a pair of clusters at the end of a sector: the last one comes from the
stack. -/
theorem leggiFloppy_pair :
    ¬ Esatta (fun p => if p = 512 then 1 else 0) (fun _ => 0) (fun _ => 0) 510 3 := by
  intro h
  have hbyte := congrFun h 2
  revert hbyte
  decide

/-- Within one sector, the loop reads what the functions above it expect. -/
theorem leggiFloppy_range {volume : Fat.Disk} {vpos : Nat} (hrange : vpos % 512 + lung ≤ 512)
    (hdisk : vpos + lung ≤ volume.size) :
    Fat.leggiFloppy volume vpos lung =
      some (slice (leggiFloppy volume.bytes mybuffer buffer vpos lung) 0 lung) := by
  have hread : Esatta volume.bytes mybuffer buffer vpos lung :=
    esatta_iff_bytes.mpr fun k hk => byteLetto_sector hrange hk
  unfold Fat.leggiFloppy
  rw [if_pos hdisk, hread, slice_copy]
  rfl

end OsdevArchive.ItaliOs3.Floppy
