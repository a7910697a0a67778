import OsdevArchive.ItaliOs.Ppp
import Mathlib.Data.List.Forall2

/-!
Frames of PPP that come out of the receive buffer as they went into the line: which ones are
marked, and what the buffer holds from the mark on.
-/

namespace OsdevArchive.ItaliOs

open OsdevArchive.Lib.ByteBuffer

/-- What `mandappp` is called with. -/
structure Frame where
  asyncmap : BitVec 32
  pppout : Buffer

namespace Frame

variable (f : Frame)

/-- The number of the bytes from the address to the checksum. -/
def length : Nat := pppLen f.pppout + 6

/-- The bytes from the address to the checksum. -/
def dati : List Byte := slice (withFcs f.pppout) 1 f.length

/-- The length counts the code, the identifier and itself; the frame fits in its buffer of 10000
bytes. -/
def Valid : Prop := 4 ≤ pppLen f.pppout ∧ f.length + 1 < 10000

/-- The last byte is the same as a flag. -/
def EndsInFlag : Prop := withFcs f.pppout f.length = flag

instance instDecidableEndsInFlag : Decidable f.EndsInFlag := inferInstanceAs (Decidable (_ = _))

end Frame

/-- The bytes of some frames, one behind the other. -/
def line (fs : List Frame) : List Byte := fs.flatMap fun f => mandappp f.asyncmap f.pppout

/-- From its mark on, the buffer holds the flag and the bytes of the frame, and the checksum is
right. -/
def Holds (f : Frame) (r : Ricevuto) : Prop :=
  slice r.buffRX r.ppp (f.length + 1) = flag :: f.dati ∧ r.FcsOk

/-- Nothing is under way. -/
structure Idle (s : Peer) : Prop where
  waiting : s.waiting = false
  taken : s.npunta = s.npunta2
  room : s.buffRX2 ≤ 10000
  between : s.lastCH = flag ∨ s.puntaP = none

/-- Where a flag goes. -/
def flagPlace (p : Nat) : Nat := if 7000 < p then 0 else p

/-- From the position `p` on each frame ends in front of the end of the buffer, and with another
byte than a flag. -/
def Fits : Nat → List Frame → Prop
  | _, [] => True
  | p, f :: fs => flagPlace p + f.length < 10000 ∧ ¬ f.EndsInFlag ∧
    Fits (flagPlace (flagPlace p + 1 + f.length) + 1) fs

variable {s t : Peer} {log : List Ricevuto} {f : Frame} {fs : List Frame} {b : Byte}
  {buf : Buffer} {p n i : Nat} {data : List Byte}

/-! ### Checksums -/

theorem setFcs_outside (h : i ≠ pppLen buf + 5) (h' : i ≠ pppLen buf + 6) (fcs : BitVec 16) :
    setFcs buf fcs i = buf i := by
  unfold setFcs
  rw [Function.update_of_ne h', Function.update_of_ne h]

theorem pppLen_setFcs (h : 4 ≤ pppLen buf) (fcs : BitVec 16) :
    pppLen (setFcs buf fcs) = pppLen buf := by
  conv =>
    lhs
    unfold pppLen
  rw [setFcs_outside (by omega) (by omega), setFcs_outside (by omega) (by omega)]
  rfl

theorem pppFcs_setFcs (h : 4 ≤ pppLen buf) (fcs : BitVec 16) : pppFcs (setFcs buf fcs) = fcs := by
  unfold pppFcs
  rw [pppLen_setFcs h]
  unfold setFcs
  rw [Function.update_self, Function.update_of_ne (by omega), Function.update_self]
  exact BitVec.extractLsb'_append_extractLsb'

/-- The frame keeps its length, and its checksum is that of its bytes. -/
theorem withFcs_spec (h : 4 ≤ pppLen buf) :
    pppLen (withFcs buf) = pppLen buf ∧
      pppFcs (withFcs buf) = pppfcs pppinitfcs (slice (withFcs buf) 1 (pppLen buf + 4)) := by
  obtain ⟨cleared, hcleared⟩ : ∃ c, c = setFcs buf 0 := ⟨_, rfl⟩
  have hlen : pppLen cleared = pppLen buf := by
    rw [hcleared]
    exact pppLen_setFcs h 0
  have hbig : 4 ≤ pppLen cleared := by omega
  obtain ⟨fcs, hfcs⟩ : ∃ x, x = pppfcs pppinitfcs (slice cleared 1 (pppLen buf + 4)) := ⟨_, rfl⟩
  have hframe : withFcs buf = setFcs cleared fcs := by
    rw [hfcs, hcleared]
    rfl
  have hslice : slice (setFcs cleared fcs) 1 (pppLen buf + 4) =
      slice cleared 1 (pppLen buf + 4) := by
    apply slice_congr
    intro i hi
    apply setFcs_outside
    · omega
    · omega
  rw [hframe, hslice, ← hfcs]
  exact ⟨(pppLen_setFcs hbig fcs).trans hlen, pppFcs_setFcs hbig fcs⟩

/-- The bytes of a frame decide on its checksum. -/
theorem fcs_of_bytes {g : Buffer} (h : 4 ≤ pppLen buf)
    (hbyte : ∀ i, 1 ≤ i → i ≤ pppLen buf + 6 → g i = withFcs buf i) :
    pppFcs g = pppfcs pppinitfcs (slice g 1 (pppLen g + 4)) := by
  obtain ⟨hlen, hfcs⟩ := withFcs_spec h
  have hsame : pppLen g = pppLen buf := by
    rw [← hlen]
    unfold pppLen
    rw [hbyte 7 (by decide) (by omega), hbyte 8 (by decide) (by omega)]
  have hslice : slice g 1 (pppLen buf + 4) = slice (withFcs buf) 1 (pppLen buf + 4) := by
    apply slice_congr
    intro i hi
    exact hbyte (1 + i) (by omega) (by omega)
  rw [hsame, hslice, ← hfcs]
  unfold pppFcs
  rw [hsame, hlen, hbyte _ (by omega) (by omega), hbyte _ (by omega) (by omega)]

theorem holds_of_slice {r : Ricevuto} (hv : f.Valid)
    (h : slice r.buffRX r.ppp (f.length + 1) = flag :: f.dati) : Holds f r := by
  refine ⟨h, fcs_of_bytes hv.1 fun i hi hle => ?_⟩
  have hleft := slice_getElem (Nat.lt_succ_of_le hle) r.buffRX r.ppp
  unfold Frame.length at h
  rw [h] at hleft
  obtain ⟨j, rfl⟩ : ∃ j, i = j + 1 := ⟨i - 1, by omega⟩
  have hright := slice_getElem (show j < pppLen f.pppout + 6 by omega) (withFcs f.pppout) 1
  rw [List.getElem?_cons_succ] at hleft
  unfold Frame.dati Frame.length at hleft
  rw [hright, Nat.add_comm 1 j] at hleft
  exact (Option.some.inj hleft).symm

/-! ### Bytes that arrive -/

/-- The peer after some bytes have been stored. -/
def Peer.stored (s : Peer) (data : List Byte) : Peer :=
  { s with
    buffRX := copy s.buffRX s.buffRX2 (fun i => data.getD i 0) 0 data.length
    buffRX2 := s.buffRX2 + data.length
    lastCH := data.getLastD s.lastCH }

theorem save_eq (h : s.buffRX2 < 10000) (b : Byte) : s.save b = some (s.stored [b]) := by
  have hbuf : Function.update s.buffRX s.buffRX2 b =
      copy s.buffRX s.buffRX2 (fun i => [b].getD i 0) 0 [b].length := by
    funext i
    rw [Function.update_apply]
    unfold copy
    rw [List.length_singleton]
    by_cases hi : i = s.buffRX2
    · rw [if_pos hi, if_pos (by omega), hi, Nat.sub_self]
      rfl
    · rw [if_neg hi, if_neg (by omega)]
  unfold Peer.save Peer.stored
  rw [if_pos h, if_neg (by omega), hbuf]
  rfl

theorem stored_cons (s : Peer) (b : Byte) (data : List Byte) :
    (s.stored [b]).stored data = s.stored (b :: data) := by
  have hbuf : copy (copy s.buffRX s.buffRX2 (fun i => [b].getD i 0) 0 1) (s.buffRX2 + 1)
      (fun i => data.getD i 0) 0 data.length =
      copy s.buffRX s.buffRX2 (fun i => (b :: data).getD i 0) 0 (data.length + 1) := by
    funext i
    unfold copy
    by_cases hlater : s.buffRX2 + 1 ≤ i ∧ i < s.buffRX2 + 1 + data.length
    · obtain ⟨j, rfl⟩ : ∃ j, i = s.buffRX2 + 1 + j := ⟨i - (s.buffRX2 + 1), by omega⟩
      have hj : 0 + (s.buffRX2 + 1 + j - s.buffRX2) = j + 1 := by omega
      have hj' : 0 + (s.buffRX2 + 1 + j - (s.buffRX2 + 1)) = j := by omega
      rw [if_pos hlater, if_pos (by omega), hj, hj']
      rfl
    · rw [if_neg hlater]
      by_cases hi : i = s.buffRX2
      · rw [if_pos (by omega), if_pos (by omega), hi, Nat.sub_self]
        rfl
      · rw [if_neg (by omega), if_neg (by omega)]
  unfold Peer.stored
  dsimp only
  rw [List.length_singleton, List.length_cons, hbuf, Nat.add_assoc, Nat.add_comm 1]
  congr 1
  cases data with
  | nil => rfl
  | cons c data => rfl

/-- While no frame is marked, `riceviPPP` takes none. -/
theorem riceviPPP_quiet (h : leggiPPP s b = some t) (hnone : t.npunta = t.npunta2) :
    riceviPPP (s, log) b = some (t, log) := by
  unfold riceviPPP
  dsimp only
  rw [h]
  exact if_neg (not_not.mpr hnone)

theorem riceviPPP_fails (h : leggiPPP s b = none) : riceviPPP (s, log) b = none := by
  unfold riceviPPP
  dsimp only
  rw [h]
  rfl

/-- A byte of a frame comes out as it went in, whether it was escaped or not. -/
theorem escaped_byte (hwait : s.waiting = false) (hnone : s.npunta = s.npunta2)
    (asyncmap : BitVec 32) (b : Byte) (log : List Ricevuto) :
    (mandaEscaped asyncmap b).foldlM riceviPPP (s, log) =
      if s.buffRX2 < 10000 then some (s.stored [b], log) else none := by
  have hsave : s.save b = if s.buffRX2 < 10000 then some (s.stored [b]) else none := by
    split
    · rename_i hroom
      exact save_eq hroom b
    · rename_i hfull
      exact if_neg hfull
  unfold mandaEscaped
  split
  · -- the escape code first, then the byte that it changes
    have hfirst : leggiPPP s escapeCode = some { s with waiting := true } := by
      unfold leggiPPP
      rw [hwait, if_neg Bool.false_ne_true, if_neg (show ¬ escapeCode = flag by decide), if_pos rfl]
    have hback : b ^^^ 0x20 ^^^ 0x20 = b := by
      rw [BitVec.xor_assoc, BitVec.xor_self, BitVec.xor_zero]
    have hsecond : leggiPPP { s with waiting := true } (b ^^^ 0x20) = s.save b := by
      unfold leggiPPP
      rw [if_pos rfl, hback]
      dsimp only
      rw [← hwait]
    rw [List.foldlM_cons, riceviPPP_quiet hfirst hnone, Option.bind_eq_bind, Option.bind_some,
      List.foldlM_cons]
    rw [hsave] at hsecond
    split at hsecond
    · rename_i hroom
      rw [riceviPPP_quiet hsecond hnone, if_pos hroom]
      rfl
    · rename_i hfull
      rw [riceviPPP_fails hsecond, if_neg hfull]
      rfl
  · rename_i hplain
    have hread : leggiPPP s b = s.save b := by
      unfold leggiPPP
      rw [hwait, if_neg Bool.false_ne_true, if_neg fun h => hplain (.inr (.inl h)),
        if_neg fun h => hplain (.inl h)]
    rw [List.foldlM_cons]
    rw [hsave] at hread
    split at hread
    · rename_i hroom
      rw [riceviPPP_quiet hread hnone, if_pos hroom]
      rfl
    · rename_i hfull
      rw [riceviPPP_fails hread, if_neg hfull]
      rfl

/-- The bytes of a frame are stored one behind the other, as long as there is room. -/
theorem escaped_bytes (hwait : s.waiting = false) (hnone : s.npunta = s.npunta2)
    (hroom : s.buffRX2 ≤ 10000) (asyncmap : BitVec 32) (data : List Byte) (log : List Ricevuto) :
    (data.flatMap (mandaEscaped asyncmap)).foldlM riceviPPP (s, log) =
      if s.buffRX2 + data.length ≤ 10000 then some (s.stored data, log) else none := by
  induction data generalizing s with
  | nil =>
    have hsame : s.stored [] = s := by
      have hbuf : copy s.buffRX s.buffRX2 (fun i => ([] : List Byte).getD i 0) 0 0 = s.buffRX :=
        copy_zero
      unfold Peer.stored
      rw [List.length_nil, hbuf]
      rfl
    rw [List.length_nil, Nat.add_zero, if_pos hroom, hsame]
    rfl
  | cons b data ih =>
    rw [List.flatMap_cons, List.foldlM_append, escaped_byte hwait hnone, List.length_cons]
    by_cases hone : s.buffRX2 < 10000
    · rw [if_pos hone, Option.bind_eq_bind, Option.bind_some]
      have hplace : (s.stored [b]).buffRX2 = s.buffRX2 + 1 := rfl
      rw [@ih (s.stored [b]) hwait hnone (by omega), stored_cons, hplace]
      exact if_congr (by omega) rfl rfl
    · rw [if_neg hone, if_neg (by omega)]
      rfl

/-! ### Flags -/

/-- The peer after a flag that marks nothing. -/
def Peer.flagged (s : Peer) : Peer :=
  { s with
    buffRX := Function.update s.buffRX (flagPlace s.buffRX2) flag
    buffRX2 := flagPlace s.buffRX2 + 1
    lastCH := flag
    puntaP := some (flagPlace s.buffRX2) }

theorem flagPlace_le (p : Nat) : flagPlace p ≤ 7000 := by
  unfold flagPlace
  split
  · exact Nat.zero_le _
  · omega

theorem save_flag (s : Peer) :
    Peer.save { s with buffRX2 := flagPlace s.buffRX2, puntaP := some (flagPlace s.buffRX2) } flag =
      some s.flagged := by
  have hle := flagPlace_le s.buffRX2
  unfold Peer.save Peer.flagged
  dsimp only
  rw [if_pos (by omega), if_neg (by omega)]

theorem readFlag_eq {m : Peer} (h : s.mark = m) : s.readFlag =
    { m with buffRX2 := flagPlace m.buffRX2, puntaP := some (flagPlace m.buffRX2) } := by
  unfold Peer.readFlag flagPlace
  rw [h]
  dsimp only
  split
  · rfl
  · rfl

/-- Between frames a flag starts the next one. -/
theorem flag_starts (hs : Idle s) (log : List Ricevuto) :
    riceviPPP (s, log) flag = some (s.flagged, log) := by
  have hmark : s.mark = s := by
    unfold Peer.mark
    obtain hflag | hnone := hs.between
    · exact if_neg (not_not.mpr hflag)
    · rw [hnone, ite_self]
  have hread : leggiPPP s flag = some s.flagged := by
    unfold leggiPPP
    rw [hs.waiting, if_neg Bool.false_ne_true, if_pos rfl, if_neg (by decide), readFlag_eq hmark]
    exact save_flag s
  exact riceviPPP_quiet hread hs.taken

/-- Behind another byte a flag marks the frame in front of it, which is taken at once. -/
theorem flag_marks (hwait : s.waiting = false) (hnone : s.npunta = s.npunta2)
    (hlast : s.lastCH ≠ flag) (hp : s.puntaP = some p) (log : List Ricevuto) :
    ∃ t, riceviPPP (s, log) flag = some (t, log ++ [⟨p, t.buffRX⟩]) ∧ Idle t ∧
      t.buffRX = s.flagged.buffRX ∧ t.buffRX2 = flagPlace s.buffRX2 + 1 := by
  obtain ⟨m, hm⟩ : ∃ m : Peer, m = { s with
      punta := Function.update s.punta s.npunta p
      npunta := (s.npunta + 1) % 10 } := ⟨_, rfl⟩
  have hmark : s.mark = m := by
    unfold Peer.mark
    rw [hm, if_pos hlast, hp]
  have hread : leggiPPP s flag = some m.flagged := by
    unfold leggiPPP
    rw [hwait, if_neg Bool.false_ne_true, if_pos rfl, if_neg (by decide), readFlag_eq hmark]
    exact save_flag m
  have hmarked : m.flagged.npunta ≠ m.flagged.npunta2 := by
    rw [hm]
    change (s.npunta + 1) % 10 ≠ s.npunta2
    omega
  have hplace : m.flagged.punta m.flagged.npunta2 = p := by
    rw [hm]
    change Function.update s.punta s.npunta p s.npunta2 = p
    rw [← hnone, Function.update_self]
  have hle := flagPlace_le s.buffRX2
  refine ⟨{ m.flagged with npunta2 := (m.flagged.npunta2 + 1) % 10 }, ?_, ?_, ?_, ?_⟩
  · unfold riceviPPP
    dsimp only
    rw [hread, Option.bind_eq_bind, Option.bind_some, if_pos hmarked, hplace]
  · refine ⟨?_, ?_, ?_, .inl rfl⟩
    · rw [hm]
      exact hwait
    · rw [hm]
      change (s.npunta + 1) % 10 = (s.npunta2 + 1) % 10
      rw [hnone]
    · rw [hm]
      change flagPlace s.buffRX2 + 1 ≤ 10000
      omega
  · rw [hm]
    rfl
  · rw [hm]
    rfl

/-! ### Frames -/

theorem Frame.dati_length (f : Frame) : f.dati.length = f.length := slice_length _ _ _

theorem Frame.dati_last (f : Frame) : f.dati.getLastD flag = withFcs f.pppout f.length := by
  have hpos : f.length = f.length - 1 + 1 := by
    unfold Frame.length
    omega
  have hlast := slice_getElem (show f.length - 1 < f.length by omega) (withFcs f.pppout) 1
  rw [Nat.add_comm, ← hpos] at hlast
  unfold Frame.dati
  rw [List.getLastD_eq_getLast?, List.getLast?_eq_getElem?, slice_length, hlast]
  rfl

/-- The buffer when the flag behind a frame has been stored. -/
theorem frame_bytes (s : Peer) (f : Frame) :
    slice ((s.flagged.stored f.dati).flagged).buffRX (flagPlace s.buffRX2) (f.length + 1) =
      flag :: f.dati := by
  obtain ⟨q, hq⟩ : ∃ q, q = flagPlace s.buffRX2 := ⟨_, rfl⟩
  have hend : (s.flagged.stored f.dati).buffRX2 = q + 1 + f.length := by
    rw [hq, ← f.dati_length]
    rfl
  have hplace : flagPlace (q + 1 + f.length) = 0 ∨
      flagPlace (q + 1 + f.length) = q + 1 + f.length := by
    unfold flagPlace
    split
    · exact .inl rfl
    · exact .inr rfl
  have hbuf (i : Nat) : ((s.flagged.stored f.dati).flagged).buffRX i =
      if i = flagPlace (q + 1 + f.length) then flag
      else copy (Function.update s.buffRX q flag) (q + 1) (fun i => f.dati.getD i 0) 0
        f.length i := by
    rw [← hend, hq, ← f.dati_length]
    exact Function.update_apply _ _ _ _
  rw [← hq, slice_succ]
  congr 1
  · rw [hbuf]
    split
    · rfl
    · rw [copy_outside (.inl (Nat.lt_succ_self q)), Function.update_self]
  · refine Eq.trans (slice_congr (c := fun i => f.dati.getD i 0) (q := 0) fun i hi => ?_)
      ((congrArg _ f.dati_length.symm).trans (slice_getD f.dati))
    rw [hbuf, if_neg (by omega), copy_inside hi]

/-- A frame between flags is marked, unless it ends like a flag or goes behind the end of the
buffer. -/
theorem frame_run (hs : Idle s) (log : List Ricevuto) (f : Frame) :
    (mandappp f.asyncmap f.pppout).foldlM riceviPPP (s, log) = none ∧
        10000 ≤ flagPlace s.buffRX2 + f.length ∨
      flagPlace s.buffRX2 + f.length < 10000 ∧
      ∃ t, Idle t ∧ t.buffRX2 = flagPlace (flagPlace s.buffRX2 + 1 + f.length) + 1 ∧
        slice t.buffRX (flagPlace s.buffRX2) (f.length + 1) = flag :: f.dati ∧
        (mandappp f.asyncmap f.pppout).foldlM riceviPPP (s, log) =
          some (t, if f.EndsInFlag then log else log ++ [⟨flagPlace s.buffRX2, t.buffRX⟩]) := by
  have hle := flagPlace_le s.buffRX2
  have hstart := flag_starts hs log
  have hroom : s.flagged.buffRX2 ≤ 10000 := by
    change flagPlace s.buffRX2 + 1 ≤ 10000
    omega
  have hdata := escaped_bytes (s := s.flagged) hs.waiting hs.taken hroom f.asyncmap f.dati log
  have hbytes : mandappp f.asyncmap f.pppout =
      flag :: (f.dati.flatMap (mandaEscaped f.asyncmap) ++ [flag]) := rfl
  have hend : s.flagged.buffRX2 + f.dati.length = flagPlace s.buffRX2 + 1 + f.length := by
    rw [f.dati_length]
    rfl
  rw [hbytes, List.foldlM_cons, hstart, Option.bind_eq_bind, Option.bind_some, List.foldlM_append,
    hdata, hend]
  by_cases hfits : flagPlace s.buffRX2 + 1 + f.length ≤ 10000
  · rw [if_pos hfits, Option.bind_eq_bind, Option.bind_some, List.foldlM_cons]
    have hbuf := frame_bytes s f
    obtain ⟨m, hm⟩ : ∃ m, m = s.flagged.stored f.dati := ⟨_, rfl⟩
    have hplace : m.buffRX2 = flagPlace s.buffRX2 + 1 + f.length := by
      rw [hm]
      exact hend
    have hwait : m.waiting = false := by
      rw [hm]
      exact hs.waiting
    have htaken : m.npunta = m.npunta2 := by
      rw [hm]
      exact hs.taken
    have hlast : m.lastCH = withFcs f.pppout f.length := by
      rw [hm, ← f.dati_last]
      rfl
    have hmark : m.puntaP = some (flagPlace s.buffRX2) := by
      rw [hm]
      rfl
    rw [← hm] at hbuf ⊢
    have hroom : m.buffRX2 ≤ 10000 := by omega
    have hnext := flagPlace_le m.buffRX2
    refine .inr ⟨by omega, ?_⟩
    by_cases hflag : f.EndsInFlag
    · have hidle : Idle m := ⟨hwait, htaken, hroom, .inl (hlast.trans hflag)⟩
      refine ⟨m.flagged, ⟨hwait, htaken, ?_, .inl rfl⟩, ?_, hbuf, ?_⟩
      · change flagPlace m.buffRX2 + 1 ≤ 10000
        omega
      · rw [← hplace]
        rfl
      · rw [flag_starts hidle, if_pos hflag]
        rfl
    · obtain ⟨t, hrun, hidle, htbuf, htplace⟩ :=
        flag_marks hwait htaken (fun heq => hflag (hlast.symm.trans heq)) hmark log
      refine ⟨t, hidle, ?_, ?_, ?_⟩
      · rw [htplace, hplace]
      · rw [htbuf]
        exact hbuf
      · rw [hrun, if_neg hflag]
        rfl
  · rw [if_neg hfits]
    exact .inl ⟨rfl, by omega⟩

/-- What has been taken stays; no more frames are taken than were sent. -/
theorem line_taken (hs : Idle s) {out : Peer × List Ricevuto}
    (hrun : (line fs).foldlM riceviPPP (s, log) = some out) :
    ∃ rs, out.2 = log ++ rs ∧ rs.length ≤ fs.length := by
  induction fs generalizing s log with
  | nil =>
    obtain rfl := Option.some.inj hrun
    exact ⟨[], (List.append_nil log).symm, Nat.le_refl 0⟩
  | cons f fs ih =>
    unfold line at hrun ih
    rw [List.flatMap_cons, List.foldlM_append] at hrun
    obtain ⟨hfail, -⟩ | ⟨-, t, hidle, -, -, hframe⟩ := frame_run hs log f
    · rw [hfail] at hrun
      cases hrun
    · rw [hframe, Option.bind_eq_bind, Option.bind_some] at hrun
      obtain ⟨rs, hout, hfew⟩ := ih hidle hrun
      rw [List.length_cons]
      split at hout
      · exact ⟨rs, hout, by omega⟩
      · rw [List.append_assoc] at hout
        refine ⟨_, hout, ?_⟩
        rw [List.length_append, List.length_singleton]
        omega

/-- The peer takes exactly the frames that were sent, each as it was sent, if and only if none
ends like a flag or goes behind the end of the buffer. -/
theorem frames_received_iff (hs : Idle s) (hv : ∀ f ∈ fs, f.Valid) :
    (∃ t rs, (line fs).foldlM riceviPPP (s, log) = some (t, log ++ rs) ∧
      List.Forall₂ Holds fs rs) ↔ Fits s.buffRX2 fs := by
  induction fs generalizing s log with
  | nil =>
    refine iff_of_true ⟨s, [], ?_, .nil⟩ trivial
    rw [List.append_nil]
    rfl
  | cons f fs ih =>
    have hrest := fun g hg => hv g (List.mem_cons_of_mem f hg)
    have hline : line (f :: fs) = mandappp f.asyncmap f.pppout ++ line fs := List.flatMap_cons
    unfold Fits
    rw [hline, List.foldlM_append]
    obtain ⟨hfail, hlong⟩ | ⟨hfits, t, hidle, hplace, hbuf, hframe⟩ := frame_run hs log f
    · rw [hfail]
      refine iff_of_false ?_ fun h => absurd h.1 (by omega)
      rintro ⟨t, rs, hrun, -⟩
      cases hrun
    · rw [hframe, Option.bind_eq_bind, Option.bind_some, ← hplace, and_iff_right hfits]
      by_cases hflag : f.EndsInFlag
      · rw [if_pos hflag]
        refine iff_of_false ?_ fun h => h.1 hflag
        rintro ⟨u, rs, hrun, hall⟩
        obtain ⟨rs', hout, hfew⟩ := line_taken hidle hrun
        obtain rfl := List.append_cancel_left hout
        have hcount := hall.length_eq
        rw [List.length_cons] at hcount
        omega
      · rw [if_neg hflag, and_iff_right hflag, ← ih hidle hrest]
        have hholds : Holds f ⟨flagPlace s.buffRX2, t.buffRX⟩ :=
          holds_of_slice (hv f List.mem_cons_self) hbuf
        constructor
        · rintro ⟨u, rs, hrun, hall⟩
          obtain ⟨r, rs, -, htail, rfl⟩ := List.forall₂_cons_left_iff.mp hall
          obtain ⟨rs', hout, -⟩ := line_taken hidle hrun
          have hcut : log ++ r :: rs = log ++ ⟨flagPlace s.buffRX2, t.buffRX⟩ :: rs' :=
            hout.trans (List.append_assoc _ _ _)
          obtain ⟨rfl, rfl⟩ := List.cons.inj (List.append_cancel_left hcut)
          refine ⟨u, rs, ?_, htail⟩
          rw [List.append_assoc]
          exact hrun
        · rintro ⟨u, rs, hrun, hall⟩
          refine ⟨u, ⟨flagPlace s.buffRX2, t.buffRX⟩ :: rs, ?_, .cons hholds hall⟩
          rw [hrun, List.append_assoc]
          rfl

/-- A peer at the start of its buffer. -/
def peerSample : Peer := ⟨0, fun _ => 0, 0, none, fun _ => 0, 0, 0, false⟩

/-- A frame of LCP without data. -/
def lcpFrame (code id : Byte) : Frame :=
  ⟨0, fun i => [0x7e, 0xff, 0x03, 0xc0, 0x21, code, id, 0x00, 0x04].getD i 0⟩

theorem peerSample_idle : Idle peerSample := ⟨rfl, rfl, by decide, .inr rfl⟩

theorem lcpFrame_valid (code id : Byte) : (lcpFrame code id).Valid := by
  have hhigh : (lcpFrame code id).pppout 7 = 0x00 := rfl
  have hlow : (lcpFrame code id).pppout 8 = 0x04 := rfl
  have hlen : pppLen (lcpFrame code id).pppout = 4 := by
    unfold pppLen
    rw [hhigh, hlow]
    rfl
  unfold Frame.Valid Frame.length
  rw [hlen]
  omega

theorem frames_received_sample :
    Fits 0 [lcpFrame 9 1, lcpFrame 0x7d 0x7e] ∧
      ∃ t rs, (line [lcpFrame 9 1, lcpFrame 0x7d 0x7e]).foldlM riceviPPP (peerSample, []) =
          some (t, [] ++ rs) ∧
        List.Forall₂ Holds [lcpFrame 9 1, lcpFrame 0x7d 0x7e] rs := by
  have hfits : Fits 0 [lcpFrame 9 1, lcpFrame 0x7d 0x7e] := by
    refine ⟨?_, ?_, ?_, ?_, trivial⟩ <;> decide +kernel
  refine ⟨hfits, (frames_received_iff peerSample_idle fun f hf => ?_).mpr hfits⟩
  simp only [List.mem_cons, List.not_mem_nil, or_false] at hf
  obtain rfl | rfl := hf
  · exact lcpFrame_valid 9 1
  · exact lcpFrame_valid 0x7d 0x7e

/-- The checksum of this frame ends with 7e: the flag behind it marks nothing. -/
theorem frame_lost :
    Idle peerSample ∧ (lcpFrame 4 13).Valid ∧
      ((line [lcpFrame 4 13]).foldlM riceviPPP (peerSample, [])).map (fun out => out.2.length) =
        some 0 ∧
      ¬ ∃ t rs, (line [lcpFrame 4 13]).foldlM riceviPPP (peerSample, []) = some (t, [] ++ rs) ∧
        List.Forall₂ Holds [lcpFrame 4 13] rs := by
  have hrun : ((line [lcpFrame 4 13]).foldlM riceviPPP (peerSample, [])).map
      (fun out => out.2.length) = some 0 := by decide +kernel
  refine ⟨peerSample_idle, lcpFrame_valid 4 13, hrun, ?_⟩
  rintro ⟨t, rs, hsome, hall⟩
  have hcount := hall.length_eq
  rw [hsome] at hrun
  have hnone := Option.some.inj hrun
  dsimp only at hnone
  rw [List.nil_append, ← hcount] at hnone
  cases hnone

end OsdevArchive.ItaliOs
