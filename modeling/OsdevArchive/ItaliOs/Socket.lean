import OsdevArchive.Lib.ByteBuffer
import Mathlib.Logic.Function.Basic

/-!
The sockets of ItaliOs 0.1.1 (`net/socket.c`). `none` is a call that waits for a lock that
nobody holds any more, or that goes outside of a buffer.
-/

namespace OsdevArchive.ItaliOs

open OsdevArchive.Lib.ByteBuffer

/-! ### Memory -/

/-- The first loop of `copymem`. -/
def copiaAvanti (m : Buffer) (bsrc bdst : Nat) : Nat → Buffer
  | 0 => m
  | blen + 1 => copiaAvanti (Function.update m bdst (m bsrc)) (bsrc + 1) (bdst + 1) blen

/-- The second loop of `copymem`. -/
def copiaIndietro (m : Buffer) (bsrc bdst : Nat) : Nat → Buffer
  | 0 => m
  | blen + 1 => copiaIndietro (Function.update m (bdst + blen) (m (bsrc + blen))) bsrc bdst blen

/-- `copymem`, inside of one buffer. -/
def copymem (m : Buffer) (bsrc bdst blen : Nat) : Buffer :=
  if bdst < bsrc then copiaAvanti m bsrc bdst blen else copiaIndietro m bsrc bdst blen

theorem copiaAvanti_eq {m : Buffer} {bsrc bdst : Nat} (h : bdst < bsrc) (blen : Nat) :
    copiaAvanti m bsrc bdst blen = copy m bdst m bsrc blen := by
  induction blen generalizing m bsrc bdst with
  | zero => exact copy_zero.symm
  | succ blen ih =>
    funext i
    unfold copiaAvanti
    rw [ih (Nat.succ_lt_succ h)]
    obtain hfirst | rfl | hlater := Nat.lt_trichotomy i bdst
    · rw [copy_outside (.inl hfirst), copy_outside (.inl (Nat.lt_succ_of_lt hfirst)),
        Function.update_of_ne (Nat.ne_of_lt hfirst)]
    · have hself := @copy_inside m m i bsrc (blen + 1) 0 (Nat.succ_pos blen)
      rw [copy_outside (.inl (Nat.lt_succ_self i)), Function.update_self]
      exact hself.symm
    · obtain ⟨k, rfl⟩ : ∃ k, i = bdst + 1 + k := ⟨i - (bdst + 1), by omega⟩
      obtain hin | hout := Nat.lt_or_ge k blen
      · have hself := @copy_inside m m bdst bsrc (blen + 1) (k + 1) (Nat.succ_lt_succ hin)
        have hsrc : bsrc + 1 + k = bsrc + (k + 1) := by omega
        have hdst : bdst + 1 + k = bdst + (k + 1) := by omega
        rw [copy_inside hin, Function.update_of_ne (by omega), hsrc, hdst]
        exact hself.symm
      · rw [copy_outside (.inr (by omega)), copy_outside (.inr (by omega)),
          Function.update_of_ne (by omega)]

theorem copiaIndietro_eq {m : Buffer} {bsrc bdst : Nat} (h : bsrc ≤ bdst) (blen : Nat) :
    copiaIndietro m bsrc bdst blen = copy m bdst m bsrc blen := by
  induction blen generalizing m with
  | zero => exact copy_zero.symm
  | succ blen ih =>
    funext i
    unfold copiaIndietro
    rw [ih]
    by_cases hlast : i = bdst + blen
    · have hself := @copy_inside m m bdst bsrc (blen + 1) blen (Nat.lt_succ_self blen)
      rw [hlast, copy_outside (.inr (Nat.le_refl _)), Function.update_self]
      exact hself.symm
    · by_cases hin : bdst ≤ i ∧ i < bdst + blen
      · obtain ⟨k, rfl⟩ : ∃ k, i = bdst + k := ⟨i - bdst, by omega⟩
        have hk : k < blen := Nat.lt_of_add_lt_add_left hin.2
        rw [copy_inside hk, copy_inside (Nat.lt_succ_of_lt hk), Function.update_of_ne (by omega)]
      · rw [copy_outside (by omega), copy_outside (by omega), Function.update_of_ne hlast]

/-- The direction is chosen such that no byte is overwritten before it is copied. -/
theorem copymem_eq (m : Buffer) (bsrc bdst blen : Nat) :
    copymem m bsrc bdst blen = copy m bdst m bsrc blen := by
  unfold copymem
  split
  · rename_i h
    exact copiaAvanti_eq h blen
  · rename_i h
    exact copiaIndietro_eq (Nat.le_of_not_lt h) blen

/-- An `int` that is stored in an `u_short`. -/
def uShort (x : Int) : Nat := (x % 65536).toNat

/-! ### Sockets -/

/-- `MAX_LUN_SK`. -/
def maxLunSk : Nat := 3000

/-- The values of `stato`. -/
inductive Stato where
  | disconnesso
  | mandatoSyn
  | mandatoSynAck
  | connesso
  | inviatoFinAck
  | registraUdp
  | ascoltaUdp
  | ricevutoFinAck
  | ascolta
  | ascoltaEchoreply
deriving DecidableEq

/-- The fields of `TSok` that `socket.c` and `tcp.c` use. -/
structure TSok where
  stato : Stato
  ipDst : BitVec 32
  prtSrc : BitVec 16
  prtDst : BitVec 16
  seqSIN : BitVec 32
  seqACK : BitVec 32
  bufTX : Buffer
  bufRX : Buffer
  task : Nat
  flag : Byte
  buflenTX : Nat
  buflenRX : Nat
  timeout : Int
  timeout2 : Int

def trasmetti (curTask : Nat) (sk : Option TSok) (bufferTX : Buffer) (lungh : BitVec 16) :
    Option (Bool × Option TSok) :=
  match sk with
  | none => some (false, none)
  | some s =>
    if curTask = s.task then
      if s.flag &&& 1 ≠ 0 then none
      else
        let s := { s with flag := s.flag ||| 1 }
        if lungh.toNat + s.buflenTX < maxLunSk then
          some (true, some { s with
            bufTX := copy s.bufTX s.buflenTX bufferTX 0 lungh.toNat
            buflenTX := s.buflenTX + lungh.toNat
            timeout := 0
            flag := s.flag &&& 0xfe })
        else some (false, some s)
    else some (false, some s)

/-- The bytes that `ricevi` gives, in `bufferRX`. -/
def ricevi (curTask : Nat) (sk : Option TSok) (lungh : BitVec 16) :
    Option (List Byte × Option TSok) :=
  match sk with
  | none => some ([], none)
  | some s =>
    if curTask = s.task then
      if s.flag &&& 2 ≠ 0 then none
      else
        let s := { s with flag := s.flag ||| 2 }
        if s.buflenRX ≤ lungh.toNat then
          some (slice s.bufRX 0 s.buflenRX, some { s with
            buflenRX := 0
            flag := s.flag &&& 0xfd })
        else
          some (slice s.bufRX 0 lungh.toNat, some { s with
            bufRX := copymem s.bufRX lungh.toNat 0 (s.buflenRX - lungh.toNat)
            buflenRX := s.buflenRX - lungh.toNat
            flag := s.flag &&& 0xfd })
    else some ([], some s)

/-! ### Lines -/

def newline : Byte := 10

/-- `ricevi_str` keeps this byte. -/
def Valido (ch : Byte) : Prop := 31 < ch

instance instDecidableValido (ch : Byte) : Decidable (Valido ch) :=
  inferInstanceAs (Decidable (_ < _))

/-- The loop of `ricevi_str`, in front of the bytes that are left; it gives `tTCP` and the
characters in `buffTCP`. -/
def leggiStr (bufRX : Buffer) (lungh : Nat) : Nat → Nat → List Byte → Nat × List Byte
  | 0, tTCP, buffTCP => (tTCP, buffTCP)
  | left + 1, tTCP, buffTCP =>
    if buffTCP.length < lungh ∧ bufRX tTCP ≠ newline then
      leggiStr bufRX lungh left (tTCP + 1)
        (if Valido (bufRX tTCP) then buffTCP ++ [bufRX tTCP] else buffTCP)
    else (tTCP, buffTCP)

/-- `copymem` inside of `bufRX`, from an offset to its beginning. -/
def spostaRX (bufRX : Buffer) (o blen : Int) : Option Buffer :=
  if 0 ≤ o ∧ o + uShort blen ≤ maxLunSk then some (copymem bufRX o.toNat 0 (uShort blen))
  else none

/-- What `ricevi_str` returns, with the text in `buffTCP`. -/
def riceviStr (curTask : Nat) (sk : Option TSok) (lungh : BitVec 16) :
    Option ((Nat × List Byte) × Option TSok) :=
  match sk with
  | none => some ((0, []), none)
  | some s =>
    if curTask = s.task then
      if s.flag &&& 2 ≠ 0 then none
      else
        let s := { s with flag := s.flag ||| 2 }
        let (tTCP, buffTCP) := leggiStr s.bufRX lungh.toNat s.buflenRX 0 []
        if s.bufRX tTCP ≠ newline then
          if buffTCP.length < lungh.toNat then
            some ((0, buffTCP), some { s with flag := s.flag &&& 0xfd })
          else do
            let bufRX ← spostaRX s.bufRX (tTCP - 1) (s.buflenRX - tTCP + 1)
            some ((uShort (buffTCP.length - 1), buffTCP ++ [0]), some { s with
              bufRX := bufRX
              buflenRX := uShort (s.buflenRX - (tTCP - 1))
              flag := s.flag &&& 0xfd })
        else do
          let bufRX ← spostaRX s.bufRX (tTCP + 1) (s.buflenRX - tTCP - 1)
          some ((buffTCP.length, buffTCP ++ [0]), some { s with
            bufRX := bufRX
            buflenRX := uShort (s.buflenRX - (tTCP + 1))
            flag := s.flag &&& 0xfd })
    else some ((0, []), some s)

end OsdevArchive.ItaliOs
