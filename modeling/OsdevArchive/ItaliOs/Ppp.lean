import OsdevArchive.Lib.ByteBuffer
import Mathlib.Logic.Function.Basic

/-!
The framing of PPP in ItaliOs 0.1.1 (`net/ppp.c`): `mandappp` writes a frame to the line, and
`leggiPPP` and `riceviPPP` of the peer find it among the bytes that arrive. `none` is a byte that
would be stored behind the end of the receive buffer.
-/

namespace OsdevArchive.ItaliOs

open OsdevArchive.Lib.ByteBuffer

/-! ### Checksums -/

def fcstab : List (BitVec 16) :=
  [
    0x0000, 0x1189, 0x2312, 0x329b, 0x4624, 0x57ad, 0x6536, 0x74bf,
    0x8c48, 0x9dc1, 0xaf5a, 0xbed3, 0xca6c, 0xdbe5, 0xe97e, 0xf8f7,
    0x1081, 0x0108, 0x3393, 0x221a, 0x56a5, 0x472c, 0x75b7, 0x643e,
    0x9cc9, 0x8d40, 0xbfdb, 0xae52, 0xdaed, 0xcb64, 0xf9ff, 0xe876,
    0x2102, 0x308b, 0x0210, 0x1399, 0x6726, 0x76af, 0x4434, 0x55bd,
    0xad4a, 0xbcc3, 0x8e58, 0x9fd1, 0xeb6e, 0xfae7, 0xc87c, 0xd9f5,
    0x3183, 0x200a, 0x1291, 0x0318, 0x77a7, 0x662e, 0x54b5, 0x453c,
    0xbdcb, 0xac42, 0x9ed9, 0x8f50, 0xfbef, 0xea66, 0xd8fd, 0xc974,
    0x4204, 0x538d, 0x6116, 0x709f, 0x0420, 0x15a9, 0x2732, 0x36bb,
    0xce4c, 0xdfc5, 0xed5e, 0xfcd7, 0x8868, 0x99e1, 0xab7a, 0xbaf3,
    0x5285, 0x430c, 0x7197, 0x601e, 0x14a1, 0x0528, 0x37b3, 0x263a,
    0xdecd, 0xcf44, 0xfddf, 0xec56, 0x98e9, 0x8960, 0xbbfb, 0xaa72,
    0x6306, 0x728f, 0x4014, 0x519d, 0x2522, 0x34ab, 0x0630, 0x17b9,
    0xef4e, 0xfec7, 0xcc5c, 0xddd5, 0xa96a, 0xb8e3, 0x8a78, 0x9bf1,
    0x7387, 0x620e, 0x5095, 0x411c, 0x35a3, 0x242a, 0x16b1, 0x0738,
    0xffcf, 0xee46, 0xdcdd, 0xcd54, 0xb9eb, 0xa862, 0x9af9, 0x8b70,
    0x8408, 0x9581, 0xa71a, 0xb693, 0xc22c, 0xd3a5, 0xe13e, 0xf0b7,
    0x0840, 0x19c9, 0x2b52, 0x3adb, 0x4e64, 0x5fed, 0x6d76, 0x7cff,
    0x9489, 0x8500, 0xb79b, 0xa612, 0xd2ad, 0xc324, 0xf1bf, 0xe036,
    0x18c1, 0x0948, 0x3bd3, 0x2a5a, 0x5ee5, 0x4f6c, 0x7df7, 0x6c7e,
    0xa50a, 0xb483, 0x8618, 0x9791, 0xe32e, 0xf2a7, 0xc03c, 0xd1b5,
    0x2942, 0x38cb, 0x0a50, 0x1bd9, 0x6f66, 0x7eef, 0x4c74, 0x5dfd,
    0xb58b, 0xa402, 0x9699, 0x8710, 0xf3af, 0xe226, 0xd0bd, 0xc134,
    0x39c3, 0x284a, 0x1ad1, 0x0b58, 0x7fe7, 0x6e6e, 0x5cf5, 0x4d7c,
    0xc60c, 0xd785, 0xe51e, 0xf497, 0x8028, 0x91a1, 0xa33a, 0xb2b3,
    0x4a44, 0x5bcd, 0x6956, 0x78df, 0x0c60, 0x1de9, 0x2f72, 0x3efb,
    0xd68d, 0xc704, 0xf59f, 0xe416, 0x90a9, 0x8120, 0xb3bb, 0xa232,
    0x5ac5, 0x4b4c, 0x79d7, 0x685e, 0x1ce1, 0x0d68, 0x3ff3, 0x2e7a,
    0xe70e, 0xf687, 0xc41c, 0xd595, 0xa12a, 0xb0a3, 0x8238, 0x93b1,
    0x6b46, 0x7acf, 0x4854, 0x59dd, 0x2d62, 0x3ceb, 0x0e70, 0x1ff9,
    0xf78f, 0xe606, 0xd49d, 0xc514, 0xb1ab, 0xa022, 0x92b9, 0x8330,
    0x7bc7, 0x6a4e, 0x58d5, 0x495c, 0x3de3, 0x2c6a, 0x1ef1, 0x0f78]

/-- `PPPINITFCS`. -/
def pppinitfcs : BitVec 16 := 0xffff

/-- A round of the loop of `pppfcs`. -/
def fcsByte (fcs : BitVec 16) (b : Byte) : BitVec 16 :=
  fcs >>> 8 ^^^ fcstab.getD ((fcs ^^^ b.setWidth 16) &&& 0xff).toNat 0

def pppfcs (fcs : BitVec 16) (cp : List Byte) : BitVec 16 := ~~~ cp.foldl fcsByte fcs

/-! ### Frames -/

def flag : Byte := 0x7e

def escapeCode : Byte := 0x7d

/-- `scbyte(ppp_len)`: the high byte comes first. -/
def pppLen (ppp : Buffer) : Nat := (ppp 7).toNat * 256 + (ppp 8).toNat

/-- `ppp_fcs`: the low byte comes first. -/
def pppFcs (ppp : Buffer) : BitVec 16 := ppp (pppLen ppp + 6) ++ ppp (pppLen ppp + 5)

/-- `pppout_fcs=fcs`. -/
def setFcs (pppout : Buffer) (fcs : BitVec 16) : Buffer :=
  let o := pppLen pppout + 5
  Function.update (Function.update pppout o (fcs.extractLsb' 0 8)) (o + 1) (fcs.extractLsb' 8 8)

/-- The frame in `pppout`, with its checksum. -/
def withFcs (pppout : Buffer) : Buffer :=
  let lungh := pppLen pppout
  let pppout := setFcs pppout 0
  setFcs pppout (pppfcs pppinitfcs (slice pppout 1 (lungh + 4)))

/-- The byte is sent behind an escape code. -/
def Escaped (asyncmap : BitVec 32) (b : Byte) : Prop :=
  b = escapeCode ∨ b = flag ∨ b.toNat < 32 ∧ asyncmap.getLsbD b.toNat = true

instance instDecidableEscaped (asyncmap : BitVec 32) (b : Byte) :
    Decidable (Escaped asyncmap b) := inferInstanceAs (Decidable (_ ∨ _))

def mandaEscaped (asyncmap : BitVec 32) (b : Byte) : List Byte :=
  if Escaped asyncmap b then [escapeCode, b ^^^ 0x20] else [b]

/-- `mandappp`: the bytes that it writes. The packet of IP has its length where the other ones
have theirs. -/
def mandappp (asyncmap : BitVec 32) (pppout : Buffer) : List Byte :=
  let lungh := pppLen pppout
  let pppout := withFcs pppout
  flag :: (slice pppout 1 (lungh + 6)).flatMap (mandaEscaped asyncmap) ++ [flag]

/-! ### Receiving -/

/-- The variables of `leggiPPP`; `waiting` is set while its loop waits for the byte behind an
escape code. -/
structure Peer where
  lastCH : Byte
  buffRX : Buffer
  buffRX2 : Nat
  puntaP : Option Nat
  punta : Nat → Nat
  npunta : Nat
  npunta2 : Nat
  waiting : Bool

/-- The frame in front of a flag is marked, where there is one. -/
def Peer.mark (s : Peer) : Peer :=
  if s.lastCH ≠ flag then
    match s.puntaP with
    | some p => { s with
      punta := Function.update s.punta s.npunta p
      npunta := (s.npunta + 1) % 10 }
    | none => s
  else s

/-- `if (ch==0x7e)`. -/
def Peer.readFlag (s : Peer) : Peer :=
  let s := s.mark
  let s := if 10000 - 3000 < s.buffRX2 then { s with buffRX2 := 0 } else s
  { s with puntaP := some s.buffRX2 }

/-- The last lines of `leggiPPP`. -/
def Peer.save (s : Peer) (ch : Byte) : Option Peer :=
  if s.buffRX2 < 10000 then
    some { s with
      buffRX := Function.update s.buffRX s.buffRX2 ch
      buffRX2 := if 10000 < s.buffRX2 + 1 then 0 else s.buffRX2 + 1
      lastCH := ch }
  else none

/-- `leggiPPP`, when a byte arrives. -/
def leggiPPP (s : Peer) (ch : Byte) : Option Peer :=
  if s.waiting then { s with waiting := false }.save (ch ^^^ 0x20)
  else
    let s := if ch = flag then s.readFlag else s
    if ch = escapeCode then some { s with waiting := true } else s.save ch

/-- A frame that `riceviPPP` takes: its place in the buffer, and the buffer. -/
structure Ricevuto where
  ppp : Nat
  buffRX : Buffer

/-- The comparison of `riceviPPP`. -/
def Ricevuto.FcsOk (r : Ricevuto) : Prop :=
  let ppp : Buffer := fun i => r.buffRX (r.ppp + i)
  pppFcs ppp = pppfcs pppinitfcs (slice ppp 1 (pppLen ppp + 4))

instance instDecidableFcsOk (r : Ricevuto) : Decidable r.FcsOk :=
  inferInstanceAs (Decidable (_ = _))

/-- `riceviPPP` up to the comparison, when a byte arrives; the frames that it has taken so far
are kept. -/
def riceviPPP (s : Peer × List Ricevuto) (ch : Byte) : Option (Peer × List Ricevuto) := do
  let peer ← leggiPPP s.1 ch
  if peer.npunta ≠ peer.npunta2 then
    some ({ peer with npunta2 := (peer.npunta2 + 1) % 10 },
      s.2 ++ [⟨peer.punta peer.npunta2, peer.buffRX⟩])
  else some (peer, s.2)

end OsdevArchive.ItaliOs
