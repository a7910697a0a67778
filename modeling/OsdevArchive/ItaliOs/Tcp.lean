import OsdevArchive.ItaliOs.Socket

/-!
TCP in ItaliOs 0.1.1 (`net/tcp.c`): what a socket does with a segment that arrives, and what it
does from time to time. `none` is a call that waits for a lock that nobody holds any more, goes
outside of a buffer, or uses a socket that it has removed.
-/

namespace OsdevArchive.ItaliOs

open OsdevArchive.Lib.ByteBuffer

/-! ### Segments -/

def fin : Byte := 0x01

def syn : Byte := 0x02

def rst : Byte := 0x04

def psh : Byte := 0x08

def ack : Byte := 0x10

/-- `TCP_MTU`. -/
def tcpMtu : Nat := 1452

/-- A segment that arrives: the memory from its first byte on, and in front of it. -/
structure Pacchetto where
  buffTCP : Int → Byte
  lungh : BitVec 16

namespace Pacchetto

variable (p : Pacchetto)

/-- `SeqSIN`: the number that is acknowledged. -/
def seqSIN : BitVec 32 := p.buffTCP 8 ++ p.buffTCP 9 ++ p.buffTCP 10 ++ p.buffTCP 11

/-- `SeqACK`: the number of the first byte. -/
def seqACK : BitVec 32 := p.buffTCP 4 ++ p.buffTCP 5 ++ p.buffTCP 6 ++ p.buffTCP 7

def prtSRC : BitVec 16 := p.buffTCP 0 ++ p.buffTCP 1

def prtDST : BitVec 16 := p.buffTCP 2 ++ p.buffTCP 3

/-- `FLAg`. -/
def flags : Byte := p.buffTCP 13

/-- `lungh-20`. -/
def dati : BitVec 32 := p.lungh.setWidth 32 - 20

/-- `FLAg&flg`. -/
def Ha (flg : Byte) : Prop := p.flags &&& flg ≠ 0

instance instDecidableHa (flg : Byte) : Decidable (p.Ha flg) :=
  inferInstanceAs (Decidable (¬ _))

end Pacchetto

/-- A segment that is given to `mandaIP`. -/
structure Inviato where
  ip : BitVec 32
  prt1 : BitVec 16
  prt2 : BitVec 16
  seq1 : BitVec 32
  seq2 : BitVec 32
  flag : Byte
  win : BitVec 16
  dati : List Byte
deriving DecidableEq

/-- The time, and what `mandaIP` returns. -/
structure Ambiente where
  adesso : Int
  mandaIP : Inviato → Bool

/-- The socket, the counter `seq_SIN` and the segments sent, while a segment is handled. -/
structure Giro where
  sok : TSok
  seqSin : BitVec 32
  inviati : List Inviato

/-- After the segment; the socket may have been removed. -/
structure Esito where
  sok : Option TSok
  seqSin : BitVec 32
  inviati : List Inviato

def Giro.esito (g : Giro) : Esito := ⟨some g.sok, g.seqSin, g.inviati⟩

/-- `Tcp`, for a socket. -/
def tcp (k : TSok) (flag : Byte) (dati : List Byte) : Inviato :=
  ⟨k.ipDst, k.prtSrc, k.prtDst, k.seqSIN, k.seqACK, flag, 3000, dati⟩

/-! ### A segment arrives -/

section

variable (env : Ambiente) (ip : BitVec 32) (p : Pacchetto)

def mandaTcp (flg : Byte) (g : Giro) : Giro :=
  let segmento := tcp g.sok flg []
  { g with
    sok := { g.sok with
      timeout := if env.mandaIP segmento then env.adesso else g.sok.timeout }
    inviati := g.inviati ++ [segmento] }

/-- `if (SKK->stato==8)`. -/
def riceviAscolta (g : Giro) : Giro :=
  if p.flags &&& (syn ||| ack) = syn then
    let seqSin := g.seqSin + 1
    let g := mandaTcp env (syn ||| ack) { g with
      sok := { g.sok with
        seqACK := p.seqACK + 1
        seqSIN := seqSin
        ipDst := ip
        prtSrc := p.prtSRC
        prtDst := p.prtDST }
      seqSin := seqSin }
    { g with
      sok := { g.sok with stato := .mandatoSynAck, flag := 0, buflenTX := 0, buflenRX := 0 } }
  else mandaTcp env (ack ||| rst) { g with sok := { g.sok with seqACK := p.seqACK + 1 } }

/-- `if (SKK->stato==1)`. -/
def riceviSynAck (g : Giro) : Giro :=
  if p.flags &&& (syn ||| ack) = syn ||| ack then
    if p.seqSIN ≠ g.sok.seqSIN + 1 then g
    else
      let g := mandaTcp env ack { g with
        sok := { g.sok with seqACK := p.seqACK + 1, seqSIN := p.seqSIN } }
      { g with sok := { g.sok with stato := .connesso, buflenTX := 0, buflenRX := 0 } }
  else mandaTcp env (ack ||| rst) { g with sok := { g.sok with seqACK := p.seqACK + 1 } }

/-- More bytes are acknowledged than there are. -/
def Errato (k : TSok) : Prop :=
  k.seqSIN < p.seqSIN ∧ k.buflenTX < (p.seqSIN - k.seqSIN).toNat

instance instDecidableErrato (k : TSok) : Decidable (Errato p k) :=
  inferInstanceAs (Decidable (_ ∧ _))

/-- The bytes that are acknowledged leave `bufTX`. -/
def togliTX (k : TSok) : TSok :=
  if k.seqSIN < p.seqSIN then
    let n := (p.seqSIN - k.seqSIN).toNat
    { k with
      buflenTX := k.buflenTX - n
      bufTX := copymem k.bufTX n 0 (k.buflenTX - n)
      seqSIN := p.seqSIN }
  else k

/-- `ttt`. -/
def ttt (k : TSok) : BitVec 32 := k.seqACK - p.seqACK

/-- The segment starts at or in front of the next byte, and reaches it. -/
def Raggiunge (k : TSok) : Prop :=
  p.seqACK ≤ k.seqACK ∧ (ttt p k).toInt ≤ p.dati.toInt

instance instDecidableRaggiunge (k : TSok) : Decidable (Raggiunge p k) :=
  inferInstanceAs (Decidable (_ ∧ _))

/-- There is room in `bufRX`. -/
def CiSta (k : TSok) : Prop :=
  (BitVec.ofNat 32 k.buflenRX + p.dati - ttt p k).toInt < 3000

instance instDecidableCiSta (k : TSok) : Decidable (CiSta p k) :=
  inferInstanceAs (Decidable (_ < _))

/-- The bytes behind those that are there already go to `bufRX`; the second part is `CC&1`. -/
def salvaRX (k : TSok) : Option (TSok × Bool) :=
  if Raggiunge p k then
    if CiSta p k then
      let n := p.dati - ttt p k
      let blen := uShort n.toInt
      if k.buflenRX + blen ≤ maxLunSk then
        some ({ k with
          bufRX := copy k.bufRX k.buflenRX (fun i => p.buffTCP (20 + (ttt p k).toInt + i)) 0 blen
          seqACK := k.seqACK + n
          buflenRX := uShort (k.buflenRX + n.toInt) }, true)
      else none
    else some (k, false)
  else some (k, decide (p.seqACK < k.seqACK))

/-- `if (FLAg&ACK)`; the second part is `false` behind a `goto errore`. -/
def riceviAck (g : Giro) : Option (Giro × Bool) :=
  if g.sok.stato = .mandatoSynAck ∧ g.sok.seqSIN + 1 = p.seqSIN ∧ g.sok.seqACK = p.seqACK then
    some ({ g with sok := { g.sok with
      stato := .connesso
      seqSIN := p.seqSIN
      seqACK := p.seqACK
      timeout := env.adesso } }, false)
  else if g.sok.flag &&& 3 ≠ 0 then none
  else
    let k := { g.sok with flag := g.sok.flag ||| 3 }
    if Errato p k then some ({ g with sok := { k with flag := k.flag &&& 0xfc } }, false)
    else do
      let (k, cc) ← salvaRX p (togliTX p k)
      let g := { g with sok := { k with flag := k.flag &&& 0xfc } }
      if g.sok.stato = .connesso ∧ cc = true ∧ p.dati ≠ 0 ∧ ¬ p.Ha fin then
        some (mandaTcp env ack g, true)
      else some (g, true)

/-- `if (FLAg&FIN)`. -/
def riceviFin (g : Giro) : Giro :=
  if g.sok.stato ≠ .inviatoFinAck ∧ g.sok.stato ≠ .connesso then g
  else
    let g := mandaTcp env ack { g with sok := { g.sok with seqACK := g.sok.seqACK + 1 } }
    if g.sok.stato = .connesso then
      let g := mandaTcp env (fin ||| ack) g
      { g with sok := { g.sok with stato := .ricevutoFinAck } }
    else g

/-- `if (FLAg&RST)`, and what comes behind. -/
def riceviRst (g : Giro) : Option Esito :=
  if p.Ha rst then
    if p.Ha fin then none else some { g.esito with sok := none }
  else if p.Ha fin then some (riceviFin env g).esito
  else some g.esito

def riceviTCP (g : Giro) : Option Esito :=
  let g := if g.sok.stato = .ascolta then riceviAscolta env ip p g else g
  if g.sok.stato = .mandatoSyn then some (riceviSynAck env p g).esito
  else do
    let (g, avanti) ← if p.Ha ack then riceviAck env p g else some (g, true)
    if avanti then riceviRst env p g else some g.esito

end

/-! ### Time passes -/

def Passato (env : Ambiente) (timeout a : Int) : Prop := timeout + a < env.adesso

instance instDecidablePassato (env : Ambiente) (timeout a : Int) :
    Decidable (Passato env timeout a) := inferInstanceAs (Decidable (_ < _))

/-- The socket, unless it is removed, and the segment that is sent. -/
def timeoutTCP (env : Ambiente) (k : TSok) : Option (Option TSok × List Inviato) :=
  if k.stato = .mandatoSyn then
    if Passato env k.timeout 3 then
      some (some { k with timeout := env.adesso }, [tcp k syn []])
    else if Passato env k.timeout2 18 then some (none, [])
    else some (some k, [])
  else if k.stato = .mandatoSynAck then
    if Passato env k.timeout 3 then
      some (some { k with timeout := env.adesso, flag := 0 }, [tcp k (syn ||| ack) []])
    else if Passato env k.timeout2 10 then
      some (some { k with ipDst := 0, prtDst := 0, timeout := 0, timeout2 := 0, stato := .ascolta },
        [tcp k (rst ||| ack) []])
    else some (some k, [])
  else if k.stato = .inviatoFinAck then
    if Passato env k.timeout 3 then
      some (some { k with timeout := env.adesso }, [tcp k (fin ||| ack) []])
    else if Passato env k.timeout2 18 then some (none, [tcp k (rst ||| ack) []])
    else some (some k, [])
  else if k.stato = .connesso ∧ k.buflenTX ≠ 0 ∧ Passato env k.timeout 5 then
    if k.flag &&& 1 ≠ 0 then none
    else
      some (some { k with timeout := env.adesso, flag := (k.flag ||| 1) &&& 0xfe },
        [tcp k (psh ||| ack) (slice k.bufTX 0 (min k.buflenTX tcpMtu))])
  else if (k.stato = .ricevutoFinAck ∨ k.stato = .inviatoFinAck) ∧ k.buflenRX = 0 ∧
      Passato env k.timeout2 13 then some (none, [])
  else some (some k, [])

end OsdevArchive.ItaliOs
