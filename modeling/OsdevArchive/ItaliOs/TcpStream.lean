import OsdevArchive.ItaliOs.SocketRuns
import OsdevArchive.ItaliOs.Tcp

/-!
The streams of a TCP connection. The segments of a peer arrive in any order and any number of
times while the application reads and writes; the bytes that come out are those that went in.
-/

namespace OsdevArchive.ItaliOs

open OsdevArchive.Lib.ByteBuffer OsdevArchive.Lib.Runs

/-- The bytes that the peer sends, their number, and the numbers with which both sides begin. -/
structure Connessione where
  flusso : Buffer
  fine : Nat
  inizioRX : BitVec 32
  inizioTX : BitVec 32

/-- The length of the header of a segment. -/
def Pacchetto.testa (p : Pacchetto) : Nat := 4 * (p.buffTCP 12 >>> 4).toNat

/-- The number of the bytes behind the header. -/
def Pacchetto.corpo (p : Pacchetto) : Nat := p.lungh.toNat - p.testa

/-- A segment of the peer: `pos` bytes of the stream come before it. -/
structure Connessione.Segmento (c : Connessione) where
  p : Pacchetto
  pos : Nat
  header : 20 ≤ p.testa
  length : p.testa ≤ p.lungh.toNat
  number : p.seqACK = c.inizioRX + BitVec.ofNat 32 pos
  bytes : ∀ i < p.corpo, p.buffTCP (p.testa + i) = c.flusso (pos + i)
  inside : pos + p.corpo ≤ c.fine
  last : p.Ha fin → pos + p.corpo = c.fine

/-- The connection: its socket, the bytes that were appended to `bufRX`, those that were read,
those that were written, those that left `bufTX`, and how many of them are acknowledged. -/
structure Flusso where
  sok : Option TSok
  ricevuti : List Byte
  letti : List Byte
  scritti : List Byte
  tolti : List Byte
  confermati : Nat

inductive Evento (c : Connessione) where
  | segmento (env : Ambiente) (ip : BitVec 32) (seqSin : BitVec 32) (s : c.Segmento)
  | trasmetti (bufferTX : Buffer) (lungh : BitVec 16)
  | ricevi (lungh : BitVec 16)
  | timeout (env : Ambiente)

/-- How many of the written bytes are acknowledged, when this number arrives as well. -/
def conferma (inizioTX : BitVec 32) (scritti confermati : Nat) (seq : BitVec 32) : Nat :=
  let n := confermati + (seq - (inizioTX + BitVec.ofNat 32 confermati)).toNat
  if n ≤ scritti then n else confermati

/-- What happened to the buffers of a socket is recorded. -/
def Flusso.registra (s : Flusso) (k : TSok) (sk : Option TSok) (confermati : Nat) : Flusso :=
  match sk with
  | none => { s with sok := none }
  | some k' => { s with
    sok := some k'
    ricevuti := s.ricevuti ++ slice k'.bufRX k.buflenRX (k'.buflenRX - k.buflenRX)
    tolti := s.tolti ++ slice k.bufTX 0 (k.buflenTX - k'.buflenTX)
    confermati := confermati }

/-- One event; without a socket nothing happens. -/
def avanza (c : Connessione) (s : Flusso) (e : Evento c) : Option Flusso :=
  match s.sok with
  | none => some s
  | some k =>
    match e with
    | .segmento env ip seqSin seg => do
      let r ← riceviTCP env ip seg.p ⟨k, seqSin, []⟩
      some (s.registra k r.sok (if seg.p.Ha ack then
        conferma c.inizioTX s.scritti.length s.confermati seg.p.seqSIN else s.confermati))
    | .trasmetti bufferTX lungh => do
      let (ok, sk) ← trasmetti k.task (some k) bufferTX lungh
      some { s with
        sok := sk
        scritti := s.scritti ++ if ok then slice bufferTX 0 lungh.toNat else [] }
    | .ricevi lungh => do
      let (dati, sk) ← ricevi k.task (some k) lungh
      some { s with sok := sk, letti := s.letti ++ dati }
    | .timeout env => do
      let (sk, _) ← timeoutTCP env k
      some { s with sok := sk }

/-- The number of the next byte, from the first one on: a FIN that was accepted counts as one. -/
def prossimo (k : TSok) (ricevuti : Nat) : Nat :=
  if k.stato = .ricevutoFinAck then ricevuti + 1 else ricevuti

/-- What was received is a beginning of the stream of the peer, and what left `bufTX` is what is
acknowledged. -/
structure Fedele (c : Connessione) (s : Flusso) : Prop where
  received : s.ricevuti = slice c.flusso 0 s.ricevuti.length
  within : s.ricevuti.length ≤ c.fine
  removed : s.tolti = s.scritti.take s.confermati
  few : s.confermati ≤ s.scritti.length

/-- The socket of the connection: its numbers, and the bytes in its buffers. -/
structure Coerente (c : Connessione) (s : Flusso) (k : TSok) : Prop where
  state : k.stato = .connesso ∨ k.stato = .ricevutoFinAck ∧ s.ricevuti.length = c.fine
  seqACK : k.seqACK = c.inizioRX + BitVec.ofNat 32 (prossimo k s.ricevuti.length)
  seqSIN : k.seqSIN = c.inizioTX + BitVec.ofNat 32 s.tolti.length
  rx : s.ricevuti = s.letti ++ slice k.bufRX 0 k.buflenRX
  tx : s.scritti = s.tolti ++ slice k.bufTX 0 k.buflenTX
  lessRX : k.buflenRX < maxLunSk
  lessTX : k.buflenTX < maxLunSk
  libero : k.Libero

/-- The streams are whole. -/
structure Integro (c : Connessione) (s : Flusso) : Prop where
  fedele : Fedele c s
  coerente : ∀ k, s.sok = some k → Coerente c s k

/-! ### What is expected of the segments -/

section

variable (p : Pacchetto) (k : TSok)

/-- A number that acknowledges bytes which are still in `bufTX` is greater than the last one. -/
def AckSafe : Prop :=
  p.seqSIN ≠ k.seqSIN → (p.seqSIN - k.seqSIN).toNat ≤ k.buflenTX → k.seqSIN < p.seqSIN

/-- The socket takes the bytes of the segment. -/
def Preso : Prop := Raggiunge p k ∧ CiSta p k

/-- The socket refuses the segment, for the number that it acknowledges. -/
def Rifiutato : Prop := p.Ha ack ∧ Errato p k

end

/-- The bytes of a segment are only taken where the next byte is in it or right behind it, and
nothing comes between its header and them; a FIN only comes behind the last byte. -/
structure Connessione.Segmento.Safe {c : Connessione} (seg : c.Segmento) (k : TSok)
    (ricevuti : Nat) : Prop where
  acks : seg.p.Ha ack → AckSafe seg.p k
  data : seg.p.Ha ack → ¬ Errato seg.p k → Preso seg.p k →
    seg.pos ≤ prossimo k ricevuti ∧ prossimo k ricevuti < seg.pos + 2 ^ 31 ∧
      (seg.p.testa = 20 ∨ seg.p.dati = ttt seg.p k)
  closes : seg.p.Ha fin → ¬ Rifiutato seg.p k → k.stato = .connesso →
    seg.p.Ha ack ∧ Preso seg.p k ∨ seg.pos + seg.p.corpo = ricevuti
  resets : seg.p.Ha rst → seg.p.Ha fin → Rifiutato seg.p k

/-- What is written fits, and the segments are as expected. -/
def Expected (c : Connessione) (s : Flusso) (e : Evento c) : Prop :=
  ∀ k, s.sok = some k →
    match e with
    | .segmento _ _ _ seg => seg.Safe k s.ricevuti.length
    | .trasmetti _ lungh => lungh.toNat + k.buflenTX < maxLunSk
    | .ricevi _ => True
    | .timeout _ => True

variable {c : Connessione} {s t : Flusso} {k k' : TSok} {seg : c.Segmento} {p : Pacchetto}
  {r m d : Nat}

/-! ### Numbers of bytes -/

theorem sub_ofNat {i j : Nat} (h : j ≤ i) :
    BitVec.ofNat 32 i - BitVec.ofNat 32 j = BitVec.ofNat 32 (i - j) := by
  apply BitVec.eq_of_toNat_eq
  rw [BitVec.toNat_sub, BitVec.toNat_ofNat, BitVec.toNat_ofNat, BitVec.toNat_ofNat]
  omega

theorem add_sub_add (start x y : BitVec 32) : start + x - (start + y) = x - y := by
  apply BitVec.eq_of_toNat_eq
  rw [BitVec.toNat_sub, BitVec.toNat_sub, BitVec.toNat_add, BitVec.toNat_add]
  omega

theorem toInt_ofNat {i : Nat} (h : i < 2 ^ 31) : (BitVec.ofNat 32 i).toInt = i := by
  rw [BitVec.toInt_eq_toNat_cond, BitVec.toNat_ofNat]
  omega

/-- `lungh-20` of a segment. -/
theorem dati_eq (seg : c.Segmento) :
    seg.p.dati = BitVec.ofNat 32 (seg.p.lungh.toNat - 20) ∧ 20 ≤ seg.p.lungh.toNat ∧
      seg.p.lungh.toNat < 65536 := by
  have hleast := Nat.le_trans seg.header seg.length
  have hmost := seg.p.lungh.isLt
  refine ⟨?_, hleast, hmost⟩
  apply BitVec.eq_of_toNat_eq
  unfold Pacchetto.dati
  rw [BitVec.toNat_sub, BitVec.toNat_setWidth, BitVec.toNat_ofNat]
  change (2 ^ 32 - 20 + seg.p.lungh.toNat % 2 ^ 32) % 2 ^ 32 = _
  omega

/-! ### The bytes of a segment -/

/-- The part of a socket that bytes which arrive change. -/
structure Salvati (c : Connessione) (r : Nat) (k k' : TSok) (m : Nat) : Prop where
  stato : k'.stato = k.stato
  seqACK : k'.seqACK = k.seqACK + BitVec.ofNat 32 m
  length : k'.buflenRX = k.buflenRX + m
  old : slice k'.bufRX 0 k.buflenRX = slice k.bufRX 0 k.buflenRX
  new : slice k'.bufRX k.buflenRX m = slice c.flusso r m
  less : k'.buflenRX < maxLunSk
  inside : r + m ≤ c.fine
  seqSIN : k'.seqSIN = k.seqSIN
  bufTX : k'.bufTX = k.bufTX
  buflenTX : k'.buflenTX = k.buflenTX
  flag : k'.flag = k.flag

theorem Salvati.refl (hless : k.buflenRX < maxLunSk) (hin : r ≤ c.fine) : Salvati c r k k 0 :=
  ⟨rfl, (BitVec.add_zero k.seqACK).symm, rfl, rfl, rfl, hless, hin, rfl, rfl, rfl, rfl⟩

theorem ttt_eq (hseq : k.seqACK = c.inizioRX + BitVec.ofNat 32 (prossimo k r))
    (hpos : seg.pos ≤ prossimo k r) :
    ttt seg.p k = BitVec.ofNat 32 (prossimo k r - seg.pos) := by
  unfold ttt
  rw [hseq, seg.number, add_sub_add, sub_ofNat hpos]

/-- A segment that is taken has its next byte `d` bytes behind its first one; the `D - d` bytes
from there on are appended. -/
theorem salvaRX_preso {d D : Nat} (hless : k.buflenRX < maxLunSk) (hreach : Raggiunge seg.p k)
    (hroom : CiSta seg.p k) (httt : ttt seg.p k = BitVec.ofNat 32 d)
    (hdati : seg.p.dati = BitVec.ofNat 32 D) (hd : d < 2 ^ 31) (hD : D < 65536) :
    d ≤ D ∧ k.buflenRX + (D - d) < 3000 ∧
      salvaRX seg.p k = some ({ k with
        bufRX := copy k.bufRX k.buflenRX
          (fun i => seg.p.buffTCP (20 + (d : Int) + i)) 0 (D - d)
        seqACK := k.seqACK + BitVec.ofNat 32 (D - d)
        buflenRX := k.buflenRX + (D - d) }, true) := by
  have hdD : d ≤ D := by
    have hle := hreach.2
    rw [httt, hdati, toInt_ofNat (by omega), toInt_ofNat (by omega)] at hle
    exact Int.ofNat_le.mp hle
  have hn : seg.p.dati - ttt seg.p k = BitVec.ofNat 32 (D - d) := by
    rw [httt, hdati, sub_ofNat hdD]
  have hfits : k.buflenRX + (D - d) < 3000 := by
    unfold maxLunSk at hless
    have hlt := hroom
    unfold CiSta at hlt
    rw [httt, hdati, ← BitVec.ofNat_add, sub_ofNat (by omega), toInt_ofNat (by omega)] at hlt
    omega
  have hint : (BitVec.ofNat 32 (D - d)).toInt = (D - d : Nat) := toInt_ofNat (by omega)
  have hblen : uShort (D - d : Nat) = D - d := uShort_eq rfl (by omega)
  have hlen : uShort (k.buflenRX + (D - d : Nat)) = k.buflenRX + (D - d) :=
    uShort_eq rfl (by omega)
  refine ⟨hdD, hfits, ?_⟩
  unfold salvaRX
  dsimp only
  rw [if_pos hreach, if_pos hroom, hn, hint, hblen, hlen,
    if_pos (by unfold maxLunSk; omega), httt, toInt_ofNat (by omega)]

/-- `salvaRX` appends the next bytes of the stream. -/
theorem salvaRX_salvati (hless : k.buflenRX < maxLunSk) (hin : r ≤ c.fine)
    (hstate : k.stato = .connesso ∨ k.stato = .ricevutoFinAck ∧ r = c.fine)
    (hseq : k.seqACK = c.inizioRX + BitVec.ofNat 32 (prossimo k r))
    (hdata : Preso seg.p k → seg.pos ≤ prossimo k r ∧ prossimo k r < seg.pos + 2 ^ 31 ∧
      (seg.p.testa = 20 ∨ seg.p.dati = ttt seg.p k)) :
    ∃ k' cc m, salvaRX seg.p k = some (k', cc) ∧ Salvati c r k k' m ∧
      (Preso seg.p k → k.stato = .connesso → seg.pos + seg.p.corpo ≤ r + m) := by
  by_cases hreach : Raggiunge seg.p k
  · by_cases hroom : CiSta seg.p k
    · obtain ⟨hpos, hnear, hplain⟩ := hdata ⟨hreach, hroom⟩
      obtain ⟨hdati, hleast, hmost⟩ := dati_eq seg
      obtain ⟨d, hd⟩ : ∃ d, d = prossimo k r - seg.pos := ⟨_, rfl⟩
      obtain ⟨D, hD⟩ : ∃ D, D = seg.p.lungh.toNat - 20 := ⟨_, rfl⟩
      have httt := ttt_eq hseq hpos
      rw [← hd] at httt
      rw [← hD] at hdati
      obtain ⟨hdD, hfits, hstep⟩ :=
        salvaRX_preso hless hreach hroom httt hdati (by omega) (by omega)
      have hcorpo : seg.p.corpo ≤ D ∧ (seg.p.testa = 20 → seg.p.corpo = D) := by
        unfold Pacchetto.corpo
        have hheader := seg.header
        omega
      have hinside := seg.inside
      have hcase : D - d = 0 ∨ seg.p.testa = 20 ∧ prossimo k r = r := by
        obtain hplain | hempty := hplain
        · obtain hopen | ⟨hclosed, hall⟩ := hstate
          · refine .inr ⟨hplain, if_neg ?_⟩
            rw [hopen]
            decide
          · have hnext : prossimo k r = r + 1 := if_pos hclosed
            have := hcorpo.2 hplain
            omega
        · have heq := congrArg BitVec.toInt (hdati.symm.trans (hempty.trans httt))
          rw [toInt_ofNat (by omega), toInt_ofNat (by omega)] at heq
          omega
      refine ⟨_, true, D - d, hstep, ⟨rfl, rfl, rfl, ?_, ?_, hfits, ?_, rfl, rfl, rfl, rfl⟩,
        fun _ hopen => ?_⟩
      · dsimp only
        apply slice_copy_before
        omega
      · dsimp only
        rw [slice_copy]
        apply slice_congr
        intro i hi
        obtain hzero | ⟨hplain, hnext⟩ := hcase
        · omega
        · have hbyte := seg.bytes (d + i) (by have := hcorpo.2 hplain; omega)
          have hplace : seg.pos + (d + i) = r + i := by omega
          rw [hplace, hplain] at hbyte
          rw [← hbyte, Nat.zero_add]
          congr 1
          omega
      · obtain hzero | ⟨hplain, hnext⟩ := hcase
        · omega
        · have := hcorpo.2 hplain
          omega
      · have hnext : prossimo k r = r := by
          apply if_neg
          rw [hopen]
          decide
        omega
    · refine ⟨k, false, 0, ?_, .refl hless hin, fun htaken => absurd htaken.2 hroom⟩
      unfold salvaRX
      rw [if_pos hreach, if_neg hroom]
  · exact ⟨k, _, 0, if_neg hreach, .refl hless hin, fun htaken => absurd htaken.1 hreach⟩

/-! ### Acknowledgements -/

/-- The part of a socket that an acknowledgement of `d` bytes changes. -/
structure Confermati (k k' : TSok) (d : Nat) : Prop where
  stato : k'.stato = k.stato
  seqSIN : k'.seqSIN = k.seqSIN + BitVec.ofNat 32 d
  length : k'.buflenTX + d = k.buflenTX
  rest : slice k'.bufTX 0 k'.buflenTX = slice k.bufTX d k'.buflenTX
  seqACK : k'.seqACK = k.seqACK
  bufRX : k'.bufRX = k.bufRX
  buflenRX : k'.buflenRX = k.buflenRX
  flag : k'.flag = k.flag

theorem Confermati.refl (k : TSok) : Confermati k k 0 :=
  ⟨rfl, (BitVec.add_zero k.seqSIN).symm, rfl, rfl, rfl, rfl, rfl, rfl⟩

/-- `togliTX` takes away the bytes that are acknowledged. -/
theorem togliTX_confermati (hno : ¬ Errato p k) :
    Confermati k (togliTX p k)
      (if k.seqSIN < p.seqSIN then (p.seqSIN - k.seqSIN).toNat else 0) := by
  unfold togliTX
  split
  · rename_i hlt
    have hle : (p.seqSIN - k.seqSIN).toNat ≤ k.buflenTX := Nat.le_of_not_lt fun h => hno ⟨hlt, h⟩
    refine ⟨rfl, ?_, Nat.sub_add_cancel hle, ?_, rfl, rfl, rfl, rfl⟩
    · dsimp only
      rw [BitVec.ofNat_toNat, BitVec.setWidth_eq, BitVec.add_comm, BitVec.sub_add_cancel]
    · dsimp only
      rw [copymem_eq]
      exact slice_copy _ _ _ _ _
  · exact .refl k

/-- Those are the bytes that the number acknowledges. -/
theorem conferma_eq {n : Nat} (hsafe : AckSafe p k) (hno : ¬ Errato p k)
    (hseq : k.seqSIN = c.inizioTX + BitVec.ofNat 32 n) :
    conferma c.inizioTX (n + k.buflenTX) n p.seqSIN =
      n + if k.seqSIN < p.seqSIN then (p.seqSIN - k.seqSIN).toNat else 0 := by
  unfold conferma
  dsimp only
  rw [← hseq]
  by_cases hlt : k.seqSIN < p.seqSIN
  · have hle : (p.seqSIN - k.seqSIN).toNat ≤ k.buflenTX := Nat.le_of_not_lt fun h => hno ⟨hlt, h⟩
    rw [if_pos hlt, if_pos (Nat.add_le_add_left hle n)]
  · rw [if_neg hlt]
    by_cases hsame : p.seqSIN = k.seqSIN
    · rw [hsame, BitVec.sub_self]
      exact ite_self n
    · rw [if_neg fun hle => hlt (hsafe hsame (Nat.le_of_add_le_add_left hle))]
      rfl

/-- A number that is refused acknowledges nothing. -/
theorem conferma_errato {n : Nat} (herr : Errato p k)
    (hseq : k.seqSIN = c.inizioTX + BitVec.ofNat 32 n) :
    conferma c.inizioTX (n + k.buflenTX) n p.seqSIN = n := by
  unfold conferma
  dsimp only
  rw [← hseq]
  exact if_neg fun hle => Nat.not_le.mpr herr.2 (Nat.le_of_add_le_add_left hle)

/-! ### One segment -/

/-- What happened to the buffers: `m` bytes of the stream came, and `d` bytes left. -/
structure Scambio (c : Connessione) (r : Nat) (k k' : TSok) (m d : Nat) : Prop where
  rx : k'.buflenRX = k.buflenRX + m
  old : slice k'.bufRX 0 k.buflenRX = slice k.bufRX 0 k.buflenRX
  new : slice k'.bufRX k.buflenRX m = slice c.flusso r m
  less : k'.buflenRX < maxLunSk
  inside : r + m ≤ c.fine
  tx : k'.buflenTX + d = k.buflenTX
  rest : slice k'.bufTX 0 k'.buflenTX = slice k.bufTX d k'.buflenTX
  seqSIN : k'.seqSIN = k.seqSIN + BitVec.ofNat 32 d
  libero : k'.Libero

/-- The socket is still in the same state, and expects the byte behind those that came. -/
structure Avanzato (c : Connessione) (r : Nat) (k k' : TSok) (m d : Nat) : Prop where
  scambio : Scambio c r k k' m d
  stato : k'.stato = k.stato
  seqACK : k'.seqACK = k.seqACK + BitVec.ofNat 32 m

/-- Its number, its state and the time do not matter. -/
theorem Scambio.with (h : Scambio c r k k' m d) (stato : Stato) (seqACK : BitVec 32) (x : Int) :
    Scambio c r k { k' with stato := stato, seqACK := seqACK, timeout := x } m d :=
  ⟨h.rx, h.old, h.new, h.less, h.inside, h.tx, h.rest, h.seqSIN, h.libero⟩

theorem Avanzato.mandaTcp {g : Giro} (h : Avanzato c r k g.sok m d) (env : Ambiente)
    (flg : Byte) : Avanzato c r k (mandaTcp env flg g).sok m d :=
  ⟨h.scambio.with _ _ _, h.stato, h.seqACK⟩

theorem free_both : ∀ flag : Byte, flag &&& 3 = 0 → (flag ||| 3) &&& 0xfc = flag := by
  decide +kernel

/-- The parts of a segment, one after the other. -/
theorem Confermati.scambio {k₁ k₂ : TSok} (h : Confermati { k with flag := k.flag ||| 3 } k₁ d)
    (h' : Salvati c r k₁ k₂ m) (hfree : k.Libero) :
    Avanzato c r k { k₂ with flag := k₂.flag &&& 0xfc } m d where
  scambio :=
    { rx := h'.length.trans (congrArg (· + m) h.buflenRX)
      old := by
        have hold := h'.old
        rw [h.buflenRX, h.bufRX] at hold
        exact hold
      new := by
        have hnew := h'.new
        rw [h.buflenRX] at hnew
        exact hnew
      less := h'.less
      inside := h'.inside
      tx := (congrArg (· + d) h'.buflenTX).trans h.length
      rest := by
        dsimp only
        rw [h'.bufTX, h'.buflenTX]
        exact h.rest
      seqSIN := h'.seqSIN.trans h.seqSIN
      libero := by
        unfold TSok.Libero
        dsimp only
        rw [h'.flag, h.flag]
        dsimp only
        rw [free_both k.flag hfree]
        exact hfree }
  stato := h'.stato.trans h.stato
  seqACK := h'.seqACK.trans (congrArg (· + BitVec.ofNat 32 m) h.seqACK)

theorem preso_congr (h : k'.seqACK = k.seqACK) (h' : k'.buflenRX = k.buflenRX) :
    Preso p k' ↔ Preso p k := by
  unfold Preso Raggiunge CiSta ttt
  rw [h, h']

theorem prossimo_congr (h : k'.stato = k.stato) (r : Nat) : prossimo k' r = prossimo k r := by
  unfold prossimo
  rw [h]

theorem length_scritti (hfed : Fedele c s) (hk : Coerente c s k) :
    s.tolti.length = s.confermati ∧ s.scritti.length = s.confermati + k.buflenTX := by
  have htolti : s.tolti.length = s.confermati := by
    rw [hfed.removed, List.length_take]
    exact Nat.min_eq_left hfed.few
  refine ⟨htolti, ?_⟩
  rw [hk.tx, List.length_append, slice_length, htolti]

theorem Coerente.open_state (hk : Coerente c s k) :
    k.stato ≠ .mandatoSyn ∧ k.stato ≠ .mandatoSynAck ∧ k.stato ≠ .inviatoFinAck ∧
      k.stato ≠ .ascolta := by
  obtain hopen | ⟨hclosed, -⟩ := hk.state
  · rw [hopen]
    decide
  · rw [hclosed]
    decide

theorem riceviAck_errato (hk : Coerente c s k) (hin : r ≤ c.fine) (herr : Errato p k)
    (env : Ambiente) (q : BitVec 32) (l : List Inviato) :
    ∃ g, riceviAck env p ⟨k, q, l⟩ = some (g, false) ∧ Avanzato c r k g.sok 0 0 := by
  have hlock : ¬ k.flag &&& 3 ≠ 0 := not_not.mpr hk.libero
  obtain ⟨g, hg⟩ : ∃ g : Giro, g =
      ⟨{ k with flag := (k.flag ||| 3) &&& 0xfc }, q, l⟩ := ⟨_, rfl⟩
  refine ⟨g, ?_, ?_⟩
  · unfold riceviAck
    dsimp only
    rw [if_neg fun h => (hk.open_state.2.1 h.1), if_neg hlock, hg]
    exact if_pos herr
  · rw [hg]
    exact Confermati.scambio (.refl _) (.refl hk.lessRX hin) hk.libero

/-- A segment that is not refused: its bytes are taken, and those that it acknowledges leave. -/
theorem riceviAck_spec (hfed : Fedele c s) (hk : Coerente c s k)
    (hsafe : seg.Safe k s.ricevuti.length) (hack : seg.p.Ha ack) (hno : ¬ Errato seg.p k)
    (env : Ambiente) (q : BitVec 32) (l : List Inviato) :
    ∃ g m d, riceviAck env seg.p ⟨k, q, l⟩ = some (g, true) ∧
      Avanzato c s.ricevuti.length k g.sok m d ∧
      conferma c.inizioTX s.scritti.length s.confermati seg.p.seqSIN = s.confermati + d ∧
      (Preso seg.p k → k.stato = .connesso →
        seg.pos + seg.p.corpo ≤ s.ricevuti.length + m) := by
  have hlock : ¬ k.flag &&& 3 ≠ 0 := not_not.mpr hk.libero
  obtain ⟨k₀, hk₀⟩ : ∃ k₀ : TSok, k₀ = { k with flag := k.flag ||| 3 } := ⟨_, rfl⟩
  have hno₀ : ¬ Errato seg.p k₀ := by
    rw [hk₀]
    exact hno
  have hconf := togliTX_confermati hno₀
  obtain ⟨k₁, hk₁⟩ : ∃ k₁, k₁ = togliTX seg.p k₀ := ⟨_, rfl⟩
  obtain ⟨d, hd⟩ : ∃ d, d = if k₀.seqSIN < seg.p.seqSIN then
      (seg.p.seqSIN - k₀.seqSIN).toNat else 0 := ⟨_, rfl⟩
  rw [← hk₁, ← hd] at hconf
  have hstato₁ : k₁.stato = k.stato := by
    rw [hconf.stato, hk₀]
  have hseq₁ : k₁.seqACK = k.seqACK := by
    rw [hconf.seqACK, hk₀]
  have hlen₁ : k₁.buflenRX = k.buflenRX := by
    rw [hconf.buflenRX, hk₀]
  have htaken := preso_congr hseq₁ hlen₁ (p := seg.p)
  obtain ⟨k₂, cc, m, hsalva, hsaved, hlast⟩ := @salvaRX_salvati c k₁ seg s.ricevuti.length
    (by rw [hlen₁]; exact hk.lessRX) hfed.within (by rw [hstato₁]; exact hk.state)
    (by rw [hseq₁, prossimo_congr hstato₁]; exact hk.seqACK)
    (by
      rw [htaken, prossimo_congr hstato₁]
      have hsame : ttt seg.p k₁ = ttt seg.p k := by
        unfold ttt
        rw [hseq₁]
      rw [hsame]
      exact hsafe.data hack hno)
  rw [htaken, hstato₁] at hlast
  rw [hk₀] at hconf
  have hav := hconf.scambio hsaved hk.libero
  obtain ⟨g, hg⟩ : ∃ g : Giro, g = ⟨{ k₂ with flag := k₂.flag &&& 0xfc }, q, l⟩ := ⟨_, rfl⟩
  have hrun : riceviAck env seg.p ⟨k, q, l⟩ =
      if g.sok.stato = .connesso ∧ cc = true ∧ seg.p.dati ≠ 0 ∧ ¬ seg.p.Ha fin then
        some (mandaTcp env ack g, true)
      else some (g, true) := by
    unfold riceviAck
    dsimp only
    rw [if_neg fun h => (hk.open_state.2.1 h.1), if_neg hlock, ← hk₀, if_neg hno₀, ← hk₁,
      hsalva, hg]
    rfl
  have hconferma : conferma c.inizioTX s.scritti.length s.confermati seg.p.seqSIN =
      s.confermati + d := by
    obtain ⟨htolti, hscritti⟩ := length_scritti hfed hk
    have hseq := hk.seqSIN
    rw [htolti] at hseq
    rw [hscritti, hd, hk₀]
    exact conferma_eq (hsafe.acks hack) hno hseq
  have havanti : Avanzato c s.ricevuti.length k g.sok m d := by
    rw [hg]
    exact hav
  split at hrun
  · exact ⟨_, m, d, hrun, havanti.mandaTcp env ack, hconferma, hlast⟩
  · exact ⟨g, m, d, hrun, havanti, hconferma, hlast⟩

/-- What a segment has done to the socket, when it is through. -/
structure Passo (c : Connessione) (r : Nat) (k k' : TSok) (m d : Nat) : Prop where
  scambio : Scambio c r k k' m d
  state : k'.stato = .connesso ∨ k'.stato = .ricevutoFinAck ∧ r + m = c.fine
  seqACK : k'.seqACK = c.inizioRX + BitVec.ofNat 32 (prossimo k' (r + m))

theorem Avanzato.passo (h : Avanzato c s.ricevuti.length k k' m d) (hk : Coerente c s k) :
    Passo c s.ricevuti.length k k' m d := by
  have hnext : prossimo k s.ricevuti.length + m = prossimo k' (s.ricevuti.length + m) := by
    unfold prossimo
    rw [h.stato]
    split
    · exact Nat.add_right_comm _ _ _
    · rfl
  refine ⟨h.scambio, ?_, ?_⟩
  · rw [h.stato]
    refine hk.state.imp_right fun ⟨hclosed, hall⟩ => ⟨hclosed, ?_⟩
    have hin := h.scambio.inside
    omega
  · rw [h.seqACK, hk.seqACK, BitVec.add_assoc, ← BitVec.ofNat_add, hnext]

/-- Behind the last byte of the stream a FIN counts as one more. -/
theorem riceviFin_passo {g : Giro} (h : Avanzato c s.ricevuti.length k g.sok m d)
    (hk : Coerente c s k) (hall : k.stato = .connesso → s.ricevuti.length + m = c.fine)
    (env : Ambiente) : Passo c s.ricevuti.length k (riceviFin env g).sok m d := by
  obtain hopen | ⟨hclosed, -⟩ := hk.state
  · have hstato : g.sok.stato = .connesso := h.stato.trans hopen
    have hnext : prossimo k s.ricevuti.length = s.ricevuti.length := by
      apply if_neg
      rw [hopen]
      decide
    obtain ⟨first, hfirst⟩ : ∃ x, x = mandaTcp env ack { g with
        sok := { g.sok with seqACK := g.sok.seqACK + 1 } } := ⟨_, rfl⟩
    obtain ⟨second, hsecond⟩ : ∃ x, x = mandaTcp env (fin ||| ack) first := ⟨_, rfl⟩
    have hrun : (riceviFin env g).sok = { second.sok with stato := .ricevutoFinAck } := by
      unfold riceviFin
      rw [if_neg fun hboth => hboth.2 hstato, ← hfirst]
      dsimp only
      rw [← hsecond, if_pos (by rw [hfirst]; exact hstato)]
    rw [hrun]
    refine ⟨?_, .inr ⟨rfl, hall hopen⟩, ?_⟩
    · rw [hsecond, hfirst]
      exact (h.scambio.with _ _ _)
    · have hsum : g.sok.seqACK + 1 =
          c.inizioRX + BitVec.ofNat 32 (s.ricevuti.length + m + 1) := by
        rw [h.seqACK, hk.seqACK, hnext, BitVec.ofNat_add, BitVec.ofNat_add, ← BitVec.add_assoc,
          ← BitVec.add_assoc]
        rfl
      rw [hsecond, hfirst]
      exact hsum
  · have hstato : g.sok.stato = .ricevutoFinAck := h.stato.trans hclosed
    have hrun : riceviFin env g = g := by
      unfold riceviFin
      rw [hstato]
      exact if_pos (by decide)
    rw [hrun]
    exact h.passo hk

/-- What a segment leaves: no socket, or one that has gone on. -/
def Lascia (c : Connessione) (s : Flusso) (k : TSok) (e : Esito) (confermati : Nat) : Prop :=
  e.sok = none ∨ ∃ k' m d, e.sok = some k' ∧ Passo c s.ricevuti.length k k' m d ∧
    confermati = s.confermati + d

theorem riceviRst_spec {g : Giro} {n : Nat} (h : Avanzato c s.ricevuti.length k g.sok m d)
    (hk : Coerente c s k) (hn : n = s.confermati + d)
    (hall : p.Ha fin → k.stato = .connesso → s.ricevuti.length + m = c.fine)
    (hrst : p.Ha rst → ¬ p.Ha fin) (env : Ambiente) :
    ∃ e, riceviRst env p g = some e ∧ Lascia c s k e n := by
  unfold riceviRst
  by_cases hreset : p.Ha rst
  · rw [if_pos hreset, if_neg (hrst hreset)]
    exact ⟨_, rfl, .inl rfl⟩
  · rw [if_neg hreset]
    by_cases hfin : p.Ha fin
    · rw [if_pos hfin]
      exact ⟨_, rfl, .inr ⟨_, m, d, rfl, riceviFin_passo h hk (hall hfin) env, hn⟩⟩
    · rw [if_neg hfin]
      exact ⟨_, rfl, .inr ⟨_, m, d, rfl, h.passo hk, hn⟩⟩

theorem riceviTCP_spec (hfed : Fedele c s) (hk : Coerente c s k)
    (hsafe : seg.Safe k s.ricevuti.length) (env : Ambiente) (ip q : BitVec 32) :
    ∃ e, riceviTCP env ip seg.p ⟨k, q, []⟩ = some e ∧ Lascia c s k e
      (if seg.p.Ha ack then
        conferma c.inizioTX s.scritti.length s.confermati seg.p.seqSIN else s.confermati) := by
  have hrun : riceviTCP env ip seg.p ⟨k, q, []⟩ =
      (if seg.p.Ha ack then riceviAck env seg.p ⟨k, q, []⟩ else some (⟨k, q, []⟩, true)).bind
        fun g => if g.2 then riceviRst env seg.p g.1 else some g.1.esito := by
    unfold riceviTCP
    dsimp only
    rw [if_neg hk.open_state.2.2.2, if_neg hk.open_state.1]
    split
    · rfl
    · rfl
  have hwithin := hfed.within
  rw [hrun]
  by_cases hack : seg.p.Ha ack
  · rw [if_pos hack, if_pos hack]
    by_cases herr : Errato seg.p k
    · obtain ⟨g, hg, hav⟩ := riceviAck_errato hk hfed.within herr env q []
      obtain ⟨htolti, hscritti⟩ := length_scritti hfed hk
      have hseq := hk.seqSIN
      rw [htolti] at hseq
      have hconf := conferma_errato herr hseq
      rw [hg, Option.bind_some, hscritti, hconf]
      exact ⟨_, rfl, .inr ⟨_, 0, 0, rfl, hav.passo hk, rfl⟩⟩
    · obtain ⟨g, m, d, hg, hav, hconf, hlast⟩ :=
        riceviAck_spec hfed hk hsafe hack herr env q []
      rw [hg, Option.bind_some]
      have hrefused : ¬ Rifiutato seg.p k := fun h => herr h.2
      refine riceviRst_spec hav hk hconf (fun hfin hopen => ?_)
        (fun hreset hfin => hrefused (hsafe.resets hreset hfin)) env
      have hin := hav.scambio.inside
      have hend := seg.last hfin
      obtain ⟨-, htaken⟩ | hdone := hsafe.closes hfin hrefused hopen
      · have hreached := hlast htaken hopen
        omega
      · omega
  · rw [if_neg hack, if_neg hack, Option.bind_some]
    have hrefused : ¬ Rifiutato seg.p k := fun h => hack h.1
    have hsame : Avanzato c s.ricevuti.length k k 0 0 :=
      ⟨⟨rfl, rfl, rfl, hk.lessRX, hfed.within, rfl, rfl, (BitVec.add_zero _).symm, hk.libero⟩, rfl,
        (BitVec.add_zero _).symm⟩
    refine riceviRst_spec (g := ⟨k, q, []⟩) hsame hk rfl (fun hfin hopen => ?_)
      (fun hreset hfin => hrefused (hsafe.resets hreset hfin)) env
    have hend := seg.last hfin
    obtain ⟨hhas, -⟩ | hdone := hsafe.closes hfin hrefused hopen
    · exact absurd hhas hack
    · omega

/-! ### Runs -/

/-- The streams stay whole behind a segment. -/
theorem Passo.registra (hs : Integro c s) (hk : Coerente c s k)
    (h : Passo c s.ricevuti.length k k' m d) :
    Integro c (s.registra k (some k') (s.confermati + d)) := by
  obtain ⟨u, hu⟩ : ∃ u : Flusso, u = { s with
      sok := some k'
      ricevuti := s.ricevuti ++ slice c.flusso s.ricevuti.length m
      tolti := s.tolti ++ slice k.bufTX 0 d
      confermati := s.confermati + d } := ⟨_, rfl⟩
  have hx := h.scambio
  have hregistra : s.registra k (some k') (s.confermati + d) = u := by
    have hm : k'.buflenRX - k.buflenRX = m := by
      have hrx := hx.rx
      omega
    have hd : k.buflenTX - k'.buflenTX = d := by
      have htx := hx.tx
      omega
    rw [hu]
    unfold Flusso.registra
    dsimp only
    rw [hm, hd, hx.new]
  have hricevuti : u.ricevuti = s.ricevuti ++ slice c.flusso s.ricevuti.length m := by rw [hu]
  have htolti : u.tolti = s.tolti ++ slice k.bufTX 0 d := by rw [hu]
  have hconf : u.confermati = s.confermati + d := by rw [hu]
  have hscritti : u.scritti = s.scritti := by rw [hu]
  have hletti : u.letti = s.letti := by rw [hu]
  have hlength : u.ricevuti.length = s.ricevuti.length + m := by
    rw [hricevuti, List.length_append, slice_length]
  have hgone : u.tolti.length = s.tolti.length + d := by
    rw [htolti, List.length_append, slice_length]
  have hsent : slice k.bufTX 0 k.buflenTX = slice k.bufTX 0 d ++ slice k'.bufTX 0 k'.buflenTX := by
    rw [← hx.tx, Nat.add_comm, slice_append, Nat.zero_add, hx.rest]
  obtain ⟨hold, hall⟩ := length_scritti hs.fedele hk
  have htx := hx.tx
  rw [hregistra]
  refine ⟨⟨?_, ?_, ?_, ?_⟩, fun j hj => ?_⟩
  · rw [hlength, slice_append, Nat.zero_add, ← hs.fedele.received]
    exact hricevuti
  · rw [hlength]
    exact hx.inside
  · have hcut : (s.tolti ++ slice k.bufTX 0 d).length = s.confermati + d := by
      rw [List.length_append, slice_length, hold]
    rw [htolti, hconf, hscritti, hk.tx, hsent, ← List.append_assoc, List.take_left' hcut]
  · rw [hconf, hscritti]
    omega
  · obtain rfl : k' = j := by
      rw [hu] at hj
      exact Option.some.inj hj
    refine ⟨?_, ?_, ?_, ?_, ?_, hx.less, ?_, hx.libero⟩
    · rw [hlength]
      exact h.state
    · rw [hlength]
      exact h.seqACK
    · rw [hx.seqSIN, hk.seqSIN, hgone, BitVec.ofNat_add, BitVec.add_assoc]
    · rw [hricevuti, hletti, hx.rx, slice_append, Nat.zero_add, hx.old, hx.new,
        ← List.append_assoc, ← hk.rx]
    · rw [hscritti, htolti, hk.tx, hsent, List.append_assoc]
    · exact Nat.lt_of_le_of_lt (Nat.le_of_add_right_le (Nat.le_of_eq htx)) hk.lessTX

theorem Fedele.socket (h : Fedele c s) (sk : Option TSok) (letti : List Byte) :
    Fedele c { s with sok := sk, letti := letti } :=
  ⟨h.received, h.within, h.removed, h.few⟩

/-- Without its socket the connection keeps what it had. -/
theorem Integro.removed (hs : Integro c s) : Integro c { s with sok := none } :=
  ⟨hs.fedele.socket none s.letti, fun _ hk => absurd hk (Option.some_ne_none _).symm⟩

/-- What is read leaves `bufRX`. -/
theorem ricevi_integro {o : Nat} (hs : Integro c s) (hk : Coerente c s k) (h : Toglie k k' o)
    (ho : o ≤ k.buflenRX) :
    Integro c { s with sok := some k', letti := s.letti ++ slice k.bufRX 0 o } := by
  refine ⟨hs.fedele.socket _ _, fun j hj => ?_⟩
  obtain rfl := Option.some.inj hj
  have hstato : k'.stato = k.stato := by rw [h.frame]
  have hless := hk.lessRX
  have hrx := h.rx
  refine ⟨?_, ?_, ?_, ?_, ?_, ?_, ?_, ?_⟩
  · rw [hstato]
    exact hk.state
  · rw [prossimo_congr hstato]
    exact (congrArg TSok.seqACK h.frame).trans hk.seqACK
  · exact (congrArg TSok.seqSIN h.frame).trans hk.seqSIN
  · have hrest := h.split ho
    change s.ricevuti = s.letti ++ slice k.bufRX 0 o ++ k'.arrivati
    rw [List.append_assoc, ← hrest]
    exact hk.rx
  · have hsame : slice k'.bufTX 0 k'.buflenTX = slice k.bufTX 0 k.buflenTX := by rw [h.frame]
    rw [hsame]
    exact hk.tx
  · omega
  · exact (congrArg TSok.buflenTX h.frame).trans_lt hk.lessTX
  · have hflag : k'.flag = k.flag := by rw [h.frame]
    unfold TSok.Libero
    rw [hflag]
    exact hk.libero

/-- What is written goes behind the bytes in `bufTX`. -/
theorem trasmetti_integro (hs : Integro c s) (hk : Coerente c s k) (bufferTX : Buffer) {n : Nat}
    (hroom : n + k.buflenTX < maxLunSk) :
    Integro c { s with
      sok := some { k with
        bufTX := copy k.bufTX k.buflenTX bufferTX 0 n
        buflenTX := k.buflenTX + n
        timeout := 0 }
      scritti := s.scritti ++ slice bufferTX 0 n } := by
  obtain ⟨hgone, hall⟩ := length_scritti hs.fedele hk
  refine ⟨⟨hs.fedele.received, hs.fedele.within, ?_, ?_⟩, fun j hj => ?_⟩
  · dsimp only
    rw [List.take_append_of_le_length hs.fedele.few]
    exact hs.fedele.removed
  · dsimp only
    rw [List.length_append]
    omega
  · obtain rfl := Option.some.inj hj
    refine ⟨hk.state, hk.seqACK, hk.seqSIN, hk.rx, ?_, hk.lessRX, ?_, hk.libero⟩
    · dsimp only
      rw [slice_append, slice_copy_before (by omega), Nat.zero_add, slice_copy, hk.tx,
        List.append_assoc]
    · dsimp only
      omega

/-- As time passes, segments are sent again, or the socket is removed. -/
theorem timeoutTCP_integro (hs : Integro c s) (hk : Coerente c s k) (hsok : s.sok = some k)
    (env : Ambiente) :
    ∃ sk l, timeoutTCP env k = some (sk, l) ∧ Integro c { s with sok := sk } := by
  have hsame : Integro c { s with sok := some k } := by
    rw [← hsok]
    exact hs
  unfold timeoutTCP
  obtain ⟨hsyn, hsynAck, hfinAck, -⟩ := hk.open_state
  rw [if_neg hsyn, if_neg hsynAck, if_neg hfinAck]
  split
  · rw [if_neg (not_not.mpr (free_tx k.flag hk.libero).1), (free_tx k.flag hk.libero).2]
    refine ⟨_, _, rfl, hs.fedele.socket _ s.letti, fun j hj => ?_⟩
    obtain rfl := Option.some.inj hj
    exact ⟨hk.state, hk.seqACK, hk.seqSIN, hk.rx, hk.tx, hk.lessRX, hk.lessTX, hk.libero⟩
  · split
    · exact ⟨_, _, rfl, hs.removed⟩
    · exact ⟨_, _, rfl, hsame⟩

/-- Each event that is expected happens, and the streams stay whole. -/
theorem avanza_integro (hs : Integro c s) (e : Evento c) (hexp : Expected c s e) :
    ∃ t, avanza c s e = some t ∧ Integro c t := by
  unfold avanza
  cases hsok : s.sok with
  | none => exact ⟨s, rfl, hs⟩
  | some k =>
    have hk := hs.coerente k hsok
    have hok := hexp k hsok
    cases e with
    | segmento env ip q seg =>
      obtain ⟨e, hrun, hnone | ⟨k', m, d, hsome, hp, hconf⟩⟩ :=
        riceviTCP_spec hs.fedele hk hok env ip q
      · dsimp only
        rw [hrun, Option.bind_eq_bind, Option.bind_some, hnone]
        exact ⟨_, rfl, hs.removed⟩
      · dsimp only
        rw [hrun, Option.bind_eq_bind, Option.bind_some, hsome, hconf]
        exact ⟨_, rfl, hp.registra hs hk⟩
    | trasmetti bufferTX lungh =>
      refine ⟨_, ?_, trasmetti_integro hs hk bufferTX hok⟩
      unfold trasmetti
      dsimp only
      rw [if_pos rfl, if_neg (not_not.mpr (free_tx k.flag hk.libero).1), if_pos hok,
        (free_tx k.flag hk.libero).2]
      rfl
    | ricevi lungh =>
      obtain ⟨k', o, hrun, htoglie, ho, hrest⟩ := ricevi_toglie hk.libero lungh
      have hcut : k.arrivati.take lungh.toNat ++ k'.arrivati =
          slice k.bufRX 0 o ++ k'.arrivati := by
        rw [← htoglie.split ho, hrest, List.take_append_drop]
      have htaken := List.append_cancel_right hcut
      dsimp only
      rw [hrun, Option.bind_eq_bind, Option.bind_some, htaken]
      exact ⟨_, rfl, ricevi_integro hs hk htoglie ho⟩
    | timeout env =>
      obtain ⟨sk, l, hrun, ht⟩ := timeoutTCP_integro hs hk hsok env
      dsimp only
      rw [hrun, Option.bind_eq_bind, Option.bind_some]
      exact ⟨_, rfl, ht⟩

/-- A connected socket with empty buffers, and nothing that happened. -/
structure Nuovo (c : Connessione) (k : TSok) : Prop where
  stato : k.stato = .connesso
  seqACK : k.seqACK = c.inizioRX
  seqSIN : k.seqSIN = c.inizioTX
  buflenRX : k.buflenRX = 0
  buflenTX : k.buflenTX = 0
  libero : k.Libero

def Flusso.nuovo (k : TSok) : Flusso := ⟨some k, [], [], [], [], 0⟩

theorem Nuovo.integro (h : Nuovo c k) : Integro c (.nuovo k) := by
  refine ⟨⟨rfl, Nat.zero_le _, rfl, Nat.le_refl 0⟩, fun j hj => ?_⟩
  obtain rfl := Option.some.inj hj
  have hnext : prossimo k 0 = 0 := by
    apply if_neg
    rw [h.stato]
    decide
  refine ⟨.inl h.stato, ?_, ?_, ?_, ?_, ?_, ?_, h.libero⟩
  · change k.seqACK = c.inizioRX + BitVec.ofNat 32 (prossimo k 0)
    rw [hnext, h.seqACK]
    exact (BitVec.add_zero _).symm
  · rw [h.seqSIN]
    exact (BitVec.add_zero _).symm
  · rw [h.buflenRX]
    rfl
  · rw [h.buflenTX]
    rfl
  · rw [h.buflenRX]
    decide
  · rw [h.buflenTX]
    decide

/-- In every run of a connection in which the events are as expected, what comes out of its streams
is what went in, and every event that is expected can follow. -/
theorem streams_kept_when_expected {es : List (Evento c)} (h : Nuovo c k)
    (hrun : Run (Guarded (Expected c) (Computes (avanza c))) (.nuovo k) es t) :
    Integro c t ∧ ∀ e, Expected c t e → ∃ u, avanza c t e = some u := by
  have ht : Integro c t := by
    apply hrun.guarded_invariant _ h.integro
    intro s e t hs hexp hstep
    obtain ⟨u, hu, hnext⟩ := avanza_integro hs e hexp
    obtain rfl := Option.some.inj (hu.symm.trans hstep)
    exact hnext
  refine ⟨ht, fun e hexp => ?_⟩
  obtain ⟨u, hu, -⟩ := avanza_integro ht e hexp
  exact ⟨u, hu⟩

/-! ### Two segments -/

/-- The peer sends `ab`, from a number on that wraps behind sixteen bytes. -/
def twoBytes : Connessione := ⟨fun i => [0x61, 0x62].getD i 0, 2, 0xFFFFFFF0, 1000⟩

/-- Ports, numbers, the length of the header, flags, the window and two fields that are not
used. -/
def headerBytes (seq seqAck : BitVec 32) (offset flags : Byte) : List Byte :=
  [0, 0, 0, 0, seq.extractLsb' 24 8, seq.extractLsb' 16 8, seq.extractLsb' 8 8,
    seq.extractLsb' 0 8, seqAck.extractLsb' 24 8, seqAck.extractLsb' 16 8, seqAck.extractLsb' 8 8,
    seqAck.extractLsb' 0 8, offset, flags, 0, 0, 0, 0, 0, 0]

def packet (bytes : List Byte) : Pacchetto :=
  ⟨fun i => bytes.getD i.toNat 0, BitVec.ofNat 16 bytes.length⟩

/-- `a` behind a header without options. -/
def firstByte : twoBytes.Segmento where
  p := packet (headerBytes 0xFFFFFFF0 1000 0x50 (psh ||| ack) ++ [0x61])
  pos := 0
  header := by decide +kernel
  length := by decide +kernel
  number := by decide +kernel
  bytes := by decide +kernel
  inside := by decide +kernel
  last := by decide +kernel

/-- `b`, in a segment of its own. -/
def secondByte : twoBytes.Segmento where
  p := packet (headerBytes 0xFFFFFFF1 1000 0x50 (psh ||| ack) ++ [0x62])
  pos := 1
  header := by decide +kernel
  length := by decide +kernel
  number := by decide +kernel
  bytes := by decide +kernel
  inside := by decide +kernel
  last := by decide +kernel

/-- `ab` behind a header with four bytes of options. -/
def segmentWithOptions : twoBytes.Segmento where
  p := packet (headerBytes 0xFFFFFFF0 1000 0x60 (psh ||| ack) ++ [1, 1, 1, 1, 0x61, 0x62])
  pos := 0
  header := by decide +kernel
  length := by decide +kernel
  number := by decide +kernel
  bytes := by decide +kernel
  inside := by decide +kernel
  last := by decide +kernel

def connectedSocket : TSok :=
  ⟨.connesso, 0, 0, 0, 1000, 0xFFFFFFF0, fun _ => 0, fun _ => 0, 0, 0, 0, 0, 0, 0⟩

def quietNetwork : Ambiente := ⟨0, fun _ => true⟩

theorem connectedSocket_nuovo : Nuovo twoBytes connectedSocket := ⟨rfl, rfl, rfl, rfl, rfl, rfl⟩

/-- A segment without options or FIN that acknowledges nothing new is expected, if it is not taken
too early. -/
theorem safe_plain {c : Connessione} {seg : c.Segmento} {k : TSok} {n : Nat}
    (hack : seg.p.seqSIN = k.seqSIN) (htesta : seg.p.testa = 20) (hfin : ¬ seg.p.Ha fin)
    (hpos : Preso seg.p k → seg.pos ≤ prossimo k n ∧ prossimo k n < seg.pos + 2 ^ 31) :
    seg.Safe k n where
  acks _ hne := absurd hack hne
  data _ _ htaken := ⟨(hpos htaken).1, (hpos htaken).2, .inl htesta⟩
  closes hclosing := absurd hclosing hfin
  resets _ hclosing := absurd hclosing hfin

/-- The second byte arrives too early, and again behind the first one. -/
theorem segments_received :
    ∃ t, Run (Guarded (Expected twoBytes) (Computes (avanza twoBytes))) (.nuovo connectedSocket)
        [.segmento quietNetwork 0 0 secondByte, .segmento quietNetwork 0 0 firstByte,
          .segmento quietNetwork 0 0 secondByte] t ∧
      Integro twoBytes t ∧ t.ricevuti = [0x61, 0x62] := by
  have heval : ((avanza twoBytes (.nuovo connectedSocket)
      (.segmento quietNetwork 0 0 secondByte)).bind fun s =>
      (avanza twoBytes s (.segmento quietNetwork 0 0 firstByte)).bind fun u =>
      (avanza twoBytes u (.segmento quietNetwork 0 0 secondByte)).map fun t =>
        (s.sok.map TSok.seqSIN, s.ricevuti, u.sok.map fun k => (k.seqSIN, prossimo k 1),
          u.ricevuti, t.ricevuti)) =
      some (some 1000, [], some (1000, 1), [0x61], [0x61, 0x62]) := by
    rfl
  obtain ⟨s, hs, heval⟩ := Option.bind_eq_some_iff.mp heval
  obtain ⟨u, hu, heval⟩ := Option.bind_eq_some_iff.mp heval
  obtain ⟨t, ht, heval⟩ := Option.map_eq_some_iff.mp heval
  simp only [Prod.mk.injEq] at heval
  obtain ⟨hsok, hnone, husok, hone, hboth⟩ := heval
  have hearly : Expected twoBytes (.nuovo connectedSocket)
      (.segmento quietNetwork 0 0 secondByte) := by
    intro k hk
    obtain rfl := Option.some.inj hk
    refine safe_plain rfl (by decide +kernel) (by decide +kernel) fun htaken => ?_
    exact absurd htaken.1.1 (by decide +kernel)
  have hfirst : Expected twoBytes s (.segmento quietNetwork 0 0 firstByte) := by
    intro k hk
    rw [hk] at hsok
    refine safe_plain (Option.some.inj hsok).symm (by decide +kernel) (by decide +kernel)
      fun _ => ⟨Nat.zero_le _, ?_⟩
    rw [hnone]
    unfold prossimo
    split <;> decide
  have hsecond : Expected twoBytes u (.segmento quietNetwork 0 0 secondByte) := by
    intro k hk
    rw [hk] at husok
    obtain ⟨hseq, hnext⟩ := Prod.mk.inj (Option.some.inj husok)
    refine safe_plain hseq.symm (by decide +kernel) (by decide +kernel) fun _ => ?_
    rw [hone]
    change secondByte.pos ≤ prossimo k 1 ∧ prossimo k 1 < secondByte.pos + 2 ^ 31
    rw [hnext]
    decide
  have hrun : Run (Guarded (Expected twoBytes) (Computes (avanza twoBytes)))
      (.nuovo connectedSocket) _ t :=
    .cons ⟨hearly, hs⟩ (.cons ⟨hfirst, hu⟩ (.single ⟨hsecond, ht⟩))
  exact ⟨t, hrun, (streams_kept_when_expected connectedSocket_nuovo hrun).1, hboth⟩

/-- The options go to `bufRX` as if they were bytes of the stream. -/
theorem options_received : Nuovo twoBytes connectedSocket ∧
    ∃ t, Run (Computes (avanza twoBytes)) (.nuovo connectedSocket)
        [.segmento quietNetwork 0 0 segmentWithOptions] t ∧
      t.ricevuti = [1, 1, 1, 1, 0x61, 0x62] ∧ ¬ Integro twoBytes t := by
  obtain ⟨t, hstep, hbytes⟩ : ∃ t, avanza twoBytes (.nuovo connectedSocket)
      (.segmento quietNetwork 0 0 segmentWithOptions) = some t ∧
        t.ricevuti = [1, 1, 1, 1, 0x61, 0x62] := ⟨_, rfl, by decide +kernel⟩
  refine ⟨connectedSocket_nuovo, t, .single hstep, hbytes, fun h => ?_⟩
  have hreceived := h.fedele.received
  rw [hbytes] at hreceived
  exact absurd hreceived (by decide +kernel)

end OsdevArchive.ItaliOs
