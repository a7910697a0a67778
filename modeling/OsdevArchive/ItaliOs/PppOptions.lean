import OsdevArchive.ItaliOs.Ppp
import OsdevArchive.Lib.Options

/-!
The options of LCP and IPCP frames in ItaliOs 0.1.1 (`net/ppp.c`): the loops of `riceviPPP` over
what the peer sends, and the reply that two of them build. Where these loops end, what they read and
which options are in the reply is said for any body of a loop that keeps to `Corpo`.
-/

namespace OsdevArchive.ItaliOs

open OsdevArchive.Lib.ByteBuffer OsdevArchive.Lib.Options

/-! ### The frame -/

/-- `ppp_dati`. -/
def pppDati (ppp : Buffer) : Buffer := fun t => ppp (9 + t)

/-- `scbyte(ppp_len)-4`. -/
def lungOpzioni (ppp : Buffer) : Nat := pppLen ppp - 4

/-- `ppp_dati[t+1]`, the step of all loops. -/
def lungOpzione (dati : Buffer) (t : Nat) : Nat := (dati (t + 1)).toNat

/-- A loop over the options, for `fuel` tests at most. -/
def cicloOpzioni {σ : Type} (ppp : Buffer) (corpo : Nat → σ → σ) (fuel : Nat) (s : σ) : Option σ :=
  walk (lungOpzione (pppDati ppp)) (lungOpzioni ppp) corpo fuel 0 s

/-! ### Replies -/

/-- What the loops of the replies keep: `tPPP`, `ppp_ack`, `pppout_dati`, `IPremoto`, and the places
in `ppp_dati` that they have read. -/
structure Risposta where
  tPPP : Nat
  pppAck : Nat
  pppoutDati : Buffer
  ipRemoto : BitVec 32
  letti : List Nat

/-- `"\x03\x04\xc0\x23"`: PAP. -/
def suggerita : List Byte := [0x03, 0x04, 0xc0, 0x23]

/-- The suggestion for an option with the answer 3. -/
def Risposta.suggerisci (ack2 : Nat) (s : Risposta) : Risposta :=
  if ack2 = 3 ∧ s.pppAck ≠ 4 then
    { s with
      pppoutDati := copy s.pppoutDati s.tPPP (fun i => suggerita.getD i 0) 0 4
      tPPP := s.tPPP + 4 }
  else s

/-- `if ((ppp_ack2==4)&&(ppp_ack<4)) tPPP=0;` -/
def Risposta.riparti (ack2 : Nat) (s : Risposta) : Risposta :=
  if ack2 = 4 ∧ s.pppAck < 4 then { s with tPPP := 0 } else s

/-- An option with the answer `ack2` is copied, where the answer so far is `ack`. -/
def Copiata (ack ack2 : Nat) : Prop := (ack ≠ 4 ∨ ack2 = 4) ∧ ack2 ≠ 3

instance (ack ack2 : Nat) : Decidable (Copiata ack ack2) := inferInstanceAs (Decidable (_ ∧ _))

/-- The copy of an option. The length is read again, from the copy. -/
def Risposta.copia (dati : Buffer) (t ack2 : Nat) (s : Risposta) : Risposta :=
  if Copiata s.pppAck ack2 then
    let pppoutDati := copy s.pppoutDati s.tPPP dati t (lungOpzione dati t)
    { s with
      pppoutDati := pppoutDati
      tPPP := s.tPPP + lungOpzione pppoutDati s.tPPP
      letti := s.letti ++ List.range' t (lungOpzione dati t) }
  else s

/-- `if (ppp_ack<ppp_ack2) ppp_ack=ppp_ack2;` -/
def Risposta.rispondi (ack2 : Nat) (s : Risposta) : Risposta :=
  if s.pppAck < ack2 then { s with pppAck := ack2 } else s

/-- What an option with the answer `ack2` does. Only the loop for LCP has the answer 3, and tests
for it in front of the copy. -/
def Risposta.opzione (dati : Buffer) (t ack2 : Nat) (s : Risposta) : Risposta :=
  let s := { s with letti := s.letti ++ [t, t + 1] }
  (((s.suggerisci ack2).riparti ack2).copia dati t ack2).rispondi ack2

/-- `ppp_ack2` of `TxLCPConfAckNack`. -/
def lcpAck2 (dati : Buffer) (t : Nat) : Nat :=
  if dati t = 3 ∧ dati (t + 1) = 5 then 3
  else if dati t = 2 then 2
  else if dati t = 3 ∧ dati (t + 1) = 4 then 2
  else 4

/-- `ppp_ack2` of `TxIPCPConfAckNack`. -/
def ipcpAck2 (dati : Buffer) (t : Nat) : Nat := if dati t = 3 ∧ dati (t + 1) = 6 then 2 else 4

/-- The places of the address of an option. -/
def indirizzo (t : Nat) : List Nat := [t + 2, t + 3, t + 4, t + 5]

/-- The body of the loop of `TxLCPConfAckNack`. -/
def lcpOpzione (dati : Buffer) (t : Nat) (s : Risposta) : Risposta :=
  s.opzione dati t (lcpAck2 dati t)

/-- The body of the loop of `TxIPCPConfAckNack`. -/
def ipcpOpzione (dati : Buffer) (t : Nat) (s : Risposta) : Risposta :=
  let s := if ipcpAck2 dati t = 2 then
      { s with ipRemoto := word dati (t + 2), letti := s.letti ++ indirizzo t }
    else s
  s.opzione dati t (ipcpAck2 dati t)

/-- The arguments of `PPPout`, and the options behind the header. -/
structure FrameInviato where
  code : Nat
  id : Byte
  control : Byte
  proto : BitVec 16
  len : Nat
  dati : Buffer

/-- The start of both loops. -/
def rispostaIniziale (pppoutDati : Buffer) (ipRemoto : BitVec 32) : Risposta :=
  { tPPP := 0, pppAck := 2, pppoutDati := pppoutDati, ipRemoto := ipRemoto, letti := [] }

def Risposta.invia (ppp : Buffer) (proto : BitVec 16) (s : Risposta) : FrameInviato :=
  { code := s.pppAck, id := ppp 6, control := 0x03, proto := proto, len := s.tPPP + 11 - 7,
    dati := s.pppoutDati }

/-- `TxLCPConfAckNack`: what the loop leaves, and the reply. -/
def txLCPConfAckNack (ppp pppoutDati : Buffer) (ipRemoto : BitVec 32) (fuel : Nat) :
    Option (Risposta × FrameInviato) :=
  (cicloOpzioni ppp (lcpOpzione (pppDati ppp)) fuel (rispostaIniziale pppoutDati ipRemoto)).map
    fun s => (s, s.invia ppp 0xc021)

/-- `TxIPCPConfAckNack`. -/
def txIPCPConfAckNack (ppp pppoutDati : Buffer) (ipRemoto : BitVec 32) (fuel : Nat) :
    Option (Risposta × FrameInviato) :=
  (cicloOpzioni ppp (ipcpOpzione (pppDati ppp)) fuel (rispostaIniziale pppoutDati ipRemoto)).map
    fun s => (s, s.invia ppp 0x8021)

/-! ### Answers of the peer -/

/-- The addresses that the peer can change, and the places that the loops have read. -/
structure Locale where
  ipLocale : BitVec 32
  ipDNS1 : BitVec 32
  ipDNS2 : BitVec 32
  letti : List Nat

/-- The places of the address of an option, if its type is one of the three. -/
def rxAltri (dati : Buffer) (t : Nat) : List Nat :=
  if (dati t = 3 ∨ dati t = 0x81 ∨ dati t = 0x83) ∧ dati (t + 1) = 6 then indirizzo t else []

/-- The body of the loops of `RxIPCPConfNack` and `RxIPCPConfAck`. -/
def rxOpzione (dati : Buffer) (t : Nat) (s : Locale) : Locale :=
  let s := if dati t = 3 ∧ dati (t + 1) = 6 then { s with ipLocale := word dati (t + 2) } else s
  let s := if dati t = 0x81 ∧ dati (t + 1) = 6 then { s with ipDNS1 := word dati (t + 2) } else s
  let s := if dati t = 0x83 ∧ dati (t + 1) = 6 then { s with ipDNS2 := word dati (t + 2) } else s
  { s with letti := s.letti ++ rxAltri dati t ++ [t, t + 1] }

/-- `RxIPCPConfNack` and `RxIPCPConfAck`, for the code that they look for. -/
def rxIPCP (code : Byte) (stato : BitVec 32) (ppp : Buffer) (s : Locale) (fuel : Nat) :
    Option (Locale × Bool) :=
  if stato &&& 0x4000 ≠ 0 ∧ ppp 5 = code then
    (cicloOpzioni ppp (rxOpzione (pppDati ppp)) fuel { s with letti := [] }).map fun s => (s, true)
  else some ({ s with letti := [] }, false)

/-- `RxIPCPConfNack`. -/
def rxIPCPConfNack := rxIPCP 3

/-- `RxIPCPConfAck`. -/
def rxIPCPConfAck := rxIPCP 2

variable {dati : Buffer} {t a : Nat} {s : Risposta}

/-! ### One option -/

@[simp] theorem suggerisci_pppAck : (s.suggerisci a).pppAck = s.pppAck := by
  unfold Risposta.suggerisci
  split <;> rfl

@[simp] theorem suggerisci_letti : (s.suggerisci a).letti = s.letti := by
  unfold Risposta.suggerisci
  split <;> rfl

@[simp] theorem riparti_pppAck : (s.riparti a).pppAck = s.pppAck := by
  unfold Risposta.riparti
  split <;> rfl

@[simp] theorem riparti_letti : (s.riparti a).letti = s.letti := by
  unfold Risposta.riparti
  split <;> rfl

@[simp] theorem copia_pppAck : (s.copia dati t a).pppAck = s.pppAck := by
  unfold Risposta.copia
  split <;> rfl

@[simp] theorem rispondi_letti : (s.rispondi a).letti = s.letti := by
  unfold Risposta.rispondi
  split <;> rfl

@[simp] theorem rispondi_pppAck : (s.rispondi a).pppAck = max s.pppAck a := by
  unfold Risposta.rispondi
  split
  · rename_i hlt
    exact (Nat.max_eq_right hlt.le).symm
  · rename_i hle
    exact (Nat.max_eq_left (Nat.not_lt.mp hle)).symm

theorem opzione_pppAck : (s.opzione dati t a).pppAck = max s.pppAck a := by
  unfold Risposta.opzione
  simp only [rispondi_pppAck, copia_pppAck, riparti_pppAck, suggerisci_pppAck]

theorem copia_letti : (s.copia dati t a).letti =
    s.letti ++ if Copiata s.pppAck a then List.range' t (lungOpzione dati t) else [] := by
  unfold Risposta.copia
  split
  · rfl
  · exact (List.append_nil _).symm

theorem opzione_letti : (s.opzione dati t a).letti = s.letti ++ [t, t + 1] ++
    if Copiata s.pppAck a then List.range' t (lungOpzione dati t) else [] := by
  unfold Risposta.opzione
  simp only [rispondi_letti, copia_letti, riparti_letti, riparti_pppAck, suggerisci_letti,
    suggerisci_pppAck]

/-- The options that the reply has so far. -/
def Risposta.contenuto (s : Risposta) : List Byte := slice s.pppoutDati 0 s.tPPP

@[simp] theorem rispondi_contenuto : (s.rispondi a).contenuto = s.contenuto := by
  unfold Risposta.rispondi
  split <;> rfl

theorem slice_suggerita : slice (fun i => suggerita.getD i 0) 0 4 = suggerita := by
  decide

theorem suggerisci_contenuto : (s.suggerisci a).contenuto =
    s.contenuto ++ if a = 3 ∧ s.pppAck ≠ 4 then suggerita else [] := by
  unfold Risposta.suggerisci
  split
  · unfold Risposta.contenuto
    dsimp only
    rw [slice_append, Nat.zero_add, slice_copy_before (by omega), slice_copy, slice_suggerita]
  · exact (List.append_nil _).symm

theorem riparti_contenuto : (s.riparti a).contenuto =
    if a = 4 ∧ s.pppAck < 4 then [] else s.contenuto := by
  unfold Risposta.riparti
  split <;> rfl

/-- A copied option has its own length byte in the reply, if it has a length byte. -/
theorem copia_contenuto (hlen : Copiata s.pppAck a → 2 ≤ lungOpzione dati t) :
    (s.copia dati t a).contenuto =
      s.contenuto ++ if Copiata s.pppAck a then slice dati t (lungOpzione dati t) else [] := by
  unfold Risposta.copia
  split
  · rename_i hcopia
    have htwo := hlen hcopia
    have hbyte : lungOpzione (copy s.pppoutDati s.tPPP dati t (lungOpzione dati t)) s.tPPP =
        lungOpzione dati t := by
      have hinside : copy s.pppoutDati s.tPPP dati t (lungOpzione dati t) (s.tPPP + 1) =
          dati (t + 1) :=
        copy_inside (by omega)
      unfold lungOpzione at hinside ⊢
      rw [hinside]
    unfold Risposta.contenuto
    dsimp only
    rw [hbyte, slice_append, Nat.zero_add, slice_copy_before (by omega), slice_copy]
  · exact (List.append_nil _).symm

/-- What is in the reply behind an option. -/
theorem opzione_contenuto (hlen : Copiata s.pppAck a → 2 ≤ lungOpzione dati t) :
    (s.opzione dati t a).contenuto =
      (if a = 4 ∧ s.pppAck < 4 then [] else s.contenuto) ++
        if a = 3 then (if s.pppAck ≠ 4 then suggerita else [])
        else if s.pppAck ≠ 4 ∨ a = 4 then slice dati t (lungOpzione dati t) else [] := by
  have hstart : ({ s with letti := s.letti ++ [t, t + 1] } : Risposta).contenuto = s.contenuto :=
    rfl
  unfold Risposta.opzione
  rw [rispondi_contenuto, copia_contenuto (by simpa using hlen)]
  simp only [riparti_contenuto, riparti_pppAck, suggerisci_pppAck, suggerisci_contenuto, hstart]
  by_cases ha : a = 3
  · subst ha
    simp [Copiata]
  · simp [Copiata, ha]

/-! ### The loops -/

/-- The body of a loop of replies, with the answer to each option and what it reads of it beyond its
first two bytes and its copy. -/
structure Corpo (dati : Buffer) (corpo : Nat → Risposta → Risposta) (ack2 : Nat → Nat)
    (altri : Nat → List Nat) : Prop where
  cases : ∀ t, ack2 t = 2 ∨ ack2 t = 3 ∨ ack2 t = 4
  pppAck : ∀ t s, (corpo t s).pppAck = max s.pppAck (ack2 t)
  letti : ∀ t s, (corpo t s).letti = s.letti ++ altri t ++ [t, t + 1] ++
    if Copiata s.pppAck (ack2 t) then List.range' t (lungOpzione dati t) else []
  contenuto : ∀ t s, (Copiata s.pppAck (ack2 t) → 2 ≤ lungOpzione dati t) →
    (corpo t s).contenuto =
      (if ack2 t = 4 ∧ s.pppAck < 4 then [] else s.contenuto) ++
        if ack2 t = 3 then (if s.pppAck ≠ 4 then suggerita else [])
        else if s.pppAck ≠ 4 ∨ ack2 t = 4 then slice dati t (lungOpzione dati t) else []

theorem lcpOpzione_corpo (dati : Buffer) :
    Corpo dati (lcpOpzione dati) (lcpAck2 dati) fun _ => [] := by
  refine ⟨fun t => ?_, fun t s => opzione_pppAck, fun t s => ?_, fun t s => opzione_contenuto⟩
  · unfold lcpAck2
    split
    · decide
    · split
      · decide
      · split <;> decide
  · rw [List.append_nil]
    exact opzione_letti

/-- The address of an option that is acknowledged. -/
def ipcpAltri (dati : Buffer) (t : Nat) : List Nat :=
  if ipcpAck2 dati t = 2 then indirizzo t else []

theorem ipcpOpzione_corpo (dati : Buffer) :
    Corpo dati (ipcpOpzione dati) (ipcpAck2 dati) (ipcpAltri dati) := by
  refine ⟨fun t => ?_, fun t s => ?_, fun t s => ?_, fun t s hlen => ?_⟩
  · unfold ipcpAck2
    split <;> decide
  · unfold ipcpOpzione
    dsimp only
    rw [opzione_pppAck]
    split <;> rfl
  · unfold ipcpOpzione ipcpAltri
    dsimp only
    rw [opzione_letti]
    split
    · rfl
    · rw [List.append_nil]
  · unfold ipcpOpzione
    dsimp only
    by_cases ha : ipcpAck2 dati t = 2
    · rw [if_pos ha]
      exact opzione_contenuto hlen
    · rw [if_neg ha]
      exact opzione_contenuto hlen

/-- The answer to options, which starts from `a`. -/
def rispostaDa (ack2 : Nat → Nat) (a : Nat) (ts : List Nat) : Nat :=
  ts.foldl (fun a t => max a (ack2 t)) a

/-- The answer to the options at `ts`: the largest one. -/
def risposta (ack2 : Nat → Nat) (ts : List Nat) : Nat := rispostaDa ack2 2 ts

/-- What an option becomes in a reply. -/
def pezzo (dati : Buffer) (ack2 : Nat → Nat) (t : Nat) : List Byte :=
  if ack2 t = 3 then suggerita else slice dati t (lungOpzione dati t)

/-- The options in a reply that has all of them, or the rejected ones if there are any. -/
def pezzi (dati : Buffer) (ack2 : Nat → Nat) (ts : List Nat) : List (List Byte) :=
  (if risposta ack2 ts = 4 then ts.filter (ack2 · = 4) else ts).map (pezzo dati ack2)

variable {corpo : Nat → Risposta → Risposta} {ack2 : Nat → Nat} {altri : Nat → List Nat}
variable {ts : List Nat} {n stop : Nat}

/-- The loop over the options at `ts`. -/
def corpi (corpo : Nat → Risposta → Risposta) (ts : List Nat) (s : Risposta) : Risposta :=
  ts.foldl (fun s t => corpo t s) s

theorem risposta_concat (ack2 : Nat → Nat) (ts : List Nat) (t : Nat) :
    risposta ack2 (ts ++ [t]) = max (risposta ack2 ts) (ack2 t) :=
  List.foldl_concat ..

theorem corpi_concat (corpo : Nat → Risposta → Risposta) (ts : List Nat) (t : Nat)
    (s : Risposta) : corpi corpo (ts ++ [t]) s = corpo t (corpi corpo ts s) :=
  List.foldl_concat ..

theorem Corpo.risposta_cases (h : Corpo dati corpo ack2 altri) (ts : List Nat) :
    risposta ack2 ts = 2 ∨ risposta ack2 ts = 3 ∨ risposta ack2 ts = 4 := by
  induction ts using List.reverseRecOn with
  | nil => exact Or.inl rfl
  | append_singleton ts t ih =>
    have hcases := h.cases t
    rw [risposta_concat]
    omega

theorem Corpo.risposta_eq_four (h : Corpo dati corpo ack2 altri) (ts : List Nat) :
    risposta ack2 ts = 4 ↔ ∃ t ∈ ts, ack2 t = 4 := by
  induction ts using List.reverseRecOn with
  | nil => exact iff_of_false (Nat.ne_of_lt (by decide : 2 < 4)) (by simp)
  | append_singleton ts t ih =>
    have hcases := h.cases t
    have hbefore := h.risposta_cases ts
    rw [risposta_concat]
    simp only [List.mem_append, List.mem_singleton, or_and_right, exists_or, exists_eq_left, ← ih]
    omega

theorem Corpo.pezzi_concat (h : Corpo dati corpo ack2 altri) (ts : List Nat) (t : Nat) :
    pezzi dati ack2 (ts ++ [t]) =
      (if ack2 t = 4 ∧ risposta ack2 ts < 4 then [] else pezzi dati ack2 ts) ++
        if risposta ack2 ts = 4 ∧ ack2 t ≠ 4 then [] else [pezzo dati ack2 t] := by
  have hcases := h.cases t
  have hbefore := h.risposta_cases ts
  unfold pezzi
  rw [risposta_concat]
  by_cases ha : ack2 t = 4
  · have hmax : max (risposta ack2 ts) (ack2 t) = 4 := by omega
    have hkeep : ¬ (risposta ack2 ts = 4 ∧ ack2 t ≠ 4) := fun hand => hand.2 ha
    rw [if_pos hmax, if_neg hkeep, List.filter_append, List.filter_singleton, decide_eq_true ha,
      List.map_append]
    by_cases hr : risposta ack2 ts = 4
    · have hfirst : ¬ (ack2 t = 4 ∧ risposta ack2 ts < 4) := by omega
      rw [if_neg hfirst, if_pos hr]
      rfl
    · have hfirst : ack2 t = 4 ∧ risposta ack2 ts < 4 := by omega
      have hnone : ts.filter (ack2 · = 4) = [] := by
        rw [List.filter_eq_nil_iff]
        intro u hu hu4
        exact hr ((h.risposta_eq_four ts).mpr ⟨u, hu, of_decide_eq_true hu4⟩)
      rw [if_pos hfirst, hnone]
      rfl
  · have hfirst : ¬ (ack2 t = 4 ∧ risposta ack2 ts < 4) := fun hand => ha hand.1
    rw [if_neg hfirst]
    by_cases hr : risposta ack2 ts = 4
    · have hmax : max (risposta ack2 ts) (ack2 t) = 4 := by omega
      rw [if_pos hmax, if_pos hr, if_pos ⟨hr, ha⟩, List.filter_append, List.filter_singleton,
        decide_eq_false ha, cond_false, List.append_nil, List.append_nil]
    · have hmax : max (risposta ack2 ts) (ack2 t) ≠ 4 := by omega
      rw [if_neg hmax, if_neg hr, if_neg fun hand => hr hand.1, List.map_append]
      rfl

/-- The answer so far, and, if all options in the reply have their length byte, the options. -/
theorem Corpo.invariant (h : Corpo dati corpo ack2 altri) (pppoutDati : Buffer)
    (ipRemoto : BitVec 32) (ts : List Nat) :
    (corpi corpo ts (rispostaIniziale pppoutDati ipRemoto)).pppAck = risposta ack2 ts ∧
      ((∀ p ∈ pezzi dati ack2 ts, Formed p) →
        (corpi corpo ts (rispostaIniziale pppoutDati ipRemoto)).contenuto =
          (pezzi dati ack2 ts).flatten) := by
  induction ts using List.reverseRecOn with
  | nil => exact ⟨rfl, fun _ => rfl⟩
  | append_singleton ts t ih =>
    obtain ⟨hack, hcontenuto⟩ := ih
    have hcases := h.cases t
    have hbefore := h.risposta_cases ts
    rw [corpi_concat, h.pppAck, hack, risposta_concat]
    refine ⟨rfl, fun hformed => ?_⟩
    rw [h.pezzi_concat] at hformed ⊢
    have hlen : Copiata (risposta ack2 ts) (ack2 t) → 2 ≤ lungOpzione dati t := by
      rintro ⟨hcopia, hne⟩
      have hp := hformed (pezzo dati ack2 t) (List.mem_append_right _ (by
        rw [if_neg (by omega)]
        exact List.mem_singleton_self _))
      unfold pezzo at hp
      rw [if_neg hne] at hp
      have htwo := hp.two_le
      rwa [slice_length] at htwo
    rw [h.contenuto _ _ (by rw [hack]; exact hlen), hack, List.flatten_append]
    congr 1
    · split
      · rfl
      · rename_i hfirst
        apply hcontenuto
        intro p hp
        apply hformed p
        rw [if_neg hfirst]
        exact List.mem_append_left _ hp
    · unfold pezzo
      by_cases hthree : ack2 t = 3
      · rw [if_pos hthree, if_pos hthree]
        by_cases hr : risposta ack2 ts = 4
        · rw [if_neg (not_not.mpr hr), if_pos (by omega)]
          rfl
        · rw [if_pos hr, if_neg fun hand => hr hand.1]
          exact (List.append_nil _).symm
      · rw [if_neg hthree, if_neg hthree]
        by_cases hr : risposta ack2 ts ≠ 4 ∨ ack2 t = 4
        · rw [if_pos hr, if_neg (by omega)]
          exact (List.append_nil _).symm
        · rw [if_neg hr, if_pos (by omega)]
          rfl

end OsdevArchive.ItaliOs
