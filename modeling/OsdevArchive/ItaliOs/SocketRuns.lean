import OsdevArchive.Lib.Runs
import OsdevArchive.ItaliOs.Socket

/-!
Runs of calls of the owner of a socket, between which bytes arrive: what each call gives, and
that both locks are free again.
-/

namespace OsdevArchive.ItaliOs

open OsdevArchive.Lib.ByteBuffer OsdevArchive.Lib.Runs

/-- Both locks are free. -/
def TSok.Libero (s : TSok) : Prop := s.flag &&& 3 = 0

/-- The bytes that have arrived and have not been read. -/
def TSok.arrivati (s : TSok) : List Byte := slice s.bufRX 0 s.buflenRX

/-- The characters of a text that `ricevi_str` keeps. -/
def validi (text : List Byte) : List Byte := text.filter fun ch => decide (Valido ch)

/-- What a reading of a line gives and leaves: nothing while the line is not complete, a line, or
the characters in front of the last one for which the caller has room. -/
inductive Letta (lungh : Nat) (dati : List Byte) : List Byte → List Byte → Prop where
  | niente : newline ∉ dati → (validi dati).length < lungh → Letta lungh dati [] dati
  | riga {text rest : List Byte} : dati = text ++ newline :: rest → newline ∉ text →
      (validi text).length ≤ lungh → Letta lungh dati (validi text) rest
  | pieno {text rest : List Byte} {ch : Byte} : dati = text ++ ch :: rest → newline ∉ text →
      Valido ch → (validi text).length + 1 = lungh → rest.head? ≠ some newline →
      Letta lungh dati (validi text) (ch :: rest)

/-- A socket, the bytes that have arrived, those that have left its buffer, and what the last
call gave. -/
structure Storia where
  sok : TSok
  tutti : List Byte
  letti : List Byte
  resi : List Byte

inductive Chiamata where
  | trasmetti (bufferTX : Buffer) (lungh : BitVec 16)
  | ricevi (lungh : BitVec 16)
  | riceviStr (lungh : BitVec 16)
  | arrivo (dati : List Byte)

/-- The bytes that have left the buffer are recorded. -/
def Storia.legge (s : Storia) (resi : List Byte) (sk : Option TSok) : Option Storia := do
  let sok ← sk
  some { s with
    sok := sok
    letti := s.letti ++ slice s.sok.bufRX 0 (s.sok.buflenRX - sok.buflenRX)
    resi := resi }

/-- A call of the owner, or the arrival of bytes for which there is room. -/
def perform (s : Storia) : Chiamata → Option Storia
  | .trasmetti bufferTX lungh => do
    let (_, sk) ← trasmetti s.sok.task (some s.sok) bufferTX lungh
    let sok ← sk
    some { s with sok := sok }
  | .ricevi lungh => do
    let (dati, sk) ← ricevi s.sok.task (some s.sok) lungh
    s.legge dati sk
  | .riceviStr lungh => do
    let ((tTCP1, buffTCP), sk) ← riceviStr s.sok.task (some s.sok) lungh
    s.legge (buffTCP.take tTCP1) sk
  | .arrivo dati =>
    if s.sok.buflenRX + dati.length < maxLunSk then
      some { s with
        sok := { s.sok with
          bufRX := copy s.sok.bufRX s.sok.buflenRX (fun i => dati.getD i 0) 0 dati.length
          buflenRX := s.sok.buflenRX + dati.length }
        tutti := s.tutti ++ dati }
    else some s

/-- Both locks are free again, and the call has done what it is for. That `ricevi_str` does not
look behind the arrived bytes means that its result is the one which these determine. -/
def Meets (s : Storia) (e : Chiamata) (t : Storia) : Prop :=
  t.sok.Libero ∧
  match e with
  | .trasmetti _ _ => t.sok.arrivati = s.sok.arrivati
  | .ricevi lungh => t.resi = s.sok.arrivati.take lungh.toNat ∧
      t.sok.arrivati = s.sok.arrivati.drop lungh.toNat
  | .riceviStr lungh => Letta lungh.toNat s.sok.arrivati t.resi t.sok.arrivati
  | .arrivo dati => t.sok.arrivati =
      s.sok.arrivati ++ if s.sok.buflenRX + dati.length < maxLunSk then dati else []

/-- `ricevi_str` comes to the end of the arrived bytes, and behind them there is still a newline. -/
def TSok.NewlineBehind (s : TSok) (lungh : Nat) : Prop :=
  s.bufRX s.buflenRX = newline ∧ newline ∉ s.arrivati ∧
    (validi s.arrivati.dropLast).length < lungh

instance TSok.instDecidableNewlineBehind (s : TSok) (lungh : Nat) :
    Decidable (s.NewlineBehind lungh) := inferInstanceAs (Decidable (_ ∧ _))

/-- The caller has room for a character or the line is empty, and no old newline ends it. -/
def TSok.LineAllowed (s : TSok) (lungh : Nat) : Prop :=
  (0 < lungh ∨ s.arrivati.head? = some newline) ∧ ¬ s.NewlineBehind lungh

instance TSok.instDecidableLineAllowed (s : TSok) (lungh : Nat) :
    Decidable (s.LineAllowed lungh) := inferInstanceAs (Decidable (_ ∧ _))

/-- There is room for what is sent, and lines are read as they should be. -/
def Allowed (s : Storia) : Chiamata → Prop
  | .trasmetti _ lungh => lungh.toNat + s.sok.buflenTX < maxLunSk
  | .ricevi _ => True
  | .riceviStr lungh => s.sok.LineAllowed lungh.toNat
  | .arrivo _ => True

instance instDecidableAllowed (s : Storia) : (e : Chiamata) → Decidable (Allowed s e)
  | .trasmetti _ _ => inferInstanceAs (Decidable (_ < _))
  | .ricevi _ => inferInstanceAs (Decidable True)
  | .riceviStr _ => inferInstanceAs (Decidable (TSok.LineAllowed _ _))
  | .arrivo _ => inferInstanceAs (Decidable True)

/-- Every byte that has arrived is in the buffer or has been read, in its order. -/
structure Intatto (s : Storia) : Prop where
  libero : s.sok.Libero
  lessTX : s.sok.buflenTX < maxLunSk
  lessRX : s.sok.buflenRX < maxLunSk
  all : s.tutti = s.letti ++ s.sok.arrivati

variable {s t : Storia} {k : TSok} {e : Chiamata} {lungh : BitVec 16} {bufRX : Buffer}
  {n left tTCP : Nat} {buffTCP dati : List Byte}

/-! ### Locks -/

theorem free_tx : ∀ flag : Byte, flag &&& 3 = 0 →
    flag &&& 1 = 0 ∧ (flag ||| 1) &&& 0xfe = flag := by
  decide +kernel

theorem held_tx : ∀ flag : Byte, flag &&& 3 = 0 → (flag ||| 1) &&& 3 ≠ 0 := by
  decide +kernel

theorem free_rx : ∀ flag : Byte, flag &&& 3 = 0 →
    flag &&& 2 = 0 ∧ (flag ||| 2) &&& 0xfd = flag := by
  decide +kernel

/-! ### Lines -/

theorem validi_append (text rest : List Byte) :
    validi (text ++ rest) = validi text ++ validi rest :=
  List.filter_append text rest

theorem uShort_eq {x : Int} (h : x = n) (hn : n < 65536) : uShort x = n := by
  unfold uShort
  omega

/-- Where the loop of `ricevi_str` stops. -/
theorem leggiStr_stops (bufRX : Buffer) (lungh left tTCP : Nat) (buffTCP : List Byte) :
    ∃ n ≤ left, leggiStr bufRX lungh left tTCP buffTCP =
        (tTCP + n, buffTCP ++ validi (slice bufRX tTCP n)) ∧
      newline ∉ slice bufRX tTCP n ∧
      (∀ j < n, (buffTCP ++ validi (slice bufRX tTCP j)).length < lungh) ∧
      (n = left ∨ lungh ≤ (buffTCP ++ validi (slice bufRX tTCP n)).length ∨
        bufRX (tTCP + n) = newline) := by
  have hnil : buffTCP ++ validi (slice bufRX tTCP 0) = buffTCP := List.append_nil buffTCP
  induction left generalizing tTCP buffTCP with
  | zero =>
    refine ⟨0, Nat.le_refl 0, ?_, List.not_mem_nil, fun j hj => absurd hj (Nat.not_lt_zero j),
      .inl rfl⟩
    rw [hnil]
    rfl
  | succ left ih =>
    unfold leggiStr
    split
    · rename_i hgo
      obtain ⟨n, hn, hrun, hno, hless, hstop⟩ := ih (tTCP + 1)
        (if Valido (bufRX tTCP) then buffTCP ++ [bufRX tTCP] else buffTCP) (List.append_nil _)
      have hnext (j : Nat) : (if Valido (bufRX tTCP) then buffTCP ++ [bufRX tTCP] else buffTCP) ++
          validi (slice bufRX (tTCP + 1) j) = buffTCP ++ validi (slice bufRX tTCP (j + 1)) := by
        rw [slice_succ]
        unfold validi
        rw [List.filter_cons]
        split
        · rw [if_pos (by simpa), List.append_assoc]
          rfl
        · rw [if_neg (by simpa)]
      have hplace : tTCP + 1 + n = tTCP + (n + 1) := by omega
      rw [hnext, hplace] at hrun hstop
      refine ⟨n + 1, Nat.succ_le_succ hn, hrun, ?_, fun j hj => ?_, ?_⟩
      · rw [slice_succ, List.mem_cons, not_or]
        exact ⟨Ne.symm hgo.2, hno⟩
      · cases j with
        | zero =>
          rw [hnil]
          exact hgo.1
        | succ j =>
          rw [← hnext]
          exact hless j (Nat.lt_of_succ_lt_succ hj)
      · exact hstop.imp_left (congrArg Nat.succ)
    · rename_i hstop
      refine ⟨0, Nat.zero_le _, ?_, List.not_mem_nil, fun j hj => absurd hj (Nat.not_lt_zero j),
        .inr ?_⟩
      · rw [hnil]
        rfl
      · rw [hnil]
        rw [not_and_or, Nat.not_lt, not_not] at hstop
        exact hstop

theorem arrivati_length (k : TSok) : k.arrivati.length = k.buflenRX := slice_length _ _ _

/-- The bytes from an offset on go to the beginning of `bufRX`. -/
theorem spostaRX_eq {x y : Int} {o : Nat} (hx : x = o) (hy : y = n - o) (ho : o ≤ n)
    (hn : n < maxLunSk) : spostaRX bufRX x y = some (copy bufRX 0 bufRX o (n - o)) := by
  unfold maxLunSk at hn
  have hlen : uShort y = n - o := uShort_eq (by omega) (by omega)
  unfold spostaRX
  rw [hlen, hx, if_pos (by unfold maxLunSk; omega), copymem_eq]
  rfl

/-- The first `o` bytes are taken away. -/
structure Toglie (k k' : TSok) (o : Nat) : Prop where
  frame : k' = { k with bufRX := k'.bufRX, buflenRX := k'.buflenRX }
  rx : k'.buflenRX = k.buflenRX - o
  rest : k'.arrivati = slice k.bufRX o (k.buflenRX - o)

theorem Toglie.split {k k' : TSok} {o : Nat} (h : Toglie k k' o) (ho : o ≤ k.buflenRX) :
    k.arrivati = slice k.bufRX 0 o ++ k'.arrivati := by
  obtain ⟨m, hm⟩ := Nat.exists_eq_add_of_le ho
  rw [h.rest]
  unfold TSok.arrivati
  rw [hm, slice_append, Nat.zero_add, Nat.add_sub_cancel_left]

theorem toglie_sposta (k : TSok) (o : Nat) (h : k.flag &&& 3 = 0) :
    Toglie k { k with
      bufRX := copy k.bufRX 0 k.bufRX o (k.buflenRX - o)
      buflenRX := k.buflenRX - o
      flag := (k.flag ||| 2) &&& 0xfd } o := by
  rw [(free_rx k.flag h).2]
  exact ⟨rfl, rfl, slice_copy _ _ _ _ _⟩

/-- What `ricevi_str` does where it is called as it should be. -/
def LeggeRiga (k : TSok) (lungh : BitVec 16) : Prop :=
  ∃ r k' o, riceviStr k.task (some k) lungh = some (r, some k') ∧ Toglie k k' o ∧
    o ≤ k.buflenRX ∧ Letta lungh.toNat k.arrivati (r.2.take r.1) k'.arrivati

/-- A newline comes first. -/
theorem leggeRiga_newline (hfree : k.Libero) (hroom : k.buflenRX < maxLunSk)
    (hrun : leggiStr k.bufRX lungh.toNat k.buflenRX 0 [] = (n, validi (slice k.bufRX 0 n)))
    (hno : newline ∉ slice k.bufRX 0 n) (hn : n < k.buflenRX) (hnl : k.bufRX n = newline)
    (hless : (validi (slice k.bufRX 0 n)).length ≤ lungh.toNat) : LeggeRiga k lungh := by
  have hsposta : spostaRX k.bufRX (n + 1) (k.buflenRX - n - 1) =
      some (copy k.bufRX 0 k.bufRX (n + 1) (k.buflenRX - (n + 1))) :=
    spostaRX_eq (by omega) (by omega) hn hroom
  have hlen : uShort (k.buflenRX - (n + 1)) = k.buflenRX - (n + 1) := by
    unfold maxLunSk at hroom
    exact uShort_eq (by omega) (by omega)
  have htoglie := toglie_sposta k (n + 1) hfree
  refine ⟨((validi (slice k.bufRX 0 n)).length, validi (slice k.bufRX 0 n) ++ [0]), _, n + 1, ?_,
    htoglie, hn, ?_⟩
  · unfold riceviStr
    dsimp only
    rw [if_pos rfl, if_neg (not_not.mpr (free_rx k.flag hfree).1), hrun]
    dsimp only
    rw [if_neg (not_not.mpr hnl), hsposta, hlen]
    rfl
  · have hsplit : k.arrivati = slice k.bufRX 0 n ++ newline :: slice k.bufRX (n + 1)
        (k.buflenRX - (n + 1)) := by
      rw [htoglie.split hn, htoglie.rest, slice_concat, Nat.zero_add, hnl, List.append_assoc]
      rfl
    rw [htoglie.rest, List.take_left' rfl]
    exact .riga hsplit hno hless

/-- The arrived bytes end first. -/
theorem leggeRiga_end (hfree : k.Libero)
    (hrun : leggiStr k.bufRX lungh.toNat k.buflenRX 0 [] =
      (k.buflenRX, validi (slice k.bufRX 0 k.buflenRX)))
    (hno : newline ∉ slice k.bufRX 0 k.buflenRX) (hnl : k.bufRX k.buflenRX ≠ newline)
    (hless : (validi (slice k.bufRX 0 k.buflenRX)).length < lungh.toNat) : LeggeRiga k lungh := by
  refine ⟨(0, validi (slice k.bufRX 0 k.buflenRX)), k, 0, ?_, ⟨rfl, rfl, rfl⟩, Nat.zero_le _,
    .niente hno hless⟩
  unfold riceviStr
  dsimp only
  rw [if_pos rfl, if_neg (not_not.mpr (free_rx k.flag hfree).1), hrun]
  dsimp only
  rw [if_pos hnl, if_pos hless, (free_rx k.flag hfree).2]

/-- The buffer of the caller ends first. -/
theorem leggeRiga_full (hfree : k.Libero) (hroom : k.buflenRX < maxLunSk)
    (hrun : leggiStr k.bufRX lungh.toNat k.buflenRX 0 [] =
      (n + 1, validi (slice k.bufRX 0 (n + 1))))
    (hno : newline ∉ slice k.bufRX 0 (n + 1)) (hn : n + 1 ≤ k.buflenRX)
    (hnl : k.bufRX (n + 1) ≠ newline) (hless : (validi (slice k.bufRX 0 n)).length < lungh.toNat)
    (hfull : lungh.toNat ≤ (validi (slice k.bufRX 0 (n + 1))).length) : LeggeRiga k lungh := by
  have hsposta : spostaRX k.bufRX ((n + 1 : Nat) - 1) (k.buflenRX - (n + 1 : Nat) + 1) =
      some (copy k.bufRX 0 k.bufRX n (k.buflenRX - n)) :=
    spostaRX_eq (by omega) (by omega) (by omega) hroom
  have hlen : uShort (k.buflenRX - ((n + 1 : Nat) - 1)) = k.buflenRX - n := by
    unfold maxLunSk at hroom
    exact uShort_eq (by omega) (by omega)
  have hlast : validi (slice k.bufRX 0 (n + 1)) =
      validi (slice k.bufRX 0 n) ++ validi [k.bufRX n] := by
    rw [slice_concat, Nat.zero_add, validi_append]
  have hvalid : Valido (k.bufRX n) := by
    by_contra hnot
    have hnone : validi [k.bufRX n] = [] := List.filter_cons_of_neg (by simpa)
    rw [hlast, hnone, List.append_nil] at hfull
    omega
  have hone : validi [k.bufRX n] = [k.bufRX n] := List.filter_cons_of_pos (by simpa)
  rw [hone] at hlast
  have hcount : (validi (slice k.bufRX 0 n)).length + 1 = lungh.toNat := by
    rw [hlast, List.length_append, List.length_singleton] at hfull
    omega
  have hret : uShort ((validi (slice k.bufRX 0 (n + 1))).length - 1) =
      (validi (slice k.bufRX 0 n)).length := by
    rw [hlast, List.length_append, List.length_singleton]
    exact uShort_eq (by omega) (by omega)
  have htoglie := toglie_sposta k n hfree
  refine ⟨((validi (slice k.bufRX 0 n)).length, validi (slice k.bufRX 0 (n + 1)) ++ [0]), _, n, ?_,
    htoglie, Nat.le_of_succ_le hn, ?_⟩
  · unfold riceviStr
    dsimp only
    rw [if_pos rfl, if_neg (not_not.mpr (free_rx k.flag hfree).1), hrun]
    dsimp only
    rw [if_pos hnl, if_neg (Nat.not_lt.mpr hfull), hsposta, hlen, hret]
    rfl
  · have hrest : slice k.bufRX n (k.buflenRX - n) =
        k.bufRX n :: slice k.bufRX (n + 1) (k.buflenRX - (n + 1)) := by
      rw [← slice_succ]
      congr 1
      omega
    have hsplit : k.arrivati =
        slice k.bufRX 0 n ++ k.bufRX n :: slice k.bufRX (n + 1) (k.buflenRX - (n + 1)) := by
      rw [htoglie.split (Nat.le_of_succ_le hn), htoglie.rest, hrest]
    rw [htoglie.rest, hrest, hlast, List.append_assoc, List.take_left' rfl]
    refine .pieno hsplit ?_ hvalid hcount ?_
    · rw [slice_concat, List.mem_append, not_or] at hno
      exact hno.1
    · obtain hend | hmore := Nat.eq_zero_or_pos (k.buflenRX - (n + 1))
      · rw [hend]
        exact Option.some_ne_none _ |>.symm
      · obtain ⟨m, hm⟩ := Nat.exists_eq_add_of_lt hmore
        rw [hm, Nat.zero_add, slice_succ]
        exact fun heq => hnl (Option.some.inj heq)

theorem validi_slice_le {m : Nat} (h : n ≤ m) (bufRX : Buffer) :
    (validi (slice bufRX 0 n)).length ≤ (validi (slice bufRX 0 m)).length := by
  obtain ⟨d, rfl⟩ := Nat.exists_eq_add_of_le h
  rw [slice_append, validi_append, List.length_append]
  exact Nat.le_add_right _ _

theorem validi_slice_succ (bufRX : Buffer) (n : Nat) :
    (validi (slice bufRX 0 (n + 1))).length ≤ (validi (slice bufRX 0 n)).length + 1 := by
  rw [slice_concat, validi_append, List.length_append]
  exact Nat.add_le_add_left (List.length_filter_le _ _) _

theorem arrivati_dropLast (k : TSok) : k.arrivati.dropLast = slice k.bufRX 0 (k.buflenRX - 1) := by
  rw [List.dropLast_eq_take, arrivati_length]
  exact slice_take (Nat.sub_le _ _) _ _

theorem arrivati_head (h : 0 < k.buflenRX) : k.arrivati.head? = some (k.bufRX 0) := by
  obtain ⟨m, hm⟩ := Nat.exists_eq_add_of_lt h
  unfold TSok.arrivati
  rw [hm, Nat.zero_add]
  rfl

/-- The bytes that `sposta_RX` has to move lie outside of the buffer. -/
theorem riceviStr_none (hfree : k.Libero)
    (hrun : leggiStr k.bufRX lungh.toNat k.buflenRX 0 [] = (n, validi (slice k.bufRX 0 n)))
    (hcall : (if k.bufRX n ≠ newline then
      spostaRX k.bufRX (n - 1) (k.buflenRX - n + 1) else
      spostaRX k.bufRX (n + 1) (k.buflenRX - n - 1)) = none)
    (hfull : k.bufRX n ≠ newline → lungh.toNat ≤ (validi (slice k.bufRX 0 n)).length) :
    riceviStr k.task (some k) lungh = none := by
  unfold riceviStr
  dsimp only
  rw [if_pos rfl, if_neg (not_not.mpr (free_rx k.flag hfree).1), hrun]
  dsimp only
  split at hcall
  · rename_i hnl
    rw [if_pos hnl, if_neg (Nat.not_lt.mpr (hfull hnl)), hcall]
    rfl
  · rename_i hnl
    rw [if_neg hnl, hcall]
    rfl

/-- The line ends with a newline that has arrived. -/
theorem lineAllowed_newline {m : Nat} (hn : n < k.buflenRX) (hnl : k.bufRX n = newline)
    (hfirst : 0 < n → 0 < m) : k.LineAllowed m := by
  constructor
  · obtain hzero | hpos := Nat.eq_zero_or_pos n
    · rw [hzero] at hnl hn
      rw [arrivati_head hn, hnl]
      exact .inr rfl
    · exact .inl (hfirst hpos)
  · intro hbehind
    apply hbehind.2.1
    apply List.mem_of_getElem? (i := n)
    unfold TSok.arrivati
    rw [slice_getElem hn, Nat.zero_add, hnl]

/-- The reading ends with the arrived bytes, at a newline that is an old one. -/
theorem not_lineAllowed_behind {m : Nat} (hnl : k.bufRX k.buflenRX = newline)
    (hno : newline ∉ k.arrivati)
    (hless : ∀ j < k.buflenRX, (validi (slice k.bufRX 0 j)).length < m) :
    ¬ k.LineAllowed m := by
  intro hok
  apply hok.2
  refine ⟨hnl, hno, ?_⟩
  rw [arrivati_dropLast]
  obtain hempty | hpos := Nat.eq_zero_or_pos k.buflenRX
  · obtain hroom | hhead := hok.1
    · rw [hempty]
      exact hroom
    · unfold TSok.arrivati at hhead
      rw [hempty] at hhead
      cases hhead
  · exact hless _ (Nat.sub_lt hpos Nat.one_pos)

/-- There is no room for a character, and the line has one. -/
theorem not_lineAllowed_zero (hnl : k.bufRX 0 ≠ newline) : ¬ k.LineAllowed 0 := by
  intro hok
  have hhead := hok.1.resolve_left (Nat.lt_irrefl 0)
  obtain hempty | hpos := Nat.eq_zero_or_pos k.buflenRX
  · unfold TSok.arrivati at hhead
    rw [hempty] at hhead
    cases hhead
  · rw [arrivati_head hpos] at hhead
    exact hnl (Option.some.inj hhead)

/-- The room is filled by the byte before the place where the reading ends. -/
theorem lineAllowed_full {m : Nat} (hpos : 0 < m) (hn : n ≤ k.buflenRX)
    (hnl : k.bufRX n ≠ newline) (hfull : m ≤ (validi (slice k.bufRX 0 n)).length) :
    k.LineAllowed m := by
  refine ⟨.inl hpos, fun hbehind => ?_⟩
  have hne : n ≠ k.buflenRX := fun heq => hnl (heq ▸ hbehind.1)
  have hmore := validi_slice_le (show n ≤ k.buflenRX - 1 by omega) k.bufRX
  have hfew := hbehind.2.2
  rw [arrivati_dropLast] at hfew
  omega

/-- `ricevi_str` reads a line as it should if and only if it is called so. -/
theorem riceviStr_cases (hfree : k.Libero) (hroom : k.buflenRX < maxLunSk) (lungh : BitVec 16) :
    LeggeRiga k lungh ∧ k.LineAllowed lungh.toNat ∨
      riceviStr k.task (some k) lungh = none ∧ ¬ k.LineAllowed lungh.toNat := by
  obtain ⟨n, hn, hrun, hno, hless, hstop⟩ :=
    leggiStr_stops k.bufRX lungh.toNat k.buflenRX 0 []
  rw [Nat.zero_add, List.nil_append] at hrun hstop
  have hfirst (hpos : 0 < n) : 0 < lungh.toNat := Nat.zero_lt_of_lt (hless 0 hpos)
  by_cases hnl : k.bufRX n = newline
  · obtain hlt | heq := Nat.lt_or_eq_of_le hn
    · -- a line, with its newline among the arrived bytes
      have hshort : (validi (slice k.bufRX 0 n)).length ≤ lungh.toNat := by
        cases n with
        | zero => exact Nat.zero_le _
        | succ n => exact Nat.le_trans (validi_slice_succ _ _) (hless n (Nat.lt_succ_self n))
      exact .inl ⟨leggeRiga_newline hfree hroom hrun hno hlt hnl hshort,
        lineAllowed_newline hlt hnl hfirst⟩
    · -- the newline is an old one
      subst heq
      refine .inr ⟨riceviStr_none hfree hrun ?_ (absurd hnl), not_lineAllowed_behind hnl hno hless⟩
      rw [if_neg (not_not.mpr hnl)]
      apply if_neg
      unfold uShort maxLunSk
      omega
  · by_cases hshort : (validi (slice k.bufRX 0 n)).length < lungh.toNat
    · -- all of the arrived bytes, without a newline
      have hend : n = k.buflenRX :=
        hstop.resolve_right (not_or.mpr ⟨Nat.not_le.mpr hshort, hnl⟩)
      rw [hend] at hrun hno hnl hshort
      exact .inl ⟨leggeRiga_end hfree hrun hno hnl hshort, .inl (Nat.zero_lt_of_lt hshort),
        fun hbehind => hnl hbehind.1⟩
    · rw [Nat.not_lt] at hshort
      cases n with
      | zero =>
        have hzero : lungh.toNat = 0 := Nat.le_zero.mp hshort
        refine .inr ⟨riceviStr_none hfree hrun ?_ fun _ => hshort, ?_⟩
        · rw [if_pos hnl]
          apply if_neg
          omega
        · rw [hzero]
          exact not_lineAllowed_zero hnl
      | succ n =>
        have hlast := hless n (Nat.lt_succ_self n)
        exact .inl ⟨leggeRiga_full hfree hroom hrun hno hn hnl hlast hshort,
          lineAllowed_full (hfirst (Nat.succ_pos n)) hn hnl hshort⟩

/-! ### Calls -/

/-- `ricevi` gives the first bytes that have arrived, as many as there is room for. -/
theorem ricevi_toglie (hfree : k.Libero) (lungh : BitVec 16) :
    ∃ k' o, ricevi k.task (some k) lungh = some (k.arrivati.take lungh.toNat, some k') ∧
      Toglie k k' o ∧ o ≤ k.buflenRX ∧ k'.arrivati = k.arrivati.drop lungh.toNat := by
  have hlock : ¬ k.flag &&& 2 ≠ 0 := not_not.mpr (free_rx k.flag hfree).1
  by_cases hall : k.buflenRX ≤ lungh.toNat
  · have hlength : k.arrivati.length ≤ lungh.toNat := by rwa [arrivati_length]
    refine ⟨{ k with buflenRX := 0 }, k.buflenRX, ?_, ⟨rfl, (Nat.sub_self _).symm, ?_⟩,
      Nat.le_refl _, ?_⟩
    · unfold ricevi
      dsimp only
      rw [if_pos rfl, if_neg hlock, if_pos hall, List.take_of_length_le hlength,
        (free_rx k.flag hfree).2]
      rfl
    · rw [Nat.sub_self]
      rfl
    · rw [List.drop_of_length_le hlength]
      rfl
  · have hle : lungh.toNat ≤ k.buflenRX := Nat.le_of_not_le hall
    have htoglie := toglie_sposta k lungh.toNat hfree
    refine ⟨_, lungh.toNat, ?_, htoglie, hle, ?_⟩
    · unfold ricevi
      dsimp only
      rw [if_pos rfl, if_neg hlock, if_neg hall, copymem_eq]
      unfold TSok.arrivati
      rw [slice_take hle]
    · rw [htoglie.rest]
      unfold TSok.arrivati
      rw [slice_drop hle, Nat.zero_add]

theorem legge_intatto {o : Nat} {k' : TSok} (hs : Intatto s) (h : Toglie s.sok k' o)
    (ho : o ≤ s.sok.buflenRX) (resi : List Byte) :
    ∃ t, s.legge resi (some k') = some t ∧ t.sok = k' ∧ t.resi = resi ∧ Intatto t := by
  refine ⟨_, rfl, rfl, rfl, ?_, ?_, ?_, ?_⟩
  · change k'.flag &&& 3 = 0
    rw [congrArg TSok.flag h.frame]
    exact hs.libero
  · change k'.buflenTX < maxLunSk
    rw [congrArg TSok.buflenTX h.frame]
    exact hs.lessTX
  · change k'.buflenRX < maxLunSk
    rw [h.rx]
    exact Nat.lt_of_le_of_lt (Nat.sub_le _ _) hs.lessRX
  · have hgone : s.sok.buflenRX - k'.buflenRX = o := by
      rw [h.rx]
      omega
    change s.tutti = s.letti ++ slice s.sok.bufRX 0 (s.sok.buflenRX - k'.buflenRX) ++ k'.arrivati
    rw [hs.all, h.split ho, hgone, List.append_assoc]

/-- `trasmetti` takes the bytes where there is room, and leaves the lock behind where not. -/
theorem trasmetti_cases (hs : Intatto s) (bufferTX : Nat → Byte) (lungh : BitVec 16) :
    (∃ t, perform s (.trasmetti bufferTX lungh) = some t ∧
      Meets s (.trasmetti bufferTX lungh) t ∧ Intatto t) ∧ Allowed s (.trasmetti bufferTX lungh) ∨
      (∀ t, perform s (.trasmetti bufferTX lungh) = some t →
        ¬ Meets s (.trasmetti bufferTX lungh) t) ∧ ¬ Allowed s (.trasmetti bufferTX lungh) := by
  have hlock : ¬ s.sok.flag &&& 1 ≠ 0 := not_not.mpr (free_tx s.sok.flag hs.libero).1
  by_cases hroom : lungh.toNat + s.sok.buflenTX < maxLunSk
  · refine .inl ⟨⟨{ s with sok := { s.sok with
      bufTX := copy s.sok.bufTX s.sok.buflenTX bufferTX 0 lungh.toNat
      buflenTX := s.sok.buflenTX + lungh.toNat
      timeout := 0
      flag := (s.sok.flag ||| 1) &&& 0xfe } }, ?_, ?_, ?_⟩, hroom⟩
    · unfold perform trasmetti
      dsimp only
      rw [if_pos rfl, if_neg hlock, if_pos hroom]
      rfl
    · refine ⟨?_, rfl⟩
      unfold TSok.Libero
      rw [(free_tx s.sok.flag hs.libero).2]
      exact hs.libero
    · refine ⟨?_, ?_, hs.lessRX, hs.all⟩
      · unfold TSok.Libero
        rw [(free_tx s.sok.flag hs.libero).2]
        exact hs.libero
      · change s.sok.buflenTX + lungh.toNat < maxLunSk
        omega
  · refine .inr ⟨fun t ht hmeets => ?_, hroom⟩
    unfold perform trasmetti at ht
    dsimp only at ht
    rw [if_pos rfl, if_neg hlock, if_neg hroom] at ht
    obtain rfl := Option.some.inj ht
    exact held_tx s.sok.flag hs.libero hmeets.1

/-- What arrives is appended where there is room for all of it. -/
theorem arrivo_meets (hs : Intatto s) (dati : List Byte) :
    ∃ t, perform s (.arrivo dati) = some t ∧ Meets s (.arrivo dati) t ∧ Intatto t := by
  by_cases hroom : s.sok.buflenRX + dati.length < maxLunSk
  · obtain ⟨t, ht⟩ : ∃ t : Storia, t = { s with
        sok := { s.sok with
          bufRX := copy s.sok.bufRX s.sok.buflenRX (fun i => dati.getD i 0) 0 dati.length
          buflenRX := s.sok.buflenRX + dati.length }
        tutti := s.tutti ++ dati } := ⟨_, rfl⟩
    have hnew : t.sok.arrivati = s.sok.arrivati ++ dati := by
      rw [ht]
      unfold TSok.arrivati
      dsimp only
      rw [slice_append, slice_copy_before (by omega), Nat.zero_add, slice_copy, slice_getD]
    refine ⟨t, ?_, ⟨?_, ?_⟩, ?_, ?_, ?_, ?_⟩
    · rw [ht]
      exact if_pos hroom
    · rw [ht]
      exact hs.libero
    · dsimp only
      rw [hnew, if_pos hroom]
    · rw [ht]
      exact hs.libero
    · rw [ht]
      exact hs.lessTX
    · rw [ht]
      exact hroom
    · have htutti : t.tutti = s.tutti ++ dati := by rw [ht]
      have hletti : t.letti = s.letti := by rw [ht]
      rw [hnew, htutti, hs.all, hletti, List.append_assoc]
  · refine ⟨s, if_neg hroom, ⟨hs.libero, ?_⟩, hs⟩
    dsimp only
    rw [if_neg hroom, List.append_nil]

/-- A call returns and does what it is for if and only if it is called as it should be. -/
theorem perform_cases (hs : Intatto s) (e : Chiamata) :
    (∃ t, perform s e = some t ∧ Meets s e t ∧ Intatto t) ∧ Allowed s e ∨
      (∀ t, perform s e = some t → ¬ Meets s e t) ∧ ¬ Allowed s e := by
  cases e with
  | trasmetti bufferTX lungh => exact trasmetti_cases hs bufferTX lungh
  | ricevi lungh =>
    obtain ⟨k', o, hrun, htoglie, ho, hrest⟩ := ricevi_toglie hs.libero lungh
    obtain ⟨t, hlegge, hsok, hresi, ht⟩ :=
      legge_intatto hs htoglie ho (s.sok.arrivati.take lungh.toNat)
    refine .inl ⟨⟨t, ?_, ⟨ht.libero, hresi, hsok ▸ hrest⟩, ht⟩, trivial⟩
    unfold perform
    dsimp only
    rw [hrun, Option.bind_eq_bind, Option.bind_some]
    exact hlegge
  | riceviStr lungh =>
    obtain ⟨⟨r, k', o, hrun, htoglie, ho, hletta⟩, hok⟩ | ⟨hnone, hnot⟩ :=
      riceviStr_cases hs.libero hs.lessRX lungh
    · obtain ⟨t, hlegge, hsok, hresi, ht⟩ := legge_intatto hs htoglie ho (r.2.take r.1)
      rw [← hsok, ← hresi] at hletta
      refine .inl ⟨⟨t, ?_, ⟨ht.libero, hletta⟩, ht⟩, hok⟩
      unfold perform
      dsimp only
      rw [hrun, Option.bind_eq_bind, Option.bind_some]
      exact hlegge
    · refine .inr ⟨fun t ht => ?_, hnot⟩
      unfold perform at ht
      dsimp only at ht
      rw [hnone] at ht
      cases ht
  | arrivo dati => exact .inl ⟨arrivo_meets hs dati, trivial⟩

/-- In a run from a whole history every call does what it is for if and only if each one is called
as it should be; then nothing is lost, and the next call returns and does what it is for if and only
if it is called so as well. -/
theorem calls_read_what_arrives {es : List Chiamata} (hs : Intatto s) :
    (Run (fun s e t => Computes perform s e t ∧ Meets s e t) s es t ↔
      Run (Guarded Allowed (Computes perform)) s es t) ∧
    (Run (Guarded Allowed (Computes perform)) s es t → Intatto t ∧
      ∀ e, (∃ u, perform t e = some u ∧ Meets t e u) ↔ Allowed t e) := by
  have hstep (s : Storia) (e : Chiamata) (t : Storia) (hs : Intatto s) (h : perform s e = some t) :
      (Meets s e t ↔ Allowed s e) ∧ (Meets s e t → Intatto t) := by
    obtain ⟨⟨u, hu, hmeets, hnext⟩, hok⟩ | ⟨hbad, hnot⟩ := perform_cases hs e
    · obtain rfl := Option.some.inj (hu.symm.trans h)
      exact ⟨iff_of_true hmeets hok, fun _ => hnext⟩
    · exact ⟨iff_of_false (hbad t h) hnot, fun hmeets => absurd hmeets (hbad t h)⟩
  refine ⟨Run.meets_iff_guarded (fun s e t hs h => (hstep s e t hs h).1)
    (fun s e t hs h => (hstep s e t hs h).2) hs, fun hrun => ?_⟩
  have ht : Intatto t := by
    apply hrun.guarded_invariant _ hs
    intro s e t hs hok h
    obtain ⟨hiff, hkeep⟩ := hstep s e t hs h
    exact hkeep (hiff.mpr hok)
  refine ⟨ht, fun e => ?_⟩
  obtain ⟨⟨u, hu, hmeets, -⟩, hok⟩ | ⟨hbad, hnot⟩ := perform_cases ht e
  · exact iff_of_true ⟨u, hu, hmeets⟩ hok
  · exact iff_of_false (fun ⟨u, hu, hmeets⟩ => hbad u hu hmeets) hnot

/-- A connected socket of the task 0, before anything has arrived. -/
def emptyHistory : Storia :=
  ⟨⟨.connesso, 0, 0, 0, 0, 0, fun _ => 0, fun _ => 0, 0, 0, 0, 0, 0, 0⟩, [], [], []⟩

theorem line_read_after_arrival :
    ∃ t, Run (fun s e t => Computes perform s e t ∧ Meets s e t) emptyHistory
      [.arrivo [0x61, newline, 0x62], .riceviStr 80] t ∧ t.resi = [0x61] ∧
        t.sok.arrivati = [0x62] := by
  obtain ⟨t, hrun, hresi, hrest⟩ : ∃ t, [.arrivo [0x61, newline, 0x62], .riceviStr 80].foldlM
      (checked Allowed perform) emptyHistory = some t ∧ t.resi = [0x61] ∧
        t.sok.arrivati = [0x62] := ⟨_, rfl, by decide +kernel, by decide +kernel⟩
  have hstart : Intatto emptyHistory := ⟨rfl, by decide, by decide, rfl⟩
  exact ⟨t, (calls_read_what_arrives hstart).1.mpr (Run.of_foldlM_checked hrun), hresi, hrest⟩

/-- The newline of the line that was read before ends the next one, before it is complete. -/
theorem old_newline_ends_line : Intatto emptyHistory ∧
    ∃ t, Run (Guarded Allowed (Computes perform)) emptyHistory
        [.arrivo [0x61, newline], .riceviStr 80, .arrivo [0x62]] t ∧
      ¬ ∃ u, perform t (.riceviStr 80) = some u ∧ Meets t (.riceviStr 80) u := by
  obtain ⟨t, hrun, hnone⟩ : ∃ t, [.arrivo [0x61, newline], .riceviStr 80, .arrivo [0x62]].foldlM
      (checked Allowed perform) emptyHistory = some t ∧
        (perform t (.riceviStr 80)).isNone = true := ⟨_, rfl, by decide +kernel⟩
  refine ⟨⟨rfl, by decide, by decide, rfl⟩, t, Run.of_foldlM_checked hrun, ?_⟩
  rintro ⟨u, hu, -⟩
  rw [hu] at hnone
  cases hnone

end OsdevArchive.ItaliOs
