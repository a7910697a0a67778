import OsdevArchive.ItaliOs.PppOptions

/-!
The exchange of options of ItaliOs 0.1.1: the frames whose options are read without leaving them,
and answered with the options that belong into the reply; when the four loops of `riceviPPP` keep to
the options of a frame, and when the replies have the options that they are about.
-/

namespace OsdevArchive.ItaliOs

open OsdevArchive.Lib.ByteBuffer OsdevArchive.Lib.Options

section

variable {dati : Buffer} {corpo : Nat → Risposta → Risposta} {ack2 : Nat → Nat}
variable {altri : Nat → List Nat} {ts : List Nat} {n stop a t : Nat} {s : Risposta}

/-! ### What the loops read -/

/-- The options at `ts` are read below `stop`, where the answer so far is `a`. -/
def Dentro (dati : Buffer) (ack2 : Nat → Nat) (altri : Nat → List Nat) (stop : Nat) :
    Nat → List Nat → Prop
  | _, [] => True
  | a, t :: ts =>
    ((∀ i ∈ altri t, i < stop) ∧ t + 1 < stop ∧
      (Copiata a (ack2 t) → t + lungOpzione dati t ≤ stop)) ∧
    Dentro dati ack2 altri stop (max a (ack2 t)) ts

theorem range'_lt_iff (ht : t < stop) (n : Nat) :
    (∀ i ∈ List.range' t n, i < stop) ↔ t + n ≤ stop := by
  constructor
  · intro h
    cases n with
    | zero => omega
    | succ n =>
      have hlast := h (t + n) (List.mem_range'_1.mpr (by omega))
      omega
  · intro h i hi
    have hlast := List.mem_range'_1.mp hi
    omega

theorem Corpo.letti_iff (h : Corpo dati corpo ack2 altri) (ht : t < stop) (s : Risposta) :
    (∀ i ∈ (corpo t s).letti, i < stop) ↔ (∀ i ∈ s.letti, i < stop) ∧
      (∀ i ∈ altri t, i < stop) ∧ t + 1 < stop ∧
        (Copiata s.pppAck (ack2 t) → t + lungOpzione dati t ≤ stop) := by
  rw [h.letti, ← range'_lt_iff ht]
  simp only [List.mem_append, or_imp, forall_and, List.mem_cons, List.not_mem_nil, or_false,
    forall_eq]
  by_cases hcopia : Copiata s.pppAck (ack2 t)
  · simp [hcopia, ht, and_assoc]
  · simp [hcopia, ht, and_assoc]

theorem Corpo.dentro_iff (h : Corpo dati corpo ack2 altri) (hts : ∀ t ∈ ts, t < stop)
    (s : Risposta) :
    (∀ i ∈ (corpi corpo ts s).letti, i < stop) ↔
      (∀ i ∈ s.letti, i < stop) ∧ Dentro dati ack2 altri stop s.pppAck ts := by
  induction ts generalizing s with
  | nil => exact (and_iff_left trivial).symm
  | cons t ts ih =>
    have ht := hts t List.mem_cons_self
    have hrest := ih (fun u hu => hts u (List.mem_cons_of_mem t hu)) (corpo t s)
    rw [h.pppAck, h.letti_iff ht] at hrest
    exact hrest.trans and_assoc

/-- The option is copied wherever it stands, or because no option is rejected. -/
def Presa (ack2 : Nat → Nat) (a : Nat) (ts : List Nat) (t : Nat) : Prop :=
  ack2 t = 4 ∨ ack2 t = 2 ∧ a ≠ 4 ∧ ∀ u ∈ ts, ack2 u ≠ 4

theorem presa_cons (hcases : ∀ t, ack2 t = 2 ∨ ack2 t = 3 ∨ ack2 t = 4) (ha : a ≤ 4) (u : Nat) :
    Presa ack2 a (t :: ts) u ↔ Presa ack2 (max a (ack2 t)) ts u := by
  have hc := hcases t
  have hmax : max a (ack2 t) ≠ 4 ↔ a ≠ 4 ∧ ack2 t ≠ 4 := by omega
  unfold Presa
  rw [List.forall_mem_cons, hmax, and_assoc]

/-- An option in front of another one ends below the end. -/
theorem presa_iff_copiata (hcases : ∀ t, ack2 t = 2 ∨ ack2 t = 3 ∨ ack2 t = 4)
    (hnext : ∀ u ∈ ts, t + lungOpzione dati t < stop) :
    (Copiata a (ack2 t) → t + lungOpzione dati t ≤ stop) ↔
      (Presa ack2 a (t :: ts) t → t + lungOpzione dati t ≤ stop) := by
  constructor
  · intro h hpresa
    apply h
    rcases hpresa with hfour | ⟨htwo, ha, -⟩
    · exact ⟨Or.inr hfour, by omega⟩
    · exact ⟨Or.inl ha, by omega⟩
  · rintro h ⟨hcopia, hthree⟩
    by_cases hfour : ack2 t = 4
    · exact h (Or.inl hfour)
    · have ha : a ≠ 4 := hcopia.resolve_right hfour
      by_cases hlater : ∃ u ∈ ts, ack2 u = 4
      · obtain ⟨u, hu, -⟩ := hlater
        exact (hnext u hu).le
      · apply h
        have htwo : ack2 t = 2 := by
          have hc := hcases t
          omega
        refine Or.inr ⟨htwo, ha, List.forall_mem_cons.mpr ⟨hfour, ?_⟩⟩
        intro u hu hu4
        exact hlater ⟨u, hu, hu4⟩

/-- Only the last option can reach beyond the end. -/
theorem dentro_visits_iff (hcases : ∀ t, ack2 t = 2 ∨ ack2 t = 3 ∨ ack2 t = 4) (ha : a ≤ 4) :
    Dentro dati ack2 altri stop a (visits (lungOpzione dati) stop n t) ↔
      (∀ u ∈ visits (lungOpzione dati) stop n t, (∀ i ∈ altri u, i < stop) ∧ u + 1 < stop) ∧
        ∀ u ∈ visits (lungOpzione dati) stop n t,
          Presa ack2 a (visits (lungOpzione dati) stop n t) u →
            u + lungOpzione dati u ≤ stop := by
  induction n generalizing a t with
  | zero => exact iff_of_true trivial ⟨by simp [visits], by simp [visits]⟩
  | succ n ih =>
    rcases Nat.lt_or_ge t stop with ht | hge
    · have hnext : ∀ u ∈ visits (lungOpzione dati) stop n (t + lungOpzione dati t),
          t + lungOpzione dati t < stop := by
        intro u hu
        by_contra hge
        rw [visits_nil (Nat.not_lt.mp hge)] at hu
        exact absurd hu List.not_mem_nil
      have hc := hcases t
      rw [visits_cons ht, Dentro, ih (a := max a (ack2 t)) (by omega)]
      simp only [List.forall_mem_cons, presa_iff_copiata hcases hnext, presa_cons hcases ha]
      tauto
    · rw [visits_nil hge]
      exact iff_of_true trivial ⟨by simp, by simp⟩

/-! ### The frames that are answered rightly -/

/-- The places of the options of a frame. -/
def opzioni (ppp : Buffer) : List Nat := places (lungOpzione (pppDati ppp)) (lungOpzioni ppp)

/-- The options that belong into the reply: those with the answer that is sent. -/
def attesi (dati : Buffer) (ack2 : Nat → Nat) (ts : List Nat) : List (List Byte) :=
  (ts.filter fun t => ack2 t = risposta ack2 ts).map (pezzo dati ack2)

/-- A function that builds a reply ends, reads only options, and sends exactly the options
`attesi`. -/
def Risponde (ppp : Buffer) (tx : Nat → Option (Risposta × FrameInviato)) (code : Nat)
    (attesi : List (List Byte)) : Prop :=
  ∃ fuel s r, tx fuel = some (s, r) ∧ (∀ i ∈ s.letti, i < lungOpzioni ppp) ∧ r.code = code ∧
    slice r.dati 0 (r.len - 4) = attesi.flatten ∧ ∀ p ∈ attesi, Formed p

/-- The options have a length byte in the frame that is not zero, and what else is read of them is
in the frame. -/
def Percorribile (ppp : Buffer) (altri : Nat → List Nat) : Prop :=
  ∀ t ∈ opzioni ppp, lungOpzione (pppDati ppp) t ≠ 0 ∧ t + 1 < lungOpzioni ppp ∧
    ∀ i ∈ altri t, i < lungOpzioni ppp

/-- The options that are copied into the reply have two bytes at least, and are in the frame. -/
def Copiabile (ppp : Buffer) (ack2 : Nat → Nat) : Prop :=
  ∀ t ∈ opzioni ppp, ack2 t ≠ 3 → (risposta ack2 (opzioni ppp) = 4 → ack2 t = 4) →
    2 ≤ lungOpzione (pppDati ppp) t ∧ t + lungOpzione (pppDati ppp) t ≤ lungOpzioni ppp

/-- A reply that suggests options does not repeat other ones. -/
def Separata (ppp : Buffer) (ack2 : Nat → Nat) : Prop :=
  risposta ack2 (opzioni ppp) = 3 → ∀ t ∈ opzioni ppp, ack2 t = 3

variable {ppp : Buffer} {pppoutDati : Buffer} {ipRemoto : BitVec 32} {proto : BitVec 16}

theorem pezzo_formed_iff (t : Nat) :
    Formed (pezzo dati ack2 t) ↔ (ack2 t ≠ 3 → 2 ≤ lungOpzione dati t) := by
  unfold pezzo
  split
  · rename_i hthree
    exact iff_of_true ⟨4, rfl, rfl⟩ fun hne => absurd hthree hne
  · rename_i hne
    constructor
    · intro hformed _
      have htwo := hformed.two_le
      rwa [slice_length] at htwo
    · intro htwo
      refine ⟨dati (t + 1), slice_getElem (htwo hne) dati t, ?_⟩
      rw [slice_length]
      rfl

/-- The reply, where the loop ends. -/
theorem Corpo.risponde_iff (h : Corpo (pppDati ppp) corpo ack2 altri) {code : Nat}
    {os : List (List Byte)} :
    Risponde ppp (fun fuel =>
        (cicloOpzioni ppp corpo fuel (rispostaIniziale pppoutDati ipRemoto)).map
          fun s => (s, s.invia ppp proto)) code os ↔
      (∀ t ∈ opzioni ppp, lungOpzione (pppDati ppp) t ≠ 0) ∧
        Dentro (pppDati ppp) ack2 altri (lungOpzioni ppp) 2 (opzioni ppp) ∧
        risposta ack2 (opzioni ppp) = code ∧
        (corpi corpo (opzioni ppp) (rispostaIniziale pppoutDati ipRemoto)).contenuto =
          os.flatten ∧
        ∀ p ∈ os, Formed p := by
  have hiff := walk_iff (lungOpzione (pppDati ppp)) (lungOpzioni ppp) corpo
    (rispostaIniziale pppoutDati ipRemoto) fun s =>
      (∀ i ∈ s.letti, i < lungOpzioni ppp) ∧ s.pppAck = code ∧ s.contenuto = os.flatten ∧
        ∀ p ∈ os, Formed p
  have hts : ∀ t ∈ opzioni ppp, t < lungOpzioni ppp := fun t ht => lt_of_mem_visits ht
  have hdentro := h.dentro_iff hts (rispostaIniziale pppoutDati ipRemoto)
  have hack := (h.invariant pppoutDati ipRemoto (opzioni ppp)).1
  have hempty : ∀ i ∈ (rispostaIniziale pppoutDati ipRemoto).letti, i < lungOpzioni ppp := by
    simp [rispostaIniziale]
  change _ ↔ (∀ u ∈ opzioni ppp, _) ∧ (∀ i ∈ (corpi corpo (opzioni ppp) _).letti, _) ∧
    (corpi corpo (opzioni ppp) _).pppAck = code ∧ _ at hiff
  rw [hdentro, hack, and_iff_right hempty] at hiff
  refine Iff.trans ?_ hiff
  constructor
  · rintro ⟨fuel, s, r, hr, hletti, hcode, hdati, hformed⟩
    obtain ⟨s', hs', heq⟩ := Option.map_eq_some_iff.mp hr
    obtain ⟨rfl, rfl⟩ := Prod.mk.inj heq
    exact ⟨fuel, s', hs', hletti, hcode, hdati, hformed⟩
  · rintro ⟨fuel, s, hs, hletti, hcode, hdati, hformed⟩
    refine ⟨fuel, s, s.invia ppp proto, ?_, hletti, hcode, hdati, hformed⟩
    change (cicloOpzioni ppp corpo fuel _).map _ = _
    rw [show cicloOpzioni ppp corpo fuel _ = some s from hs]
    rfl

theorem le_risposta (ht : t ∈ ts) : ack2 t ≤ risposta ack2 ts := by
  induction ts using List.reverseRecOn with
  | nil => exact absurd ht List.not_mem_nil
  | append_singleton ts u ih =>
    rw [risposta_concat]
    rcases List.mem_append.mp ht with hbefore | hlast
    · exact (ih hbefore).trans (Nat.le_max_left _ _)
    · rw [List.mem_singleton.mp hlast]
      exact Nat.le_max_right _ _

/-- The reply with all options, or with the rejected ones. -/
theorem Corpo.risponde_pezzi_iff (h : Corpo (pppDati ppp) corpo ack2 altri)
    (pppoutDati : Buffer) (ipRemoto : BitVec 32) (proto : BitVec 16) :
    Risponde ppp (fun fuel =>
        (cicloOpzioni ppp corpo fuel (rispostaIniziale pppoutDati ipRemoto)).map
          fun s => (s, s.invia ppp proto)) (risposta ack2 (opzioni ppp))
          (pezzi (pppDati ppp) ack2 (opzioni ppp)) ↔
      Percorribile ppp altri ∧ Copiabile ppp ack2 := by
  have hfour := h.risposta_eq_four (opzioni ppp)
  have hdentro : Dentro (pppDati ppp) ack2 altri (lungOpzioni ppp) 2 (opzioni ppp) ↔
      (∀ u ∈ opzioni ppp, (∀ i ∈ altri u, i < lungOpzioni ppp) ∧ u + 1 < lungOpzioni ppp) ∧
        ∀ u ∈ opzioni ppp, Presa ack2 2 (opzioni ppp) u →
          u + lungOpzione (pppDati ppp) u ≤ lungOpzioni ppp :=
    dentro_visits_iff h.cases (by decide)
  rw [h.risponde_iff, hdentro]
  have hmem (t : Nat) : (t ∈ opzioni ppp ∧ (risposta ack2 (opzioni ppp) = 4 → ack2 t = 4)) ↔
      t ∈ if risposta ack2 (opzioni ppp) = 4 then (opzioni ppp).filter (ack2 · = 4)
        else opzioni ppp := by
    by_cases hr : risposta ack2 (opzioni ppp) = 4
    · rw [if_pos hr, List.mem_filter, decide_eq_true_iff]
      exact and_congr_right fun _ => ⟨fun hall => hall hr, fun heq _ => heq⟩
    · rw [if_neg hr]
      exact ⟨fun hand => hand.1, fun ht => ⟨ht, fun heq => absurd heq hr⟩⟩
  have hformed : (∀ p ∈ pezzi (pppDati ppp) ack2 (opzioni ppp), Formed p) ↔
      ∀ t ∈ opzioni ppp, (risposta ack2 (opzioni ppp) = 4 → ack2 t = 4) → ack2 t ≠ 3 →
        2 ≤ lungOpzione (pppDati ppp) t := by
    unfold pezzi
    rw [List.forall_mem_map]
    simp only [← hmem, pezzo_formed_iff, and_imp]
  constructor
  · rintro ⟨hlen, ⟨hletti, hpresa⟩, -, -, hpezzi⟩
    refine ⟨fun t ht => ⟨hlen t ht, (hletti t ht).2, (hletti t ht).1⟩, ?_⟩
    intro t ht hthree hr
    refine ⟨hformed.mp hpezzi t ht hr hthree, hpresa t ht ?_⟩
    by_cases ht4 : ack2 t = 4
    · exact Or.inl ht4
    · have hcases := h.cases t
      refine Or.inr ⟨by omega, by decide, fun u hu hu4 => ht4 (hr (hfour.mpr ⟨u, hu, hu4⟩))⟩
  · rintro ⟨hpercorso, hcopia⟩
    have hall : ∀ p ∈ pezzi (pppDati ppp) ack2 (opzioni ppp), Formed p :=
      hformed.mpr fun t ht hr hthree => (hcopia t ht hthree hr).1
    refine ⟨fun t ht => (hpercorso t ht).1, ⟨fun t ht => ⟨(hpercorso t ht).2.2,
      (hpercorso t ht).2.1⟩, fun t ht hpresa => ?_⟩, rfl,
      (h.invariant pppoutDati ipRemoto (opzioni ppp)).2 hall, hall⟩
    rcases hpresa with ht4 | ⟨ht2, -, hnone⟩
    · exact (hcopia t ht (by omega) fun _ => ht4).2
    · refine (hcopia t ht (by omega) fun hr => ?_).2
      obtain ⟨u, hu, hu4⟩ := hfour.mp hr
      exact absurd hu4 (hnone u hu)

end

variable {corpo : Nat → Risposta → Risposta} {ack2 : Nat → Nat} {altri : Nat → List Nat}
variable {ppp pppoutDati dati : Buffer} {ipRemoto : BitVec 32} {proto : BitVec 16}
variable {ts : List Nat} {t : Nat} {s : Locale}

/-! ### Replies with one answer -/

theorem Corpo.attesi_eq_pezzi (h : Corpo dati corpo ack2 altri)
    (hthree : risposta ack2 ts = 3 → ∀ t ∈ ts, ack2 t = 3) :
    attesi dati ack2 ts = pezzi dati ack2 ts := by
  have hsame (hr : risposta ack2 ts ≠ 4) : ∀ t ∈ ts, ack2 t = risposta ack2 ts := by
    intro t ht
    have hcases := h.cases t
    have hle : ack2 t ≤ risposta ack2 ts := le_risposta ht
    rcases h.risposta_cases ts with htwo | hr3 | hr4
    · omega
    · rw [hthree hr3 t ht, hr3]
    · exact absurd hr4 hr
  unfold attesi pezzi
  by_cases hr : risposta ack2 ts = 4
  · rw [if_pos hr, hr]
  · rw [if_neg hr, List.filter_eq_self.mpr]
    intro t ht
    exact decide_eq_true (hsame hr t ht)

/-- Behind an option without a length byte comes one of type 1. -/
theorem two_le_lungOpzione (hone : ∀ t, pppDati ppp t = 1 → ack2 t = 4)
    (h : Corpo (pppDati ppp) corpo ack2 altri)
    (hlen : ∀ u ∈ opzioni ppp, lungOpzione (pppDati ppp) u ≠ 0)
    (hbyte : ∀ u ∈ opzioni ppp, u + 1 < lungOpzioni ppp)
    (hr : risposta ack2 (opzioni ppp) ≠ 4) (ht : t ∈ opzioni ppp) :
    2 ≤ lungOpzione (pppDati ppp) t := by
  have hzero := hlen t ht
  by_contra hlt
  have hlen1 : lungOpzione (pppDati ppp) t = 1 := by omega
  have hnext : t + lungOpzione (pppDati ppp) t ∈ opzioni ppp :=
    mem_visits_next hlen (Nat.le_add_left _ 0) ht (by rw [hlen1]; exact hbyte t ht)
  rw [hlen1] at hnext
  apply hr
  rw [h.risposta_eq_four]
  exact ⟨t + 1, hnext, hone (t + 1) (BitVec.eq_of_toNat_eq hlen1)⟩

/-- The reply with the options that have the answer it gives. -/
theorem Corpo.risponde_attesi_iff (h : Corpo (pppDati ppp) corpo ack2 altri)
    (hone : ∀ t, pppDati ppp t = 1 → ack2 t = 4) :
    Risponde ppp (fun fuel =>
        (cicloOpzioni ppp corpo fuel (rispostaIniziale pppoutDati ipRemoto)).map
          fun s => (s, s.invia ppp proto)) (risposta ack2 (opzioni ppp))
          (attesi (pppDati ppp) ack2 (opzioni ppp)) ↔
      Percorribile ppp altri ∧ Copiabile ppp ack2 ∧ Separata ppp ack2 := by
  rw [← and_assoc, ← h.risponde_pezzi_iff pppoutDati ipRemoto proto]
  constructor
  · intro hrisponde
    have hseparata : Separata ppp ack2 := by
      intro hr t ht
      obtain ⟨hlen, hdentro, -, hattesi, hformed⟩ := h.risponde_iff.mp hrisponde
      have hbyte := ((dentro_visits_iff h.cases (by decide)).mp hdentro).1
      have hpezzi : ∀ p ∈ pezzi (pppDati ppp) ack2 (opzioni ppp), Formed p := by
        unfold pezzi
        rw [if_neg (by omega), List.forall_mem_map]
        intro u hu
        rw [pezzo_formed_iff]
        intro _
        exact two_le_lungOpzione hone h hlen (fun u hu => (hbyte u hu).2) (by omega) hu
      have hcontenuto := (h.invariant pppoutDati ipRemoto (opzioni ppp)).2 hpezzi
      have heq := flatten_inj hformed hpezzi (hattesi.symm.trans hcontenuto)
      unfold attesi pezzi at heq
      rw [if_neg (by omega), hr] at heq
      have hlength := congrArg List.length heq
      rw [List.length_map, List.length_map, List.length_filter_eq_length_iff] at hlength
      exact of_decide_eq_true (hlength t ht)
    rw [h.attesi_eq_pezzi hseparata] at hrisponde
    exact ⟨hrisponde, hseparata⟩
  · rintro ⟨hrisponde, hseparata⟩
    rw [h.attesi_eq_pezzi hseparata]
    exact hrisponde

theorem lcpAck2_one (dati : Buffer) (t : Nat) (h : dati t = 1) : lcpAck2 dati t = 4 := by
  unfold lcpAck2
  rw [h, if_neg (fun hand => absurd hand.1 (by decide)), if_neg (by decide),
    if_neg (fun hand => absurd hand.1 (by decide))]

theorem ipcpAck2_one (dati : Buffer) (t : Nat) (h : dati t = 1) : ipcpAck2 dati t = 4 := by
  unfold ipcpAck2
  rw [h, if_neg (fun hand => absurd hand.1 (by decide))]

theorem ipcp_separata (ppp : Buffer) : Separata ppp (ipcpAck2 (pppDati ppp)) := by
  have hne (ts : List Nat) : risposta (ipcpAck2 (pppDati ppp)) ts ≠ 3 := by
    induction ts using List.reverseRecOn with
    | nil => exact show 2 ≠ 3 by decide
    | append_singleton ts t ih =>
      have htwo : ipcpAck2 (pppDati ppp) t ≠ 3 := by
        unfold ipcpAck2
        split <;> decide
      rw [risposta_concat]
      omega
  intro hr
  exact absurd hr (hne _)

/-! ### Answers of the peer -/

/-- A function that reads the answer of the peer ends, and reads only options. -/
def Legge (ppp : Buffer) (rx : Nat → Option (Locale × Bool)) : Prop :=
  ∃ fuel s b, rx fuel = some (s, b) ∧ ∀ i ∈ s.letti, i < lungOpzioni ppp

theorem rxOpzione_letti : (rxOpzione dati t s).letti = s.letti ++ rxAltri dati t ++ [t, t + 1] := by
  unfold rxOpzione
  dsimp only
  split <;> split <;> split <;> rfl

theorem rxOpzioni_letti (dati : Buffer) (ts : List Nat) (s : Locale) {stop : Nat} :
    (∀ i ∈ (ts.foldl (fun s t => rxOpzione dati t s) s).letti, i < stop) ↔
      (∀ i ∈ s.letti, i < stop) ∧
        ∀ t ∈ ts, t + 1 < stop ∧ ∀ i ∈ rxAltri dati t, i < stop := by
  induction ts generalizing s with
  | nil => simp
  | cons t ts ih =>
    rw [List.foldl_cons, ih, rxOpzione_letti]
    simp only [List.mem_append, or_imp, forall_and, List.mem_cons, List.not_mem_nil, or_false,
      forall_eq]
    constructor
    · rintro ⟨⟨⟨hs, haltri⟩, -, hbyte⟩, hrest⟩
      exact ⟨hs, ⟨hbyte, hrest.1⟩, haltri, hrest.2⟩
    · rintro ⟨hs, ⟨hbyte, hrest⟩, haltri, hrest'⟩
      exact ⟨⟨⟨hs, haltri⟩, by omega, hbyte⟩, hrest, hrest'⟩

theorem rxIPCP_iff (code : Byte) (stato : BitVec 32) (ppp : Buffer) (s : Locale) :
    Legge ppp (rxIPCP code stato ppp s) ↔
      (stato &&& 0x4000 ≠ 0 ∧ ppp 5 = code → Percorribile ppp (rxAltri (pppDati ppp))) := by
  unfold Legge rxIPCP
  by_cases hguard : stato &&& 0x4000 ≠ 0 ∧ ppp 5 = code
  · have hiff := walk_iff (lungOpzione (pppDati ppp)) (lungOpzioni ppp)
      (rxOpzione (pppDati ppp)) { s with letti := [] } fun s => ∀ i ∈ s.letti, i < lungOpzioni ppp
    rw [rxOpzioni_letti] at hiff
    have hempty : ∀ i ∈ ({ s with letti := [] } : Locale).letti, i < lungOpzioni ppp := by simp
    rw [and_iff_right hempty] at hiff
    have hpercorso : (∃ fuel r, cicloOpzioni ppp (rxOpzione (pppDati ppp)) fuel
        { s with letti := [] } = some r ∧ ∀ i ∈ r.letti, i < lungOpzioni ppp) ↔
        Percorribile ppp (rxAltri (pppDati ppp)) := by
      refine hiff.trans ⟨fun ⟨hlen, hletti⟩ t ht => ⟨hlen t ht, hletti t ht⟩, fun h => ?_⟩
      exact ⟨fun t ht => (h t ht).1, fun t ht => (h t ht).2⟩
    simp only [if_pos hguard]
    rw [imp_iff_right hguard, ← hpercorso]
    constructor
    · rintro ⟨fuel, s', b, hs', hletti⟩
      obtain ⟨r, hr, heq⟩ := Option.map_eq_some_iff.mp hs'
      obtain ⟨rfl, -⟩ := Prod.mk.inj heq
      exact ⟨fuel, r, hr, hletti⟩
    · rintro ⟨fuel, r, hr, hletti⟩
      exact ⟨fuel, r, true, by rw [hr]; rfl, hletti⟩
  · simp only [if_neg hguard]
    refine iff_of_true ⟨0, _, _, rfl, ?_⟩ fun h => absurd h hguard
    simp

/-! ### The four loops -/

/-- The four loops end and read only options, and the replies have exactly those with the answer
that is sent, on the frames that their conditions describe. A suggesting reply of LCP also has the
options that it acknowledges. -/
theorem opzioni_iff (ppp pppoutDati : Buffer) (ipRemoto stato : BitVec 32) (s : Locale) :
    (Risponde ppp (txLCPConfAckNack ppp pppoutDati ipRemoto)
        (risposta (lcpAck2 (pppDati ppp)) (opzioni ppp))
        (attesi (pppDati ppp) (lcpAck2 (pppDati ppp)) (opzioni ppp)) ↔
      Percorribile ppp (fun _ => []) ∧ Copiabile ppp (lcpAck2 (pppDati ppp)) ∧
        Separata ppp (lcpAck2 (pppDati ppp))) ∧
    (Risponde ppp (txLCPConfAckNack ppp pppoutDati ipRemoto)
        (risposta (lcpAck2 (pppDati ppp)) (opzioni ppp))
        (pezzi (pppDati ppp) (lcpAck2 (pppDati ppp)) (opzioni ppp)) ↔
      Percorribile ppp (fun _ => []) ∧ Copiabile ppp (lcpAck2 (pppDati ppp))) ∧
    (Risponde ppp (txIPCPConfAckNack ppp pppoutDati ipRemoto)
        (risposta (ipcpAck2 (pppDati ppp)) (opzioni ppp))
        (attesi (pppDati ppp) (ipcpAck2 (pppDati ppp)) (opzioni ppp)) ↔
      Percorribile ppp (ipcpAltri (pppDati ppp)) ∧ Copiabile ppp (ipcpAck2 (pppDati ppp))) ∧
    (Legge ppp (rxIPCPConfNack stato ppp s) ↔
      (stato &&& 0x4000 ≠ 0 ∧ ppp 5 = 3 → Percorribile ppp (rxAltri (pppDati ppp)))) ∧
    (Legge ppp (rxIPCPConfAck stato ppp s) ↔
      (stato &&& 0x4000 ≠ 0 ∧ ppp 5 = 2 → Percorribile ppp (rxAltri (pppDati ppp)))) := by
  have hlcp := lcpOpzione_corpo (pppDati ppp)
  have hipcp := ipcpOpzione_corpo (pppDati ppp)
  refine ⟨hlcp.risponde_attesi_iff (lcpAck2_one _), hlcp.risponde_pezzi_iff _ _ _, ?_,
    rxIPCP_iff 3 stato ppp s, rxIPCP_iff 2 stato ppp s⟩
  refine (hipcp.risponde_attesi_iff (ipcpAck2_one _)).trans ?_
  rw [and_iff_left (ipcp_separata ppp)]

/-- A request of LCP with one option, of type 5 and length 0. -/
def senzaLunghezza : Buffer := fun i =>
  [0x7e, 0xff, 0x03, 0xc0, 0x21, 0x01, 0x01, 0x00, 0x06, 0x05, 0x00, 0x82, 0x60].getD i 0

/-- The checksum is right, and the loop does not end. -/
theorem senzaLunghezza_gira :
    pppFcs senzaLunghezza =
        pppfcs pppinitfcs (slice senzaLunghezza 1 (pppLen senzaLunghezza + 4)) ∧
      ¬ ∃ fuel s r, txLCPConfAckNack senzaLunghezza (fun _ => 0) 0 fuel = some (s, r) := by
  refine ⟨by decide +kernel, ?_⟩
  rintro ⟨fuel, s, r, hr⟩
  unfold txLCPConfAckNack cicloOpzioni at hr
  rw [walk_stuck (by decide) (by decide)] at hr
  cases hr

end OsdevArchive.ItaliOs
