import OsdevArchive.Lib.Runs
import Mathlib.Logic.Function.Iterate

/-!
The virtual consoles of cheapos (`console.c`, `fs_console.c`) on a screen of 80 columns. A
console keeps its characters and their colours in a buffer, and its cursor is an index into
it. Each index that is written is also recorded.
-/

namespace OsdevArchive.Cheapos.Consoles

open OsdevArchive.Lib.Runs

/-- `CONSOLEFS_MAX_IMAGE_LUNG`. -/
def maxImageLung : Nat := 4000

/-- `VIDEO_XMAX`. -/
def videoXmax : Nat := 80

/-- `TAB_SIZE`. -/
def tabSize : Nat := 3

/-- `BLACK` of `graphics.h`. -/
def black : BitVec 8 := 0

/-- `WHITE` of `graphics.h`. -/
def white : BitVec 8 := 15

/-- `console_session_t`; `scritte` holds the indices of the buffer that were written. -/
structure Console where
  cursore : Nat
  bgColor : BitVec 8
  fgColor : BitVec 8
  buffer : Nat → BitVec 8
  blink : Bool
  scritte : List Nat

/-- A console and `pennelloConsole`, of which only the low byte is ever stored. -/
structure Penna extends Console where
  pennello : BitVec 8

/-- `area` is the value of `AREA_CONSOLE`. -/
structure State where
  console : Fin 5 → Console
  pennello : BitVec 8
  consoleOnScreen : Option (Fin 5)

namespace Penna

/-- `Console_setColors`. -/
def setColors (bg fg : BitVec 8) (p : Penna) : Penna :=
  { p with bgColor := bg, fgColor := fg, pennello := bg <<< 4 + fg }

def scrive (i : Nat) (c : BitVec 8) (p : Penna) : Penna :=
  { p with buffer := Function.update p.buffer i c, scritte := i :: p.scritte }

variable (area : Nat)

/-- `Console_gotoxy`. -/
def gotoxy (x y : BitVec 8) (p : Penna) : Penna :=
  if area / 2 < x.toNat * y.toNat then p
  else { p with cursore := (y.toNat * videoXmax + x.toNat) * 2 }

/-- The `mem_copy` of `Console_scroll`. It moves four bytes from each index, so that three
cells of the last line are written, too. -/
def copiaRighe (p : Penna) : Penna :=
  { p with
    buffer := fun i =>
      if i < area - 2 * videoXmax + 3 then p.buffer (i + 2 * videoXmax) else p.buffer i
    scritte := List.range (area - 2 * videoXmax + 3) ++ p.scritte }

/-- The loop of `Console_scroll` over the last line. -/
def pulisceRiga (p : Penna) : Penna :=
  (List.range videoXmax).foldl (fun p j =>
    let i := area - 2 * videoXmax + 2 * j
    (p.scrive i 32).scrive (i + 1) p.pennello) p

/-- `Console_scroll`. The row is computed with unsigned numbers. -/
def scroll (p : Penna) : Penna :=
  gotoxy area 0 (BitVec.ofNat 8 (area / 2 % videoXmax) - 1)
    (pulisceRiga area ((copiaRighe area p).setColors black white))

/-- `Console_incrementaCursore`. -/
def incrementaCursore (p : Penna) : Penna :=
  if area - 1 < p.cursore + 2 then scroll area p else { p with cursore := p.cursore + 2 }

/-- The check at the start of `Console_printCh`. -/
def entra (p : Penna) : Penna :=
  if area - 1 < p.cursore then scroll area p else p

def aCapo (p : Penna) : Penna :=
  let riga := p.cursore / 2 / videoXmax
  if riga = area / 2 / videoXmax - 1 then
    gotoxy area 0 (BitVec.ofNat 8 (area / 2 / videoXmax - 1)) (scroll area p)
  else gotoxy area 0 (BitVec.ofNat 8 (riga + 1)) p

def tabulazione (p : Penna) : Penna := (incrementaCursore area)^[tabSize] p

/-- The end of `Console_printCh`, for a character that is shown. -/
def stampa (c : BitVec 8) (p : Penna) : Penna :=
  let p := p.scrive p.cursore c
  let p := p.setColors p.bgColor p.fgColor
  let p := p.scrive (p.cursore + 1) p.pennello
  let p := if p.cursore + 3 < area then p.scrive (p.cursore + 3) p.pennello else p
  incrementaCursore area p

/-- `Console_printCh` of a blank, which backspace and `Console_clrScr` call. -/
def spazio (p : Penna) : Penna := stampa area 32 (entra area p)

def backspace (p : Penna) : Penna :=
  if p.cursore < 2 then p
  else
    let p := spazio area { p with cursore := p.cursore - 2 }
    { p with cursore := p.cursore - 2 }

def frecciaSx (p : Penna) : Penna :=
  if p.cursore < 2 then p else { p with cursore := p.cursore - 2 }

def frecciaDx (p : Penna) : Penna :=
  if area - 2 ≤ p.cursore then p else { p with cursore := p.cursore + 2 }

def frecciaSu (p : Penna) : Penna :=
  if p.cursore < videoXmax * 2 + 2 then p else { p with cursore := p.cursore - videoXmax * 2 }

def frecciaGiu (p : Penna) : Penna :=
  if area - videoXmax * 2 < p.cursore then p
  else
    let cursTmp := p.cursore % (videoXmax * 2)
    if area < p.cursore + videoXmax * 2 then
      let p := scroll area p
      { p with cursore := p.cursore + cursTmp }
    else { p with cursore := p.cursore + videoXmax * 2 }

/-- `Console_clrScr`. -/
def clrScr (p : Penna) : Penna :=
  let q := (spazio area)^[area / 2] { p.setColors black white with cursore := 0 }
  { q with bgColor := p.bgColor, fgColor := p.fgColor, cursore := p.cursore }

def home (p : Penna) : Penna := { p with cursore := 0 }

def reverse (p : Penna) : Penna := p.setColors p.fgColor p.bgColor

/-- `Console_colorByChar`, for the colour that the character stands for. -/
def colorByChar (colore : BitVec 8) (p : Penna) : Penna := p.setColors p.bgColor colore

/-- `Console_blink`. -/
def blinka (p : Penna) : Penna :=
  let bg :=
    if p.blink then if 8 ≤ p.bgColor.toNat ∧ p.bgColor.toNat < 16 then p.bgColor - 8 else p.bgColor
    else if p.bgColor.toNat < 8 then p.bgColor + 8 else p.bgColor
  { p.setColors bg p.fgColor with blink := !p.blink }

end Penna

/-- The kinds of characters that `Console_printCh` tells apart. -/
inductive Carattere where
  | aCapo
  | tabulazione
  | backspace
  | frecciaSx
  | frecciaDx
  | frecciaSu
  | frecciaGiu
  | canc
  | home
  | reverse
  | colore (colore : BitVec 8)
  | blink
  | stampabile (c : BitVec 8)

/-- The comparisons of `Console_printCh`, in their order; the colours are numbered as in
`graphics.h`. -/
def carattere (c : BitVec 8) : Carattere :=
  if c = 10 then .aCapo
  else if c = 9 then .tabulazione
  else if c = 8 then .backspace
  else if c = 174 then .frecciaSx
  else if c = 175 then .frecciaDx
  else if c = 176 then .frecciaSu
  else if c = 177 then .frecciaGiu
  else if c = 24 then .canc
  else if c = 30 then .home
  else if c = 194 then .reverse
  else if 178 ≤ c ∧ c ≤ 193 then .colore (c - 178)
  else if c = 195 then .blink
  else .stampabile c

namespace State

variable (area : Nat)

/-- The console `k` with the brush. -/
def penna (s : State) (k : Fin 5) : Penna := { s.console k with pennello := s.pennello }

def applica (s : State) (k : Fin 5) (f : Penna → Penna) : State :=
  { s with
    console := Function.update s.console k (f (s.penna k)).toConsole
    pennello := (f (s.penna k)).pennello }

/-- A change of colours on `consoleOnScreen`, which at first is no console. -/
def applicaSchermo (s : State) (f : Penna → Penna) : State :=
  match s.consoleOnScreen with
  | none => s
  | some k => s.applica k f

/-- `Console_printCh` behind its first check. -/
def esegue (s : State) (k : Fin 5) : Carattere → State
  | .aCapo => s.applica k (Penna.aCapo area)
  | .tabulazione => s.applica k (Penna.tabulazione area)
  | .backspace => s.applica k (Penna.backspace area)
  | .frecciaSx => s.applica k Penna.frecciaSx
  | .frecciaDx => s.applica k (Penna.frecciaDx area)
  | .frecciaSu => s.applica k Penna.frecciaSu
  | .frecciaGiu => s.applica k (Penna.frecciaGiu area)
  | .canc => s.applica k (Penna.clrScr area)
  | .home => s.applica k Penna.home
  | .reverse => s.applicaSchermo Penna.reverse
  | .colore colore => s.applicaSchermo (Penna.colorByChar colore)
  | .blink => s.applica k Penna.blinka
  | .stampabile c => s.applica k (Penna.stampa area c)

/-- `Console_printCh`. -/
def printCh (s : State) (cons : Nat) (c : BitVec 8) : State :=
  if h : cons < 5 then (s.applica ⟨cons, h⟩ (Penna.entra area)).esegue area ⟨cons, h⟩ (carattere c)
  else s

/-- `Console_printStr`, for the characters before the end of the string. -/
def printStr (s : State) (cons : Nat) (stringa : List (BitVec 8)) : State :=
  if cons < 5 then stringa.foldl (fun s c => s.printCh area cons c) s else s

end State

/-- The value that `Console_seek` compares with `AREA_CONSOLE`, for a known mode. -/
def newcursore (cursore : Nat) (modo puntatore : Int) : Option Int :=
  if modo = 0 then some (cursore + puntatore)
  else if modo = 1 then some puntatore
  else if modo = 2 then some (maxImageLung - puntatore)
  else none

/-- `Console_seek`. -/
def Penna.seek (area : Nat) (modo puntatore : Int) (p : Penna) : Penna :=
  match newcursore p.cursore modo puntatore with
  | none => p
  | some new => if 0 ≤ new ∧ new < area then { p with cursore := new.toNat } else p

/-- `Console_toScreen` brings another console to the screen. -/
inductive Azione where
  | printCh (cons : Nat) (c : BitVec 8)
  | seek (cons : Fin 5) (modo puntatore : Int)
  | toScreen (cons : Fin 5)

def step (area : Nat) (s : State) : Azione → State
  | .printCh cons c => s.printCh area cons c
  | .seek cons modo puntatore => s.applica cons (Penna.seek area modo puntatore)
  | .toScreen cons => { s with consoleOnScreen := some cons }

/-- `Console_init`. -/
def consoleInit (area : Nat) : State :=
  (List.finRange 5).foldl (fun s k => s.applica k (Penna.clrScr area))
    { console := fun _ =>
        { cursore := 0, bgColor := black, fgColor := white, buffer := fun _ => 0, blink := true,
          scritte := [] }
      pennello := 0
      consoleOnScreen := none }

/-! ### What is expected of the consoles -/

/-- A console is as expected: its cursor is even and not behind `AREA_CONSOLE`, and only
cells of its buffer were written. -/
structure Buono (area : Nat) (k : Console) : Prop where
  pari : k.cursore % 2 = 0
  cursore : k.cursore ≤ area
  scritte : ∀ i ∈ k.scritte, i < maxImageLung

def Good (area : Nat) (s : State) : Prop :=
  ∀ k, Buono area (s.console k)

/-- The cursors for which a character does no harm. -/
def Consentito (area cursore : Nat) : Carattere → Prop
  | .aCapo | .home => True
  | .tabulazione => cursore + 2 * tabSize < area
  | .stampabile _ => cursore + 2 < area
  | _ => cursore < area

/-- A character fits where the cursor is, and a position to seek is even or refused. -/
def Ammessa (area : Nat) (s : State) : Azione → Prop
  | .printCh cons c =>
    ∀ h : cons < 5, Consentito area (s.console ⟨cons, h⟩).cursore (carattere c)
  | .seek cons modo puntatore =>
    ∀ new, newcursore (s.console cons).cursore modo puntatore = some new →
      0 ≤ new → new < area → new % 2 = 0
  | .toScreen _ => True

theorem buono_congr {area : Nat} {k k' : Console} (hcursore : k.cursore = k'.cursore)
    (hscritte : k.scritte = k'.scritte) : Buono area k ↔ Buono area k' := by
  constructor
  · rintro ⟨hpari, hle, hin⟩
    exact ⟨hcursore ▸ hpari, hcursore ▸ hle, hscritte ▸ hin⟩
  · rintro ⟨hpari, hle, hin⟩
    exact ⟨hcursore ▸ hpari, hcursore ▸ hle, hscritte ▸ hin⟩

/-! ### Single operations -/

namespace Penna

variable {area : Nat} {p : Penna} {c : BitVec 8} {i : Nat}

/-- Only cells of the buffer were written. -/
def Dentro (p : Penna) : Prop :=
  ∀ i ∈ p.scritte, i < maxImageLung

theorem Dentro.scrive (h : p.Dentro) (hi : i < maxImageLung) : (p.scrive i c).Dentro :=
  List.forall_mem_cons.mpr ⟨hi, h⟩

theorem Dentro.sposta (h : p.Dentro) (cursore : Nat) :
    ({ p with cursore := cursore } : Penna).Dentro := h

theorem gotoxy_dentro (h : p.Dentro) {x y : BitVec 8} : (gotoxy area x y p).Dentro := by
  unfold gotoxy
  split <;> exact h

theorem copiaRighe_dentro (h : p.Dentro) (harea : area ≤ maxImageLung) :
    (copiaRighe area p).Dentro := by
  intro i hi
  unfold copiaRighe at hi
  rcases List.mem_append.mp hi with hi | hi
  · have hlt := List.mem_range.mp hi
    unfold maxImageLung videoXmax at *
    omega
  · exact h i hi

theorem pulisceRiga_dentro (h : p.Dentro) (harea : area ≤ maxImageLung)
    (hriga : 2 * videoXmax ≤ area) : (pulisceRiga area p).Dentro := by
  unfold pulisceRiga
  apply List.foldlRecOn (motive := Dentro) _ _ h
  intro q hq j hj
  have hlt := List.mem_range.mp hj
  apply Dentro.scrive
  · apply hq.scrive
    omega
  · omega

theorem scroll_dentro (h : p.Dentro) (harea : area ≤ maxImageLung)
    (hriga : 2 * videoXmax ≤ area) : (scroll area p).Dentro := by
  have hcolor : ((copiaRighe area p).setColors black white).Dentro := copiaRighe_dentro h harea
  unfold scroll
  apply gotoxy_dentro
  exact pulisceRiga_dentro hcolor harea hriga

theorem gotoxy_cursore {y : BitVec 8} : (gotoxy area 0 y p).cursore = y.toNat * 160 := by
  have hzero : (0 : BitVec 8).toNat = 0 := rfl
  unfold gotoxy
  rw [hzero, Nat.zero_mul, if_neg (Nat.not_lt_zero _)]
  show (y.toNat * 80 + 0) * 2 = y.toNat * 160
  omega

/-- `Console_scroll` puts the cursor far behind the buffer. -/
theorem scroll_cursore (harea : area = 4000 ∨ area = 2080) :
    (scroll area p).cursore = 40800 := by
  have hriga : (BitVec.ofNat 8 (area / 2 % videoXmax) - 1).toNat = 255 := by
    rcases harea with rfl | rfl
    · decide
    · decide
  unfold scroll
  rw [gotoxy_cursore, hriga]

theorem incrementaCursore_lt (h : p.cursore + 2 < area) :
    incrementaCursore area p = { p with cursore := p.cursore + 2 } :=
  if_neg (by omega)

theorem incrementaCursore_ge (h : area ≤ p.cursore + 2) (harea : 0 < area) :
    incrementaCursore area p = scroll area p :=
  if_pos (by omega)

theorem entra_lt (h : p.cursore < area) : entra area p = p :=
  if_neg (by omega)

theorem entra_ge (h : area ≤ p.cursore) (harea : 0 < area) : entra area p = scroll area p :=
  if_pos (by omega)

/-- The cursor after one step to the right. -/
def accanto (area cursore : Nat) : Nat :=
  if cursore + 2 < area then cursore + 2 else 40800

theorem accanto_lt {cursore : Nat} (h : cursore + 2 < area) :
    accanto area cursore = cursore + 2 := if_pos h

theorem accanto_ge {cursore : Nat} (h : area ≤ cursore + 2) : accanto area cursore = 40800 :=
  if_neg (by omega)

theorem accanto_tre {cursore : Nat} (harea : area ≤ maxImageLung) :
    accanto area (accanto area (accanto area cursore)) =
      if cursore + 2 * tabSize < area then cursore + 2 * tabSize else 40800 := by
  unfold maxImageLung at harea
  have hfar : accanto area 40800 = 40800 := accanto_ge (by omega)
  unfold tabSize
  split
  · have hone : accanto area cursore = cursore + 2 := accanto_lt (by omega)
    have htwo : accanto area (cursore + 2) = cursore + 4 := accanto_lt (by omega)
    have hthree : accanto area (cursore + 4) = cursore + 6 := accanto_lt (by omega)
    rw [hone, htwo, hthree]
  · rcases Nat.lt_or_ge (cursore + 2) area with hone | hone
    · rw [accanto_lt hone]
      rcases Nat.lt_or_ge (cursore + 2 + 2) area with htwo | htwo
      · rw [accanto_lt htwo, accanto_ge (by omega)]
      · rw [accanto_ge htwo, hfar]
    · rw [accanto_ge hone, hfar, hfar]

theorem incrementaCursore_cursore (harea : area = 4000 ∨ area = 2080) :
    (incrementaCursore area p).cursore = accanto area p.cursore := by
  unfold accanto
  split
  · rw [incrementaCursore_lt ‹_›]
  · rw [incrementaCursore_ge (by omega) (by omega), scroll_cursore harea]

theorem incrementaCursore_dentro (h : p.Dentro) (harea : area = 4000 ∨ area = 2080) :
    (incrementaCursore area p).Dentro := by
  unfold incrementaCursore
  split
  · apply scroll_dentro h
    · unfold maxImageLung
      omega
    · unfold videoXmax
      omega
  · exact h

/-- What `stampa` has written when it moves the cursor on. -/
def colorata (area : Nat) (c : BitVec 8) (p : Penna) : Penna :=
  let p := p.scrive p.cursore c
  let p := p.setColors p.bgColor p.fgColor
  let p := p.scrive (p.cursore + 1) p.pennello
  if p.cursore + 3 < area then p.scrive (p.cursore + 3) p.pennello else p

theorem stampa_eq : stampa area c p = incrementaCursore area (colorata area c p) := rfl

theorem colorata_cursore : (colorata area c p).cursore = p.cursore := by
  unfold colorata
  dsimp only
  split <;> rfl

theorem colorata_dentro (h : p.Dentro) (hcursore : p.cursore + 1 < area)
    (harea : area ≤ maxImageLung) : (colorata area c p).Dentro := by
  have hchar : (p.scrive p.cursore c).Dentro := h.scrive (by omega)
  have hcolor : ((p.scrive p.cursore c).setColors p.bgColor p.fgColor).Dentro := hchar
  unfold colorata
  dsimp only
  split
  · apply Dentro.scrive
    · exact hcolor.scrive (show p.cursore + 1 < maxImageLung by omega)
    · exact Nat.lt_of_lt_of_le ‹_› harea
  · exact hcolor.scrive (show p.cursore + 1 < maxImageLung by omega)

theorem stampa_cursore (harea : area = 4000 ∨ area = 2080) :
    (stampa area c p).cursore = accanto area p.cursore := by
  rw [stampa_eq, incrementaCursore_cursore harea, colorata_cursore]

theorem stampa_dentro (h : p.Dentro) (hcursore : p.cursore + 1 < area)
    (harea : area = 4000 ∨ area = 2080) : (stampa area c p).Dentro := by
  rw [stampa_eq]
  apply incrementaCursore_dentro _ harea
  apply colorata_dentro h hcursore
  unfold maxImageLung
  omega

theorem spazio_lt (h : p.cursore < area) : spazio area p = stampa area 32 p := by
  rw [spazio, entra_lt h]

/-- As `Console_clrScr` goes on, its cursor goes from cell to cell. -/
theorem spazio_iterate (harea : area = 4000 ∨ area = 2080) (h : p.Dentro) (hzero : p.cursore = 0)
    (n : Nat) (hn : 2 * n ≤ area) :
    ((spazio area)^[n] p).Dentro ∧ (2 * n < area → ((spazio area)^[n] p).cursore = 2 * n) := by
  induction n with
  | zero => exact ⟨h, fun _ => hzero⟩
  | succ n ih =>
    obtain ⟨hin, hcursore⟩ := ih (by omega)
    have hlast := hcursore (by omega)
    rw [Function.iterate_succ_apply', spazio_lt (by omega)]
    constructor
    · exact stampa_dentro hin (by omega) harea
    · intro hnext
      rw [stampa_cursore harea, hlast]
      exact if_pos hnext

theorem clrScr_dentro (harea : area = 4000 ∨ area = 2080) (h : p.Dentro) :
    (clrScr area p).Dentro := by
  have hstart : ({ p.setColors black white with cursore := 0 } : Penna).Dentro := h
  exact (spazio_iterate harea hstart rfl (area / 2) (by omega)).1

/-! ### The characters -/

theorem not_buono {q : Penna} (hcursore : q.cursore = 40800) (harea : area ≤ maxImageLung) :
    ¬ Buono area q.toConsole := by
  intro hq
  have hle := hq.cursore
  unfold maxImageLung at harea
  omega

theorem buono_of {q : Penna} (hin : q.Dentro) (hpari : q.cursore % 2 = 0)
    (hle : q.cursore ≤ area) : Buono area q.toConsole := ⟨hpari, hle, hin⟩

/-- At the start of a character the cursor is in the buffer, or it was at its end and the
check has moved it far away. -/
theorem entra_cases (harea : area = 4000 ∨ area = 2080) (h : Buono area p.toConsole) :
    p.cursore < area ∧ entra area p = p ∨
      p.cursore = area ∧ (entra area p).cursore = 40800 ∧ (entra area p).Dentro := by
  rcases Nat.lt_or_eq_of_le h.cursore with hlt | heq
  · exact .inl ⟨hlt, entra_lt hlt⟩
  · rw [entra_ge (Nat.le_of_eq heq.symm) (by omega)]
    refine .inr ⟨heq, scroll_cursore harea, scroll_dentro h.scritte ?_ ?_⟩
    · unfold maxImageLung
      omega
    · unfold videoXmax
      omega

section characters

variable (harea : area = 4000 ∨ area = 2080) (h : Buono area p.toConsole)
include harea h

/-- A new line is the one character that does no harm at the end, too: there it starts
again at the top. -/
theorem aCapo_buono : Buono area (aCapo area (entra area p)).toConsole := by
  have hle : area ≤ maxImageLung := by
    unfold maxImageLung
    omega
  have hin : (entra area p).Dentro := by
    rcases entra_cases harea h with ⟨-, heq⟩ | ⟨-, -, hin⟩
    · rw [heq]
      exact h.scritte
    · exact hin
  have hcursore : (entra area p).cursore < area ∨ (entra area p).cursore = 40800 := by
    rcases entra_cases harea h with ⟨hlt, heq⟩ | ⟨-, heq, -⟩
    · rw [heq]
      exact .inl hlt
    · exact .inr heq
  have hlast : (BitVec.ofNat 8 (area / 2 / videoXmax - 1)).toNat * 160 = area - 160 := by
    rcases harea with rfl | rfl
    · rfl
    · rfl
  unfold aCapo
  dsimp only
  split
  · apply buono_of
    · apply gotoxy_dentro
      apply scroll_dentro hin hle
      unfold videoXmax
      omega
    · rw [gotoxy_cursore, hlast]
      omega
    · rw [gotoxy_cursore, hlast]
      omega
  · rename_i hriga
    apply buono_of (gotoxy_dentro hin)
    · rw [gotoxy_cursore]
      omega
    · rw [gotoxy_cursore, BitVec.toNat_ofNat]
      unfold videoXmax at hriga ⊢
      omega

theorem tabulazione_iff :
    Buono area (tabulazione area (entra area p)).toConsole ↔ p.cursore + 2 * tabSize < area := by
  have hle : area ≤ maxImageLung := by
    unfold maxImageLung
    omega
  have hcursore : (tabulazione area (entra area p)).cursore =
      if (entra area p).cursore + 2 * tabSize < area then (entra area p).cursore + 2 * tabSize
      else 40800 := by
    rw [← accanto_tre hle]
    show (incrementaCursore area (incrementaCursore area (incrementaCursore area _))).cursore = _
    rw [incrementaCursore_cursore harea, incrementaCursore_cursore harea,
      incrementaCursore_cursore harea]
  rcases entra_cases harea h with ⟨hlt, heq⟩ | ⟨hend, heq, -⟩
  · rw [heq] at hcursore ⊢
    split at hcursore
    · apply iff_of_true _ ‹_›
      have hpari := h.pari
      unfold tabSize at *
      apply buono_of
      · exact incrementaCursore_dentro (incrementaCursore_dentro
          (incrementaCursore_dentro h.scritte harea) harea) harea
      · omega
      · omega
    · exact iff_of_false (not_buono hcursore hle) ‹_›
  · rw [heq, if_neg (by unfold maxImageLung at hle; omega)] at hcursore
    exact iff_of_false (not_buono hcursore hle) (by omega)

/-- A character that keeps a cursor in the buffer in its place or moves it by itself, and
far away stays away. -/
theorem mossa_iff {f : Penna → Penna} (hin : ∀ q, q.Dentro → (f q).Dentro)
    (hnear : p.cursore < area → (f p).cursore % 2 = 0 ∧ (f p).cursore ≤ area)
    (hfar : ∀ q, q.cursore = 40800 → area < (f q).cursore) :
    Buono area (f (entra area p)).toConsole ↔ p.cursore < area := by
  rcases entra_cases harea h with ⟨hlt, heq⟩ | ⟨hend, heq, -⟩
  · rw [heq]
    obtain ⟨hpari, hle⟩ := hnear hlt
    exact iff_of_true (buono_of (hin p h.scritte) hpari hle) hlt
  · apply iff_of_false
    · intro hq
      have hle := hq.cursore
      have hout := hfar _ heq
      omega
    · omega

theorem frecciaSx_iff :
    Buono area (frecciaSx (entra area p)).toConsole ↔ p.cursore < area := by
  have hpari := h.pari
  apply mossa_iff harea h
  · intro q hq
    unfold frecciaSx
    split
    · exact hq
    · exact hq.sposta _
  · intro hlt
    unfold frecciaSx
    split
    · exact ⟨hpari, Nat.le_of_lt hlt⟩
    · exact ⟨show (p.cursore - 2) % 2 = 0 by omega, show p.cursore - 2 ≤ area by omega⟩
  · intro q hq
    rw [frecciaSx, if_neg (by omega)]
    show area < q.cursore - 2
    omega

theorem frecciaDx_iff :
    Buono area (frecciaDx area (entra area p)).toConsole ↔ p.cursore < area := by
  have hpari := h.pari
  apply mossa_iff harea h
  · intro q hq
    unfold frecciaDx
    split
    · exact hq
    · exact hq.sposta _
  · intro hlt
    unfold frecciaDx
    split
    · exact ⟨hpari, Nat.le_of_lt hlt⟩
    · exact ⟨show (p.cursore + 2) % 2 = 0 by omega, show p.cursore + 2 ≤ area by omega⟩
  · intro q hq
    rw [frecciaDx, if_pos (by omega)]
    omega

theorem frecciaSu_iff :
    Buono area (frecciaSu (entra area p)).toConsole ↔ p.cursore < area := by
  have hpari := h.pari
  apply mossa_iff harea h
  · intro q hq
    unfold frecciaSu
    split
    · exact hq
    · exact hq.sposta _
  · intro hlt
    unfold frecciaSu
    split
    · exact ⟨hpari, Nat.le_of_lt hlt⟩
    · exact ⟨show (p.cursore - 160) % 2 = 0 by omega, show p.cursore - 160 ≤ area by omega⟩
  · intro q hq
    rw [frecciaSu, if_neg (by unfold videoXmax; omega)]
    show area < q.cursore - 160
    omega

omit h in
/-- The branch of the arrow down that scrolls is never taken. -/
theorem frecciaGiu_eq {q : Penna} : frecciaGiu area q =
    if area - videoXmax * 2 < q.cursore then q
    else { q with cursore := q.cursore + videoXmax * 2 } := by
  have hroom : videoXmax * 2 ≤ area := by
    unfold videoXmax
    omega
  unfold frecciaGiu
  split
  · rfl
  · exact if_neg (by omega)

theorem frecciaGiu_iff :
    Buono area (frecciaGiu area (entra area p)).toConsole ↔ p.cursore < area := by
  have hpari := h.pari
  apply mossa_iff harea h
  · intro q hq
    rw [frecciaGiu_eq harea]
    split
    · exact hq
    · exact hq.sposta _
  · intro hlt
    rw [frecciaGiu_eq harea]
    unfold videoXmax
    split
    · exact ⟨hpari, Nat.le_of_lt hlt⟩
    · exact ⟨show (p.cursore + 160) % 2 = 0 by omega, show p.cursore + 160 ≤ area by omega⟩
  · intro q hq
    rw [frecciaGiu_eq harea, if_pos (by omega)]
    omega

theorem clrScr_iff : Buono area (clrScr area (entra area p)).toConsole ↔ p.cursore < area := by
  apply mossa_iff harea h
  · exact fun q hq => clrScr_dentro harea hq
  · exact fun hlt => ⟨h.pari, Nat.le_of_lt hlt⟩
  · intro q hq
    show area < q.cursore
    omega

theorem blinka_iff : Buono area (blinka (entra area p)).toConsole ↔ p.cursore < area := by
  apply mossa_iff harea h
  · exact fun q hq => hq
  · exact fun hlt => ⟨h.pari, Nat.le_of_lt hlt⟩
  · intro q hq
    show area < q.cursore
    omega

theorem home_buono : Buono area (home (entra area p)).toConsole := by
  have hin : (entra area p).Dentro := by
    rcases entra_cases harea h with ⟨-, heq⟩ | ⟨-, -, hin⟩
    · rw [heq]
      exact h.scritte
    · exact hin
  exact ⟨rfl, Nat.zero_le _, hin⟩

theorem stampa_iff :
    Buono area (stampa area c (entra area p)).toConsole ↔ p.cursore + 2 < area := by
  have hpari := h.pari
  have hcursore := stampa_cursore (c := c) (p := entra area p) harea
  rcases entra_cases harea h with ⟨hlt, heq⟩ | ⟨hend, heq, -⟩
  · rw [heq] at hcursore ⊢
    rcases Nat.lt_or_ge (p.cursore + 2) area with hroom | hroom
    · rw [accanto_lt hroom] at hcursore
      apply iff_of_true _ hroom
      apply buono_of
      · exact stampa_dentro h.scritte (by omega) harea
      · omega
      · omega
    · rw [accanto_ge hroom] at hcursore
      exact iff_of_false (not_buono hcursore (by unfold maxImageLung; omega)) (by omega)
  · rw [heq, accanto_ge (by omega)] at hcursore
    exact iff_of_false (not_buono hcursore (by unfold maxImageLung; omega)) (by omega)

theorem backspace_iff :
    Buono area (backspace area (entra area p)).toConsole ↔ p.cursore < area := by
  have hpari := h.pari
  rcases entra_cases harea h with ⟨hlt, heq⟩ | ⟨hend, heq, -⟩
  · rw [heq]
    apply iff_of_true _ hlt
    unfold backspace
    split
    · exact h
    · have hback : p.cursore - 2 < area := by omega
      have hcursore : (spazio area { p with cursore := p.cursore - 2 }).cursore = p.cursore := by
        rw [spazio_lt hback, stampa_cursore harea, accanto_lt (by dsimp only; omega)]
        dsimp only
        omega
      have hin : (spazio area { p with cursore := p.cursore - 2 }).Dentro := by
        rw [spazio_lt hback]
        exact stampa_dentro h.scritte (show p.cursore - 2 + 1 < area by omega) harea
      dsimp only
      rw [hcursore]
      exact ⟨show (p.cursore - 2) % 2 = 0 by omega, show p.cursore - 2 ≤ area by omega, hin⟩
  · apply iff_of_false
    · intro hq
      have hfar : ∀ q : Penna, area ≤ q.cursore → (spazio area q).cursore = 40800 := by
        intro q hq
        rw [spazio, entra_ge hq (by omega), stampa_cursore harea, scroll_cursore harea,
          accanto_ge (by omega)]
      have hle := hq.cursore
      rw [backspace, if_neg (by omega)] at hle
      dsimp only at hle
      rw [hfar _ (show area ≤ (entra area p).cursore - 2 by omega)] at hle
      omega
    · omega

end characters

end Penna

/-! ### The consoles together -/

section state

variable {area : Nat} {s t : State} {k : Fin 5} {f g : Penna → Penna}

theorem applica_console (j : Fin 5) : (s.applica k f).console j =
    if j = k then (f (s.penna k)).toConsole else s.console j :=
  Function.update_apply ..

theorem penna_applica : (s.applica k f).penna k = f (s.penna k) := by
  simp only [State.penna, applica_console, if_true]
  rfl

theorem applica_applica : (s.applica k f).applica k g = s.applica k fun p => g (f p) := by
  have hpenna := penna_applica (s := s) (k := k) (f := f)
  simp only [State.applica] at hpenna ⊢
  rw [hpenna, Function.update_idem]

theorem good_applica_iff (h : Good area s) :
    Good area (s.applica k f) ↔ Buono area (f (s.penna k)).toConsole := by
  constructor
  · intro hall
    have hk := hall k
    rwa [applica_console, if_pos rfl] at hk
  · intro hk j
    rw [applica_console]
    split
    · exact hk
    · exact h j

/-- A change of colours harms nothing and mends nothing. -/
theorem good_applicaSchermo_iff (hcursore : ∀ p, (f p).cursore = p.cursore)
    (hscritte : ∀ p, (f p).scritte = p.scritte) :
    Good area (s.applicaSchermo f) ↔ Good area s := by
  unfold State.applicaSchermo
  split
  · exact Iff.rfl
  · rename_i k _
    apply forall_congr'
    intro j
    rw [applica_console]
    split
    · rename_i hj
      rw [hj]
      exact buono_congr (hcursore _) (hscritte _)
    · exact Iff.rfl

/-- After the first check, a character that only changes colours. -/
theorem good_colori_iff (harea : area = 4000 ∨ area = 2080) (h : Good area s)
    (hcursore : ∀ p, (f p).cursore = p.cursore) (hscritte : ∀ p, (f p).scritte = p.scritte) :
    Good area ((s.applica k (Penna.entra area)).applicaSchermo f) ↔
      (s.console k).cursore < area := by
  rw [good_applicaSchermo_iff hcursore hscritte, good_applica_iff h]
  exact Penna.mossa_iff (f := fun q => q) (p := s.penna k) harea (h k) (fun _ hq => hq)
    (fun hlt => ⟨(h k).pari, Nat.le_of_lt hlt⟩) fun q hq => by omega

theorem printCh_iff (harea : area = 4000 ∨ area = 2080) (h : Good area s) (c : BitVec 8) :
    Good area (s.printCh area k.val c) ↔
      Consentito area (s.console k).cursore (carattere c) := by
  have hk : Buono area (s.penna k).toConsole := h k
  have hprint : s.printCh area k.val c =
      (s.applica k (Penna.entra area)).esegue area k (carattere c) := dif_pos k.isLt
  have hone : ∀ g, Good area ((s.applica k (Penna.entra area)).applica k g) ↔
      Buono area (g (Penna.entra area (s.penna k))).toConsole := by
    intro g
    rw [applica_applica, good_applica_iff h]
  rw [hprint]
  cases carattere c with
  | aCapo => exact (hone _).trans (iff_true_intro (Penna.aCapo_buono harea hk))
  | tabulazione => exact (hone _).trans (Penna.tabulazione_iff harea hk)
  | backspace => exact (hone _).trans (Penna.backspace_iff harea hk)
  | frecciaSx => exact (hone _).trans (Penna.frecciaSx_iff harea hk)
  | frecciaDx => exact (hone _).trans (Penna.frecciaDx_iff harea hk)
  | frecciaSu => exact (hone _).trans (Penna.frecciaSu_iff harea hk)
  | frecciaGiu => exact (hone _).trans (Penna.frecciaGiu_iff harea hk)
  | canc => exact (hone _).trans (Penna.clrScr_iff harea hk)
  | home => exact (hone _).trans (iff_true_intro (Penna.home_buono harea hk))
  | reverse => exact good_colori_iff harea h (fun _ => rfl) fun _ => rfl
  | colore colore => exact good_colori_iff harea h (fun _ => rfl) fun _ => rfl
  | blink => exact (hone _).trans (Penna.blinka_iff harea hk)
  | stampabile c => exact (hone _).trans (Penna.stampa_iff harea hk)

theorem seek_iff {p : Penna} (h : Buono area p.toConsole) (modo puntatore : Int) :
    Buono area (p.seek area modo puntatore).toConsole ↔
      ∀ new, newcursore p.cursore modo puntatore = some new → 0 ≤ new → new < area →
        new % 2 = 0 := by
  unfold Penna.seek
  split
  · rename_i hnone
    apply iff_of_true h
    intro new hnew
    rw [hnone] at hnew
    cases hnew
  · rename_i new hnew
    rw [hnew]
    constructor
    · intro hq new' hnew' hpos hlt
      obtain rfl := Option.some.inj hnew'
      rw [if_pos ⟨hpos, hlt⟩] at hq
      have hpari : new.toNat % 2 = 0 := hq.pari
      omega
    · intro hpari
      split
      · rename_i hin
        have heven := hpari new rfl hin.1 hin.2
        exact ⟨show new.toNat % 2 = 0 by omega, show new.toNat ≤ area by omega, h.scritte⟩
      · exact h

theorem step_iff (harea : area = 4000 ∨ area = 2080) (h : Good area s) (a : Azione) :
    Good area (step area s a) ↔ Ammessa area s a := by
  cases a with
  | printCh cons c =>
    rcases Nat.lt_or_ge cons 5 with hcons | hcons
    · rw [step, Ammessa, printCh_iff (k := ⟨cons, hcons⟩) harea h]
      exact ⟨fun hok _ => hok, fun hok => hok hcons⟩
    · apply iff_of_true
      · rw [step, State.printCh, dif_neg (Nat.not_lt.mpr hcons)]
        exact h
      · exact fun hlt => absurd hlt (Nat.not_lt.mpr hcons)
  | seek cons modo puntatore =>
    rw [step, good_applica_iff h]
    exact seek_iff (h cons) modo puntatore
  | toScreen cons => exact iff_of_true h trivial

theorem consoleInit_good (harea : area = 4000 ∨ area = 2080) : Good area (consoleInit area) := by
  unfold consoleInit
  apply List.foldlRecOn (motive := Good area)
  · exact fun _ => ⟨rfl, Nat.zero_le _, fun _ hi => absurd hi List.not_mem_nil⟩
  · intro s hs k _
    rw [good_applica_iff hs]
    exact ⟨(hs k).pari, (hs k).cursore, Penna.clrScr_dentro harea (hs k).scritte⟩

/-- `Console_printStr` is a run of its characters. -/
theorem printStr_run {cons : Nat} (hcons : cons < 5) (stringa : List (BitVec 8)) :
    Run (Updates (step area)) s (stringa.map (.printCh cons)) (s.printStr area cons stringa) := by
  rw [State.printStr, if_pos hcons]
  have hrun := Run.of_foldl (step area) s (stringa.map (.printCh cons))
  rw [List.foldl_map] at hrun
  exact hrun

/-- The runs in which the consoles are as expected after every action are those whose
characters all fit where the cursor is and whose seeks go to even positions. -/
theorem consoles_good_iff (harea : area = 4000 ∨ area = 2080) (actions : List Azione) :
    Run (fun s a t => Updates (step area) s a t ∧ Good area t) (consoleInit area) actions t ↔
      Run (Guarded (Ammessa area) (Updates (step area))) (consoleInit area) actions t := by
  apply Run.good_iff_guarded _ (consoleInit_good harea)
  intro s a t hs hstep
  obtain rfl : step area s a = t := hstep
  exact step_iff harea hs a

theorem seek_start {new : Nat} (hnew : new < area) :
    ((step area s (.seek k 1 new)).console k).cursore = new := by
  rw [step, applica_console, if_pos rfl]
  have hin : (0 : Int) ≤ new ∧ (new : Int) < area := by omega
  show ((s.penna k).seek area 1 new).cursore = new
  unfold Penna.seek newcursore
  rw [if_neg (by decide), if_pos rfl]
  dsimp only
  rw [if_pos hin]
  exact Int.toNat_natCast new

theorem seek_ammessa {new : Nat} (hnew : new % 2 = 0) : Ammessa area s (.seek k 1 new) := by
  intro n hn _ _
  obtain rfl : (new : Int) = n := Option.some.inj hn
  omega

/-- A character and a new line on the second row. -/
theorem consoles_of_run : ∃ t,
    Run (fun s a t => Updates (step 4000) s a t ∧ Good 4000 t) (consoleInit 4000)
      [.seek 1 1 160, .printCh 1 65, .printCh 1 10] t := by
  have hroom : ((step 4000 (consoleInit 4000) (.seek 1 1 (160 : Nat))).console 1).cursore + 2 <
      4000 := by
    rw [seek_start (by decide)]
    decide
  have hrun : Run (Guarded (Ammessa 4000) (Updates (step 4000))) (consoleInit 4000)
      [.seek 1 1 (160 : Nat), .printCh 1 65, .printCh 1 10] _ :=
    .cons ⟨seek_ammessa rfl, rfl⟩
      (.cons ⟨fun _ => hroom, rfl⟩ (.single ⟨fun _ => trivial, rfl⟩))
  exact ⟨_, (consoles_good_iff (.inl rfl) _).mpr hrun⟩

/-- The last cell of the screen is filled. -/
theorem consoles_lastCell : ∃ t,
    Run (Updates (step 4000)) (consoleInit 4000) [.seek 1 1 3998, .printCh 1 65] t ∧
      ¬ Good 4000 t := by
  refine ⟨_, .cons rfl (.single rfl), ?_⟩
  have hgood : Good 4000 (step 4000 (consoleInit 4000) (.seek 1 1 (3998 : Nat))) :=
    (step_iff (.inl rfl) (consoleInit_good (.inl rfl)) _).mpr (seek_ammessa rfl)
  intro hall
  have hroom : ((step 4000 (consoleInit 4000) (.seek 1 1 (3998 : Nat))).console 1).cursore + 2 <
      4000 := (printCh_iff (.inl rfl) hgood 65).mp hall
  rw [seek_start (by decide)] at hroom
  omega

end state

end OsdevArchive.Cheapos.Consoles
