import OsdevArchive.Lib.Runs
import OsdevArchive.Lib.Spans
import OsdevArchive.Osso.Parser

/-!
The parser of the boot configuration does not destroy its buffer, as far as `FindSection` gets
strings that end with a closing bracket. What the buffer was is the memory with the saved
characters written back, that of the token before that of the line, and every other write goes
to a place that has just been saved.
-/

namespace OsdevArchive.Osso.Parser

open OsdevArchive.Lib.Runs OsdevArchive.Lib.Spans OsdevArchive.Lib.UndoLog

/-! ### The saved characters -/

/-- The saved characters, in the order in which they are written back. -/
def saved (s : State) : List (Nat × Byte) := s.parserTokenP.toList ++ s.parserLineP.toList

def restored (s : State) : Memory := undo (saved s) s.memory

theorem writeBack_eq (memory : Memory) (p : Option (Nat × Byte)) :
    writeBack memory p = undo p.toList memory := by
  cases p <;> rfl

theorem restored_restoreToken (s : State) : restored (restoreToken s) = restored s := by
  unfold restored saved
  rw [undo_append, undo_append, ← writeBack_eq s.memory]
  rfl

/-- With both characters written back the memory is what it was. -/
theorem restoreLine_restoreToken_memory (s : State) :
    (restoreLine (restoreToken s)).memory = restored s := by
  rw [← restored_restoreToken]
  exact writeBack_eq _ _

theorem initParser_memory (s : State) (initconfAddress dim : Nat) :
    (initParser s initconfAddress dim).memory = restored s :=
  restoreLine_restoreToken_memory _

/-- The memory differs from what it was in the saved places only. -/
theorem memory_eq_of_notMem {s : State} {k : Nat} (h : k ∉ (saved s).map Prod.fst) :
    s.memory k = restored s k :=
  (undo_of_notMem h _).symm

/-! ### Lines -/

variable {memory : Memory}

theorem skipSpacing_bounds (memory : Memory) (left pi : Nat) :
    pi ≤ skipSpacing memory left pi ∧ skipSpacing memory left pi ≤ pi + left := by
  induction left generalizing pi with
  | zero => exact ⟨Nat.le_refl _, Nat.le_refl _⟩
  | succ left ih =>
    unfold skipSpacing
    split
    · have hrest := ih (pi + 1)
      omega
    · omega

theorem skipSpacing_stops {left pi : Nat} (h : skipSpacing memory left pi < pi + left) :
    isSpacing (memory (skipSpacing memory left pi)) = false := by
  induction left generalizing pi with
  | zero => exact absurd h (Nat.lt_irrefl _)
  | succ left ih =>
    unfold skipSpacing at h ⊢
    split
    · rename_i hspacing
      rw [if_pos hspacing] at h
      exact ih (by omega)
    · rename_i hnone
      simpa using hnone

/-- The first comment character of the line from `pi` to `s`. -/
def FirstComment (memory : Memory) (pi s : Nat) : Option Nat → Prop
  | none => ∀ k, pi ≤ k → k < s → memory k ≠ commentChar
  | some c => pi ≤ c ∧ c < s ∧ memory c = commentChar ∧
      ∀ k, pi ≤ k → k < c → memory k ≠ commentChar

theorem FirstComment.succ {pi s : Nat} {s2 : Option Nat} (hle : pi ≤ s)
    (h : FirstComment memory pi s s2) :
    FirstComment memory pi (s + 1)
      (if memory s = commentChar ∧ s2 = none then some s else s2) := by
  cases s2 with
  | some c =>
    obtain ⟨hpi, hc, hchar, hbefore⟩ := h
    rw [if_neg (by simp)]
    exact ⟨hpi, Nat.lt_succ_of_lt hc, hchar, hbefore⟩
  | none =>
    by_cases hchar : memory s = commentChar
    · rw [if_pos ⟨hchar, rfl⟩]
      exact ⟨hle, Nat.lt_succ_self s, hchar, h⟩
    · rw [if_neg fun hc => hchar hc.1]
      intro k hk hlt
      obtain hbefore | rfl := Nat.lt_or_eq_of_le (Nat.le_of_lt_succ hlt)
      · exact h k hk hbefore
      · exact hchar

/-- The end of a line: the first newline, if there is one in time, with the first comment
character before it. -/
theorem findEnd_spec (left : Nat) {pi s : Nat} {s2 : Option Nat} (hle : pi ≤ s)
    (hline : ∀ k, pi ≤ k → k < s → memory k ≠ newline) (hcomment : FirstComment memory pi s s2) :
    let r := findEnd memory left s s2
    s ≤ r.1 ∧ (∀ k, pi ≤ k → k < r.1 → memory k ≠ newline) ∧
      (r.1 < s + left → memory r.1 = newline) ∧ FirstComment memory pi r.1 r.2 := by
  induction left generalizing s s2 with
  | zero => exact ⟨Nat.le_refl _, hline, fun h => absurd h (Nat.lt_irrefl _), hcomment⟩
  | succ left ih =>
    unfold findEnd
    split
    · rename_i hend
      exact ⟨Nat.le_refl _, hline, fun _ => hend, hcomment⟩
    · rename_i hmore
      have hline' : ∀ k, pi ≤ k → k < s + 1 → memory k ≠ newline := by
        intro k hk hlt
        obtain hbefore | rfl := Nat.lt_or_eq_of_le (Nat.le_of_lt_succ hlt)
        · exact hline k hk hbefore
        · exact hmore
      obtain ⟨hlo, hrest, hstop, hfirst⟩ := ih (s := s + 1) (Nat.le_succ_of_le hle) hline'
        (hcomment.succ hle)
      rw [Nat.add_assoc, Nat.add_comm 1] at hstop
      exact ⟨Nat.le_of_succ_le hlo, hrest, hstop, hfirst⟩

/-- The logic end of a text: what follows is trailing, and the last character before is not. -/
theorem trimEnd_spec (memory : Memory) (s : Nat) :
    trimEnd memory s ≤ s ∧ (∀ k, trimEnd memory s ≤ k → k < s → isTrailing (memory k) = true) ∧
      ∀ k, trimEnd memory s = k + 1 → isTrailing (memory k) = false := by
  induction s with
  | zero =>
    exact ⟨Nat.le_refl _, fun k _ hk => absurd hk (Nat.not_lt_zero k),
      fun k hk => absurd hk.symm (Nat.succ_ne_zero k)⟩
  | succ s ih =>
    unfold trimEnd
    split
    · rename_i htrailing
      obtain ⟨hle, hgo, hstop⟩ := ih
      refine ⟨Nat.le_succ_of_le hle, fun k hk hlt => ?_, hstop⟩
      obtain hbefore | rfl := Nat.lt_or_eq_of_le (Nat.le_of_lt_succ hlt)
      · exact hgo k hk hbefore
      · exact htrailing
    · rename_i hlast
      refine ⟨Nat.le_refl _, fun k hk hlt => absurd hlt (Nat.not_lt_of_le hk), ?_⟩
      intro k hk
      obtain rfl : s = k := Nat.succ.inj hk
      simpa using hlast

/-- A line as `GetLine` finds it: its start, the newline at its end, and its logic end. -/
structure IsLine (memory : Memory) (fine pi stop logic : Nat) : Prop where
  bound : stop < fine
  ends : memory stop = newline
  line : ∀ k, pi ≤ k → k < stop → memory k ≠ newline
  start : isTrailing (memory pi) = false ∧ memory pi ≠ commentChar ∧ memory pi ≠ newline
  before : pi ≤ stop
  logic_eq : ∃ s2, FirstComment memory pi stop s2 ∧ logic = trimEnd memory (s2.getD stop)

theorem findLine_isLine {fine rounds pi : Nat} {lines : Int} {start stop logic : Nat}
    (h : findLine memory fine rounds pi = (lines, some (start, stop, logic))) :
    IsLine memory fine start stop logic := by
  induction rounds generalizing pi lines with
  | zero => cases h
  | succ rounds ih =>
    unfold findLine at h
    dsimp only at h
    obtain ⟨p, hp⟩ : ∃ p, p = skipSpacing memory (fine - pi) pi := ⟨_, rfl⟩
    rw [← hp] at h
    split at h
    · cases h
    · rename_i hinside
      have hbound : p < fine := Nat.lt_of_not_le fun hle => hinside (.inl hle)
      have hnone : FirstComment memory p p none := fun k hk hlt =>
        absurd hlt (Nat.not_lt_of_le hk)
      obtain ⟨hle, hline, hends, hfirst⟩ := findEnd_spec (fine - p) (Nat.le_refl p)
        (fun k hk hlt => absurd hlt (Nat.not_lt_of_le hk)) hnone
      rw [Nat.add_sub_of_le (Nat.le_of_lt hbound)] at hends
      split at h
      · cases h
      · rename_i hstop
        have hstop' := Nat.lt_of_not_le hstop
        split at h
        · rename_i hvalid
          have hspacing : isSpacing (memory p) = false := by
            rw [hp]
            apply skipSpacing_stops
            obtain ⟨hmoved, -⟩ := skipSpacing_bounds memory (fine - pi) pi
            rw [← hp] at hmoved ⊢
            omega
          cases h
          refine ⟨hstop', hends hstop', hline, ⟨?_, hvalid.2.2.2, hvalid.2.1⟩, hle, _, hfirst, rfl⟩
          unfold isTrailing
          simp [hvalid.2.2.1, hspacing]
        · have hfound := congrArg Prod.snd h
          exact ih (Prod.ext rfl hfound)

/-! ### What a line shows -/

/-- The text of a line from `pi` on, without the newline. -/
def lineText (memory : Memory) (fine pi : Nat) : List Byte :=
  (span memory pi (fine - pi)).takeWhile fun c => c ≠ newline

/-- The text up to its comment or its trailing blanks. -/
def shown (memory : Memory) (fine pi : Nat) : List Byte :=
  ((lineText memory fine pi).takeWhile fun c => c ≠ commentChar).rdropWhile isTrailing

theorem IsLine.lineText_eq {fine pi stop logic : Nat} (h : IsLine memory fine pi stop logic) :
    lineText memory fine pi = span memory pi (stop - pi) := by
  have hbound := h.bound
  have hbefore := h.before
  apply takeWhile_span (by omega)
  · intro k hk
    simpa using h.line (pi + k) (Nat.le_add_right _ _) (by omega)
  · intro _
    rw [Nat.add_sub_of_le hbefore, h.ends]
    rfl

theorem IsLine.logic_le {fine pi stop logic : Nat} (h : IsLine memory fine pi stop logic) :
    logic ≤ stop := by
  obtain ⟨s2, hfirst, rfl⟩ := h.logic_eq
  obtain ⟨htrim, -, -⟩ := trimEnd_spec memory (s2.getD stop)
  cases s2 with
  | none => exact htrim
  | some c => exact Nat.le_trans htrim (Nat.le_of_lt hfirst.2.1)

/-- The logic end is the end of what is shown. -/
theorem IsLine.shown_eq {fine pi stop logic : Nat} (h : IsLine memory fine pi stop logic) :
    pi < logic ∧ shown memory fine pi = span memory pi (logic - pi) := by
  obtain ⟨s2, hfirst, hlogic⟩ := h.logic_eq
  obtain ⟨hsolid, hcomment, hnewline⟩ := h.start
  have hbefore := h.before
  -- the end of the text that is not comment
  obtain ⟨e, he⟩ : ∃ e, e = s2.getD stop := ⟨_, rfl⟩
  obtain ⟨hstart, hle, hclean, hstop⟩ : pi < e ∧ e ≤ stop ∧
      (∀ k, pi ≤ k → k < e → memory k ≠ commentChar) ∧ (e < stop → memory e = commentChar) := by
    cases s2 with
    | none =>
      obtain rfl : e = stop := he
      have hne : pi ≠ e := fun heq => hnewline (heq ▸ h.ends)
      exact ⟨by omega, Nat.le_refl _, hfirst, fun hlt => absurd hlt (Nat.lt_irrefl _)⟩
    | some c =>
      obtain rfl : e = c := he
      obtain ⟨hpi, hc, hchar, hbefore⟩ := hfirst
      have hne : pi ≠ e := fun heq => hcomment (heq ▸ hchar)
      exact ⟨by omega, Nat.le_of_lt hc, hbefore, fun _ => hchar⟩
  obtain ⟨htrim, hgo, hlast⟩ := trimEnd_spec memory e
  rw [← he] at hlogic
  rw [← hlogic] at htrim hgo hlast
  have hlong : pi < logic := by
    apply Nat.lt_of_not_le
    intro hshort
    have htrailing := hgo pi hshort hstart
    rw [hsolid] at htrailing
    cases htrailing
  refine ⟨hlong, ?_⟩
  unfold shown
  rw [h.lineText_eq]
  have htext : (span memory pi (stop - pi)).takeWhile (fun c => c ≠ commentChar) =
      span memory pi (e - pi) := by
    apply takeWhile_span (by omega)
    · intro k hk
      simpa using hclean (pi + k) (Nat.le_add_right _ _) (by omega)
    · intro hlt
      rw [Nat.add_sub_of_le (Nat.le_of_lt hstart), hstop (by omega)]
      rfl
  rw [htext]
  apply rdropWhile_span (by omega)
  · intro k hk hlt
    exact hgo (pi + k) (by omega) (by omega)
  · intro k hk
    exact hlast (pi + k) (by omega)

/-! ### Calls -/

/-- The calls of the parser. The string of `FindSection` comes with what the local variable
`ch` happens to hold. -/
inductive Call where
  | initParser (initconfAddress dim : Nat)
  | getLine
  | regetLine
  | getToken (stringa : Nat) (withoutspaces : Bool) (specDelimiters : List Byte)
  | findSection (string : Nat) (ch : Byte)

inductive Reply where
  | done
  | line (pi : Option Nat)
  | token (token : Token)
  | sectionType (type : Int)

def perform (s : State) : Call → Option (Reply × State)
  | .initParser initconfAddress dim => some (.done, initParser s initconfAddress dim)
  | .getLine => some (.line (getLine s).1, (getLine s).2)
  | .regetLine => some (.line (regetLine s).1, (regetLine s).2)
  | .getToken stringa withoutspaces specDelimiters =>
    (getToken s stringa withoutspaces specDelimiters).map fun r => (.token r.1, r.2)
  | .findSection string ch => (findSection s string ch).map fun r => (.sectionType r.1, r.2)

def Step (s : State) (a : Call × Reply) (t : State) : Prop := perform s a.1 = some (a.2, t)

/-- The parser before its first call. -/
def initial (memory : Memory) : State := ⟨memory, 0, 0, 0, 0, none, none, none⟩

/-- The string at `pi` is what the original line shows. -/
def ShowsLine (original : Memory) (t : State) (pi : Nat) : Prop :=
  span t.memory pi (shown original t.parserFinebuffer pi).length =
      shown original t.parserFinebuffer pi ∧
    t.memory (pi + (shown original t.parserFinebuffer pi).length) = 0

/-- What a call promises: with the saved characters written back the memory is the original one,
without them it differs in the saved places at most, and not at all behind `InitParser`; a
line of `GetLine` shows the original text. -/
def Keeps (original : Memory) (_ : State) (a : Call × Reply) (t : State) : Prop :=
  restored t = original ∧
    (∀ k, t.memory k ≠ original k → k ∈ (saved t).map Prod.fst) ∧
    match a with
    | (.initParser _ _, _) => t.memory = original
    | (.getLine, .line (some pi)) => ShowsLine original t pi
    | _ => True

/-- The calls that keep their promise: all but `FindSection` on a string without a closing
bracket at its end, unless it writes to a saved place or what is there already. -/
def Allowed (s : State) (a : Call × Reply) : Prop :=
  match a.1 with
  | .findSection string ch =>
    ∀ stop, sectionEnd s.memory string = some stop →
      s.memory stop = sectionClose ∨ stop ∈ (saved s).map Prod.fst ∨ ch = s.memory stop
  | _ => True

/-- A call without a promise of its own keeps what it has to if it keeps the original. -/
theorem keeps_of_restored {original : Memory} {s t : State} {a : Call × Reply}
    (h : restored t = original)
    (hown : match a with
      | (.initParser _ _, _) => t.memory = original
      | (.getLine, .line (some pi)) => ShowsLine original t pi
      | _ => True) : Keeps original s a t := by
  refine ⟨h, fun k hk => ?_, hown⟩
  by_contra hnot
  exact hk ((memory_eq_of_notMem hnot).trans (congrFun h k))

/-- What `GetLine` does: it writes the saved characters back, and ends the line that it finds
with a zero. -/
theorem getLine_cases (s : State) :
    (∃ lines, getLine s =
      (none, { restoreLine (restoreToken s) with parserLine := s.parserLine + lines })) ∨
    ∃ lines pi stop logic, IsLine (restored s) s.parserFinebuffer pi stop logic ∧
      getLine s = (some pi, { restoreLine (restoreToken s) with
        parserLine := s.parserLine + lines
        memory := Function.update (restored s) logic 0
        parserP := stop + 1
        parserPp := some pi
        parserLineP := some (logic, restored s logic) }) := by
  have hmemory := restoreLine_restoreToken_memory s
  unfold getLine
  dsimp only
  rw [hmemory]
  cases hfind : findLine (restored s) (restoreLine (restoreToken s)).parserFinebuffer
      ((restoreLine (restoreToken s)).parserFinebuffer -
        (restoreLine (restoreToken s)).parserP + 1)
      (restoreLine (restoreToken s)).parserP with
  | mk lines found =>
    cases found with
    | none =>
      refine .inl ⟨lines, ?_⟩
      rw [← hmemory]
      rfl
    | some line =>
      obtain ⟨pi, stop, logic⟩ := line
      exact .inr ⟨lines, pi, stop, logic, findLine_isLine hfind, rfl⟩

theorem restored_getLine (s : State) : restored (getLine s).2 = restored s := by
  obtain ⟨lines, hline⟩ | ⟨lines, pi, stop, logic, -, hline⟩ := getLine_cases s
  · rw [hline]
    exact restoreLine_restoreToken_memory s
  · rw [hline]
    exact undo_save [] (restored s) logic 0

/-- A line of `GetLine` shows the original text. -/
theorem getLine_shows {s : State} {pi : Nat} (h : (getLine s).1 = some pi) :
    ShowsLine (restored s) (getLine s).2 pi := by
  obtain ⟨lines, hline⟩ | ⟨lines, start, stop, logic, hfound, hline⟩ := getLine_cases s
  · rw [hline] at h
    cases h
  · rw [hline] at h ⊢
    obtain rfl : start = pi := Option.some.inj h
    obtain ⟨hlong, hshown⟩ := hfound.shown_eq
    unfold ShowsLine
    dsimp only [restoreLine, restoreToken]
    rw [hshown, span_length, Nat.add_sub_of_le (Nat.le_of_lt hlong), Function.update_self]
    refine ⟨span_congr fun k hk => ?_, rfl⟩
    exact Function.update_of_ne (by omega) _ _

theorem restored_getToken {s t : State} {stringa : Nat} {withoutspaces : Bool}
    {specDelimiters : List Byte} {token : Token}
    (h : getToken s stringa withoutspaces specDelimiters = some (token, t)) :
    restored t = restored s := by
  rw [← restored_restoreToken s]
  unfold getToken at h
  simp only [Option.bind_eq_bind, Option.bind_eq_some_iff, Option.some.injEq, Prod.mk.injEq] at h
  obtain ⟨d, -, next, -, stop, -, -, rfl⟩ := h
  exact undo_save _ _ d 0

/-- `FindSection` keeps the original exactly if it is allowed. -/
theorem restored_findSection_iff {s t : State} {string : Nat} {ch : Byte} {type : Int}
    (h : findSection s string ch = some (type, t)) :
    restored t = restored s ↔
      ∀ stop, sectionEnd s.memory string = some stop →
        s.memory stop = sectionClose ∨ stop ∈ (saved s).map Prod.fst ∨ ch = s.memory stop := by
  unfold findSection at h
  obtain ⟨stop, hstop, h⟩ := Option.bind_eq_some_iff.mp h
  dsimp only at h
  rw [hstop]
  split at h
  · rename_i hclose
    obtain ⟨-, rfl⟩ := Prod.mk.inj (Option.some.inj h)
    refine iff_of_true ?_ fun stop' hstop' => .inl (Option.some.inj hstop' ▸ hclose)
    unfold restored saved
    rw [Function.update_idem, ← hclose, Function.update_eq_self]
  · rename_i hopen
    obtain ⟨-, rfl⟩ := Prod.mk.inj (Option.some.inj h)
    apply (undo_update_iff (saved s) s.memory stop ch).trans
    constructor
    · intro hsafe stop' hstop'
      obtain rfl := Option.some.inj hstop'
      exact .inr hsafe
    · intro hall
      exact (hall stop rfl).resolve_left hopen

/-- Every call keeps its promise exactly if it is allowed. -/
theorem keeps_iff_allowed {original : Memory} {s t : State} {a : Call × Reply}
    (hs : restored s = original) (h : Step s a t) : Keeps original s a t ↔ Allowed s a := by
  obtain ⟨call, reply⟩ := a
  cases call with
  | initParser initconfAddress dim =>
    obtain ⟨rfl, rfl⟩ := Prod.mk.inj (Option.some.inj h)
    have hmemory := (initParser_memory s initconfAddress dim).trans hs
    exact iff_of_true (keeps_of_restored hmemory hmemory) trivial
  | getLine =>
    obtain ⟨rfl, rfl⟩ := Prod.mk.inj (Option.some.inj h)
    refine iff_of_true (keeps_of_restored ((restored_getLine s).trans hs) ?_) trivial
    split
    · rename_i heq
      cases heq
    · rename_i pi heq
      rw [← hs]
      exact getLine_shows (Reply.line.inj (Prod.mk.inj heq).2)
    · trivial
  | regetLine =>
    obtain ⟨rfl, rfl⟩ := Prod.mk.inj (Option.some.inj h)
    exact iff_of_true (keeps_of_restored ((restored_restoreToken s).trans hs) trivial) trivial
  | getToken stringa withoutspaces specDelimiters =>
    obtain ⟨⟨token, t'⟩, htoken, heq⟩ := Option.map_eq_some_iff.mp h
    obtain ⟨rfl, rfl⟩ := Prod.mk.inj heq
    exact iff_of_true (keeps_of_restored ((restored_getToken htoken).trans hs) trivial) trivial
  | findSection string ch =>
    obtain ⟨⟨type, t'⟩, hsection, heq⟩ := Option.map_eq_some_iff.mp h
    obtain ⟨rfl, rfl⟩ := Prod.mk.inj heq
    apply Iff.trans _ (restored_findSection_iff hsection)
    exact ⟨fun hk => hk.1.trans hs.symm, fun hr => keeps_of_restored (hr.trans hs) trivial⟩

/-- The contract of the parser, from before its first call on. -/
theorem calls_keep_iff_allowed (memory : Memory) (calls : List (Call × Reply)) (t : State) :
    Run (fun s a t => Step s a t ∧ Keeps memory s a t) (initial memory) calls t ↔
      Run (Guarded Allowed Step) (initial memory) calls t := by
  refine Run.meets_iff_guarded (I := fun s => restored s = memory) ?_ ?_ rfl
  · intro s a t hs h
    exact keeps_iff_allowed hs h
  · intro s a t _ _ h
    exact h.1

/-- A buffer with the line `[boot`, from the address 1 on. -/
def bootLine : Memory := fun k => [0, 0x5B, 0x62, 0x6F, 0x6F, 0x74, newline].getD k 0

/-- `FindSection` on a line without the closing bracket overwrites its last character for good:
also behind `InitParser` the memory is not what it was. -/
theorem open_section_is_destroyed :
    ¬ ∀ (memory : Memory) (calls : List (Call × Reply)) (t : State),
      Run Step (initial memory) calls t →
      Run (fun s a t => Step s a t ∧ Keeps memory s a t) (initial memory) calls t := by
  intro hall
  let first := initParser (initial bootLine) 1 6
  let second := (getLine first).2
  let third : State := { second with memory := Function.update second.memory 5 0 }
  have hend : sectionEnd second.memory 1 = some 5 := by decide +kernel
  have hopen : second.memory 5 ≠ sectionClose := by decide +kernel
  have hname : findName second.memory (sectionStart second.memory 1) sections = 1 := by
    decide +kernel
  have hsection : Step second (.findSection 1 0, .sectionType 1) third := by
    unfold Step perform findSection
    dsimp only
    rw [hend, Option.bind_eq_bind, Option.bind_some, if_neg hopen, hname]
    rfl
  have hrun : Run Step (initial bootLine)
      [(.initParser 1 6, .done), (.getLine, .line (getLine first).1),
        (.findSection 1 0, .sectionType 1), (.initParser 1 6, .done)]
      (initParser third 1 6) :=
    .cons rfl (.cons rfl (.cons hsection (.cons rfl (.nil _))))
  have hrestored := (hall _ _ _ hrun).invariant (I := fun s => restored s = bootLine)
    (fun _ _ _ _ h => h.2.1) rfl
  have hchar := congrFun hrestored 5
  revert hchar
  decide +kernel

/-! ### The calls return -/

theorem seek_isSome {ends : Byte → Bool} {left p q : Nat} (hp : p ≤ q) (hq : q < p + left)
    (hend : ends (memory q) = true) :
    ∃ r, seek memory ends left p = some r ∧ p ≤ r ∧ r ≤ q := by
  induction left generalizing p with
  | zero => omega
  | succ left ih =>
    unfold seek
    split
    · exact ⟨p, rfl, Nat.le_refl _, hp⟩
    · rename_i hmore
      have hne : p ≠ q := fun heq => hmore (heq ▸ hend)
      obtain ⟨r, hr, hlo, hhi⟩ := ih (p := p + 1) (by omega) (by omega)
      exact ⟨r, hr, by omega, hhi⟩

/-- A search returns that starts before the zero of the line. -/
theorem search_isSome {p q : Nat} (hp : p ≤ q) (hq : q < 2 ^ 32) (hzero : memory q = 0)
    (ends : Byte → Bool) (hend : ends 0 = true) :
    ∃ r, search memory ends p = some r ∧ p ≤ r ∧ r ≤ q :=
  seek_isSome hp (by omega) (by rw [hzero]; exact hend)

/-- `GetToken` and `FindSection` return on a line that `GetLine` has just returned. -/
theorem returns_of_getLine {s : State} {pi : Nat} (h : (getLine s).1 = some pi)
    (hfine : s.parserFinebuffer ≤ 2 ^ 32) (withoutspaces : Bool) (specDelimiters : List Byte)
    (ch : Byte) :
    (getToken (getLine s).2 pi withoutspaces specDelimiters).isSome ∧
      (findSection (getLine s).2 pi ch).isSome := by
  obtain ⟨lines, hline⟩ | ⟨lines, start, stop, logic, hfound, hline⟩ := getLine_cases s
  · rw [hline] at h
    cases h
  · obtain rfl : start = pi := by
      rw [hline] at h
      exact Option.some.inj h
    obtain ⟨t, ht⟩ : ∃ t, t = (getLine s).2 := ⟨_, rfl⟩
    have htoken : restoreToken t = t := by
      rw [ht, hline]
      rfl
    have hzero : t.memory logic = 0 := by
      rw [ht, hline]
      exact Function.update_self _ _ _
    obtain ⟨hlong, -⟩ := hfound.shown_eq
    have hlogic : logic < 2 ^ 32 := by
      have hbound := hfound.bound
      have hle := hfound.logic_le
      omega
    rw [← ht]
    have hsearch {p : Nat} (hp : p ≤ logic) (ends : Byte → Bool) (hend : ends 0 = true) :=
      search_isSome hp hlogic hzero ends hend
    constructor
    · unfold getToken
      dsimp only
      rw [htoken]
      obtain ⟨d, hd, -, hdle⟩ := hsearch (Nat.le_of_lt hlong)
        (fun c => c = 0 ∨ c ∈ if specDelimiters = [] then delimiters else specDelimiters)
        (by simp)
      obtain ⟨next, hnext, -, hnextle⟩ := hsearch hdle (fun c => ¬ isSpacing c) (by decide)
      have hnextToken (delim : List Byte) : ∃ last, nextToken t.memory delim next = some last := by
        unfold nextToken
        split
        · rename_i hmore
          have hne : next ≠ logic := fun heq => hmore.1 (heq ▸ hzero)
          obtain ⟨last, hlast, -⟩ := hsearch (Nat.lt_of_le_of_ne hnextle hne)
            (fun c => ¬ isSpacing c) (by decide)
          exact ⟨last, hlast⟩
        · exact ⟨next, rfl⟩
      obtain ⟨last, hlast⟩ :=
        hnextToken (if specDelimiters = [] then delimiters else specDelimiters)
      rw [hd, Option.bind_eq_bind, Option.bind_some, hnext, Option.bind_some, hlast]
      rfl
    · have hle : sectionStart t.memory start ≤ logic := by
        unfold sectionStart
        split <;> omega
      obtain ⟨last, hlast, -⟩ := hsearch hle (fun c => c = 0) rfl
      have hend : sectionEnd t.memory start = some (last - 1) := by
        unfold sectionEnd
        rw [hlast]
        rfl
      unfold findSection
      rw [hend, Option.bind_eq_bind, Option.bind_some]
      dsimp only
      split <;> rfl

end OsdevArchive.Osso.Parser
