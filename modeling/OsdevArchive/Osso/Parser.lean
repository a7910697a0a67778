import OsdevArchive.Lib.UndoLog
import Mathlib.Data.BitVec

/-!
The parser of the boot configuration of OSSO (`boot/parser.c`). It ends lines and tokens with
zeros that it writes into the buffer, and keeps the character under each of the two. Pointers
are addresses of one memory, which holds the buffer; a search that meets no end in the address
space does not return.
-/

namespace OsdevArchive.Osso.Parser

abbrev Byte := BitVec 8

abbrev Memory := Nat → Byte

def tab : Byte := 0x09

def newline : Byte := 0x0A

def carriageReturn : Byte := 0x0D

def blank : Byte := 0x20

/-- `COMMENT_CHAR`. -/
def commentChar : Byte := 0x23

/-- `DELIMITERS`. -/
def delimiters : List Byte := [tab, blank, 0x2C, 0x3A, 0x3B, 0x2D, 0x3D, 0x28, 0x29, 0x7B, 0x7D]

/-- `IS_SPACING`. -/
def isSpacing (c : Byte) : Bool := c = blank ∨ c = tab

/-- The globals of the parser. A pointer with the value under it is a pair, and absent where the
pointer is zero. -/
structure State where
  memory : Memory
  parserBuffer : Nat
  parserFinebuffer : Nat
  parserLine : Int
  parserP : Nat
  parserPp : Option Nat
  parserLineP : Option (Nat × Byte)
  parserTokenP : Option (Nat × Byte)

/-! ### Restoring -/

/-- `*p=val; p=0` for a saved character, if there is one. -/
def writeBack (memory : Memory) : Option (Nat × Byte) → Memory
  | none => memory
  | some (p, val) => Function.update memory p val

def restoreToken (s : State) : State :=
  { s with memory := writeBack s.memory s.parserTokenP, parserTokenP := none }

def restoreLine (s : State) : State :=
  { s with memory := writeBack s.memory s.parserLineP, parserLineP := none }

def initParser (s : State) (initconfAddress dim : Nat) : State :=
  restoreLine (restoreToken { s with
    parserBuffer := initconfAddress
    parserFinebuffer := initconfAddress + dim
    parserP := initconfAddress
    parserLine := 0 })

/-! ### Lines -/

/-- `for (; IS_SPACING(*pi) && pi<parser_finebuffer; pi++)`, with the number of characters
before `parser_finebuffer`. -/
def skipSpacing (memory : Memory) : Nat → Nat → Nat
  | 0, pi => pi
  | left + 1, pi => if isSpacing (memory pi) then skipSpacing memory left (pi + 1) else pi

/-- The loop that finds the end of a line and the first comment character before it. -/
def findEnd (memory : Memory) : Nat → Nat → Option Nat → Nat × Option Nat
  | 0, s, s2 => (s, s2)
  | left + 1, s, s2 =>
    if memory s = newline then (s, s2)
    else findEnd memory left (s + 1)
      (if memory s = commentChar ∧ s2 = none then some s else s2)

/-- `*s=='\r' || IS_SPACING(*s)`. -/
def isTrailing (c : Byte) : Bool := c = carriageReturn ∨ isSpacing c

/-- `for (s--; *s=='\r' || IS_SPACING(*s); s--); s++`. -/
def trimEnd (memory : Memory) : Nat → Nat
  | 0 => 0
  | s + 1 => if isTrailing (memory s) then trimEnd memory s else s + 1

/-- The first line from `pi` on that is valid, as its start, its end and its logic end, and the
number of lines that were looked at. Every round moves `pi` on, so that as many rounds as there
are characters are enough. -/
def findLine (memory : Memory) (fine : Nat) : Nat → Nat → Int × Option (Nat × Nat × Nat)
  | 0, _ => (0, none)
  | rounds + 1, pi =>
    let pi := skipSpacing memory (fine - pi) pi
    if fine ≤ pi ∨ pi = 0 then (1, none)
    else
      let (s, s2) := findEnd memory (fine - pi) pi none
      if fine ≤ s then (1, none)
      else if memory pi ≠ 0 ∧ memory pi ≠ newline ∧ memory pi ≠ carriageReturn ∧
          memory pi ≠ commentChar then
        (1, some (pi, s, trimEnd memory (s2.getD s)))
      else
        let (lines, found) := findLine memory fine rounds (s + 1)
        (lines + 1, found)

/-- `GetLine`; the pointer is absent where it returns `NULL`. -/
def getLine (s : State) : Option Nat × State :=
  let s := restoreLine (restoreToken s)
  let (lines, found) := findLine s.memory s.parserFinebuffer
    (s.parserFinebuffer - s.parserP + 1) s.parserP
  let s := { s with parserLine := s.parserLine + lines }
  match found with
  | none => (none, s)
  | some (pi, stop, logic) =>
    (some pi, { s with
      memory := Function.update s.memory logic 0
      parserP := stop + 1
      parserPp := some pi
      parserLineP := some (logic, s.memory logic) })

def regetLine (s : State) : Option Nat × State :=
  let s := restoreToken s
  (s.parserPp, s)

/-! ### Tokens -/

/-- The first address from `p` on whose character ends a search, among so many. -/
def seek (memory : Memory) (ends : Byte → Bool) : Nat → Nat → Option Nat
  | 0, _ => none
  | left + 1, p => if ends (memory p) then some p else seek memory ends left (p + 1)

/-- A search without a bound but that of the address space. -/
def search (memory : Memory) (ends : Byte → Bool) (p : Nat) : Option Nat :=
  seek memory ends (2 ^ 32 - p) p

/-- What `GetToken` returns, `*carattere` and the new `*stringa`. -/
structure Token where
  start : Nat
  carattere : Byte
  stringa : Nat

/-- `If necessary, look for the next token`. -/
def nextToken (memory : Memory) (delim : List Byte) (next : Nat) : Option Nat :=
  if memory next ≠ 0 ∧ memory next ∈ delim then
    search memory (fun c => ¬ isSpacing c) (next + 1)
  else some next

def getToken (s : State) (stringa : Nat) (withoutspaces : Bool) (specDelimiters : List Byte) :
    Option (Token × State) := do
  let delim := if specDelimiters = [] then delimiters else specDelimiters
  let s := restoreToken s
  let d ← search s.memory (fun c => c = 0 ∨ c ∈ delim) stringa
  let next ← search s.memory (fun c => ¬ isSpacing c) d
  let c := s.memory next
  let carattere :=
    if withoutspaces then
      if (¬ isSpacing c ∧ c ∈ delim) ∨ c = 0 then c else s.memory d
    else s.memory d
  let stop ← nextToken s.memory delim next
  some (⟨stringa, carattere, stop⟩, { s with
    memory := Function.update s.memory d 0
    parserTokenP := some (d, s.memory d) })

/-! ### Sections -/

/-- A character in lower case, as `StringEqual` compares it. -/
def lowerCase (c : Byte) : Byte := if 0x41 ≤ c ∧ c ≤ 0x5A then c + 0x20 else c

/-- `StringEqual` of the string at `p` and a name. -/
def stringEqual (memory : Memory) : Nat → List Byte → Bool
  | p, [] => memory p = 0
  | p, c :: name =>
    if memory p = 0 then false
    else if lowerCase (memory p) = lowerCase c then stringEqual memory (p + 1) name else false

/-- `Sections`: `config`, `boot` and `init`. -/
def sections : List (Int × List Byte) :=
  [(0, [0x63, 0x6F, 0x6E, 0x66, 0x69, 0x67]), (1, [0x62, 0x6F, 0x6F, 0x74]),
    (2, [0x69, 0x6E, 0x69, 0x74])]

/-- The loop over the section names; `NO_SECTION` at its end. -/
def findName (memory : Memory) (s : Nat) : List (Int × List Byte) → Int
  | [] => -1
  | (type, name) :: rest => if stringEqual memory s name then type else findName memory s rest

/-- `if (*s=='[') s++`. -/
def sectionStart (memory : Memory) (s : Nat) : Nat := if memory s = 0x5B then s + 1 else s

/-- `end` of `FindSection`: the address before the end of the string. -/
def sectionEnd (memory : Memory) (s : Nat) : Option Nat := do
  let stop ← search memory (fun c => c = 0) (sectionStart memory s)
  some (stop - 1)

/-- The character at the end of a section. -/
def sectionClose : Byte := 0x5D

/-- `FindSection`, where the local variable `ch` holds `ch` before it is set. -/
def findSection (s : State) (string : Nat) (ch : Byte) : Option (Int × State) := do
  let stop ← sectionEnd s.memory string
  let start := sectionStart s.memory string
  if s.memory stop = sectionClose then
    let cut := Function.update s.memory stop 0
    some (findName cut start sections,
      { s with memory := Function.update cut stop sectionClose })
  else
    some (findName s.memory start sections, { s with memory := Function.update s.memory stop ch })

end OsdevArchive.Osso.Parser
