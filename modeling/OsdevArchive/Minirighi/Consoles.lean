import OsdevArchive.Lib.RingBuffer
import OsdevArchive.Lib.Runs
import Mathlib.Data.BitVec

/-!
The virtual consoles of minirighi (`kernel/console.c`), with their screens
(`drivers/video/video.c`) and their keyboard buffers (`drivers/keyboard/keyboard.c`). Console 0
is the video memory. The current console lives there, and its own buffer is brought up to date
when another one becomes current. A task waits for a key in `keyb_wait`.
-/

namespace OsdevArchive.Minirighi.Consoles

open Function OsdevArchive.Lib.RingBuffer OsdevArchive.Lib.Runs

abbrev Byte := BitVec 8

abbrev Word := BitVec 16

/-! ### Screens -/

/-- `crt_width`. -/
def crtWidth : Nat := 80

/-- `crt_height`. -/
def crtHeight : Nat := 25

/-- `BLANK`. -/
def blank : Word := 0x0720

/-- What `video.c` uses of a `console_t`. -/
structure Video where
  vidBuffer : Fin (crtWidth * crtHeight) → Word
  curPos : Word
  curColor : Byte

namespace Video

/-- A cell is written; `none` is outside the buffer. -/
def setCell (v : Video) (i : Nat) (w : Word) : Option Video :=
  if h : i < crtWidth * crtHeight then
    some { v with vidBuffer := update v.vidBuffer ⟨i, h⟩ w }
  else none

/-- A character in the colour of the console. -/
def colored (v : Video) (c : Byte) : Word := v.curColor ++ c

/-- `video_clrscr`. -/
def clrscr (v : Video) : Video := { v with vidBuffer := fun _ => blank, curPos := 0 }

/-- `k_set_cur_pos`. -/
def setCurPos (v : Video) (pos : Word) : Video :=
  if pos.toNat < crtWidth * crtHeight then { v with curPos := pos } else v

/-- `k_set_color`. -/
def setColor (v : Video) (attrib : Byte) : Video := { v with curColor := attrib }

/-- `k_scroll_up`. -/
def scrollUp (v : Video) : Video :=
  { v with
    vidBuffer := fun i =>
      if h : i.val + crtWidth < crtWidth * crtHeight then v.vidBuffer ⟨i.val + crtWidth, h⟩
      else blank
    curPos := v.curPos - BitVec.ofNat 16 crtWidth }

/-- The column that `k_gotoxy` computes. The remainders of negative numbers are negative. -/
def column (v : Video) (x : Int) : Int :=
  if x ≠ -1 then x.tmod crtWidth else (v.curPos.toNat : Int) % crtWidth

def row (v : Video) (y : Int) : Int :=
  if y ≠ -1 then y.tmod crtHeight else (v.curPos.toNat : Int) / crtWidth

/-- The end of `k_gotoxy`. -/
def moveTo (v : Video) (x y : Int) : Video :=
  { v with curPos := BitVec.ofInt 16 (y * crtWidth + x) }

/-- The `switch` of `video_putchar`; `none` is outside the buffer. -/
def putCharacter (v : Video) (c : Byte) : Option Video :=
  let column := BitVec.ofNat 16 (v.curPos.toNat % crtWidth)
  if c = 0x0a then
    let pos := v.curPos + BitVec.ofNat 16 crtWidth
    some { v with curPos := pos - BitVec.ofNat 16 (pos.toNat % crtWidth) }
  else if c = 0x0d then some { v with curPos := v.curPos - column }
  else if c = 0x08 then
    if 0 < v.curPos.toNat then
      setCell { v with curPos := v.curPos - 1 } (v.curPos - 1).toNat (v.colored 0x20)
    else some v
  else if c = 0x09 then some { v with curPos := v.curPos + 8 }
  else (v.setCell v.curPos.toNat (v.colored c)).map fun v => { v with curPos := v.curPos + 1 }

/-- `video_putchar`. The bell leaves the screen alone. -/
def putchar (v : Video) (c : Byte) : Option Video :=
  if c = 0x07 then some v
  else (v.putCharacter c).map fun v =>
    if crtWidth * crtHeight ≤ v.curPos.toNat then v.scrollUp else v

end Video

/-! ### Keyboards -/

/-- `KEYB_BUF_DIM`. -/
abbrev keybBufDim : Nat := 32

/-- `num_lock`, `caps_lock` and `scroll_lock`. -/
structure Locks where
  numLock : Bool
  capsLock : Bool
  scrollLock : Bool

/-- The keyboard part of a `console_t`. -/
structure Keyboard where
  locks : Locks
  keybBufRead : Fin keybBufDim
  keybBufWrite : Fin keybBufDim
  keybBufCount : Nat
  keybBuffer : Fin keybBufDim → Word

/-- The end of `keyboard_handler`: a full buffer takes no key. Its message is left to steps that
put characters. -/
def Keyboard.push (k : Keyboard) (code : Word) : Keyboard :=
  if k.keybBufCount < keybBufDim then
    { k with
      keybBufCount := k.keybBufCount + 1
      keybBufWrite := advance k.keybBufWrite
      keybBuffer := update k.keybBuffer (advance k.keybBufWrite) code }
  else k

/-- The update of the buffer in `kgetchar` and `keyb_read`, and the key. -/
def Keyboard.pop (k : Keyboard) : Word × Keyboard :=
  (k.keybBuffer (advance k.keybBufRead),
    { k with keybBufCount := k.keybBufCount - 1, keybBufRead := advance k.keybBufRead })

/-- `console_t`. -/
structure Console where
  video : Video
  keyb : Keyboard

/-- `shift`, `ctrl` and `alt`. -/
structure Modifiers where
  shift : Bool
  ctrl : Bool
  alt : Bool

/-- The US keyboard map: regular keys. -/
def regular : List Word :=
  [0x0000, 0x011b, 0x0231, 0x0332, 0x0433, 0x0534, 0x0635, 0x0736, 0x0837, 0x0938, 0x0a39,
    0x0b30, 0x0c2d, 0x0d3d, 0x0e08, 0x0f09, 0x1071, 0x1177, 0x1265, 0x1372, 0x1474, 0x1579,
    0x1675, 0x1769, 0x186f, 0x1970, 0x1a5b, 0x1b5d, 0x000d, 0x1d00, 0x1e61, 0x1f73, 0x2064,
    0x2166, 0x2267, 0x2368, 0x246a, 0x256b, 0x266c, 0x273b, 0x2827, 0x2960, 0x2a00, 0x2b5c,
    0x2c7a, 0x2d78, 0x2e63, 0x2f76, 0x3062, 0x316e, 0x326d, 0x332c, 0x342e, 0x352f, 0x3600,
    0x372a, 0x3800, 0x3920, 0x3a00, 0x3b00, 0x3c00, 0x3d00, 0x3e00, 0x3f00, 0x4000, 0x4100,
    0x4200, 0x4300, 0x4400, 0x4500, 0x4600, 0x4700, 0x4800, 0x4900, 0x4a2d, 0x4b00, 0x4c00,
    0x4d00, 0x4e2b, 0x4f00, 0x5000, 0x5100, 0x5200, 0x5300, 0x5400, 0x5500, 0x5600, 0x8500,
    0x8600, 0x0000, 0x0000, 0x5b00, 0x5c00, 0x5d00]

/-- The US keyboard map: with SHIFT. -/
def withShift : List Word :=
  [0x0000, 0x011b, 0x0221, 0x0340, 0x0423, 0x0524, 0x0625, 0x075e, 0x0826, 0x092a, 0x0a28,
    0x0b29, 0x0c5f, 0x0d2b, 0x0e08, 0x0f00, 0x1051, 0x1157, 0x1245, 0x1352, 0x1454, 0x1559,
    0x1655, 0x1749, 0x184f, 0x1950, 0x1a7b, 0x1b7d, 0x000d, 0x1d00, 0x1e41, 0x1f53, 0x2044,
    0x2146, 0x2247, 0x2348, 0x244a, 0x254b, 0x264c, 0x273a, 0x2822, 0x297e, 0x2a00, 0x2b7c,
    0x2c5a, 0x2d58, 0x2e43, 0x2f56, 0x3042, 0x314e, 0x324d, 0x333c, 0x343e, 0x353f, 0x3600,
    0x372a, 0x3800, 0x3920, 0x3a00, 0x5400, 0x5500, 0x5600, 0x5700, 0x5800, 0x5900, 0x5a00,
    0x5b00, 0x5c00, 0x5d00, 0x4500, 0x4600, 0x4700, 0x4800, 0x4900, 0x4a2d, 0x4b00, 0x4c00,
    0x4d00, 0x4e2b, 0x4f00, 0x5000, 0x5100, 0x5200, 0x5300, 0x5400, 0x5500, 0x5600, 0x8700,
    0x8800, 0x0000, 0x0000, 0x5b00, 0x5c00, 0x5d00]

/-- The US keyboard map: with ALT. -/
def withAlt : List Word :=
  [0x0000, 0x0100, 0x7800, 0x7900, 0x7a00, 0x7b00, 0x7c00, 0x7d00, 0x7e00, 0x7f00, 0x8000,
    0x8100, 0x8200, 0x8300, 0x0e00, 0xa500, 0x1000, 0x1100, 0x1200, 0x1300, 0x1400, 0x1500,
    0x1600, 0x1700, 0x1800, 0x1900, 0x1a00, 0x1b00, 0x1c00, 0x1d00, 0x1e00, 0x1f00, 0x2000,
    0x2100, 0x2200, 0x2300, 0x2400, 0x2500, 0x2600, 0x2700, 0x2800, 0x2900, 0x2a00, 0x2b00,
    0x2c00, 0x2d00, 0x2e00, 0x2f00, 0x3000, 0x3100, 0x3200, 0x3300, 0x3400, 0x3500, 0x3600,
    0x3700, 0x3800, 0x3900, 0x3a00, 0x6800, 0x6900, 0x6a00, 0x6b00, 0x6c00, 0x6d00, 0x6e00,
    0x6f00, 0x7000, 0x7100, 0x4500, 0x4600, 0x9700, 0x9800, 0x9900, 0x4a00, 0x9b00, 0x9c00,
    0x9d00, 0x4e00, 0x9f00, 0xa000, 0xa100, 0xa200, 0xa300, 0x5400, 0x5500, 0x5600, 0x8b00,
    0x8c00]

/-- The US keyboard map: with CTRL. -/
def withControl : List Word :=
  [0x0000, 0x0000, 0x0000, 0x0000, 0x0000, 0x0000, 0x0000, 0x0000, 0x0000, 0x0000, 0x0000,
    0x0000, 0x0000, 0x0000, 0x0000, 0x9400, 0x1011, 0x1117, 0x1205, 0x1312, 0x1414, 0x1519,
    0x1615, 0x1709, 0x180f, 0x1910, 0x0000, 0x0000, 0x1c0a, 0x1d00, 0x1e01, 0x1f13, 0x2004,
    0x2106, 0x2207, 0x2308, 0x240a, 0x250b, 0x260c, 0x0000, 0x0000, 0x0000, 0x2a00, 0x0000,
    0x2c1a, 0x2d18, 0x2e03, 0x2f16, 0x3002, 0x310e, 0x320d, 0x0000, 0x0000, 0x9500, 0x3600,
    0x9600, 0x3800, 0x3920, 0x3a00, 0x5e00, 0x5f00, 0x6000, 0x6100, 0x6200, 0x6300, 0x6400,
    0x6500, 0x6600, 0x6700, 0x4500, 0x4600, 0x7700, 0x8d00, 0x8400, 0x8e00, 0x7300, 0x8f00,
    0x7400, 0x9000, 0x7500, 0x9100, 0x7600, 0x9200, 0x9300, 0x5400, 0x5500, 0x5600, 0x8900,
    0x8a00]

/-- `keypad_char`. -/
def keypadChar : List Byte :=
  [0x37, 0x38, 0x39, 0x2d, 0x34, 0x35, 0x36, 0x2b, 0x31, 0x32, 0x33, 0x30, 0x2e]

/-- The code of a key. The maps end with zeros, and what is behind them is not used. -/
def keyCode (m : Modifiers) (k : Locks) (keypressed : Byte) : Word :=
  let n := keypressed.toNat
  if m.alt then withAlt.getD n 0
  else if m.ctrl then withControl.getD n 0
  else
    let code :=
      if m.shift then withShift.getD n 0 else regular.getD n 0
    let low := code.toNat % 256
    let code :=
      if k.capsLock ∧ ¬ m.shift ∧ 0x61 ≤ low ∧ low ≤ 0x7a then code - 0x20
      else if k.capsLock ∧ m.shift ∧ 0x41 ≤ low ∧ low ≤ 0x5a then code + 0x20
      else code
    if k.numLock ≠ m.shift ∧ 71 ≤ n ∧ n ≤ 83 then (keypadChar.getD (n - 71) 0).zeroExtend 16
    else code

/-- What a key means to `keyboard_handler`. -/
inductive KeyEvent where
  | reboot
  | modifiers (m : Modifiers)
  | locks (l : Locks)
  | switch (c : Nat)
  | typed (code : Word)
  | released

/-- The tests of `keyboard_handler`. -/
def keyEvent (m : Modifiers) (l : Locks) (keypressed : Byte) : KeyEvent :=
  let code := keyCode m l keypressed
  if m.ctrl ∧ m.alt ∧ keypressed = 83 then .reboot
  else if keypressed = 42 ∨ keypressed = 54 then .modifiers { m with shift := true }
  else if keypressed = 42 + 128 ∨ keypressed = 54 + 128 then .modifiers { m with shift := false }
  else if keypressed = 56 then .modifiers { m with alt := true }
  else if keypressed = 56 + 128 then .modifiers { m with alt := false }
  else if keypressed = 29 then .modifiers { m with ctrl := true }
  else if keypressed = 29 + 128 then .modifiers { m with ctrl := false }
  else if keypressed = 58 then .locks { l with capsLock := !l.capsLock }
  else if keypressed = 69 then .locks { l with numLock := !l.numLock }
  else if keypressed = 70 then .locks { l with scrollLock := !l.scrollLock }
  else if 128 ≤ keypressed.toNat then .released
  else if 0x6800 ≤ code.toNat ∧ code.toNat ≤ 0x7100 then
    .switch ((code.toNat - 0x6800) / 256 + 1)
  else .typed code

/-! ### Consoles -/

/-- `K_TOT_VIR_CONS`. -/
def kTotVirCons : Nat := 10

/-- What `clrscr`, `set_color`, `scroll_up` and `gotoxy` have to do to a console: `gotoxy` has not
looked at the cursor yet, `gotoRow` has its column, and `moveTo` its row, too. -/
inductive Draw where
  | clrscr
  | setColor (attrib : Byte)
  | scrollUp
  | gotoxy (x y : Int)
  | gotoRow (x y : Int)
  | moveTo (x y : Int)

/-- `k_gotoxy` looks at the cursor, before it turns the interrupts off. -/
def Draw.look (v : Video) : Draw → Option Draw
  | .gotoxy x y => some (.gotoRow (v.column x) y)
  | .gotoRow x y => some (.moveTo x (v.row y))
  | _ => none

def Draw.apply (v : Video) : Draw → Option Video
  | .clrscr => some v.clrscr
  | .setColor attrib => some (v.setColor attrib)
  | .scrollUp => some v.scrollUp
  | .moveTo x y => some (v.moveTo x y)
  | _ => none

/-- What happens: a task, or the kernel before there are tasks, uses its console, or a key is
pressed or released. The calls that draw first look which buffer to use, and then use it, with
interrupts on. A round of `kgetchar` takes a key, or puts the task into `keyb_wait`, if there is
memory for that (`room`); then, with interrupts on, the task falls asleep. -/
inductive Op (T : Type*) where
  | putchar (p : Option T) (c : Byte)
  | aim (p : Option T) (d : Draw)
  | look (p : Option T)
  | draw (p : Option T)
  | key (keypressed : Byte)
  | getchar (p : T) (room : Bool)
  | sleep (p : T)
  /-- Something else than a key wakes up the task. -/
  | wake (p : T)
  | read (p : T)

/-- Where a task is: in `wait_event`, it is about to sleep, or asleep. -/
inductive Phase where
  | running
  | queued
  | asleep
  deriving DecidableEq

section

variable {T : Type*} [DecidableEq T]

/-- `vir_cons` and `curr_cons`, the modifiers, which buffer the tasks in the middle of a call have
found, and the tasks that wait for a key. -/
structure State (T : Type*) where
  virCons : Nat → Console
  currCons : Nat
  modifiers : Modifiers
  aimed : Option T → Option (Nat × Draw)
  phase : T → Phase
  keybWait : List T

namespace State

def setVideo (s : State T) (i : Nat) (v : Video) : State T :=
  { s with virCons := update s.virCons i { s.virCons i with video := v } }

def setKeyb (s : State T) (i : Nat) (k : Keyboard) : State T :=
  { s with virCons := update s.virCons i { s.virCons i with keyb := k } }

/-- `switch_to_console`. -/
def switchToConsole (s : State T) (c : Nat) : State T :=
  if c = s.currCons then s
  else if kTotVirCons < c then s
  else
    let s := s.setVideo s.currCons (s.virCons 0).video
    if 0 < c then
      let new := (s.virCons c).video
      let main := (s.virCons 0).video
      let main := { main with vidBuffer := new.vidBuffer }
      { s.setVideo 0 ((main.setCurPos new.curPos).setColor new.curColor) with currCons := c }
    else s

/-- The buffer that the task of a console is to use. -/
def buffer (s : State T) (console : T → Nat) : Option T → Nat
  | none => 0
  | some p => if console p = s.currCons then 0 else console p

/-- `wakeup_queue( keyb_wait )`. A task that is about to sleep does so all the same. -/
def wakeupQueue (s : State T) : State T :=
  { s with
    phase := fun p => if p ∈ s.keybWait ∧ s.phase p = .asleep then .running else s.phase p
    keybWait := [] }

/-- `keyboard_handler`; `none` restarts the machine. -/
def keyboardHandler (s : State T) (keypressed : Byte) : Option (State T) :=
  let k := (s.virCons s.currCons).keyb
  match keyEvent s.modifiers k.locks keypressed with
  | .reboot => none
  | .modifiers m => some { s with modifiers := m }
  | .locks l => some (s.setKeyb s.currCons { k with locks := l })
  | .switch c => some (s.switchToConsole c)
  | .typed code =>
    let u := s.setKeyb s.currCons (k.push code)
    some (if k.keybBufCount < keybBufDim then u.wakeupQueue else u)
  | .released => some s

/-- The key that `kgetchar` returns: `CTRL_D` is the end of the file. -/
def kgetcharKey (key : Word) : Int := if key = 0x2004 then -1 else key.toNat

/-- The key that `keyb_read` returns. -/
def keybReadKey (key : Word) : Int := if key = 0x2e03 then -1 else key.toNat

/-- Who is to take the step can do so. -/
def Allows (s : State T) : Op T → Prop
  | .putchar p _ | .aim p _ | .look p | .draw p => ∀ q ∈ p, s.phase q = .running
  | .getchar p _ | .read p => s.phase p = .running
  | .sleep p => s.phase p = .queued
  | .wake p => s.phase p = .asleep
  | .key _ => True

instance (s : State T) : (op : Op T) → Decidable (s.Allows op)
  | .putchar p _ | .aim p _ | .look p | .draw p =>
    inferInstanceAs (Decidable (∀ q ∈ p, s.phase q = .running))
  | .getchar p _ | .read p => inferInstanceAs (Decidable (s.phase p = .running))
  | .sleep p => inferInstanceAs (Decidable (s.phase p = .queued))
  | .wake p => inferInstanceAs (Decidable (s.phase p = .asleep))
  | .key _ => isTrue trivial

/-- One step, with what a call returns, if it does. `none` restarts the machine, or writes outside
a buffer. -/
def perform (console : T → Nat) (s : State T) : Op T → Option (Option Int × State T)
  | .putchar p c =>
    let i := s.buffer console p
    ((s.virCons i).video.putchar c).map fun v => (some 0, s.setVideo i v)
  | .aim p d => some (none, { s with aimed := update s.aimed p (s.buffer console p, d) })
  | .look p =>
    (s.aimed p).bind fun (i, d) =>
      (d.look (s.virCons i).video).map fun d =>
        (none, { s with aimed := update s.aimed p (i, d) })
  | .draw p =>
    (s.aimed p).bind fun (i, d) =>
      (d.apply (s.virCons i).video).map fun v =>
        (some 0, { s.setVideo i v with aimed := update s.aimed p none })
  | .key keypressed => (s.keyboardHandler keypressed).map (none, ·)
  | .getchar p room =>
    let k := (s.virCons (console p)).keyb
    if k.keybBufCount = 0 then
      some (none, { s with
        phase := update s.phase p .queued
        keybWait := if room then s.keybWait ++ [p] else s.keybWait })
    else some (some (kgetcharKey k.pop.1), s.setKeyb (console p) k.pop.2)
  | .sleep p => some (none, { s with phase := update s.phase p .asleep })
  | .wake p => some (none, { s with phase := update s.phase p .running })
  | .read p =>
    let k := (s.virCons (console p)).keyb
    if console p ≠ s.currCons then some (some (-1), s)
    else if k.keybBufCount = 0 then some (some 0, s)
    else some (some (keybReadKey k.pop.1), s.setKeyb (console p) k.pop.2)

def exec (console : T → Nat) (s : State T) (op : Op T) : Option (Option Int × State T) :=
  if s.Allows op then s.perform console op else none

end State

/-! ### Private terminals -/

/-- A terminal: its screen, its locks, the keys that were typed on it, and how many of them
were read. -/
structure Terminal where
  video : Video
  locks : Locks
  typed : List Word
  taken : Nat

/-- Terminals that have nothing in common. -/
structure Terminals (T : Type*) where
  term : Nat → Terminal
  current : Nat
  modifiers : Modifiers
  aimed : Option T → Option Draw

namespace Terminals

def set (s : Terminals T) (c : Nat) (x : Terminal) : Terminals T :=
  { s with term := update s.term c x }

/-- The terminal of a task. Console 0 is the current one. -/
def own (s : Terminals T) (console : T → Nat) : Option T → Nat
  | none => s.current
  | some p => if console p = 0 then s.current else console p

/-- A key is pressed or released. A terminal with 32 keys that were not read takes no other. -/
def key (s : Terminals T) (keypressed : Byte) : Option (Terminals T) :=
  let x := s.term s.current
  match keyEvent s.modifiers x.locks keypressed with
  | .reboot => none
  | .modifiers m => some { s with modifiers := m }
  | .locks l => some (s.set s.current { x with locks := l })
  | .switch c => some { s with current := c }
  | .typed code =>
    some (s.set s.current
      (if x.typed.length < x.taken + keybBufDim then { x with typed := x.typed ++ [code] } else x))
  | .released => some s

/-- One step, with what a call returns, if it does. A call that waits for a key changes nothing. -/
def exec (console : T → Nat) (s : Terminals T) : Op T → Option (Option Int × Terminals T)
  | .putchar p c =>
    let x := s.term (s.own console p)
    (x.video.putchar c).map fun v => (some 0, s.set (s.own console p) { x with video := v })
  | .aim p d => some (none, { s with aimed := update s.aimed p d })
  | .look p =>
    (s.aimed p).bind fun d =>
      (d.look (s.term (s.own console p)).video).map fun d =>
        (none, { s with aimed := update s.aimed p d })
  | .draw p =>
    let x := s.term (s.own console p)
    (s.aimed p).bind fun d =>
      (d.apply x.video).map fun v =>
        (some 0, { s.set (s.own console p) { x with video := v } with
          aimed := update s.aimed p none })
  | .key keypressed => (s.key keypressed).map (none, ·)
  | .getchar p _ =>
    let x := s.term (console p)
    match x.typed[x.taken]? with
    | none => some (none, s)
    | some code =>
      some (some (State.kgetcharKey code), s.set (console p) { x with taken := x.taken + 1 })
  | .sleep _ | .wake _ => some (none, s)
  | .read p =>
    let x := s.term (console p)
    if console p ≠ s.current then some (some (-1), s)
    else
      match x.typed[x.taken]? with
      | none => some (some 0, s)
      | some code =>
        some (some (State.keybReadKey code), s.set (console p) { x with taken := x.taken + 1 })

end Terminals

end

/-! ### The cursor stays on the screen -/

namespace Video

variable {v : Video}

def Inside (v : Video) : Prop := v.curPos.toNat < crtWidth * crtHeight

theorem scrollUp_inside (hlow : crtWidth ≤ v.curPos.toNat)
    (hhigh : v.curPos.toNat < crtWidth * crtHeight + crtWidth) : v.scrollUp.Inside := by
  unfold Inside scrollUp crtWidth crtHeight at *
  dsimp only
  bv_omega

/-- The start of the line. -/
theorem lineStart (w : Word) :
    (w - BitVec.ofNat 16 (w.toNat % crtWidth)).toNat = w.toNat - w.toNat % crtWidth := by
  have hcolumn : (BitVec.ofNat 16 (w.toNat % crtWidth)).toNat = w.toNat % crtWidth := by
    rw [BitVec.toNat_ofNat]
    exact Nat.mod_eq_of_lt ((Nat.mod_lt _ (by decide)).trans (by decide : crtWidth < 2 ^ 16))
  rw [BitVec.toNat_sub_of_le (BitVec.le_def.mpr (hcolumn.trans_le (Nat.mod_le _ _))), hcolumn]

/-- Behind the `switch`, the cursor is at most one row below the screen. -/
theorem putCharacter_spec (h : v.Inside) (c : Byte) :
    ∃ v', v.putCharacter c = some v' ∧ v'.curPos.toNat < crtWidth * crtHeight + crtWidth := by
  have hpos : v.curPos.toNat < 2000 := h
  change ∃ v', v.putCharacter c = some v' ∧ v'.curPos.toNat < 2080
  have hcell : ∀ {i : Nat} (hi : i < 2000) (u : Video) (w : Word), u.setCell i w =
      some { u with vidBuffer := update u.vidBuffer ⟨i, hi⟩ w } :=
    fun hi _ _ => dif_pos hi
  unfold putCharacter
  split
  · refine ⟨_, rfl, ?_⟩
    dsimp only
    rw [lineStart]
    unfold crtWidth
    bv_omega
  · split
    · refine ⟨_, rfl, ?_⟩
      dsimp only
      rw [lineStart]
      omega
    · split
      · split
        · have hback : (v.curPos - 1).toNat < 2000 := by bv_omega
          exact ⟨_, hcell hback _ _, by dsimp only; bv_omega⟩
        · exact ⟨v, rfl, by omega⟩
      · split
        · refine ⟨_, rfl, ?_⟩
          dsimp only
          bv_omega
        · rw [hcell hpos]
          refine ⟨_, rfl, ?_⟩
          dsimp only
          bv_omega

theorem putchar_spec (h : v.Inside) (c : Byte) : ∃ v', v.putchar c = some v' ∧ v'.Inside := by
  unfold putchar
  by_cases hc : c = 0x07
  · rw [if_pos hc]
    exact ⟨v, rfl, h⟩
  · rw [if_neg hc]
    obtain ⟨v', hv', hpos⟩ := putCharacter_spec h c
    rw [hv', Option.map_some]
    refine ⟨_, rfl, ?_⟩
    split
    · rename_i hlow
      exact scrollUp_inside (le_trans (by decide : crtWidth ≤ crtWidth * crtHeight) hlow) hpos
    · exact Nat.lt_of_not_le ‹_›

end Video

/-- `scroll_up` is not called in the first row, and `gotoxy` leads to a place on the screen. -/
def Draw.Fits (v : Video) : Draw → Prop
  | .scrollUp => crtWidth ≤ v.curPos.toNat
  | .moveTo x y => 0 ≤ y * crtWidth + x ∧ y * crtWidth + x < crtWidth * crtHeight
  | _ => True

theorem Draw.apply_inside {v v' : Video} {d : Draw} (h : v.Inside) (hd : d.Fits v)
    (hv : d.apply v = some v') : v'.Inside := by
  cases d with
  | clrscr =>
    obtain rfl := Option.some.inj hv
    exact (by decide : 0 < crtWidth * crtHeight)
  | setColor attrib =>
    obtain rfl := Option.some.inj hv
    exact h
  | scrollUp =>
    obtain rfl := Option.some.inj hv
    exact Video.scrollUp_inside hd (h.trans_le (by decide))
  | moveTo x y =>
    obtain rfl := Option.some.inj hv
    obtain ⟨hlow, hhigh⟩ : 0 ≤ y * (80 : Nat) + x ∧ y * (80 : Nat) + x < 2000 := hd
    change (BitVec.ofInt 16 (y * (80 : Nat) + x)).toNat < 2000
    rw [BitVec.toNat_ofInt]
    omega
  | gotoxy x y => cases hv
  | gotoRow x y => cases hv

/-! ### The keys of a console -/

/-- The buffer has the keys that were typed and not read. -/
structure Keeps (k : Keyboard) (x : Terminal) : Prop where
  locks : k.locks = x.locks
  count : x.typed.length = x.taken + k.keybBufCount
  room : k.keybBufCount ≤ keybBufDim
  write : k.keybBufWrite = cell k.keybBufRead k.keybBufCount
  used : Holds Eq k.keybBuffer (advance k.keybBufRead) (x.typed.drop x.taken)

section

variable {k : Keyboard} {x : Terminal} {code : Word}

theorem Keeps.length_drop (h : Keeps k x) : (x.typed.drop x.taken).length = k.keybBufCount := by
  have hcount := h.count
  rw [List.length_drop]
  omega

theorem Keeps.push (h : Keeps k x) (code : Word) : Keeps (k.push code)
    (if x.typed.length < x.taken + keybBufDim then { x with typed := x.typed ++ [code] }
      else x) := by
  have hcount := h.count
  unfold Keyboard.push
  by_cases hroom : k.keybBufCount < keybBufDim
  · rw [if_pos hroom, if_pos (by omega)]
    refine ⟨h.locks, ?_, hroom, ?_, ?_⟩
    · rw [List.length_append, List.length_singleton, hcount, Nat.add_assoc]
    · rw [h.write, advance_cell]
    · dsimp only
      rw [List.drop_append_of_le_length (by omega), h.write, advance_cell, ← cell_advance,
        ← h.length_drop]
      exact h.used.push (h.length_drop.trans_lt hroom) rfl
  · rw [if_neg hroom, if_neg (by omega)]
    exact h

theorem Keeps.next_eq_none (h : Keeps k x) : x.typed[x.taken]? = none ↔ k.keybBufCount = 0 := by
  have hcount := h.count
  rw [List.getElem?_eq_none_iff]
  omega

theorem Keeps.pop (h : Keeps k x) (hnext : x.typed[x.taken]? = some code) :
    k.pop.1 = code ∧ Keeps k.pop.2 { x with taken := x.taken + 1 } := by
  have hcount := h.count
  obtain ⟨hlt, hcode⟩ := List.getElem?_eq_some_iff.mp hnext
  have hdrop : x.typed.drop x.taken = code :: x.typed.drop (x.taken + 1) := by
    rw [List.drop_eq_getElem_cons hlt, hcode]
  have hused := h.used
  rw [hdrop] at hused
  refine ⟨hused.head, h.locks, ?_, ?_, ?_, hused.pop⟩
  · change x.typed.length = x.taken + 1 + (k.keybBufCount - 1)
    omega
  · exact (Nat.sub_le _ _).trans h.room
  · change k.keybBufWrite = cell (advance k.keybBufRead) (k.keybBufCount - 1)
    rw [h.write, cell_advance, Nat.sub_add_cancel (by omega)]

end

/-! ### Consoles as terminals -/

section

variable {T : Type*} {s s' : State T} {t : Terminals T} {console : T → Nat}
variable {c : Nat} {v : Video} {x : Terminal}

/-- The buffer of a console. -/
def State.place (s : State T) (c : Nat) : Nat := if c = s.currCons then 0 else c

/-- The consoles show the terminals: the current one in the video memory, the others in their
own buffers. -/
structure Shows (s : State T) (t : Terminals T) : Prop where
  current : t.current = s.currCons
  first : 0 < s.currCons
  last : s.currCons ≤ kTotVirCons
  modifiers : t.modifiers = s.modifiers
  aimed : t.aimed = Option.map Prod.snd ∘ s.aimed
  video : ∀ c, 0 < c → c ≤ kTotVirCons → (t.term c).video = (s.virCons (s.place c)).video
  inside : ∀ c, c ≤ kTotVirCons → (s.virCons c).video.Inside
  keyb : ∀ c, c ≤ kTotVirCons → Keeps (s.virCons c).keyb (t.term c)

theorem place_le (h : c ≤ kTotVirCons) : s.place c ≤ kTotVirCons := by
  unfold State.place
  split
  · exact Nat.zero_le _
  · exact h

theorem place_inj {d : Nat} (hc : 0 < c) (hd : 0 < d) (h : s.place c = s.place d) : c = d := by
  unfold State.place at h
  split at h <;> split at h <;> omega

/-- The terminal of a task is one of those that can be current, and its buffer the one that the
task is to use. -/
theorem Shows.own (h : Shows s t) (hconsole : ∀ p, console p ≤ kTotVirCons) (p : Option T) :
    0 < t.own console p ∧ t.own console p ≤ kTotVirCons ∧
      s.buffer console p = s.place (t.own console p) := by
  have hfirst := h.first
  have hlast := h.last
  cases p with
  | none =>
    have hown : t.own console none = s.currCons := h.current
    rw [hown]
    exact ⟨hfirst, hlast, (if_pos rfl).symm⟩
  | some p =>
    by_cases hzero : console p = 0
    · have hown : t.own console (some p) = s.currCons := (if_pos hzero).trans h.current
      have hbuffer : s.buffer console (some p) = 0 := by
        rw [State.buffer, if_neg (by omega)]
        exact hzero
      rw [hown, hbuffer]
      exact ⟨hfirst, hlast, (if_pos rfl).symm⟩
    · have hown : t.own console (some p) = console p := if_neg hzero
      rw [hown]
      exact ⟨Nat.pos_of_ne_zero hzero, hconsole p, rfl⟩

theorem setVideo_video (s : State T) (i : Nat) (v : Video) (d : Nat) :
    ((s.setVideo i v).virCons d).video = if d = i then v else (s.virCons d).video :=
  (apply_update (fun _ => Console.video) ..).trans (update_apply ..)

theorem setVideo_keyb (s : State T) (i : Nat) (v : Video) (d : Nat) :
    ((s.setVideo i v).virCons d).keyb = (s.virCons d).keyb :=
  (apply_update (fun _ => Console.keyb) ..).trans (congrFun (update_eq_self ..) d)

theorem setKeyb_video (s : State T) (i : Nat) (k : Keyboard) (d : Nat) :
    ((s.setKeyb i k).virCons d).video = (s.virCons d).video :=
  (apply_update (fun _ => Console.video) ..).trans (congrFun (update_eq_self ..) d)

theorem setKeyb_keyb (s : State T) (i : Nat) (k : Keyboard) (d : Nat) :
    ((s.setKeyb i k).virCons d).keyb = if d = i then k else (s.virCons d).keyb :=
  (apply_update (fun _ => Console.keyb) ..).trans (update_apply ..)

theorem set_term (t : Terminals T) (c : Nat) (x : Terminal) (d : Nat) :
    (t.set c x).term d = if d = c then x else t.term d :=
  update_apply ..

/-- A screen changes. -/
theorem Shows.setVideo (h : Shows s t) (hpos : 0 < c) (hv : v.Inside) :
    Shows (s.setVideo (s.place c) v) (t.set c { t.term c with video := v }) where
  __ := h
  video d hd hle := by
    change _ = ((s.setVideo (s.place c) v).virCons (s.place d)).video
    rw [setVideo_video, set_term]
    by_cases hdc : d = c
    · rw [if_pos hdc, if_pos (congrArg s.place hdc)]
    · rw [if_neg hdc, if_neg fun heq => hdc (place_inj hd hpos heq), h.video d hd hle]
  inside d hd := by
    rw [setVideo_video]
    split
    · exact hv
    · exact h.inside d hd
  keyb d hd := by
    rw [setVideo_keyb, set_term]
    have hkeeps := h.keyb d hd
    split
    · subst d
      exact { hkeeps with }
    · exact hkeeps

/-- A keyboard changes. -/
theorem Shows.setKeyb {k : Keyboard} (h : Shows s t) (hk : Keeps k x)
    (hx : x.video = (t.term c).video) : Shows (s.setKeyb c k) (t.set c x) where
  __ := h
  video d hd hle := by
    change _ = ((s.setKeyb c k).virCons (s.place d)).video
    rw [setKeyb_video, set_term, ← h.video d hd hle]
    split
    · rw [hx, ‹d = c›]
    · rfl
  inside d hd := by
    rw [setKeyb_video]
    exact h.inside d hd
  keyb d hd := by
    rw [setKeyb_keyb, set_term]
    split
    · exact hk
    · exact h.keyb d hd

/-- Another console becomes current. -/
theorem Shows.switch (h : Shows s t) (hpos : 0 < c) (hc : c ≤ kTotVirCons) :
    Shows (s.switchToConsole c) { t with current := c } := by
  unfold State.switchToConsole
  by_cases hcurrent : c = s.currCons
  · rw [if_pos hcurrent]
    exact { h with current := hcurrent }
  · have hfirst := h.first
    have hnew : (s.virCons c).video.curPos.toNat < crtWidth * crtHeight := h.inside c hc
    obtain ⟨u, hu⟩ : ∃ u, u = s.setVideo s.currCons (s.virCons 0).video := ⟨_, rfl⟩
    have hvideo : ∀ d, (u.virCons d).video =
        if d = s.currCons then (s.virCons 0).video else (s.virCons d).video := by
      intro d
      rw [hu, setVideo_video]
    have hc' : (u.virCons c).video = (s.virCons c).video := by rw [hvideo, if_neg hcurrent]
    rw [if_neg hcurrent, if_neg (Nat.not_lt.mpr hc), if_pos hpos, ← hu]
    dsimp only
    rw [hc']
    -- The new screen comes whole into the video memory, as its cursor is on the screen.
    rw [Video.setCurPos, if_pos hnew]
    refine ⟨rfl, hpos, hc, ?_, ?_, fun d hd hle => ?_, fun d hd => ?_, fun d hd => ?_⟩
    · rw [h.modifiers, hu]
      rfl
    · rw [h.aimed, hu]
      rfl
    · refine (h.video d hd hle).trans ?_
      change _ = ((u.setVideo 0 (s.virCons c).video).virCons (if d = c then 0 else d)).video
      rw [setVideo_video, State.place]
      by_cases hdc : d = c
      · rw [if_pos hdc, if_pos rfl, hdc, if_neg hcurrent]
      · rw [if_neg hdc, if_neg (Nat.ne_of_gt hd), hvideo]
        split <;> rfl
    · change ((u.setVideo 0 (s.virCons c).video).virCons d).video.Inside
      rw [setVideo_video, hvideo]
      split
      · exact hnew
      · split
        · exact h.inside 0 (Nat.zero_le _)
        · exact h.inside d hd
    · change Keeps ((u.setVideo 0 (s.virCons c).video).virCons d).keyb (t.term d)
      rw [setVideo_keyb, hu, setVideo_keyb]
      exact h.keyb d hd

/-! ### Every step -/

theorem of_ite {p : Prop} [Decidable p] {e f g : KeyEvent} (he : e ≠ g)
    (h : (if p then e else f) = g) : f = g := by
  rcases ite_eq_iff.mp h with ⟨-, heq⟩ | ⟨-, heq⟩
  · exact absurd heq he
  · exact heq

/-- The keys make no other consoles current than there are. -/
theorem keyEvent_switch {m : Modifiers} {l : Locks} {keypressed : Byte}
    (h : keyEvent m l keypressed = .switch c) : 0 < c ∧ c ≤ kTotVirCons := by
  unfold keyEvent at h
  dsimp only at h
  generalize keyCode m l keypressed = code at h
  iterate 11 replace h := of_ite (fun heq => KeyEvent.noConfusion heq) h
  rcases ite_eq_iff.mp h with ⟨hcode, hswitch⟩ | ⟨-, hother⟩
  · cases hswitch
    exact ⟨Nat.succ_pos _, by unfold kTotVirCons; omega⟩
  · cases hother

/-- No other console becomes current between the check in a call and what it does to the
console, and the call keeps the cursor on the screen. -/
def State.Timely (console : T → Nat) (s : State T) : Op T → Prop
  | .look p => ∀ i d, s.aimed p = some (i, d) → i = s.buffer console p
  | .draw p => ∀ i d, s.aimed p = some (i, d) →
    i = s.buffer console p ∧ d.Fits (s.virCons i).video
  | _ => True

/-- The terminals know nothing of the tasks that wait. -/
theorem Shows.phase (h : Shows s t) (f : T → Phase) (waiting : List T) :
    Shows { s with phase := f, keybWait := waiting } t :=
  { h with }

theorem Shows.key [DecidableEq T] (h : Shows s t) (keypressed : Byte) :
    Option.Rel Shows (s.keyboardHandler keypressed) (t.key keypressed) := by
  have hkeyb := h.keyb s.currCons h.last
  have hsame : keyEvent t.modifiers (t.term t.current).locks keypressed =
      keyEvent s.modifiers (s.virCons s.currCons).keyb.locks keypressed := by
    rw [h.modifiers, h.current, hkeyb.locks]
  unfold State.keyboardHandler Terminals.key
  dsimp only
  rw [hsame]
  cases hevent : keyEvent s.modifiers (s.virCons s.currCons).keyb.locks keypressed with
  | reboot => exact .none
  | modifiers m =>
    exact .some { h with modifiers := rfl }
  | locks l =>
    dsimp only
    rw [h.current]
    exact .some (h.setKeyb ⟨rfl, hkeyb.count, hkeyb.room, hkeyb.write, hkeyb.used⟩ rfl)
  | switch c =>
    obtain ⟨hpos, hc⟩ := keyEvent_switch hevent
    exact .some (h.switch hpos hc)
  | typed code =>
    dsimp only
    rw [h.current]
    have hpushed := h.setKeyb (hkeyb.push code) (by split <;> rfl)
    split
    · exact .some (hpushed.phase _ _)
    · exact .some hpushed
  | released => exact .some h

/-- A task takes the next key of its console. -/
theorem Shows.take {code : Word} (h : Shows s t) (hc : c ≤ kTotVirCons)
    (hnext : (t.term c).typed[(t.term c).taken]? = some code) :
    (s.virCons c).keyb.keybBufCount ≠ 0 ∧ (s.virCons c).keyb.pop.1 = code ∧
      Shows (s.setKeyb c (s.virCons c).keyb.pop.2)
        (t.set c { t.term c with taken := (t.term c).taken + 1 }) := by
  have hkeyb := h.keyb c hc
  refine ⟨fun hzero => ?_, (hkeyb.pop hnext).1, h.setKeyb (hkeyb.pop hnext).2 rfl⟩
  rw [hkeyb.next_eq_none.mpr hzero] at hnext
  cases hnext

variable [DecidableEq T]

theorem Shows.aim (h : Shows s t) (p : Option T) (e : Option (Nat × Draw)) :
    Shows { s with aimed := update s.aimed p e }
      { t with aimed := update t.aimed p (e.map Prod.snd) } :=
  { h with
    aimed := by
      rw [comp_update, h.aimed] }

theorem Shows.perform {op : Op T} (h : Shows s t) (hconsole : ∀ p, console p ≤ kTotVirCons)
    (hop : s.Timely console op) :
    Option.Rel (fun a b => a.1 = b.1 ∧ Shows a.2 b.2) (s.perform console op)
      (t.exec console op) := by
  cases op with
  | putchar p c =>
    obtain ⟨hpos, hle, hbuffer⟩ := h.own hconsole p
    obtain ⟨v, hv, hinside⟩ := Video.putchar_spec (h.inside _ (place_le hle)) c
    rw [State.perform, Terminals.exec, hbuffer, h.video _ hpos hle, hv]
    exact .some ⟨rfl, h.setVideo hpos hinside⟩
  | aim p d => exact .some ⟨rfl, h.aim p _⟩
  | look p =>
    obtain ⟨hpos, hle, hbuffer⟩ := h.own hconsole p
    have haim := congrFun h.aimed p
    rw [State.perform, Terminals.exec, haim, comp_apply]
    cases haimed : s.aimed p with
    | none => exact .none
    | some e =>
      obtain ⟨i, d⟩ := e
      obtain rfl := hop i d haimed
      rw [Option.map_some, Option.bind_some, Option.bind_some, h.video _ hpos hle, hbuffer]
      dsimp only
      cases d.look (s.virCons (s.place (t.own console p))).video with
      | none => exact .none
      | some d => exact .some ⟨rfl, h.aim p (some (_, d))⟩
  | draw p =>
    obtain ⟨hpos, hle, hbuffer⟩ := h.own hconsole p
    have haim := congrFun h.aimed p
    rw [State.perform, Terminals.exec, haim, comp_apply]
    cases haimed : s.aimed p with
    | none => exact .none
    | some e =>
      obtain ⟨i, d⟩ := e
      obtain ⟨rfl, hfits⟩ := hop i d haimed
      rw [hbuffer] at hfits
      rw [Option.map_some, Option.bind_some, Option.bind_some, h.video _ hpos hle, hbuffer]
      dsimp only
      cases hdraw : d.apply (s.virCons (s.place (t.own console p))).video with
      | none => exact .none
      | some v =>
        have hinside := Draw.apply_inside (h.inside _ (place_le hle)) hfits hdraw
        exact .some ⟨rfl, (h.setVideo hpos hinside).aim p none⟩
  | key keypressed =>
    have hkey := h.key keypressed
    rw [State.perform, Terminals.exec]
    generalize s.keyboardHandler keypressed = a, t.key keypressed = b at hkey ⊢
    cases hkey with
    | some hshows => exact .some ⟨rfl, hshows⟩
    | none => exact .none
  | getchar p room =>
    have hkeyb := h.keyb (console p) (hconsole p)
    rw [State.perform, Terminals.exec]
    cases hnext : (t.term (console p)).typed[(t.term (console p)).taken]? with
    | none =>
      rw [if_pos (hkeyb.next_eq_none.mp hnext)]
      exact .some ⟨rfl, h.phase _ _⟩
    | some code =>
      obtain ⟨hcount, rfl, hshows⟩ := h.take (hconsole p) hnext
      rw [if_neg hcount]
      exact .some ⟨rfl, hshows⟩
  | sleep p => exact .some ⟨rfl, h.phase _ _⟩
  | wake p => exact .some ⟨rfl, h.phase _ _⟩
  | read p =>
    have hkeyb := h.keyb (console p) (hconsole p)
    rw [State.perform, Terminals.exec, h.current]
    by_cases hcurrent : console p ≠ s.currCons
    · rw [if_pos hcurrent, if_pos hcurrent]
      exact .some ⟨rfl, h⟩
    · rw [if_neg hcurrent, if_neg hcurrent]
      cases hnext : (t.term (console p)).typed[(t.term (console p)).taken]? with
      | none =>
        rw [if_pos (hkeyb.next_eq_none.mp hnext)]
        exact .some ⟨rfl, h⟩
      | some code =>
        obtain ⟨hcount, rfl, hshows⟩ := h.take (hconsole p) hnext
        rw [if_neg hcount]
        exact .some ⟨rfl, hshows⟩

/-! ### Every run -/

/-- A step, with what the call returned. -/
def State.Step (console : T → Nat) (s : State T) (a : Op T × Option Int) (s' : State T) : Prop :=
  s.exec console a.1 = some (a.2, s')

def Terminals.Step (console : T → Nat) (t : Terminals T) (a : Op T × Option Int)
    (t' : Terminals T) : Prop :=
  t.exec console a.1 = some (a.2, t')

/-- `DEFAULT_COLOR`. -/
def defaultColor : Byte := 0x07

/-- A new console: `create_virtual_console` clears the buffer. -/
def newVideo : Video where
  vidBuffer _ := 0
  curPos := 0
  curColor := defaultColor

def newKeyboard : Keyboard where
  locks := ⟨false, false, false⟩
  keybBufRead := 0
  keybBufWrite := 0
  keybBufCount := 0
  keybBuffer _ := 0

/-- Behind `create_virtual_console`: console 1 is current, and has what was on the screen. -/
def State.boot (T : Type*) (v : Video) : State T where
  virCons c := ⟨if c ≤ 1 then v else newVideo, newKeyboard⟩
  currCons := 1
  modifiers := ⟨false, false, false⟩
  aimed _ := none
  phase _ := .running
  keybWait := []

def Terminals.boot (T : Type*) (v : Video) : Terminals T where
  term c := ⟨if c ≤ 1 then v else newVideo, newKeyboard.locks, [], 0⟩
  current := 1
  modifiers := ⟨false, false, false⟩
  aimed _ := none

omit [DecidableEq T] in
theorem Shows.boot (hv : v.Inside) : Shows (State.boot T v) (Terminals.boot T v) where
  current := rfl
  first := Nat.one_pos
  last := (by decide : 1 ≤ kTotVirCons)
  modifiers := rfl
  aimed := rfl
  video c hc _ := by
    unfold State.place State.boot Terminals.boot
    dsimp only
    by_cases hone : c = 1
    · rw [if_pos hone, if_pos hone.le, if_pos (Nat.zero_le 1)]
    · rw [if_neg hone]
  inside c _ := by
    unfold State.boot
    dsimp only
    split
    · exact hv
    · exact (by decide : 0 < crtWidth * crtHeight)
  keyb c _ := ⟨rfl, rfl, Nat.zero_le _, rfl, fun _ _ hi => nomatch hi⟩

/-- The consoles answer like private terminals. -/
theorem Shows.answers {op : Op T} (h : Shows s t) (hconsole : ∀ p, console p ≤ kTotVirCons)
    (hop : s.Timely console op) (hallows : s.Allows op) :
    (s.exec console op).map Prod.fst = (t.exec console op).map Prod.fst := by
  have hexec := h.perform hconsole hop
  rw [State.exec, if_pos hallows]
  generalize s.perform console op = a, t.exec console op = b at hexec ⊢
  cases hexec with
  | some hstep => exact congrArg some hstep.1
  | none => rfl

theorem Shows.step {a : Op T × Option Int} (h : Shows s t)
    (hconsole : ∀ p, console p ≤ kTotVirCons) (hop : s.Timely console a.1)
    (hstep : s.Step console a s') : ∃ t', t.Step console a t' ∧ Shows s' t' := by
  have hexec := h.perform hconsole hop
  rw [(Option.ite_none_right_eq_some.mp hstep).2] at hexec
  unfold Terminals.Step
  cases hnext : t.exec console a.1 with
  | none =>
    rw [hnext] at hexec
    cases hexec
  | some b =>
    rw [hnext] at hexec
    cases hexec with
    | some hpair => exact ⟨b.2, congrArg some (Prod.ext hpair.1.symm rfl), hpair.2⟩

end

end OsdevArchive.Minirighi.Consoles
