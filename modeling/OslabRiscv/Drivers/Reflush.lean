import OslabRiscv.Lib.Outcome
import OslabRiscv.Lib.Terminal
import OslabRiscv.Print.Rendering

/-!
# The screen and the terminal

`screen.c` keeps two grids: `new_screen`, which is written to, and `old_screen`, what the terminal
shows.  `screen_reflush` sends the cells that differ.  The terminal gets the bytes of
`vt100_move_cursor`, which are printed by `printv`, and those of `bios_putchar`.
-/

namespace Screen

open Assembly (Word)
open Print Terminal Outcome

/-- `new_screen` with the cursor of the running process, `old_screen`, and the cursors of the
other processes. -/
structure Display where
  screen : State
  old : Int → UInt8
  running : Nat
  cursors : Nat → Int × Int

/-! ## The code -/

/-- `printv`: none of its formats here takes a string. -/
def printv (fmt : List UInt8) (va : List Word) : Except Fault (List UInt8) :=
  vprint .printk (fun _ => []) fmt va

/-- `vt100_move_cursor`: `"%c[%d;%dH"`. -/
def vt100MoveCursor (x y : Int) : Except Fault (List UInt8) :=
  printv [37, 99, 91, 37, 100, 59, 37, 100, 72] [27, BitVec.ofInt 64 y, BitVec.ofInt 64 x]

/-- `vt100_clear`: `"%c[2J"`. -/
def vt100Clear : Except Fault (List UInt8) := printv [37, 99, 91, 50, 74] [27]

/-- `vt100_hidden_cursor`: `"%c[?25l"`. -/
def vt100HiddenCursor : Except Fault (List UInt8) := printv [37, 99, 91, 63, 50, 53, 108] [27]

/-- What has been sent, and the display. -/
abbrev Sent := List UInt8 × Display

/-- The inner loop of `screen_reflush` at `j`. -/
def reflushCell (i j : Nat) (p : Sent) : Except Fault Sent :=
  let d := p.2
  let loc := screenLoc j i
  if d.screen.mem loc ≠ d.old loc then do
    let bs ← vt100MoveCursor (j + 1) (i + 1)
    let old := fun k => if k = loc then d.screen.mem loc else d.old k
    .ok (p.1 ++ bs ++ [d.screen.mem loc], { d with old })
  else .ok p

def reflushRow (i : Nat) (p : Sent) : Except Fault Sent :=
  (List.range 80).foldlM (fun p j => reflushCell i j p) p

/-- `screen_reflush`. -/
def screenReflush (d : Display) : Except Fault Sent := do
  let p ← (List.range 50).foldlM (fun p i => reflushRow i p) ([], d)
  let bs ← vt100MoveCursor p.2.screen.cursorX p.2.screen.cursorY
  .ok (p.1 ++ bs, p.2)

/-- The loops of `screen_clear`. -/
def clearCells (s : State) : State :=
  (List.range 50).foldl
    (fun s i => (List.range 80).foldl (fun s j => store (screenLoc (j : Nat) (i : Nat)) 32 s) s) s

/-- The display in front of the refresh in `screen_clear`. -/
def cleared (d : Display) : Display :=
  { d with screen := { clearCells d.screen with cursorX := 0, cursorY := 0 } }

/-- `screen_clear`. -/
def screenClear (d : Display) : Except Fault Sent := screenReflush (cleared d)

/-- `screen_move_cursor`. -/
def screenMoveCursor (x y : Int) (d : Display) : Except Fault Sent := do
  let bs ← vt100MoveCursor x y
  .ok (bs, { d with screen := { d.screen with cursorX := x, cursorY := y } })

/-- `init_screen`. -/
def initScreen (d : Display) : Except Fault Sent := do
  let hide ← vt100HiddenCursor
  let clear ← vt100Clear
  let p ← screenClear d
  .ok (hide ++ clear ++ p.1, p.2)

def write (buff : List UInt8) (d : Display) : Display :=
  { d with screen := screenWrite buff d.screen }

/-- `printk`. -/
def printk (str : Word → List UInt8) (fmt : List UInt8) (va : List Word) (d : Display) :
    Except Fault Sent := do
  let buff ← vprint .printk str fmt va
  screenReflush (write buff d)

/-- Another process runs, with its own cursor. -/
def run (p : Nat) (d : Display) : Display :=
  let cursors := Function.update d.cursors d.running (d.screen.cursorX, d.screen.cursorY)
  { d with
    screen := { d.screen with cursorX := (cursors p).1, cursorY := (cursors p).2 }
    running := p
    cursors }

/-! ## Calls, and the terminal behind them -/

inductive Op
  | write (buff : List UInt8)
  | clear
  | move (x y : Int)
  | reflush
  | printk (str : Word → List UInt8) (fmt : List UInt8) (va : List Word)
  | run (p : Nat)

/-- The bytes a call sends. -/
def perform (op : Op) (d : Display) : Except Fault Sent :=
  match op with
  | .write buff => .ok ([], write buff d)
  | .clear => screenClear d
  | .move x y => screenMoveCursor x y d
  | .reflush => screenReflush d
  | .printk str fmt va => printk str fmt va d
  | .run p => .ok ([], run p d)

/-- The terminal gets them. -/
def showing (r : Except Fault Sent) (t : Term) : Except Fault (Display × Term) :=
  r.map fun p => (p.2, feed p.1 t)

def call (op : Op) (x : Display × Term) : Except Fault (Display × Term) :=
  showing (perform op x.1) x.2

end Screen
