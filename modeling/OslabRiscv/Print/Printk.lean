import OslabRiscv.Drivers.Screen
import OslabRiscv.Lib.Assembly
import OslabRiscv.Lib.Numerals
import OslabRiscv.TinyLibc.Atol

/-!
# Formatted output

`mini_itoa`, `_putc`, `_puts`, `mini_vsnprintf` and `_vprint`, which stand in `libs/printk.c` of the
kernel and in `tiny_libc/printf.c` of the programs.  The two copies differ in the loop over the
digits.

The arguments behind the format are doublewords; what is in memory from an address on is given by
a function, and where such a list ends is a NUL.
-/

namespace Print

open Assembly (Word)
open TinyLibc (isdigit long)

/-- What is undefined in C: `bf` is too small, or there are too few arguments.  `rounds` is a loop
that does not end. -/
inductive Fault
  | overrun
  | noArgument
  | rounds
  deriving DecidableEq, Repr

/-- The two files the code stands in. -/
inductive Copy
  | printk
  | printf
  deriving DecidableEq, Repr

/-! ## Numbers -/

/-- What an `int` leaves in a `char`. -/
def char (x : Int) : UInt8 := UInt8.ofNat (x % 256).toNat

def digitChar (uppercase : Bool) (digit : Int) : UInt8 :=
  char (if digit < 10 then 48 + digit else (if uppercase then 65 else 97) + digit - 10)

/-- The digit of one round, and the value for the next. -/
def Copy.round (f : Copy) (unsig : Bool) (radix : Nat) (value : Int) : Int × Int :=
  match f with
  | .printk =>
    if unsig then
      let v := (value % 2 ^ 64).toNat
      ((v % radix : Nat), long (v / radix : Nat))
    else (value.tmod radix, value.tdiv radix)
  | .printf => (value.tmod radix, value.tdiv radix)

/-- Whether there is another round. -/
def Copy.more (f : Copy) (value : Int) : Bool :=
  match f with
  | .printk => value != 0
  | .printf => 0 < value

/-- The loop over the digits, for at most so many rounds: the lowest digit comes first. -/
def digitsLoop (f : Copy) (radix : Nat) (uppercase unsig : Bool) :
    Nat → Int → Except Fault (List UInt8)
  | 0, _ => .error .rounds
  | rounds + 1, value =>
    let r := f.round unsig radix value
    if f.more r.2 then
      (digitsLoop f radix uppercase unsig rounds r.2).map (digitChar uppercase r.1 :: ·)
    else .ok [digitChar uppercase r.1]

/-- The loop that swaps characters, for so many rounds from `i` on. -/
def swapLoop (len : Nat) : Nat → Nat → List UInt8 → List UInt8
  | 0, _, buffer => buffer
  | rounds + 1, i, buffer =>
    let j := buffer.getD i 0
    let buffer := buffer.set i (buffer.getD (len - i - 1) 0)
    swapLoop len rounds (i + 1) (buffer.set (len - i - 1) j)

/-- `mini_itoa`, with a buffer of 24 bytes: the last one written is the NUL. -/
def miniItoa (f : Copy) (value : Int) (radix : Nat) (uppercase unsig : Bool) (zeroPad : Nat) :
    Except Fault (List UInt8) :=
  if 16 < radix then .ok []
  else do
    let negative := value < 0 && !unsig
    let value := if negative then long (-value) else value
    let digits ← digitsLoop f radix uppercase unsig 64 value
    let buffer := digits.rightpad zeroPad '0'.toUInt8
    let buffer := if negative then buffer ++ ['-'.toUInt8] else buffer
    if buffer.length < 24 then .ok (swapLoop buffer.length (buffer.length / 2) 0 buffer)
    else .error .overrun

/-! ## The buffer -/

/-- `struct mini_buff`: the characters in front of `pbuffer`, at which there is a NUL. -/
structure MiniBuff where
  text : List UInt8
  bufferLen : Nat
  deriving DecidableEq, Repr

/-- `_putc`. -/
def putc (ch : UInt8) (b : MiniBuff) : MiniBuff :=
  if b.bufferLen ≤ b.text.length + 1 then b else { b with text := b.text ++ [ch] }

/-- `_puts`. -/
def puts (s : List UInt8) (len : Nat) (b : MiniBuff) : MiniBuff :=
  let room := b.bufferLen - b.text.length - 1
  { b with text := b.text ++ s.take (if room < len then room else len) }

/-! ## Formats -/

/-- `*(fmt++)`. -/
def next : List UInt8 → UInt8 × List UInt8
  | [] => (0, [])
  | ch :: fmt => (ch, fmt)

/-- The loop over the width, a `char`: the width, the character behind it and the rest. -/
def zeroPadLoop : List UInt8 → UInt8 → UInt8 × UInt8 × List UInt8
  | [], zeroPad => (zeroPad, 0, [])
  | ch :: fmt, zeroPad =>
    if ch = 0 then (zeroPad, 0, fmt)
    else if isdigit ch then zeroPadLoop fmt (zeroPad * 10 + ch - '0'.toUInt8)
    else (zeroPad, ch, fmt)

def vaArg : List Word → Except Fault (Word × List Word)
  | [] => .error .noArgument
  | w :: va => .ok (w, va)

/-- An `unsigned int`, or an `unsigned long`, as the `long` that `mini_itoa` gets. -/
def intArg (longflag : Bool) (w : Word) : Int :=
  if longflag then w.toInt else (w.toNat % 2 ^ 32 : Nat)

/-- An integer is taken and put into the buffer. -/
def putInt (f : Copy) (longflag : Bool) (radix : Nat) (uppercase unsig : Bool) (zeroPad : UInt8)
    (va : List Word) (b : MiniBuff) : Except Fault (List Word × MiniBuff) := do
  let (w, va) ← vaArg va
  let bf ← miniItoa f (intArg longflag w) radix uppercase unsig zeroPad.toNat
  .ok (va, puts bf bf.length b)

/-- The `switch`, apart from the NUL. -/
def conversion (f : Copy) (str : Word → List UInt8) (longflag : Bool) (zeroPad ch : UInt8)
    (va : List Word) (b : MiniBuff) : Except Fault (List Word × MiniBuff) :=
  if ch = 'l'.toUInt8 then .ok (va, b)
  else if ch = 'u'.toUInt8 ∨ ch = 'd'.toUInt8 then
    putInt f longflag 10 false (ch = 'u'.toUInt8) zeroPad va b
  else if ch = 'x'.toUInt8 ∨ ch = 'X'.toUInt8 then
    putInt f longflag 16 (ch = 'X'.toUInt8) true zeroPad va b
  else if ch = 'c'.toUInt8 then do
    let (w, va) ← vaArg va
    .ok (va, putc (UInt8.ofNat w.toNat) b)
  else if ch = 's'.toUInt8 then do
    let (w, va) ← vaArg va
    .ok (va, puts (str w) (Screen.strlen (str w)) b)
  else .ok (va, putc ch b)

/-- What stands behind a `%`: the width, whether there is an `l`, the conversion and the rest. -/
def readFlags (fmt : List UInt8) : UInt8 × Bool × UInt8 × List UInt8 :=
  let (ch, fmt) := next fmt
  let (zeroPad, ch, fmt) := if ch = '0'.toUInt8 then zeroPadLoop fmt 0 else (0, ch, fmt)
  if ch = 'l'.toUInt8 then (zeroPad, true, next fmt) else (zeroPad, false, ch, fmt)

/-- The loop of `mini_vsnprintf`, for at most so many rounds. -/
def formatLoop (f : Copy) (str : Word → List UInt8) :
    Nat → List UInt8 → List Word → MiniBuff → Except Fault MiniBuff
  | 0, _, _, _ => .error .rounds
  | rounds + 1, fmt, va, b =>
    let (ch, fmt) := next fmt
    if ch = 0 then .ok b
    else if b.bufferLen ≤ b.text.length + 1 then .ok b
    else if ch ≠ '%'.toUInt8 then formatLoop f str rounds fmt va (putc ch b)
    else
      let (zeroPad, longflag, ch, fmt) := readFlags fmt
      if ch = 0 then .ok b
      else do
        let (va, b) ← conversion f str longflag zeroPad ch va b
        formatLoop f str rounds fmt va b

/-- `mini_vsnprintf`: what it leaves in the buffer, in front of the NUL. -/
def miniVsnprintf (f : Copy) (str : Word → List UInt8) (bufferLen : Nat) (fmt : List UInt8)
    (va : List Word) : Except Fault (List UInt8) :=
  (formatLoop f str (fmt.length + 1) fmt va ⟨[], bufferLen⟩).map MiniBuff.text

/-- `_vprint` of the kernel and `vprintf` of the library: the string that goes to the output. -/
def vprint (f : Copy) (str : Word → List UInt8) (fmt : List UInt8) (va : List Word) :
    Except Fault (List UInt8) := do
  let buff ← miniVsnprintf f str 256 fmt va
  .ok (buff.take (Screen.strlen buff))

end Print
