import OslabRiscv.Fs.Disk

/-!
# Reading, writing and seeking through descriptors

The calls `do_fread`, `do_fwrite`, `do_lseek` and `do_fclose` of `fs.c`.  A
descriptor number indexes `fdesc_array` unchecked, so a number outside the
array is undefined.  The user's buffer is a store of its own; a length is the
32-bit pattern of the C `int`, which is how the transfer loops use it.
-/

namespace Fs

open ByteStore

/-- `fdesc_array + fd`, defined for the sixteen descriptors only. -/
def fdescAt (fd : Int) : Except Halt Nat :=
  if 0 ≤ fd ∧ fd < numFdescs then .ok fd.toNat else .error .undefined

/-- Replace descriptor `fd`. -/
def setFdesc (fd : Nat) (f : Fdesc) (s : State) : State :=
  { s with fdescArray := fun k => if k = fd then f else s.fdescArray k }

/-- An `int` as the 32-bit pattern it is converted to. -/
def toU32 (x : Int) : Nat := (x % 2 ^ 32).toNat

/-- The transfer loop of `do_fread`: `length` bytes are left, `bytes` are done.
Each round moves at least one byte, so `length` rounds are enough; the first
argument counts them.  The loop ends early when `byte_locate` fails. -/
def freadLoop (ip fd : Nat) :
    Nat → Nat → Nat → Store → State → Except Halt (Option Nat × Store × State)
  | 0, _, bytes, buff, s => .ok (some bytes, buff, s)
  | rounds + 1, length, bytes, buff, s =>
    if length = 0 then .ok (some bytes, buff, s)
    else do
      let fp := s.fdescArray fd
      let (loc, s) ← byteLocate ip fp.rdOffset s
      match loc with
      | none => .ok (none, buff, s)
      | some (blockId, blockOffset) =>
        let rdSize := min length (4096 - blockOffset)
        let s := readBlock blockId s
        let buff := blit buff bytes s.blkBuffer blockOffset rdSize
        let fp := s.fdescArray fd
        let s := setFdesc fd { fp with rdOffset := (fp.rdOffset + rdSize) % 2 ^ 32 } s
        freadLoop ip fd rounds (length - rdSize) (bytes + rdSize) buff s

/-- `do_fread`: the value returned, the user's buffer and the state after it. -/
def doFread (fd : Int) (buff : Store) (length : Int) (s : State) :
    Except Halt (Nat × Store × State) := do
  let fd ← fdescAt fd
  let fp := s.fdescArray fd
  if fp.mode = oWronly then .ok (0, buff, s)
  else if fp.status = fAvailable then .ok (0, buff, s)
  else
    let length := toU32 length
    let s := getInode fp.inodeId s
    let ip := inodePtr fp.inodeId
    if inodeGet s ip inoSize < (fp.rdOffset + length) % 2 ^ 32 then .ok (0, buff, s)
    else do
      let (done, buff, s) ← freadLoop ip fd length length 0 buff s
      match done with
      | none => .ok (0, buff, s)
      | some bytes =>
        let size := max (inodeGet s ip inoSize) (s.fdescArray fd).rdOffset
        let s := inodeSet ip inoSize size s
        .ok (bytes, buff, writeInode (inodeGet s ip inoInodeId / 4) s)

/-- The transfer loop of `do_fwrite`. -/
def fwriteLoop (ip fd : Nat) (buff : Store) :
    Nat → Nat → Nat → State → Except Halt (Option Nat × State)
  | 0, _, bytes, s => .ok (some bytes, s)
  | rounds + 1, length, bytes, s =>
    if length = 0 then .ok (some bytes, s)
    else do
      let fp := s.fdescArray fd
      let (loc, s) ← byteLocate ip fp.wrOffset s
      match loc with
      | none => .ok (none, s)
      | some (blockId, blockOffset) =>
        let wrSize := min length (4096 - blockOffset)
        let s := readBlock blockId s
        let s := { s with blkBuffer := blit s.blkBuffer blockOffset buff bytes wrSize }
        let s := writeBlock blockId s
        let fp := s.fdescArray fd
        let s := setFdesc fd { fp with wrOffset := (fp.wrOffset + wrSize) % 2 ^ 32 } s
        fwriteLoop ip fd buff rounds (length - wrSize) (bytes + wrSize) s

/-- `do_fwrite`.  The 4GB test adds in 32 bits, so it never holds. -/
def doFwrite (fd : Int) (buff : Store) (length : Int) (s : State) :
    Except Halt (Nat × State) := do
  let fd ← fdescAt fd
  let fp := s.fdescArray fd
  if fp.mode = oRdonly then .ok (0, s)
  else if fp.status = fAvailable then .ok (0, s)
  else
    let length := toU32 length
    if 2 ^ 32 < (fp.wrOffset + length) % 2 ^ 32 then .ok (0, s)
    else do
      let s := getInode fp.inodeId s
      let ip := inodePtr fp.inodeId
      let (done, s) ← fwriteLoop ip fd buff length length 0 s
      match done with
      | none => .ok (0, s)
      | some bytes =>
        let size := max (inodeGet s ip inoSize) (s.fdescArray fd).wrOffset
        let s := inodeSet ip inoSize size s
        .ok (bytes, writeInode (inodeGet s ip inoInodeId / 4) s)

/-- `memset(fdesc_array + fd, 0, sizeof(fdesc_t))`. -/
def doFclose (fd : Int) (s : State) : Except Halt (Nat × State) := do
  let fd ← fdescAt fd
  .ok (0, setFdesc fd ⟨0, 0, 0, 0, 0⟩ s)

/-- The `switch (whence)` of `do_lseek`.  A `whence` that is none of the three
leaves the variable `target_offset` as it was. -/
def seekTarget (offset : Int) (whence base size target : Nat) : Nat :=
  if whence = 0 then toU32 offset
  else if whence = 1 then toU32 (base + offset)
  else if whence = 2 then toU32 (size + offset)
  else target

/-- A write seek beyond the end: the block of `target` is located and the size
in the buffer becomes `target`. -/
def seekExtend (ip size target : Nat) (s : State) : Except Halt State :=
  if size < target then do
    let (_, s) ← byteLocate ip target s
    .ok (inodeSet ip inoSize target s)
  else .ok s

/-- `do_lseek`.  `junk` is what the uninitialised `target_offset` holds.  The
result is `0`, or `-1` as a 32-bit value. -/
def doLseek (fd : Int) (offset : Int) (whence junk : Nat) (s : State) :
    Except Halt (Nat × State) := do
  let fd ← fdescAt fd
  let fp := s.fdescArray fd
  if fp.status = fAvailable then .ok (minusOne, s)
  else
    let s := getInode fp.inodeId s
    let ip := inodePtr fp.inodeId
    let size := inodeGet s ip inoSize
    let rdTarget := seekTarget offset whence fp.rdOffset size junk
    if fp.mode &&& 1 ≠ 0 ∧ size < rdTarget then .ok (minusOne, s)
    else do
      let target := if fp.mode &&& 1 ≠ 0 then rdTarget else junk
      let fp := if fp.mode &&& 1 ≠ 0 then { fp with rdOffset := rdTarget } else fp
      let s := setFdesc fd fp s
      if fp.mode &&& 2 ≠ 0 then do
        let target := seekTarget offset whence fp.wrOffset size target
        let s ← seekExtend ip size target s
        let s := setFdesc fd { fp with wrOffset := target } s
        .ok (0, writeInode (fp.inodeId / 4) s)
      else .ok (0, writeInode (fp.inodeId / 4) s)

end Fs
