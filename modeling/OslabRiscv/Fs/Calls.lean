import OslabRiscv.Fs.Dir
import OslabRiscv.Fs.Files

/-!
# The calls on paths

`do_mkfs`, `do_cd`, `do_mkdir`, `do_rmdir`, `do_touch`, `do_fopen`, `do_ln`,
`do_rm` and the three calls that only print.  Every call returns the value the
C function returns, as a 32-bit pattern, with user memory and the state after
it; what a call prints is not modelled.

All of them resolve the directory part of a path by the same loop (`walk`).
-/

namespace Fs

open ByteStore

/-! ## Formatting -/

/-- The eleven words of the superblock (`superblock_t`), in order. -/
def superblockWords : List Nat :=
  [superblockMagic, fsSize, fsStart, blockMapOffset, blockMapNum, inodeMapOffset, inodeMapNum,
    inodeBlockOffset, inodeBlockNum, dataNumOffset, dataBlockNum]

/-- Store words one after another. -/
def storeWords (m : Store) : Nat → List Nat → Store
  | _, [] => m
  | a, v :: vs => storeWords (wr32 m a v) (a + 4) vs

/-- Write the sector buffer to `num` sectors in turn, as `do_mkfs` does. -/
def fillSectors : Nat → Nat → State → State
  | _, 0, s => s
  | sector, num + 1, s => fillSectors (sector + 1) num (sdWrite .mkfs s.sctBuffer 1 sector s)

/-- The maps and the inode area are cleared. -/
def clearArea (s : State) : State :=
  let s := { s with sctBuffer := blit s.sctBuffer 0 zeros 0 512 }
  let s := fillSectors (fsStart + inodeMapOffset) inodeMapNum s
  let s := fillSectors (fsStart + blockMapOffset) blockMapNum s
  fillSectors (fsStart + inodeBlockOffset) inodeBlockNum s

/-- Set up the root directory. -/
def format (s : State) : Except Halt State := do
  let (rootInodeId, s) ← allocInode (clearArea s)
  let (rootDirBlock, s) ← allocBlock s
  let s := createInode rootInodeId rootDirBlock iDir oRdwr s
  let s := updateInode (inodePtr rootInodeId) s
  let s := writeInode (rootInodeId / 4) s
  .ok (createDirBlock rootDirBlock rootInodeId rootInodeId s)

/-- `do_mkfs`.  `reset` is the answer the prompt loop ends with; it is asked
for only when the superblock is already there. -/
def doMkfs (reset : Bool) (s : State) : Except Halt (Nat × State) := do
  let s := readSuperblock s
  if rd32 s.superblock 0 = superblockMagic then
    if reset then do
      let s ← format s
      .ok (0, s)
    else .ok (0, s)
  else do
    let s := writeSuperblock { s with superblock := storeWords s.superblock 0 superblockWords }
    let s ← format s
    .ok (0, s)

/-! ## Resolving a path -/

/-- The loop over the inner components: `dirId` is the directory reached, `dir`
the component at hand and `subdir` the rest.  The result is the last directory
and component, or nothing when a component is not found. -/
def walkLoop : Nat → Nat → Nat → Nat → Store → State →
    Except Halt (Option (Nat × Nat) × Store × State)
  | 0, _, _, _, _, _ => .error .undefined
  | fuel + 1, dirId, dir, subdir, mem, s =>
    if subdir ≠ 0 ∧ mem subdir ≠ 0 then do
      let (dirId, s) ← searchDentry dirId dir iDir mem s
      if dirId = minusOne then .ok (none, mem, s)
      else do
        let (dir, mem) ← getDir mem subdir
        walkLoop fuel dirId dir (getSubdir mem subdir) mem s
    else .ok (some (dirId, dir), mem, s)

/-- The common beginning of the calls on a path.  A first component that is too
long ends the call like one that is not found. -/
def walk (path : Nat) (mem : Store) (s : State) :
    Except Halt (Option (Nat × Nat) × Store × State) := do
  let dirId := currentId s
  let (dir, mem) ← getDir mem path
  if dir = 0 then .ok (none, mem, s)
  else walkLoop addressSpace dirId dir (getSubdir mem path) mem s

/-! ## Changing and printing -/

/-- The `do`/`while` of `do_cd` and `do_ls`: every component is searched. -/
def cdLoop : Nat → Nat → Nat → Store → State → Except Halt (Option Nat × Store × State)
  | 0, _, _, _, _ => .error .undefined
  | fuel + 1, dirId, subdir, mem, s => do
    let (dir, mem) ← getDir mem subdir
    let subdir := getSubdir mem subdir
    let (dirId, s) ← searchDentry dirId dir iDir mem s
    if dirId = minusOne then .ok (none, mem, s)
    else if subdir ≠ 0 ∧ mem subdir ≠ 0 then cdLoop fuel dirId subdir mem s
    else .ok (some dirId, mem, s)

def doCd (path : Nat) (mem : Store) (s : State) : Except Halt (Nat × Store × State) := do
  let (target, mem, s) ← cdLoop addressSpace (currentId s) path mem s
  match target with
  | none => .ok (0, mem, s)
  | some dirId => .ok (0, mem, updateInode (inodePtr dirId) (getInode dirId s))

/-- The listing loop of `do_ls` with `-l`: it loads the inode of every live
entry into the sector buffer. -/
def lsLoop : Nat → Nat → Nat → State → State
  | 0, _, _, s => s
  | left + 1, i, dentryNum, s =>
    if dentryNum = 0 then s
    else if dentryType s.blkBuffer i ≠ 0 then
      lsLoop left (i + 1) (dentryNum - 1) (getInode (dentryInodeId s.blkBuffer i) s)
    else lsLoop left (i + 1) dentryNum s

/-- The last part of `do_ls`. -/
def listDir (dirId : Nat) (all : Bool) (s : State) : State :=
  let s := getInode dirId s
  let s := readBlock (inodeGet s (inodePtr dirId) inoDirectBlock) s
  if all then lsLoop 128 0 (inodeGet s (inodePtr dirId) inoFileNum) s else s

def doLs (path option : Nat) (mem : Store) (s : State) : Except Halt (Nat × Store × State) :=
  let all : Bool := option &&& 2 ≠ 0
  if option &&& 1 ≠ 0 then do
    let (target, mem, s) ← cdLoop addressSpace (currentId s) path mem s
    match target with
    | none => .ok (0, mem, s)
    | some dirId => .ok (0, mem, listDir dirId all s)
  else .ok (0, mem, listDir (currentId s) all s)

def doStatfs (s : State) : Nat × State :=
  let s := readSuperblock s
  if rd32 s.superblock 0 = superblockMagic then (0, getBlockMap (getInodeMap s)) else (0, s)

def doCat (path : Nat) (mem : Store) (s : State) : Except Halt (Nat × Store × State) := do
  let (target, mem, s) ← walk path mem s
  match target with
  | none => .ok (0, mem, s)
  | some (dirId, dir) => do
    let (dentryId, s) ← searchDentry dirId dir iFile mem s
    if dentryId = minusOne then .ok (minusOne, mem, s)
    else
      let s := getInode dentryId s
      .ok (0, mem, readBlock (inodeGet s (inodePtr dentryId) inoDirectBlock) s)

/-! ## Making and removing -/

/-- A new entry `dir` of the given type in `dirId`, with an inode of its own. -/
def makeInode (dirId dir type : Nat) (mem : Store) (s : State) :
    Except Halt (Nat × Nat × State) := do
  let (dentryId, s) ← allocInode s
  let (dentryId, s) ← createDentry dirId dentryId dir type mem s
  let (blockId, s) ← allocBlock s
  let s := createInode dentryId blockId type oRdwr s
  .ok (dentryId, blockId, writeInode (dentryId / 4) s)

/-- `do_mkdir` and `do_touch` differ in the type they look for and make, in the
block they fill in and in the value they return. -/
def makePath (type path : Nat) (mem : Store) (s : State) :
    Except Halt (Nat × Store × State) := do
  let (target, mem, s) ← walk path mem s
  match target with
  | none => .ok (0, mem, s)
  | some (dirId, dir) => do
    let illegal ← isNameIllegal mem dir
    if illegal then .ok (minusOne, mem, s)
    else do
      let (found, s) ← searchDentry dirId dir type mem s
      if found ≠ minusOne then .ok (minusOne, mem, s)
      else do
        let (dentryId, blockId, s) ← makeInode dirId dir type mem s
        if type = iDir then .ok (0, mem, createDirBlock blockId dirId dentryId s)
        else .ok (dentryId, mem, createFileBlock blockId s)

def doMkdir (path : Nat) (mem : Store) (s : State) : Except Halt (Nat × Store × State) :=
  makePath iDir path mem s

def doTouch (path : Nat) (mem : Store) (s : State) : Except Halt (Nat × Store × State) :=
  makePath iFile path mem s

/-- The inode of a removed entry: its first block is released, the inode
cleared and its map entry freed. -/
def removeInode (dentryId type : Nat) (s : State) : Except Halt State := do
  let s := getInode dentryId s
  let ip := inodePtr dentryId
  if inodeGet s ip inoType ≠ type then .error .assertFailed
  else do
    let s ← releaseBlock (inodeGet s ip inoDirectBlock) s
    let s := { s with sctBuffer := blit s.sctBuffer ip zeros 0 128 }
    freeInodeMap dentryId (writeInode (dentryId / 4) s)

/-- `do_rmdir` and `do_rm` differ in the type they look for only. -/
def removePath (type path : Nat) (mem : Store) (s : State) :
    Except Halt (Nat × Store × State) := do
  let (target, mem, s) ← walk path mem s
  match target with
  | none => .ok (0, mem, s)
  | some (dirId, dir) => do
    let (dentryId, s) ← searchDentry dirId dir type mem s
    if dentryId = minusOne then .ok (minusOne, mem, s)
    else do
      let (goOn, s) ← deleteDentry dirId dentryId type s
      if goOn then do
        let s ← removeInode dentryId type s
        .ok (0, mem, s)
      else .ok (minusOne, mem, s)

def doRmdir (path : Nat) (mem : Store) (s : State) : Except Halt (Nat × Store × State) :=
  removePath iDir path mem s

def doRm (path : Nat) (mem : Store) (s : State) : Except Halt (Nat × Store × State) :=
  removePath iFile path mem s

def doLn (srcPath dstPath : Nat) (mem : Store) (s : State) :
    Except Halt (Nat × Store × State) := do
  let (src, mem, s) ← walk srcPath mem s
  match src with
  | none => .ok (0, mem, s)
  | some (srcDirId, srcDir) => do
    let (dst, mem, s) ← walk dstPath mem s
    match dst with
    | none => .ok (0, mem, s)
    | some (dstDirId, dstDir) => do
      let (srcDentryId, s) ← searchDentry srcDirId srcDir (iDir ||| iFile) mem s
      if srcDentryId = minusOne then .ok (minusOne, mem, s)
      else do
        let (dstDentryId, s) ← searchDentry dstDirId dstDir dLink mem s
        if dstDentryId ≠ minusOne then .ok (minusOne, mem, s)
        else do
          let s := getInode srcDentryId s
          let s := inodeAdd (inodePtr srcDentryId) inoLinksCount 1 s
          let s := writeInode (srcDentryId / 4) s
          let (_, s) ← createDentry dstDirId srcDentryId dstDir dLink mem s
          .ok (0, mem, s)

/-! ## Opening -/

/-- `x >> 2` on an `int`. -/
def sra2 (x : Nat) : Nat := if x < 2 ^ 31 then x / 4 else x / 4 + 3 * 2 ^ 30

/-- The first free descriptor. -/
def freeFdesc (a : Nat → Fdesc) : Nat → Nat → Option Nat
  | 0, _ => none
  | left + 1, i => if (a i).status = fAvailable then some i else freeFdesc a left (i + 1)

/-- The second half of `do_fopen`: check the mode and take a descriptor. -/
def openInode (fileInodeId mode pid : Nat) (s : State) : Except Halt (Nat × State) :=
  let s := getInode fileInodeId s
  let ip := inodePtr fileInodeId
  if inodeGet s ip inoMode &&& mode = 0 then .ok (minusOne, s)
  else
    match freeFdesc s.fdescArray numFdescs 0 with
    | none => .error .assertFailed
    | some i =>
      let s := writeInode (sra2 fileInodeId) (inodeSet ip inoUid pid s)
      .ok (i, setFdesc i ⟨fileInodeId, fOccupied, mode, 0, 0⟩ s)

/-- `do_fopen`.  What `do_touch` returns is used as an inode number whatever it
is. -/
def doFopen (path mode pid : Nat) (mem : Store) (s : State) :
    Except Halt (Nat × Store × State) := do
  let (found, s) ← searchDentry (currentId s) path iFile mem s
  if found = minusOne then do
    let (touched, mem, s) ← doTouch path mem s
    let (fd, s) ← openInode touched mode pid s
    .ok (fd, mem, s)
  else do
    let (fd, s) ← openInode found mode pid s
    .ok (fd, mem, s)

end Fs
