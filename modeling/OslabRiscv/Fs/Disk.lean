import OslabRiscv.Lib.ByteStore

/-!
# The file system's disk and its low-level helpers

This is `kernel/fs/fs.c` below the system calls: the layout of `fs.h`, the
static buffers of the file system, and the helpers that move sectors between
the disk and those buffers.  The disk is one flat byte store; sector `k` is its
bytes from `512 * k` on.  A 32-bit field is a natural number below `2 ^ 32`,
and every addition the C code makes on one is reduced modulo `2 ^ 32`.

Code that cannot go on is a `Halt`: the endless loop behind a failed `assert`,
the two allocators that ran out, and what C leaves undefined (an array index
out of bounds, a scan past the end of the address space).
-/

namespace Fs

open ByteStore

/-! ## Layout (`fs.h`) -/

def superblockMagic : Nat := 0x20221205
def fsSize : Nat := 1049346
def fsStart : Nat := 2 ^ 14
def inodeMapOffset : Nat := 1
def inodeMapNum : Nat := 1
def blockMapOffset : Nat := 2
def blockMapNum : Nat := 256
def inodeBlockOffset : Nat := 258
def inodeBlockNum : Nat := 512
def dataNumOffset : Nat := 770
def dataBlockNum : Nat := 1048576

def directSize : Nat := 14
def firstLevelSize : Nat := 3 * 2 ^ 10
def secondLevelSize : Nat := 2 * 2 ^ 20
def thirdLevelSize : Nat := 2 ^ 30

/-- Number of file descriptors (`NUM_FDESCS`). -/
def numFdescs : Nat := 16

/-- Length of a name field (`D_NAME`). -/
def dName : Nat := 24

/-- Modes of `do_fopen`: read only, write only, read and write. -/
def oRdonly : Nat := 1
def oWronly : Nat := 2
def oRdwr : Nat := 3

/-- Inode types; the dentry types `D_DIR` and `D_FILE` have the same values. -/
def iDir : Nat := 1
def iFile : Nat := 2

/-- The dentry type of a hard link.  It shares a bit with both other types. -/
def dLink : Nat := 3

/-- Descriptor states. -/
def fAvailable : Nat := 0
def fOccupied : Nat := 1

/-- `-1` as the 32-bit value the code compares with. -/
def minusOne : Nat := 2 ^ 32 - 1

/-- Byte offsets of the fields of `inode_t` (128 bytes). -/
def inoMode : Nat := 0
def inoType : Nat := 4
def inoUid : Nat := 8
def inoInodeId : Nat := 12
def inoFileNum : Nat := 16
def inoSize : Nat := 20
def inoLinksCount : Nat := 24
def inoBlocks : Nat := 28
def inoDirectBlock : Nat := 32
def inoFirstBlock : Nat := 88
def inoSecondBlock : Nat := 100
def inoThirdBlock : Nat := 108

/-! ## State -/

/-- Why a call does not return. -/
inductive Halt
  | assertFailed
  | noMoreInodes
  | noMoreBlocks
  | undefined
  deriving DecidableEq, Repr

/-- A file descriptor (`fdesc_t`). -/
structure Fdesc where
  inodeId : Nat
  status : Nat
  mode : Nat
  rdOffset : Nat
  wrOffset : Nat
  deriving DecidableEq, Repr

/-- Who issued a sector write: one of the helpers, or `do_mkfs` itself. -/
inductive Writer
  | writeSuperblock
  | syncInodeMap
  | syncBlockMap
  | writeInode
  | writeBlock
  | mkfs
  deriving DecidableEq, Repr

/-- One `sd_write`: who issued it, the first sector and how many sectors. -/
structure SdWrite where
  writer : Writer
  sector : Nat
  count : Nat
  deriving DecidableEq, Repr

/-- The disk and the static variables of `fs.c`.  `writes` is a history
variable: no function reads it. -/
structure State where
  disk : Store
  superblock : Store
  currentInode : Store
  fdescArray : Nat → Fdesc
  inodeMap : Store
  blockMap : Store
  sctBuffer : Store
  blkBuffer : Store
  writes : List SdWrite

/-- Read `num` sectors from `sector` on into a buffer. -/
def sdRead (disk buf : Store) (num sector : Nat) : Store :=
  blit buf 0 disk (512 * sector) (512 * num)

/-- Write `num` sectors from `sector` on out of a buffer. -/
def sdWrite (writer : Writer) (buf : Store) (num sector : Nat) (s : State) : State :=
  { s with
    disk := blit s.disk (512 * sector) buf 0 (512 * num)
    writes := s.writes ++ [⟨writer, sector, num⟩] }

def readSuperblock (s : State) : State :=
  { s with superblock := sdRead s.disk s.superblock 1 fsStart }

def writeSuperblock (s : State) : State :=
  sdWrite .writeSuperblock s.superblock 1 fsStart s

/-! ## Inodes -/

def getInodeMap (s : State) : State :=
  { s with inodeMap := sdRead s.disk s.inodeMap 1 (fsStart + inodeMapOffset) }

def syncInodeMap (s : State) : State :=
  sdWrite .syncInodeMap s.inodeMap 1 (fsStart + inodeMapOffset) s

/-- Scan `n` entries of a map from `i` on for the first zero byte. -/
def firstZero (m : Store) : Nat → Nat → Option Nat
  | _, 0 => none
  | i, n + 1 => if m i = 0 then some i else firstZero m (i + 1) n

def allocInode (s : State) : Except Halt (Nat × State) :=
  let s := getInodeMap s
  match firstZero s.inodeMap 0 512 with
  | some i => .ok (i, syncInodeMap { s with inodeMap := wr8 s.inodeMap i 1 })
  | none => .error .noMoreInodes

def freeInodeMap (inodeId : Nat) (s : State) : Except Halt State :=
  let s := getInodeMap s
  if 512 ≤ inodeId then .error .undefined
  else if s.inodeMap inodeId ≠ 1 then .error .assertFailed
  else .ok (syncInodeMap { s with inodeMap := wr8 s.inodeMap inodeId 0 })

/-- Sector number of an inode sector, in 32-bit arithmetic. -/
def inodeSector (sctId : Nat) : Nat := (fsStart + inodeBlockOffset + sctId) % 2 ^ 32

def readInode (sctId : Nat) (s : State) : State :=
  { s with sctBuffer := sdRead s.disk s.sctBuffer 1 (inodeSector sctId) }

def writeInode (sctId : Nat) (s : State) : State :=
  sdWrite .writeInode s.sctBuffer 1 (inodeSector sctId) s

/-- Where in the sector buffer the inode returned by `get_inode` lies. -/
def inodePtr (inodeId : Nat) : Nat := 128 * (inodeId % 4)

/-- `get_inode` loads the inode's sector; the pointer it returns is
`inodePtr`. -/
def getInode (inodeId : Nat) (s : State) : State := readInode (inodeId / 4) s

/-- Read a field through an inode pointer. -/
def inodeGet (s : State) (ip field : Nat) : Nat := rd32 s.sctBuffer (ip + field)

/-- Assign a field through an inode pointer. -/
def inodeSet (ip field v : Nat) (s : State) : State :=
  { s with sctBuffer := wr32 s.sctBuffer (ip + field) v }

/-- Add to a field through an inode pointer, in 32-bit arithmetic. -/
def inodeAdd (ip field v : Nat) (s : State) : State :=
  inodeSet ip field ((inodeGet s ip field + v) % 2 ^ 32) s

def createInode (inodeId blockId type mode : Nat) (s : State) : State :=
  let ip := inodePtr inodeId
  let s := getInode inodeId s
  let s := inodeSet ip inoMode mode s
  let s := inodeSet ip inoType type s
  let s := inodeSet ip inoUid minusOne s
  let s := inodeSet ip inoInodeId inodeId s
  let s := inodeSet ip inoLinksCount 1 s
  let s := inodeSet ip inoBlocks 1 s
  let s := inodeSet ip inoDirectBlock blockId s
  let s :=
    if type = iDir then inodeSet ip inoFileNum 2 (inodeSet ip inoSize 4096 s)
    else inodeSet ip inoFileNum 0 (inodeSet ip inoSize 0 s)
  writeInode (inodeId / 4) s

/-- `update_inode` copies the inode at `ip` to `current_inode`. -/
def updateInode (ip : Nat) (s : State) : State :=
  { s with currentInode := blit s.currentInode 0 s.sctBuffer ip 128 }

/-- `current_inode.inode_id`. -/
def currentId (s : State) : Nat := rd32 s.currentInode inoInodeId

/-! ## Blocks -/

def getBlockMap (s : State) : State :=
  { s with blockMap := sdRead s.disk s.blockMap 8 (fsStart + blockMapOffset) }

def syncBlockMap (s : State) : State :=
  sdWrite .syncBlockMap s.blockMap 8 (fsStart + blockMapOffset) s

def allocBlock (s : State) : Except Halt (Nat × State) :=
  let s := getBlockMap s
  match firstZero s.blockMap 0 4096 with
  | some i => .ok (i, syncBlockMap { s with blockMap := wr8 s.blockMap i 1 })
  | none => .error .noMoreBlocks

/-- Sector number of a data block, in 32-bit arithmetic. -/
def blockSector (blockId : Nat) : Nat :=
  (fsStart + dataNumOffset + blockId * 8 % 2 ^ 32) % 2 ^ 32

def readBlock (blockId : Nat) (s : State) : State :=
  { s with blkBuffer := sdRead s.disk s.blkBuffer 8 (blockSector blockId) }

def writeBlock (blockId : Nat) (s : State) : State :=
  sdWrite .writeBlock s.blkBuffer 8 (blockSector blockId) s

/-- `memset(blk_buffer, 0, BLOCK_SIZE)`. -/
def clearBlk (s : State) : State :=
  { s with blkBuffer := blit s.blkBuffer 0 zeros 0 4096 }

def releaseBlock (blockId : Nat) (s : State) : Except Halt State :=
  let s := getBlockMap s
  if 131072 ≤ blockId then .error .undefined
  else if s.blockMap blockId ≠ 1 then .error .assertFailed
  else
    let s := syncBlockMap { s with blockMap := wr8 s.blockMap blockId 0 }
    .ok (writeBlock blockId (clearBlk s))

/-- Dentry `i` of a directory block: its type, its inode number and where its
24 name bytes start. -/
def dentryType (blk : Store) (i : Nat) : Nat := rd32 blk (32 * i)
def dentryInodeId (blk : Store) (i : Nat) : Nat := rd32 blk (32 * i + 4)
def dentryName (i : Nat) : Nat := 32 * i + 8

def createDirBlock (dirBlockId parentInodeId dirInodeId : Nat) (s : State) : State :=
  let s := clearBlk s
  let b := wr8 s.blkBuffer (dentryName 0) 46
  let b := wr32 b (32 * 0) iDir
  let b := wr32 b (32 * 0 + 4) dirInodeId
  let b := wr8 (wr8 b (dentryName 1) 46) (dentryName 1 + 1) 46
  let b := wr32 b (32 * 1) iDir
  let b := wr32 b (32 * 1 + 4) parentInodeId
  writeBlock dirBlockId { s with blkBuffer := b }

def createFileBlock (blockId : Nat) (s : State) : State :=
  writeBlock blockId (clearBlk s)

/-! ## Locating a byte of a file -/

/-- One pointer of the inode: when `rdSlot` is empty a block is allocated,
stored at `wrSlot`, counted and cleared on disk. -/
def inodeLink (ip rdSlot wrSlot : Nat) (s : State) : Except Halt (Nat × State) :=
  let id := inodeGet s ip rdSlot
  if id = 0 then do
    let (id, s) ← allocBlock s
    let s := inodeSet ip wrSlot id s
    let s := inodeAdd ip inoBlocks 1 s
    .ok (id, writeBlock id (clearBlk s))
  else .ok (id, s)

/-- Entry `off` of the index block `parent`: when it is empty a block is
allocated, stored in the index block, counted and cleared on disk. -/
def indexLink (ip parent off : Nat) (s : State) : Except Halt (Nat × State) :=
  let s := readBlock parent s
  let id := rd32 s.blkBuffer (4 * off)
  if id = 0 then do
    let (id, s) ← allocBlock s
    let s := { s with blkBuffer := wr32 s.blkBuffer (4 * off) id }
    let s := inodeAdd ip inoBlocks 1 s
    let s := writeBlock parent s
    .ok (id, writeBlock id (clearBlk s))
  else .ok (id, s)

/-- The switch over the index levels in `byte_locate`.  Level 3 reads its root
from `second_block` but stores a new one in `third_block`, as the source does. -/
def locatePage (ip page : Nat) (s : State) : Except Halt (Option Nat × State) :=
  if page < directSize then do
    let slot := inoDirectBlock + 4 * page
    let (id, s) ← inodeLink ip slot slot s
    .ok (some id, s)
  else if page < directSize + firstLevelSize then do
    let page := page - directSize
    let slot := inoFirstBlock + 4 * (page / 2 ^ 10)
    let (first, s) ← inodeLink ip slot slot s
    let (id, s) ← indexLink ip first (page % 2 ^ 10) s
    .ok (some id, s)
  else if page < directSize + firstLevelSize + secondLevelSize then do
    let page := page - (directSize + firstLevelSize)
    let slot := inoSecondBlock + 4 * (page / 2 ^ 20)
    let (second, s) ← inodeLink ip slot slot s
    let page := page % 2 ^ 20
    let (first, s) ← indexLink ip second (page / 2 ^ 10) s
    let (id, s) ← indexLink ip first (page % 2 ^ 10) s
    .ok (some id, s)
  else if page < directSize + firstLevelSize + secondLevelSize + thirdLevelSize then do
    let page := page - (directSize + firstLevelSize + secondLevelSize)
    let (third, s) ←
      inodeLink ip (inoSecondBlock + 4 * (page / 2 ^ 30)) (inoThirdBlock + 4 * (page / 2 ^ 30)) s
    let page := page % 2 ^ 30
    let (second, s) ← indexLink ip third (page / 2 ^ 20) s
    let page := page % 2 ^ 20
    let (first, s) ← indexLink ip second (page / 2 ^ 10) s
    let (id, s) ← indexLink ip first (page % 2 ^ 10) s
    .ok (some id, s)
  else .ok (none, s)

/-- `byte_locate` on the inode at `ip`: the block that holds byte `offset`
(allocating what is missing on the way) and the offset inside it, or nothing
when the offset is beyond the largest file. -/
def byteLocate (ip offset : Nat) (s : State) : Except Halt (Option (Nat × Nat) × State) := do
  let (id, s) ← locatePage ip (offset / 4096) s
  match id with
  | none => .ok (none, s)
  | some id => .ok (some (id, offset % 4096), writeInode (inodeGet s ip inoInodeId / 4) s)

end Fs
