import OslabRiscv.Fs.Disk

/-!
# Directories and paths

The directory helpers of `fs.c`: comparing names, splitting a path in place,
searching a directory block, and adding and removing its entries.  User memory
is a store; a `char *` is an address in it, and address 0 is the null pointer,
which may be passed on but not read.

A path is cut in place: `getDir` overwrites the first `/` by a zero byte and
`getSubdir` steps over the first zero byte it finds, so what stands in memory
behind the end of a path matters and is part of the model.
-/

namespace Fs

open ByteStore

/-- Number of bytes a pointer can address; no loop over memory takes more
rounds. -/
def addressSpace : Nat := 2 ^ 64

/-! ## Strings (`libs/string.c`) -/

/-- The loop of `strcmp` on a name inside the block buffer and a string in
memory, reduced to whether the result is zero.  The first argument is what is
left of the buffer. -/
def strcmpLoop (blk mem : Store) : Nat → Nat → Nat → Except Halt Bool
  | 0, _, _ => .error .undefined
  | left + 1, i, p =>
    if blk i ≠ 0 ∧ mem p ≠ 0 then
      if blk i ≠ mem p then .ok false else strcmpLoop blk mem left (i + 1) (p + 1)
    else .ok (blk i = mem p)

/-- `!strcmp(name_in_block, str)`. -/
def strcmpZero (blk : Store) (i : Nat) (mem : Store) (str : Nat) : Except Halt Bool :=
  if str = 0 then .error .undefined else strcmpLoop blk mem (4096 - i) i str

def strlenLoop (mem : Store) : Nat → Nat → Nat → Except Halt Nat
  | 0, _, _ => .error .undefined
  | left + 1, src, i => if mem (src + i) = 0 then .ok i else strlenLoop mem left src (i + 1)

def strlen (mem : Store) (src : Nat) : Except Halt Nat :=
  if src = 0 then .error .undefined else strlenLoop mem addressSpace src 0

/-- A character `is_name_illegal` lets pass. -/
def nameCharOk (c : UInt8) : Bool :=
  c = 45 || c = 46 || c = 95 || (48 ≤ c && c ≤ 57) || (97 ≤ c && c ≤ 122) || (65 ≤ c && c ≤ 90)

def isNameIllegalLoop (mem : Store) : Nat → Nat → Nat → Except Halt Bool
  | 0, _, _ => .error .undefined
  | left + 1, name, i =>
    if mem (name + i) = 0 then .ok false
    else if nameCharOk (mem (name + i)) then isNameIllegalLoop mem left name (i + 1)
    else .ok true

def isNameIllegal (mem : Store) (name : Nat) : Except Halt Bool :=
  if name = 0 then .error .undefined else isNameIllegalLoop mem addressSpace name 0

/-! ## Paths -/

def getDirLoop (mem : Store) (path : Nat) : Nat → Nat → Nat × Store
  | 0, _ => (0, mem)
  | left + 1, i =>
    if mem (path + i) = 0 then (path, mem)
    else if mem (path + i) = 47 then (path, wr8 mem (path + i) 0)
    else getDirLoop mem path left (i + 1)

/-- `getDir`: the first component, cut off in place, or the null pointer when
it is too long. -/
def getDir (mem : Store) (path : Nat) : Except Halt (Nat × Store) :=
  if path = 0 then .error .undefined else .ok (getDirLoop mem path dName 0)

def getSubdirLoop (mem : Store) (path : Nat) : Nat → Nat → Nat
  | 0, _ => 0
  | left + 1, i =>
    if mem (path + i) = 0 then if i + 1 = dName then 0 else path + i + 1
    else getSubdirLoop mem path left (i + 1)

/-- `getSubdir`: what follows the first zero byte. -/
def getSubdir (mem : Store) (path : Nat) : Nat := getSubdirLoop mem path dName 0

/-! ## Directory entries -/

/-- The test `(cur_dentry[i].type & type) && !strcmp(cur_dentry[i].name, name)`. -/
def dentryMatches (blk : Store) (i : Nat) (mem : Store) (name type : Nat) : Except Halt Bool :=
  if dentryType blk i &&& type ≠ 0 then strcmpZero blk (dentryName i) mem name else .ok false

/-- The loop of `search_dentry` from entry `i` on; `find` counts the live
entries seen. -/
def searchLoop (blk mem : Store) (fileNum name type : Nat) : Nat → Nat → Nat → Except Halt Nat
  | 0, _, _ => .ok minusOne
  | left + 1, i, find => do
    let find := if dentryType blk i ≠ 0 then find + 1 else find
    let hit ← dentryMatches blk i mem name type
    if hit then .ok (dentryInodeId blk i)
    else if find = fileNum then .ok minusOne
    else searchLoop blk mem fileNum name type left (i + 1) find

/-- `search_dentry`: the inode number of the entry, or `-1`. -/
def searchDentry (searchInode name type : Nat) (mem : Store) (s : State) :
    Except Halt (Nat × State) := do
  let s := getInode searchInode s
  let ip := inodePtr searchInode
  let s := readBlock (inodeGet s ip inoDirectBlock) s
  let id ← searchLoop s.blkBuffer mem (inodeGet s ip inoFileNum) name type 128 0 0
  .ok (id, s)

/-- The first entry from `i` on that satisfies `P`. -/
def firstDentry (P : Nat → Bool) : Nat → Nat → Option Nat
  | 0, _ => none
  | left + 1, i => if P i then some i else firstDentry P left (i + 1)

/-- A directory block with a new entry `k`. -/
def addEntry (blk : Store) (k id type : Nat) (mem : Store) (name n : Nat) : Store :=
  blit (wr32 (wr32 blk (32 * k + 4) id) (32 * k) type) (dentryName k) mem name n

/-- A directory block without entry `k`.  The inode number stays. -/
def dropEntry (blk : Store) (k : Nat) : Store :=
  blit (wr32 blk (32 * k) 0) (dentryName k) zeros 0 dName

/-- `create_dentry`. -/
def createDentry (dirId subdirId name type : Nat) (mem : Store) (s : State) :
    Except Halt (Nat × State) :=
  let s := getInode dirId s
  let ip := inodePtr dirId
  let s := inodeAdd ip inoFileNum 1 s
  let s := if type = iDir then inodeAdd ip inoLinksCount 1 s else s
  let s := readBlock (inodeGet s ip inoDirectBlock) s
  match firstDentry (fun i => dentryType s.blkBuffer i = 0) 128 0 with
  | none => .error .assertFailed
  | some i => do
    let n ← strlen mem name
    if 4096 < dentryName i + n then .error .undefined
    else
      let b := addEntry s.blkBuffer i subdirId type mem name n
      let s := writeInode (dirId / 4) { s with blkBuffer := b }
      .ok (subdirId, writeBlock (inodeGet s ip inoDirectBlock) s)

/-- The entry is removed, and whether the caller goes on to remove the inode. -/
def removeDentry (dirId subdirId : Nat) (ret : Bool) (s : State) : Except Halt (Bool × State) :=
  let s := getInode dirId s
  let ip := inodePtr dirId
  let s := inodeAdd ip inoFileNum (2 ^ 32 - 1) s
  let s := inodeAdd ip inoLinksCount (2 ^ 32 - 1) s
  let s := writeInode (dirId / 4) s
  let s := readBlock (inodeGet s ip inoDirectBlock) s
  match firstDentry (fun i => dentryInodeId s.blkBuffer i = subdirId) 128 0 with
  | none => .error .assertFailed
  | some i =>
    let s := { s with blkBuffer := dropEntry s.blkBuffer i }
    .ok (ret, writeBlock (inodeGet s ip inoDirectBlock) s)

/-- `delete_dentry`: a directory must be empty and unlinked; a file with other
links loses only the entry. -/
def deleteDentry (dirId subdirId type : Nat) (s : State) : Except Halt (Bool × State) :=
  let s := getInode subdirId s
  let ip := inodePtr subdirId
  if type = iDir then
    if ¬(inodeGet s ip inoFileNum = 2 ∧ inodeGet s ip inoLinksCount = 1) then .ok (false, s)
    else removeDentry dirId subdirId true s
  else removeDentry dirId subdirId (inodeGet s ip inoLinksCount = 1) s

end Fs
