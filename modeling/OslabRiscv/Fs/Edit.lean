import OslabRiscv.Fs.Locate
import OslabRiscv.Fs.Calls

/-!
# The helpers as edits of the volume

A call on a path changes the disk by a few edits: a byte of one of the maps, a
word of an inode, a whole inode or a whole block.  Each edit has one lemma for
each way of reading the volume, and each helper of `fs.c` that writes is shown
here to be a composition of edits, with all its sectors in its own area.
-/

namespace Fs

open ByteStore Outcome

/-! ## Edits -/

def setImap (d : Store) (i : Nat) (v : UInt8) : Store := wr8 d (8389120 + i) v

def setBmap (d : Store) (b : Nat) (v : UInt8) : Store := wr8 d (8389632 + b) v

def setIno (d : Store) (i f v : Nat) : Store := wr32 d (inoAddr i + f) v

def clearIno (d : Store) (i : Nat) : Store := blit d (inoAddr i) zeros 0 128

def setBlk (d : Store) (b : Nat) (blk : Store) : Store := blit d (blkAddr b) blk 0 4096

/-- A block of the volume as a buffer. -/
def block (d : Store) (b : Nat) : Store := fun k => d (blkAddr b + k)

section Readers

variable {d blk : Store} {i j f g b c k v : Nat} {x : UInt8}

/-- The inode map after an entry of it was written. -/
theorem imap_setImap : imap (setImap d i x) j = if j = i then x else imap d j := by
  unfold imap setImap wr8
  by_cases h : j = i
  · rw [if_pos h, if_pos (by omega)]
  · rw [if_neg h, if_neg (by omega)]

/-- The inode map ends in front of the block map's sector. -/
theorem imap_setBmap (hj : j < 512) : imap (setBmap d b x) j = imap d j :=
  wr8_apply_of_ne _ _ (by omega)

/-- No field of an inode lies in the inode map. -/
theorem imap_setIno (hj : j < 512) : imap (setIno d i f v) j = imap d j :=
  wr32_apply_of_ne _ (by simp only [inoAddr]; omega)

/-- Clearing an inode leaves the inode map. -/
theorem imap_clearIno (hj : j < 512) : imap (clearIno d i) j = imap d j :=
  blit_apply_of_ne _ _ (by simp only [inoAddr]; omega)

/-- No block lies in the inode map. -/
theorem imap_setBlk (hj : j < 512) : imap (setBlk d b blk) j = imap d j :=
  blit_apply_of_ne _ _ (by simp only [blkAddr]; omega)

/-- An entry of the inode map is none of the block map. -/
theorem bmap_setImap (hi : i < 512) : bmap (setImap d i x) c = bmap d c :=
  wr8_apply_of_ne _ _ (by omega)

/-- The block map after an entry of it was written. -/
theorem bmap_setBmap : bmap (setBmap d b x) c = if c = b then x else bmap d c := by
  unfold bmap setBmap wr8
  by_cases h : c = b
  · rw [if_pos h, if_pos (by omega)]
  · rw [if_neg h, if_neg (by omega)]

/-- No field of an inode lies in the block map. -/
theorem bmap_setIno (hc : c < 131072) : bmap (setIno d i f v) c = bmap d c :=
  wr32_apply_of_ne _ (by simp only [inoAddr]; omega)

/-- Clearing an inode leaves the block map. -/
theorem bmap_clearIno (hc : c < 131072) : bmap (clearIno d i) c = bmap d c :=
  blit_apply_of_ne _ _ (by simp only [inoAddr]; omega)

/-- No block lies in the block map. -/
theorem bmap_setBlk (hc : c < 131072) : bmap (setBlk d b blk) c = bmap d c :=
  blit_apply_of_ne _ _ (by simp only [blkAddr]; omega)

/-- An entry of the inode map lies in no inode. -/
theorem ino_setImap (hi : i < 512) : ino (setImap d i x) j f = ino d j f :=
  rd32_wr8_of_ne _ _ (by simp only [inoAddr]; omega)

/-- An entry of the block map lies in no inode. -/
theorem ino_setBmap (hb : b < 131072) : ino (setBmap d b x) j f = ino d j f :=
  rd32_wr8_of_ne _ _ (by simp only [inoAddr]; omega)

theorem ino_setIno_self : ino (setIno d i f v) i f = v % 2 ^ 32 := rd32_wr32 _ _ _

/-- Two fields of an inode that do not overlap. -/
theorem ino_setIno_field (h : g + 4 ≤ f ∨ f + 4 ≤ g) :
    ino (setIno d i f v) i g = ino d i g :=
  rd32_wr32_of_ne _ (by omega)

theorem ino_setIno_of_ne (h : j ≠ i) (hf : f + 4 ≤ 128) (hg : g + 4 ≤ 128) :
    ino (setIno d i f v) j g = ino d j g :=
  rd32_wr32_of_ne _ (by simp only [inoAddr]; omega)

theorem ino_clearIno_self (hg : g + 4 ≤ 128) : ino (clearIno d i) i g = 0 := by
  refine (rd32_blit_add d zeros hg).trans ?_
  exact rd32_zeros _

theorem ino_clearIno_of_ne (h : j ≠ i) (hg : g + 4 ≤ 128) :
    ino (clearIno d i) j g = ino d j g :=
  rd32_blit_of_ne _ _ (by simp only [inoAddr]; omega)

/-- No block lies in the inode sectors. -/
theorem ino_setBlk (hj : j < 512) (hg : g + 4 ≤ 128) : ino (setBlk d b blk) j g = ino d j g :=
  rd32_blit_of_ne _ _ (by simp only [inoAddr, blkAddr]; omega)

/-- An entry of the inode map lies in no block. -/
theorem block_setImap (hi : i < 512) : block (setImap d i x) c k = block d c k :=
  wr8_apply_of_ne _ _ (by simp only [blkAddr]; omega)

/-- An entry of the block map lies in no block. -/
theorem block_setBmap (hb : b < 131072) : block (setBmap d b x) c k = block d c k :=
  wr8_apply_of_ne _ _ (by simp only [blkAddr]; omega)

/-- No field of an inode lies in a block. -/
theorem block_setIno (hi : i < 512) (hf : f + 4 ≤ 128) :
    block (setIno d i f v) c k = block d c k :=
  wr32_apply_of_ne _ (by simp only [inoAddr, blkAddr]; omega)

/-- Clearing an inode leaves the blocks. -/
theorem block_clearIno (hi : i < 512) : block (clearIno d i) c k = block d c k :=
  blit_apply_of_ne _ _ (by simp only [inoAddr, blkAddr]; omega)

theorem block_setBlk_self (hk : k < 4096) : block (setBlk d b blk) b k = blk k := by
  refine (blit_apply_add d blk hk).trans ?_
  rw [Nat.zero_add]

theorem block_setBlk_of_ne (h : c ≠ b) (hk : k < 4096) :
    block (setBlk d b blk) c k = block d c k :=
  blit_apply_of_ne _ _ (by simp only [blkAddr]; omega)

end Readers

/-! ## Areas -/

section Areas

variable {s t : State}

/-- Reading the inode map writes nothing. -/
theorem Extends.getInodeMap (h : Extends s t) : Extends s (getInodeMap t) :=
  ⟨h.fdesc, h.cwd, h.writes⟩

/-- Reading the block map writes nothing. -/
theorem Extends.getBlockMap (h : Extends s t) : Extends s (getBlockMap t) :=
  ⟨h.fdesc, h.cwd, h.writes⟩

/-- The sector buffer is no part of what is written. -/
theorem Extends.setSct (buf : Store) (h : Extends s t) :
    Extends s { t with sctBuffer := buf } := ⟨h.fdesc, h.cwd, h.writes⟩

/-- The copy of the inode map in memory is none either. -/
theorem Extends.setInodeMap (m : Store) (h : Extends s t) :
    Extends s { t with inodeMap := m } := ⟨h.fdesc, h.cwd, h.writes⟩

/-- The copy of the block map in memory is none either. -/
theorem Extends.setBlockMap (m : Store) (h : Extends s t) :
    Extends s { t with blockMap := m } := ⟨h.fdesc, h.cwd, h.writes⟩

/-- Writing the inode map back goes to its own sector. -/
theorem Extends.syncInodeMap (h : Extends s t) : Extends s (syncInodeMap t) :=
  Extends.sdWrite (by simp [SdWrite.InArea, fsStart, inodeMapOffset]) h

end Areas

/-! ## The inode map -/

section InodeMap

variable {s : State}

/-- The map buffer edited at `i` and written out. -/
theorem syncInodeMap_disk {i : Nat} (hi : i < 512) (x : UInt8) (s : State) :
    (syncInodeMap { getInodeMap s with inodeMap := wr8 (getInodeMap s).inodeMap i x }).disk =
      setImap s.disk i x := by
  have hload := caches_load s.inodeMap s.disk 8389120 512
  have h := store_wr8 s.disk (blit s.inodeMap 0 s.disk 8389120 512) (a := 8389120) (n := 512)
    (k := i) x hi
  rw [hload.store_eq] at h
  simp only [syncInodeMap, sdWrite, getInodeMap, sdRead, inodeMap_addr]
  exact h

/-- What is read of the inode map is what the disk holds. -/
theorem getInodeMap_apply {i : Nat} (hi : i < 512) :
    (getInodeMap s).inodeMap i = imap s.disk i := by
  simp only [getInodeMap, sdRead, inodeMap_addr]
  exact caches_load s.inodeMap s.disk 8389120 512 i hi

/-- `alloc_inode` hands out a free inode and marks it. -/
theorem allocInode_spec (s : State) :
    Holds (fun _ => ∀ i, i < 512 → imap s.disk i ≠ 0)
      (fun r => r.1 < 512 ∧ imap s.disk r.1 = 0 ∧ r.2.disk = setImap s.disk r.1 1 ∧
        Extends s r.2)
      (allocInode s) := by
  unfold allocInode
  rcases firstZero_spec (getInodeMap s).inodeMap 0 512 with
    ⟨i, hi, _, hlt, hzero, _⟩ | ⟨hnone, hfull⟩
  · simp only [hi]
    have hi' : i < 512 := by omega
    refine ⟨hi', ?_, syncInodeMap_disk hi' 1 s, ?_⟩
    · rw [← getInodeMap_apply hi']
      exact hzero
    · exact ((Extends.refl s).getInodeMap.setInodeMap _).syncInodeMap
  · simp only [hnone]
    intro i hi
    rw [← getInodeMap_apply hi]
    exact hfull i (Nat.zero_le i) (by omega)

/-- A successful release clears one entry, which was set. -/
theorem freeInodeMap_spec {i : Nat} (hi : i < 512) (s : State) :
    Holds (fun _ => imap s.disk i ≠ 1)
      (fun t => imap s.disk i = 1 ∧ t.disk = setImap s.disk i 0 ∧ Extends s t)
      (freeInodeMap i s) := by
  unfold freeInodeMap
  simp only
  rw [if_neg (by omega), getInodeMap_apply hi]
  by_cases h1 : imap s.disk i = 1
  · rw [if_neg (fun hne => hne h1)]
    refine ⟨h1, syncInodeMap_disk hi 0 s, ?_⟩
    exact ((Extends.refl s).getInodeMap.setInodeMap _).syncInodeMap
  · rw [if_pos h1]
    exact h1

end InodeMap

/-! ## Blocks -/

section Blocks

variable {s : State}

/-- A successful allocation sets the entry of a free block among the first 4096. -/
theorem allocBlock_edit (s : State) :
    Holds (fun _ => ∀ b, b < 4096 → bmap s.disk b ≠ 0)
      (fun r => r.1 < 4096 ∧ bmap s.disk r.1 = 0 ∧ r.2.disk = setBmap s.disk r.1 1 ∧
        Extends s r.2)
      (allocBlock s) := by
  rcases allocBlock_spec s with ⟨b, hb, hb0, _, halloc⟩ | ⟨herr, hfull⟩
  · rw [halloc]
    exact ⟨hb, hb0, allocatedBlock_disk hb s, .allocatedBlock b (.refl s)⟩
  · rw [herr]
    exact hfull

/-- What is read of the block map is what the disk holds, in its first eight sectors. -/
theorem getBlockMap_apply {b : Nat} (hb : b < 4096) :
    (getBlockMap s).blockMap b = bmap s.disk b := by
  simp only [getBlockMap, sdRead, blockMap_addr]
  exact caches_load s.blockMap s.disk 8389632 4096 b hb

/-- Changing one entry in memory and writing the map back changes one entry on the disk. -/
theorem syncBlockMap_disk {b : Nat} (hb : b < 4096) (x : UInt8) (s : State) :
    (syncBlockMap { getBlockMap s with blockMap := wr8 (getBlockMap s).blockMap b x }).disk =
      setBmap s.disk b x := by
  have hload := caches_load s.blockMap s.disk 8389632 4096
  have h := store_wr8 s.disk (blit s.blockMap 0 s.disk 8389632 4096) (a := 8389632) (n := 4096)
    (k := b) x hb
  rw [hload.store_eq] at h
  simp only [syncBlockMap, sdWrite, getBlockMap, sdRead, blockMap_addr]
  exact h

/-- Blocks are replaced byte by byte below their size. -/
theorem setBlk_congr {d blk blk' : Store} {b : Nat} (h : ∀ k, k < 4096 → blk k = blk' k) :
    setBlk d b blk = setBlk d b blk' :=
  blit_congr fun k hk => by
    rw [Nat.zero_add]
    exact h k hk

/-- `write_block` puts the buffer into one block. -/
theorem writeBlock_disk_eq {b : Nat} (hb : b < 131072) (s : State) :
    (writeBlock b s).disk = setBlk s.disk b s.blkBuffer := by
  unfold writeBlock sdWrite
  simp only [blockSector_addr hb]
  rfl

/-- The cleared buffer is zero all over. -/
theorem clearBlk_apply {k : Nat} (hk : k < 4096) (s : State) : (clearBlk s).blkBuffer k = 0 := by
  unfold clearBlk
  exact blit_apply_of_mem _ _ (by omega) (by omega)

/-- `release_block`, seen through the sector buffer of inode `i`. -/
theorem releaseBlock_spec {i b : Nat} (hi : i < 512) (hb : b < 4096) (s : State) :
    Holds (fun _ => bmap s.disk b ≠ 1)
      (fun t => bmap s.disk b = 1 ∧ flushed i t = setBlk (setBmap (flushed i s) b 0) b zeros ∧
        t.sctBuffer = s.sctBuffer ∧ Extends s t)
      (releaseBlock b s) := by
  unfold releaseBlock
  simp only
  rw [if_neg (by omega), getBlockMap_apply hb]
  by_cases h1 : bmap s.disk b = 1
  · rw [if_neg (fun hne => hne h1)]
    obtain ⟨u, hu⟩ : ∃ u, u = syncBlockMap { getBlockMap s with
      blockMap := wr8 (getBlockMap s).blockMap b 0 } := ⟨_, rfl⟩
    have hflush : flushed i u = setBmap (flushed i s) b 0 := by
      unfold flushed
      rw [hu, syncBlockMap_disk hb]
      exact blit_wr8_comm _ _ _ (by omega)
    have hext : Extends s u := by
      rw [hu]
      exact ((Extends.refl s).getBlockMap.setBlockMap _).syncBlockMap
    rw [← hu]
    refine ⟨h1, ?_, by rw [hu]; rfl, hext.clearBlk.writeBlock (by omega)⟩
    rw [flushed_writeBlock hi (by omega)]
    change setBlk (flushed i u) b (clearBlk u).blkBuffer = _
    rw [hflush]
    exact setBlk_congr fun k hk => clearBlk_apply hk u
  · rw [if_pos h1]
    exact h1

/-- A new block of a file is filled with zeros. -/
theorem createFileBlock_disk {b : Nat} (hb : b < 131072) (s : State) :
    (createFileBlock b s).disk = setBlk s.disk b zeros := by
  unfold createFileBlock writeBlock sdWrite
  simp only [blockSector_addr hb]
  exact setBlk_congr fun k hk => clearBlk_apply hk s

/-- The block of a new directory. -/
def newDirBlock (parentInodeId dirInodeId : Nat) : Store :=
  let b := wr8 zeros (dentryName 0) 46
  let b := wr32 b (32 * 0) iDir
  let b := wr32 b (32 * 0 + 4) dirInodeId
  let b := wr8 (wr8 b (dentryName 1) 46) (dentryName 1 + 1) 46
  let b := wr32 b (32 * 1) iDir
  wr32 b (32 * 1 + 4) parentInodeId

/-- A new block of a directory holds `.` and `..` and nothing else. -/
theorem createDirBlock_disk {b : Nat} (hb : b < 131072) (p i : Nat) (s : State) :
    (createDirBlock b p i s).disk = setBlk s.disk b (newDirBlock p i) := by
  unfold createDirBlock writeBlock sdWrite
  simp only [blockSector_addr hb]
  refine setBlk_congr fun k hk => ?_
  unfold newDirBlock wr8 wr32
  simp only [clearBlk_apply hk, zeros_apply]

/-- A new directory block is written inside the data area. -/
theorem Extends.createDirBlock {b : Nat} {t : State} (hb : b < 131072) (p i : Nat)
    (h : Extends s t) : Extends s (createDirBlock b p i t) := by
  unfold Fs.createDirBlock
  exact (h.clearBlk.setBlk _).writeBlock hb

/-- A new file block is written inside the data area. -/
theorem Extends.createFileBlock {b : Nat} {t : State} (hb : b < 131072) (h : Extends s t) :
    Extends s (createFileBlock b t) := by
  unfold Fs.createFileBlock
  exact h.clearBlk.writeBlock hb

end Blocks

/-! ## Inodes -/

/-- The fields `create_inode` sets. -/
def initIno (d : Store) (i b type mode : Nat) : Store :=
  let d := setIno d i inoMode mode
  let d := setIno d i inoType type
  let d := setIno d i inoUid minusOne
  let d := setIno d i inoInodeId i
  let d := setIno d i inoLinksCount 1
  let d := setIno d i inoBlocks 1
  let d := setIno d i inoDirectBlock b
  let d := setIno d i inoSize (if type = iDir then 4096 else 0)
  setIno d i inoFileNum (if type = iDir then 2 else 0)

/-- A new inode is cleared, and its fields are set. -/
theorem createInode_disk {i : Nat} (hi : i < 512) (b type mode : Nat) (s : State) :
    (createInode i b type mode s).disk = initIno s.disk i b type mode := by
  unfold createInode initIno setIno
  simp only
  rw [writeInode_disk hi]
  by_cases ht : type = iDir
  · simp only [if_pos ht]
    rw [flushed_inodeSet i _ (by decide), flushed_inodeSet i _ (by decide),
      flushed_inodeSet i _ (by decide), flushed_inodeSet i _ (by decide),
      flushed_inodeSet i _ (by decide), flushed_inodeSet i _ (by decide),
      flushed_inodeSet i _ (by decide), flushed_inodeSet i _ (by decide),
      flushed_inodeSet i _ (by decide), flushed_getInode hi]
  · simp only [if_neg ht]
    rw [flushed_inodeSet i _ (by decide), flushed_inodeSet i _ (by decide),
      flushed_inodeSet i _ (by decide), flushed_inodeSet i _ (by decide),
      flushed_inodeSet i _ (by decide), flushed_inodeSet i _ (by decide),
      flushed_inodeSet i _ (by decide), flushed_inodeSet i _ (by decide),
      flushed_inodeSet i _ (by decide), flushed_getInode hi]

/-- The sector is written a second time by the callers. -/
theorem writeInode_createInode {i : Nat} (hi : i < 512) (b type mode : Nat) (s : State) :
    (writeInode (i / 4) (createInode i b type mode s)).disk =
      initIno s.disk i b type mode := by
  have hsame : flushed i (createInode i b type mode s) = (createInode i b type mode s).disk := by
    unfold createInode
    simp only
    rw [flushed_writeInode hi, writeInode_disk hi]
  rw [writeInode_disk hi, hsame, createInode_disk hi]

/-- A new inode is written inside the inode sectors. -/
theorem Extends.createInode {i : Nat} {s t : State} (hi : i < 512) (b type mode : Nat)
    (h : Extends s t) : Extends s (createInode i b type mode t) := by
  unfold Fs.createInode
  simp only
  refine Extends.writeInode hi ?_
  have hcommon := (((((((h.getInode i).inodeSet (inodePtr i) inoMode mode).inodeSet
    (inodePtr i) inoType type).inodeSet (inodePtr i) inoUid minusOne).inodeSet
    (inodePtr i) inoInodeId i).inodeSet (inodePtr i) inoLinksCount 1).inodeSet
    (inodePtr i) inoBlocks 1).inodeSet (inodePtr i) inoDirectBlock b
  by_cases ht : type = iDir
  · rw [if_pos ht]
    exact (hcommon.inodeSet _ _ _).inodeSet _ _ _
  · rw [if_neg ht]
    exact (hcommon.inodeSet _ _ _).inodeSet _ _ _

section InitIno

variable {d : Store} {i j b type mode f : Nat}

/-- A new inode is not in the inode map. -/
theorem imap_initIno (hj : j < 512) : imap (initIno d i b type mode) j = imap d j := by
  unfold initIno
  simp only [imap_setIno hj]

/-- A new inode is not in the block map. -/
theorem bmap_initIno {c : Nat} (hc : c < 131072) :
    bmap (initIno d i b type mode) c = bmap d c := by
  unfold initIno
  simp only [bmap_setIno hc]

/-- A new inode is in no block. -/
theorem block_initIno {c k : Nat} (hi : i < 512) :
    block (initIno d i b type mode) c k = block d c k := by
  unfold initIno
  simp only
  repeat rw [block_setIno hi (by decide)]

theorem ino_initIno_of_ne (h : j ≠ i) (hf : f + 4 ≤ 128) :
    ino (initIno d i b type mode) j f = ino d j f := by
  unfold initIno
  simp only
  repeat rw [ino_setIno_of_ne h (by decide) hf]

/-- Behind the first pointer the inode is not touched. -/
theorem ino_initIno_ptr (hf : 36 ≤ f) : ino (initIno d i b type mode) i f = ino d i f := by
  have hfield : ∀ g, g ≤ 32 → f + 4 ≤ g ∨ g + 4 ≤ f := by
    intro g hg
    omega
  unfold initIno
  simp only
  repeat rw [ino_setIno_field (hfield _ (by decide))]

/-- The type that a new inode was given. -/
theorem ino_initIno_type (ht : type < 2 ^ 32) :
    ino (initIno d i b type mode) i inoType = type := by
  unfold initIno
  simp only
  repeat rw [ino_setIno_field (by decide)]
  rw [ino_setIno_self, Nat.mod_eq_of_lt ht]

/-- A new inode knows its number. -/
theorem ino_initIno_inodeId (hi : i < 512) :
    ino (initIno d i b type mode) i inoInodeId = i := by
  unfold initIno
  simp only
  repeat rw [ino_setIno_field (by decide)]
  rw [ino_setIno_self, Nat.mod_eq_of_lt (by omega)]

/-- A new inode has one link. -/
theorem ino_initIno_linksCount : ino (initIno d i b type mode) i inoLinksCount = 1 := by
  unfold initIno
  simp only
  repeat rw [ino_setIno_field (by decide)]
  exact ino_setIno_self

/-- The first block of a new inode. -/
theorem ino_initIno_directBlock (hb : b < 2 ^ 32) :
    ino (initIno d i b type mode) i inoDirectBlock = b := by
  unfold initIno
  simp only
  repeat rw [ino_setIno_field (by decide)]
  rw [ino_setIno_self, Nat.mod_eq_of_lt hb]

/-- A new directory counts `.` and `..`. -/
theorem ino_initIno_fileNum :
    ino (initIno d i b type mode) i inoFileNum = if type = iDir then 2 else 0 := by
  unfold initIno
  simp only
  rw [ino_setIno_self]
  by_cases ht : type = iDir
  · rw [if_pos ht]
    rfl
  · rw [if_neg ht]
    rfl

end InitIno

/-! ## Directory entries -/

/-- The search ends at the first slot that satisfies the test, or none does. -/
theorem firstDentry_spec (P : Nat → Bool) (n i : Nat) :
    (∃ k, firstDentry P n i = some k ∧ i ≤ k ∧ k < i + n ∧ P k = true ∧
        ∀ j, i ≤ j → j < k → P j = false) ∨
      (firstDentry P n i = none ∧ ∀ j, i ≤ j → j < i + n → P j = false) := by
  induction n generalizing i with
  | zero => exact Or.inr ⟨rfl, fun j hj hlt => by omega⟩
  | succ n ih =>
      cases hp : P i with
      | true =>
          exact Or.inl ⟨i, by simp [firstDentry, hp], by omega, by omega, hp,
            fun j hj hlt => by omega⟩
      | false =>
          have hstep : firstDentry P (n + 1) i = firstDentry P n (i + 1) := by
            simp [firstDentry, hp]
          rcases ih (i + 1) with ⟨k, hk, hik, hkn, hpk, hbefore⟩ | ⟨hnone, hall⟩
          · refine Or.inl ⟨k, hstep.trans hk, by omega, by omega, hpk, ?_⟩
            intro j hj hlt
            by_cases hji : j = i
            · rw [hji]
              exact hp
            · exact hbefore j (by omega) hlt
          · refine Or.inr ⟨hstep.trans hnone, fun j hj hlt => ?_⟩
            by_cases hji : j = i
            · rw [hji]
              exact hp
            · exact hall j (by omega) (by omega)

/-- The inode of a directory after `create_dentry`. -/
def bumpDir (d : Store) (p type : Nat) : Store :=
  let d := setIno d p inoFileNum ((ino d p inoFileNum + 1) % 2 ^ 32)
  if type = iDir then setIno d p inoLinksCount ((ino d p inoLinksCount + 1) % 2 ^ 32) else d

/-- The inode of a directory after `delete_dentry`. -/
def dropDir (d : Store) (p : Nat) : Store :=
  let d := setIno d p inoFileNum ((ino d p inoFileNum + (2 ^ 32 - 1)) % 2 ^ 32)
  setIno d p inoLinksCount ((ino d p inoLinksCount + (2 ^ 32 - 1)) % 2 ^ 32)

/-- Adding to a field in the buffer adds to it on the disk once it is flushed. -/
theorem flushed_inodeAdd {i : Nat} (s : State) {f v : Nat} (hf : f + 4 ≤ 128) :
    flushed i (inodeAdd (inodePtr i) f v s) =
      setIno (flushed i s) i f ((ino (flushed i s) i f + v) % 2 ^ 32) := by
  unfold inodeAdd
  rw [flushed_inodeSet i s hf, inodeGet_eq i s hf]
  rfl

section Dentry

variable {s : State} {p c : Nat}

/-- The buffer after `read_block` holds the block. -/
theorem readBlock_block {i : Nat} (hi : i < 512) (hc : c < 131072) (s : State) {k : Nat}
    (hk : k < 4096) : (readBlock c s).blkBuffer k = block (flushed i s) c k :=
  readBlock_caches hi hc s k hk

/-- Types of entries are read inside the block. -/
theorem dentryType_congr {blk blk' : Store} (h : ∀ k, k < 4096 → blk k = blk' k) {k : Nat}
    (hk : k < 128) : dentryType blk k = dentryType blk' k :=
  rd32_congr fun _ _ => h _ (by omega)

/-- Inode numbers of entries are read inside the block. -/
theorem dentryInodeId_congr {blk blk' : Store} (h : ∀ k, k < 4096 → blk k = blk' k) {k : Nat}
    (hk : k < 128) : dentryInodeId blk k = dentryInodeId blk' k :=
  rd32_congr fun _ _ => h _ (by omega)

/-- Counting a new entry leaves the directory its block. -/
theorem bumpDir_directBlock (type : Nat) (d : Store) :
    ino (bumpDir d p type) p inoDirectBlock = ino d p inoDirectBlock := by
  unfold bumpDir
  by_cases ht : type = iDir
  · simp only [if_pos ht]
    rw [ino_setIno_field (by decide), ino_setIno_field (by decide)]
  · simp only [if_neg ht]
    rw [ino_setIno_field (by decide)]

/-- Counting a removed entry leaves the directory its block. -/
theorem dropDir_directBlock (d : Store) :
    ino (dropDir d p) p inoDirectBlock = ino d p inoDirectBlock := by
  unfold dropDir
  simp only
  rw [ino_setIno_field (by decide), ino_setIno_field (by decide)]

/-- Where two blocks agree, they do so with an entry added. -/
theorem addEntry_congr {blk blk' mem : Store} {k id type name n : Nat}
    (h : ∀ x, x < 4096 → blk x = blk' x) {x : Nat} (hx : x < 4096) :
    addEntry blk k id type mem name n x = addEntry blk' k id type mem name n x := by
  unfold addEntry blit wr32
  simp only [h x hx]

/-- Where two blocks agree, they do so with an entry removed. -/
theorem dropEntry_congr {blk blk' : Store} {k : Nat} (h : ∀ x, x < 4096 → blk x = blk' x)
    {x : Nat} (hx : x < 4096) : dropEntry blk k x = dropEntry blk' k x := by
  unfold dropEntry blit wr32
  simp only [h x hx]

/-- Counting a new entry leaves the blocks. -/
theorem block_bumpDir {type x : Nat} (hp : p < 512) (d : Store) :
    block (bumpDir d p type) c x = block d c x := by
  unfold bumpDir
  by_cases ht : type = iDir
  · simp only [if_pos ht]
    rw [block_setIno hp (by decide), block_setIno hp (by decide)]
  · simp only [if_neg ht]
    rw [block_setIno hp (by decide)]

/-- Counting a removed entry leaves the blocks. -/
theorem block_dropDir {x : Nat} (hp : p < 512) (d : Store) :
    block (dropDir d p) c x = block d c x := by
  unfold dropDir
  simp only
  rw [block_setIno hp (by decide), block_setIno hp (by decide)]

/-- `create_dentry` takes the first dead entry. -/
theorem createDentry_spec {subdirId name type : Nat} {mem : Store} (hp : p < 512)
    (hc : ino s.disk p inoDirectBlock = c) (hlt : c < 131072) :
    Holds (fun _ => (∀ k, k < 128 → dentryType (block s.disk c) k ≠ 0) ∨
        ∀ n, strlen mem name = .ok n → dName ≤ n)
      (fun r => r.1 = subdirId ∧ ∃ k n, k < 128 ∧ dentryType (block s.disk c) k = 0 ∧
        (∀ j, j < k → dentryType (block s.disk c) j ≠ 0) ∧ strlen mem name = .ok n ∧
        dentryName k + n ≤ 4096 ∧
        r.2.disk = setBlk (bumpDir s.disk p type) c
          (addEntry (block s.disk c) k subdirId type mem name n) ∧ Extends s r.2)
      (createDentry p subdirId name type mem s) := by
  unfold createDentry
  simp only
  obtain ⟨t, ht⟩ : ∃ t, t = (if type = iDir then
      inodeAdd (inodePtr p) inoLinksCount 1 (inodeAdd (inodePtr p) inoFileNum 1 (getInode p s))
      else inodeAdd (inodePtr p) inoFileNum 1 (getInode p s)) := ⟨_, rfl⟩
  have hflush : flushed p t = bumpDir s.disk p type := by
    rw [ht]
    unfold bumpDir
    by_cases hty : type = iDir
    · simp only [if_pos hty]
      rw [flushed_inodeAdd _ (by decide), flushed_inodeAdd _ (by decide), flushed_getInode hp]
    · simp only [if_neg hty]
      rw [flushed_inodeAdd _ (by decide), flushed_getInode hp]
  have hext : Extends s t := by
    rw [ht]
    by_cases hty : type = iDir
    · rw [if_pos hty]
      exact (((Extends.refl s).getInode p).inodeAdd _ _ _).inodeAdd _ _ _
    · rw [if_neg hty]
      exact ((Extends.refl s).getInode p).inodeAdd _ _ _
  have hget : inodeGet t (inodePtr p) inoDirectBlock = c := by
    rw [inodeGet_eq p t (by decide), hflush, bumpDir_directBlock, hc]
  rw [← ht]
  simp only [hget]
  have hbuf : ∀ x, x < 4096 → (readBlock c t).blkBuffer x = block s.disk c x := by
    intro x hx
    rw [readBlock_block hp hlt t hx, hflush, block_bumpDir hp]
  rcases firstDentry_spec (fun i => dentryType (readBlock c t).blkBuffer i = 0) 128 0 with
    ⟨k, hk, _, hk128, hdead, hbefore⟩ | ⟨hnone, hall⟩
  · simp only [hk]
    cases hlen : strlen mem name with
    | error e =>
        refine Or.inr fun n hn => ?_
        cases hn
    | ok n =>
        change Holds _ _ (if 4096 < dentryName k + n then _ else _)
        by_cases hover : 4096 < dentryName k + n
        · rw [if_pos hover]
          refine Or.inr fun m hm => ?_
          cases hm
          unfold dentryName at hover
          unfold dName
          omega
        · rw [if_neg hover]
          obtain ⟨u, hu⟩ : ∃ u, u = writeInode (p / 4) { readBlock c t with
            blkBuffer := addEntry (readBlock c t).blkBuffer k subdirId type mem name n } :=
            ⟨_, rfl⟩
          have hdisk : u.disk = bumpDir s.disk p type := by
            rw [hu, writeInode_disk hp, ← hflush]
            rfl
          have hgetu : inodeGet u (inodePtr p) inoDirectBlock = c := by
            rw [← hget, hu]
            rfl
          have hextu : Extends s u := by
            rw [hu]
            exact ((hext.readBlock c).setBlk _).writeInode hp
          rw [← hu, hgetu]
          refine ⟨rfl, k, n, by omega, ?_, ?_, rfl, by omega, ?_, hextu.writeBlock hlt⟩
          · rw [← dentryType_congr hbuf (by omega)]
            exact of_decide_eq_true hdead
          · intro j hj
            rw [← dentryType_congr hbuf (by omega)]
            exact of_decide_eq_false (hbefore j (by omega) hj)
          · have hblk : u.blkBuffer =
                addEntry (readBlock c t).blkBuffer k subdirId type mem name n := by rw [hu]; rfl
            rw [writeBlock_disk_eq hlt, hdisk, hblk]
            exact setBlk_congr fun x hx => addEntry_congr hbuf hx
  · simp only [hnone]
    refine Or.inl fun k hk => ?_
    rw [← dentryType_congr hbuf hk]
    exact of_decide_eq_false (hall k (Nat.zero_le k) (by omega))

/-- `delete_dentry` removes the first entry with the inode number, dead or
alive. -/
theorem removeDentry_spec {x : Nat} {ret : Bool} (hp : p < 512)
    (hc : ino s.disk p inoDirectBlock = c) (hlt : c < 131072) :
    Holds (fun _ => ∀ k, k < 128 → dentryInodeId (block s.disk c) k ≠ x)
      (fun r => r.1 = ret ∧ ∃ k, k < 128 ∧ dentryInodeId (block s.disk c) k = x ∧
        (∀ j, j < k → dentryInodeId (block s.disk c) j ≠ x) ∧
        r.2.disk = setBlk (dropDir s.disk p) c (dropEntry (block s.disk c) k) ∧ Extends s r.2)
      (removeDentry p x ret s) := by
  unfold removeDentry
  simp only
  obtain ⟨t, ht⟩ : ∃ t, t = writeInode (p / 4) (inodeAdd (inodePtr p) inoLinksCount (2 ^ 32 - 1)
    (inodeAdd (inodePtr p) inoFileNum (2 ^ 32 - 1) (getInode p s))) := ⟨_, rfl⟩
  have hflush : flushed p t = dropDir s.disk p := by
    rw [ht, flushed_writeInode hp, flushed_inodeAdd _ (by decide), flushed_inodeAdd _ (by decide),
      flushed_getInode hp]
    rfl
  have hdisk : t.disk = dropDir s.disk p := by
    rw [← hflush, ht, flushed_writeInode hp, writeInode_disk hp]
  have hext : Extends s t := by
    rw [ht]
    exact ((((Extends.refl s).getInode p).inodeAdd _ _ _).inodeAdd _ _ _).writeInode hp
  have hget : inodeGet t (inodePtr p) inoDirectBlock = c := by
    rw [inodeGet_eq p t (by decide), hflush, dropDir_directBlock, hc]
  rw [← ht]
  simp only [hget]
  have hbuf : ∀ x, x < 4096 → (readBlock c t).blkBuffer x = block s.disk c x := by
    intro x hx
    rw [readBlock_block hp hlt t hx, hflush, block_dropDir hp]
  rcases firstDentry_spec (fun i => dentryInodeId (readBlock c t).blkBuffer i = x) 128 0 with
    ⟨k, hk, _, hk128, hhit, hbefore⟩ | ⟨hnone, hall⟩
  · simp only [hk]
    obtain ⟨u, hu⟩ : ∃ u, u = { readBlock c t with
      blkBuffer := dropEntry (readBlock c t).blkBuffer k } := ⟨_, rfl⟩
    have hgetu : inodeGet u (inodePtr p) inoDirectBlock = c := by
      rw [← hget, hu]
      rfl
    have hextu : Extends s u := by
      rw [hu]
      exact (hext.readBlock c).setBlk _
    rw [← hu, hgetu]
    refine ⟨rfl, k, by omega, ?_, ?_, ?_, hextu.writeBlock hlt⟩
    · rw [← dentryInodeId_congr hbuf (by omega)]
      exact of_decide_eq_true hhit
    · intro j hj
      rw [← dentryInodeId_congr hbuf (by omega)]
      exact of_decide_eq_false (hbefore j (by omega) hj)
    · have hblk : u.blkBuffer = dropEntry (readBlock c t).blkBuffer k := by rw [hu]
      have hdisku : u.disk = dropDir s.disk p := by rw [← hdisk, hu]; rfl
      rw [writeBlock_disk_eq hlt, hdisku, hblk]
      exact setBlk_congr fun x hx => dropEntry_congr hbuf hx
  · simp only [hnone]
    intro k hk
    rw [← dentryInodeId_congr hbuf hk]
    exact of_decide_eq_false (hall k (Nat.zero_le k) (by omega))

/-- What `delete_dentry` finds out about the inode before it removes the
entry: for a directory whether it may go, for a file whether it is the last
link. -/
def lastLink (d : Store) (x type : Nat) : Prop :=
  ino d x inoLinksCount = 1 ∧ (type = iDir → ino d x inoFileNum = 2)

instance (d : Store) (x type : Nat) : Decidable (lastLink d x type) :=
  inferInstanceAs (Decidable (_ ∧ (_ → _)))

/-- `delete_dentry` either refuses, which only happens to directories, or
removes an entry and says whether it was the last link. -/
theorem deleteDentry_spec {x type : Nat} (hp : p < 512) (hx : x < 512)
    (hc : ino s.disk p inoDirectBlock = c) (hlt : c < 131072) :
    Holds (fun _ => ∀ k, k < 128 → dentryInodeId (block s.disk c) k ≠ x)
      (fun r => (r.1 = false ∧ type = iDir ∧ ¬ lastLink s.disk x type ∧ r.2.disk = s.disk ∧
          Extends s r.2) ∨
        (r.1 = decide (lastLink s.disk x type) ∧ (type = iDir → lastLink s.disk x type) ∧
          ∃ k, k < 128 ∧
          dentryInodeId (block s.disk c) k = x ∧
          (∀ j, j < k → dentryInodeId (block s.disk c) j ≠ x) ∧
          r.2.disk = setBlk (dropDir s.disk p) c (dropEntry (block s.disk c) k) ∧ Extends s r.2))
      (deleteDentry p x type s) := by
  have hfield : ∀ f, f + 4 ≤ 128 → inodeGet (getInode x s) (inodePtr x) f = ino s.disk x f := by
    intro f hf
    rw [inodeGet_eq x _ hf, flushed_getInode hx]
  have hrem : ∀ ret, Holds _ _ (removeDentry p x ret (getInode x s)) := fun ret =>
    removeDentry_spec (s := getInode x s) hp hc hlt
  simp only [getInode_disk] at hrem
  unfold deleteDentry
  simp only [hfield inoFileNum (by decide), hfield inoLinksCount (by decide)]
  by_cases ht : type = iDir
  · rw [if_pos ht]
    by_cases hgo : ino s.disk x inoFileNum = 2 ∧ ino s.disk x inoLinksCount = 1
    · rw [if_neg (fun hne => hne hgo)]
      refine (hrem true).mono fun r hr => Or.inr ⟨?_, fun _ => ⟨hgo.2, fun _ => hgo.1⟩, ?_⟩
      · rw [hr.1]
        exact (decide_eq_true ⟨hgo.2, fun _ => hgo.1⟩).symm
      · obtain ⟨_, k, hk, hid, hbefore, hdisk, hext⟩ := hr
        exact ⟨k, hk, hid, hbefore, hdisk, ((Extends.refl s).getInode x).trans hext⟩
    · rw [if_pos hgo]
      refine Or.inl ⟨rfl, ht, ?_, rfl, (Extends.refl s).getInode x⟩
      intro hlast
      exact hgo ⟨hlast.2 ht, hlast.1⟩
  · rw [if_neg ht]
    refine (hrem _).mono fun r hr => Or.inr ⟨?_, fun hcon => absurd hcon ht, ?_⟩
    · rw [hr.1]
      refine decide_eq_decide.mpr ⟨fun h => ⟨h, fun hcon => absurd hcon ht⟩, fun h => h.1⟩
    · obtain ⟨_, k, hk, hid, hbefore, hdisk, hext⟩ := hr
      exact ⟨k, hk, hid, hbefore, hdisk, ((Extends.refl s).getInode x).trans hext⟩

end Dentry

/-- The inode of a removed entry: its first block is released and it is
cleared. -/
theorem removeInode_spec {s : State} {x type c : Nat} (hx : x < 512)
    (hc : ino s.disk x inoDirectBlock = c) (hlt : c < 4096) :
    Holds (fun _ => ino s.disk x inoType ≠ type ∨ bmap s.disk c ≠ 1 ∨ imap s.disk x ≠ 1)
      (fun t => ino s.disk x inoType = type ∧ bmap s.disk c = 1 ∧ imap s.disk x = 1 ∧
        t.disk = setImap (clearIno (setBlk (setBmap s.disk c 0) c zeros) x) x 0 ∧ Extends s t)
      (removeInode x type s) := by
  have hfield : ∀ f, f + 4 ≤ 128 → inodeGet (getInode x s) (inodePtr x) f = ino s.disk x f := by
    intro f hf
    rw [inodeGet_eq x _ hf, flushed_getInode hx]
  unfold removeInode
  simp only [hfield inoType (by decide), hfield inoDirectBlock (by decide), hc]
  by_cases ht : ino s.disk x inoType = type
  · rw [if_neg (fun hne => hne ht)]
    refine ((releaseBlock_spec hx hlt (getInode x s)).attempt fun _ hne =>
      Or.inr (Or.inl hne)).bind fun t hr => ?_
    obtain ⟨hone, hflush, _, hext⟩ := hr
    rw [flushed_getInode hx] at hflush
    obtain ⟨u, hu⟩ : ∃ u, u = writeInode (x / 4) { t with
      sctBuffer := blit t.sctBuffer (inodePtr x) zeros 0 128 } := ⟨_, rfl⟩
    have hdisk : u.disk = clearIno (setBlk (setBmap s.disk c 0) c zeros) x := by
      rw [hu, writeInode_disk hx, ← hflush]
      have hin := inodePtr_lt x
      have h := store_blit t.disk t.sctBuffer zeros (a := 8520704 + 512 * (x / 4)) (n := 512)
        (k := inodePtr x) (b := 0) hin
      rw [← inoAddr_eq] at h
      exact h
    have hextu : Extends s u := by
      rw [hu]
      exact ((((Extends.refl s).getInode x).trans hext).setSct _).writeInode hx
    rw [← hu]
    have himap : imap u.disk x = imap s.disk x := by
      rw [hdisk, imap_clearIno hx, imap_setBlk hx, imap_setBmap hx]
    refine ((freeInodeMap_spec hx u).attempt fun _ hne =>
      Or.inr (Or.inr (himap ▸ hne))).mono fun v hv => ?_
    obtain ⟨hmap, hdiskv, hextv⟩ := hv
    rw [himap] at hmap
    rw [hdisk] at hdiskv
    exact ⟨ht, hone, hmap, hdiskv, hextu.trans hextv⟩
  · rw [if_pos ht]
    exact Or.inl ht

end Fs
