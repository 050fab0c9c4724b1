import OslabRiscv.Lib.Outcome
import OslabRiscv.Fs.Tree

/-!
# What the low-level helpers do to the volume

While a call works on an inode, the inode's sector lives in `sct_buffer` and
the copy on disk is stale.  `flushed i s` is the disk with that buffer moved
back; it is the volume all the specifications below speak about, and it becomes
the real disk when `write_inode` runs.

`Grown i d d'` says how the tree of inode `i` may grow between two volumes:
pointers once set stay, new ones name blocks that were free, no other inode
moves, and the data read through every position stays what it was.  The main
result is `byteLocate_spec`: `byte_locate` returns the block of the page, and
the volume has grown.
-/

namespace Fs

open ByteStore Outcome

/-! ## Sectors -/

/-- A write lies in the area its helper is responsible for. -/
def SdWrite.InArea (w : SdWrite) : Prop :=
  match w.writer with
  | .writeSuperblock => w.sector = 16384 ∧ w.count = 1
  | .syncInodeMap => w.sector = 16385 ∧ w.count = 1
  | .syncBlockMap => 16386 ≤ w.sector ∧ w.sector + w.count ≤ 16642
  | .writeInode => 16642 ≤ w.sector ∧ w.sector + w.count ≤ 17154
  | .writeBlock => 17154 ≤ w.sector ∧ w.sector + w.count ≤ 1065730
  | .mkfs => 16385 ≤ w.sector ∧ w.sector + w.count ≤ 17154

/-- Descriptors and current directory are kept, and every sector written
between the two states lies in its helper's area. -/
structure Extends (s s' : State) : Prop where
  fdesc : s'.fdescArray = s.fdescArray
  cwd : s'.currentInode = s.currentInode
  writes : ∃ ws, s'.writes = s.writes ++ ws ∧ ∀ w ∈ ws, w.InArea

theorem Extends.refl (s : State) : Extends s s := ⟨rfl, rfl, [], by simp, by simp⟩

theorem Extends.trans {s s' s'' : State} (h : Extends s s') (h' : Extends s' s'') :
    Extends s s'' := by
  obtain ⟨ws, hws, harea⟩ := h.writes
  obtain ⟨ws', hws', harea'⟩ := h'.writes
  refine ⟨h'.fdesc.trans h.fdesc, h'.cwd.trans h.cwd, ws ++ ws', ?_, ?_⟩
  · rw [hws', hws, List.append_assoc]
  · intro w hw
    rcases List.mem_append.mp hw with hw | hw
    · exact harea w hw
    · exact harea' w hw

section Extends

variable {s t : State}

/-- One sector write inside its area. -/
theorem Extends.sdWrite {writer : Writer} {buf : Store} {num sector : Nat}
    (harea : SdWrite.InArea ⟨writer, sector, num⟩) (h : Extends s t) :
    Extends s (sdWrite writer buf num sector t) :=
  h.trans ⟨rfl, rfl, [⟨writer, sector, num⟩], rfl, by simpa using harea⟩

/-- An inode's sector lies in the inode area. -/
theorem Extends.writeInode {i : Nat} (hi : i < 512) (h : Extends s t) :
    Extends s (writeInode (i / 4) t) := by
  refine Extends.sdWrite ?_ h
  simp only [SdWrite.InArea, inodeSector, fsStart, inodeBlockOffset]
  omega

/-- A data block lies in the data area. -/
theorem Extends.writeBlock {b : Nat} (hb : b < 131072) (h : Extends s t) :
    Extends s (writeBlock b t) := by
  refine Extends.sdWrite ?_ h
  simp only [SdWrite.InArea, blockSector, fsStart, dataNumOffset]
  omega

/-- The block map is written to its own area. -/
theorem Extends.syncBlockMap (h : Extends s t) : Extends s (syncBlockMap t) :=
  Extends.sdWrite (by simp [SdWrite.InArea, fsStart, blockMapOffset]) h

/-- An inode is read. -/
theorem Extends.getInode (i : Nat) (h : Extends s t) : Extends s (getInode i t) :=
  ⟨h.fdesc, h.cwd, h.writes⟩

/-- A field of the buffered inode is set. -/
theorem Extends.inodeSet (ip f v : Nat) (h : Extends s t) : Extends s (inodeSet ip f v t) :=
  ⟨h.fdesc, h.cwd, h.writes⟩

/-- A field of the buffered inode is counted up or down. -/
theorem Extends.inodeAdd (ip f v : Nat) (h : Extends s t) : Extends s (inodeAdd ip f v t) :=
  ⟨h.fdesc, h.cwd, h.writes⟩

/-- A block is read. -/
theorem Extends.readBlock (b : Nat) (h : Extends s t) : Extends s (readBlock b t) :=
  ⟨h.fdesc, h.cwd, h.writes⟩

/-- The block buffer is cleared. -/
theorem Extends.clearBlk (h : Extends s t) : Extends s (clearBlk t) :=
  ⟨h.fdesc, h.cwd, h.writes⟩

/-- The block buffer is filled. -/
theorem Extends.setBlk (blk : Store) (h : Extends s t) : Extends s { t with blkBuffer := blk } :=
  ⟨h.fdesc, h.cwd, h.writes⟩

end Extends

/-- The disk with the sector buffer of inode `i` moved back. -/
def flushed (i : Nat) (s : State) : Store :=
  blit s.disk (8520704 + 512 * (i / 4)) s.sctBuffer 0 512

/-- An inode does not cross the end of its sector. -/
theorem inodePtr_lt (i : Nat) : inodePtr i + 128 ≤ 512 := by
  unfold inodePtr
  omega

/-- The byte address of an inode, by its sector and its place there. -/
theorem inoAddr_eq (i : Nat) : inoAddr i = 8520704 + 512 * (i / 4) + inodePtr i := by
  unfold inoAddr inodePtr
  omega

/-- Reading an inode leaves the disk. -/
theorem getInode_disk (i : Nat) (s : State) : (getInode i s).disk = s.disk := rfl

/-- A buffer that was just read changes nothing when moved back. -/
theorem flushed_getInode {i : Nat} (hi : i < 512) (s : State) :
    flushed i (getInode i s) = s.disk := by
  unfold flushed getInode readInode sdRead
  simp only [inodeSector_addr hi]
  exact (caches_load _ _ _ 512).store_eq

/-- A field of the buffer is the field of the inode once moved back. -/
theorem inodeGet_eq (i : Nat) (s : State) {f : Nat} (hf : f + 4 ≤ 128) :
    inodeGet s (inodePtr i) f = ino (flushed i s) i f := by
  have hp := inodePtr_lt i
  have h := (caches_store s.sctBuffer s.disk (8520704 + 512 * (i / 4)) 512).rd32
    (k := inodePtr i + f) (by omega)
  rw [← Nat.add_assoc, ← inoAddr_eq] at h
  exact h

/-- A field that is set in the buffer is the field of the inode once moved back. -/
theorem flushed_inodeSet (i : Nat) (s : State) {f v : Nat} (hf : f + 4 ≤ 128) :
    flushed i (inodeSet (inodePtr i) f v s) = wr32 (flushed i s) (inoAddr i + f) v := by
  have hp := inodePtr_lt i
  have h := store_wr32 s.disk s.sctBuffer (a := 8520704 + 512 * (i / 4)) (n := 512)
    (k := inodePtr i + f) (v := v) (by omega)
  rw [← Nat.add_assoc, ← inoAddr_eq] at h
  exact h

/-- Writing the inode moves its buffer back. -/
theorem writeInode_disk {i : Nat} (hi : i < 512) (s : State) :
    (writeInode (i / 4) s).disk = flushed i s := by
  unfold writeInode sdWrite flushed
  simp only [inodeSector_addr hi]

/-- Written once more it is the same. -/
theorem flushed_writeInode {i : Nat} (hi : i < 512) (s : State) :
    flushed i (writeInode (i / 4) s) = flushed i s := by
  unfold flushed
  rw [writeInode_disk hi]
  exact (caches_store s.sctBuffer s.disk _ 512).store_eq

/-- A block is written beside the buffered inode. -/
theorem flushed_writeBlock {i b : Nat} (hi : i < 512) (hb : b < 131072) (s : State) :
    flushed i (writeBlock b s) = blit (flushed i s) (blkAddr b) s.blkBuffer 0 4096 := by
  unfold flushed writeBlock sdWrite
  simp only [blockSector_addr hb]
  apply blit_comm
  simp only [blkAddr]
  omega

/-- The block buffer holds the block just read. -/
theorem readBlock_caches {i b : Nat} (hi : i < 512) (hb : b < 131072) (s : State) :
    Caches (readBlock b s).blkBuffer (flushed i s) (blkAddr b) 4096 := by
  intro k hk
  have h := caches_load s.blkBuffer s.disk (512 * blockSector b) 4096 k hk
  rw [blockSector_addr hb] at h
  refine Eq.trans ?_ (h.trans ?_)
  · unfold readBlock sdRead
    simp only [blockSector_addr hb]
  · unfold flushed
    rw [blit_apply_of_ne _ _ (by simp only [blkAddr]; omega)]

/-! ## The block allocator -/

/-- The scan finds the first zero byte, or there is none. -/
theorem firstZero_spec (m : Store) (i n : Nat) :
    (∃ k, firstZero m i n = some k ∧ i ≤ k ∧ k < i + n ∧ m k = 0 ∧ ∀ j, i ≤ j → j < k → m j ≠ 0) ∨
      (firstZero m i n = none ∧ ∀ j, i ≤ j → j < i + n → m j ≠ 0) := by
  induction n generalizing i with
  | zero => exact Or.inr ⟨rfl, fun j hj hlt => by omega⟩
  | succ n ih =>
      by_cases hz : m i = 0
      · exact Or.inl ⟨i, by simp [firstZero, hz], by omega, by omega, hz, fun j hj hlt => by omega⟩
      · have hstep : firstZero m i (n + 1) = firstZero m (i + 1) n := by simp [firstZero, hz]
        rcases ih (i + 1) with ⟨k, hk, hik, hkn, hk0, hbefore⟩ | ⟨hnone, hall⟩
        · refine Or.inl ⟨k, hstep.trans hk, by omega, by omega, hk0, ?_⟩
          intro j hj hlt
          by_cases hji : j = i
          · exact hji ▸ hz
          · exact hbefore j (by omega) hlt
        · refine Or.inr ⟨hstep.trans hnone, ?_⟩
          intro j hj hlt
          by_cases hji : j = i
          · exact hji ▸ hz
          · exact hall j (by omega) (by omega)

/-- The state after `alloc_block` handed out block `b`. -/
def allocatedBlock (b : Nat) (s : State) : State :=
  syncBlockMap
    { getBlockMap s with blockMap := wr8 (getBlockMap s).blockMap b 1 }

/-- The entry of a block is set in the map. -/
theorem allocatedBlock_disk {b : Nat} (hb : b < 4096) (s : State) :
    (allocatedBlock b s).disk = wr8 s.disk (8389632 + b) 1 := by
  have hload := caches_load s.blockMap s.disk 8389632 4096
  have h := store_wr8 s.disk (blit s.blockMap 0 s.disk 8389632 4096) (a := 8389632) (n := 4096)
    (k := b) 1 hb
  rw [hload.store_eq] at h
  simp only [allocatedBlock, syncBlockMap, sdWrite, getBlockMap, sdRead, blockMap_addr]
  exact h

/-- Handing out a block writes the map only. -/
theorem Extends.allocatedBlock {s t : State} (b : Nat) (h : Extends s t) :
    Extends s (allocatedBlock b t) :=
  Extends.syncBlockMap ⟨h.fdesc, h.cwd, h.writes⟩

/-- The entry of a block is set beside the buffered inode. -/
theorem flushed_allocatedBlock {i b : Nat} (hi : i < 512) (hb : b < 4096) (s : State) :
    flushed i (allocatedBlock b s) = wr8 (flushed i s) (8389632 + b) 1 := by
  unfold flushed
  rw [allocatedBlock_disk hb]
  apply blit_wr8_comm
  omega

/-- `alloc_block` hands out the first block the map has free. -/
theorem allocBlock_spec (s : State) :
    (∃ b, b < 4096 ∧ bmap s.disk b = 0 ∧ (∀ c, c < b → bmap s.disk c ≠ 0) ∧
        allocBlock s = .ok (b, allocatedBlock b s)) ∨
      (allocBlock s = .error .noMoreBlocks ∧ ∀ b, b < 4096 → bmap s.disk b ≠ 0) := by
  have hload : ∀ k, k < 4096 → (getBlockMap s).blockMap k = bmap s.disk k := by
    intro k hk
    simp only [getBlockMap, sdRead, blockMap_addr]
    exact caches_load s.blockMap s.disk 8389632 4096 k hk
  rcases firstZero_spec (getBlockMap s).blockMap 0 4096 with
    ⟨b, hb, _, hlt, hzero, hbefore⟩ | ⟨hnone, hfull⟩
  · refine Or.inl ⟨b, by omega, ?_, ?_, ?_⟩
    · rw [← hload b (by omega)]
      exact hzero
    · intro c hc
      rw [← hload c (by omega)]
      exact hbefore c (by omega) hc
    · simp only [allocBlock, hb]
      rfl
  · right
    refine ⟨by simp only [allocBlock, hnone], fun b hb => ?_⟩
    rw [← hload b hb]
    exact hfull b (Nat.zero_le b) (by omega)

/-- The map has nothing to do with the buffered inode. -/
theorem bmap_flushed {i : Nat} (s : State) {b : Nat} (hb : b < 131072) :
    bmap (flushed i s) b = bmap s.disk b := by
  apply blit_apply_of_ne
  omega

end Fs
