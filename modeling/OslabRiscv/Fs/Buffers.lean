import OslabRiscv.Fs.Calls
import OslabRiscv.Lib.Agreement
import OslabRiscv.Lib.Simulation

/-!
# What the calls find in the buffers

The maps, the sector buffer and the block buffer are static variables, and each call leaves in them
whatever it has read last.  No later call looks at it: two states with the same disk, the same
descriptors and the same current directory go on alike (`Alike`), whatever their buffers hold.
The lemmas here follow `fs.c` function by function.

A state also remembers from which state it has come (`Logged`): the disk differs from what it was
only where something was written.
-/

namespace Fs

open ByteStore Outcome

/-! ## What was written -/

/-- The byte of the disk is one of those written. -/
def SdWrite.Covers (w : SdWrite) (a : Nat) : Prop :=
  512 * w.sector ≤ a ∧ a < 512 * w.sector + 512 * w.count

/-- There is a file system on the disk. -/
def HasMagic (d : Store) : Prop := rd32 d (512 * fsStart) = superblockMagic

instance (d : Store) : Decidable (HasMagic d) := inferInstanceAs (Decidable (_ = _))

/-- Since `s₀` the disk has changed only where something was written, and the superblock was written
only if there was none. -/
def Logged (s₀ s : State) : Prop :=
  ∃ ws, s.writes = s₀.writes ++ ws ∧ (∀ a, (∀ w ∈ ws, ¬w.Covers a) → s.disk a = s₀.disk a) ∧
    (HasMagic s₀.disk → ∀ w ∈ ws, w.writer ≠ .writeSuperblock)

theorem Logged.refl (s : State) : Logged s s :=
  ⟨[], (List.append_nil _).symm, fun _ _ => rfl, fun _ _ h => absurd h List.not_mem_nil⟩

/-- One more write, which is none of a superblock over another. -/
theorem Logged.sdWrite {s₀ s : State} (h : Logged s₀ s) {w : Writer}
    (hw : HasMagic s₀.disk → w ≠ .writeSuperblock) (buf : Store) (n sector : Nat) :
    Logged s₀ (sdWrite w buf n sector s) := by
  obtain ⟨ws, hws, hdisk, hsuper⟩ := h
  refine ⟨ws ++ [⟨w, sector, n⟩], ?_, fun a ha => ?_, fun hmagic v hv => ?_⟩
  · exact (congrArg (· ++ [_]) hws).trans (List.append_assoc ..)
  · have hout := ha ⟨w, sector, n⟩ (by simp)
    have hlast : (Fs.sdWrite w buf n sector s).disk a = s.disk a :=
      blit_apply_of_ne _ _ (by unfold SdWrite.Covers at hout; dsimp only at hout; omega)
    rw [hlast]
    exact hdisk a fun v hv => ha v (List.mem_append_left _ hv)
  · rcases List.mem_append.mp hv with hv | hv
    · exact hsuper hmagic v hv
    · rw [List.mem_singleton.mp hv]
      exact hw hmagic

/-! ## Alike states -/

/-- Two states with the same disk, descriptors and current directory, the first of which has come
from `s₀`.  If `b`, they have the same sector in the buffer, and if `c` the same block.  Of the block
map only the first eight sectors are ever loaded. -/
structure Alike (s₀ : State) (b c : Bool) (s s' : State) : Prop where
  disk : s'.disk = s.disk
  fdesc : s'.fdescArray = s.fdescArray
  cwd : currentId s' = currentId s
  spare : ∀ i, 4096 ≤ i → s.blockMap i = 0 ∧ s'.blockMap i = 0
  sct : b = true → Agree 512 s.sctBuffer s'.sctBuffer
  blk : c = true → Agree 4096 s.blkBuffer s'.blkBuffer
  logged : Logged s₀ s

/-- The same result and alike states. -/
def Gives {α : Type} (s₀ : State) (b c : Bool) (r r' : α × State) : Prop :=
  r'.1 = r.1 ∧ Alike s₀ b c r.2 r'.2

/-- The same two results and alike states. -/
def Leaves {α β : Type} (s₀ : State) (b c : Bool) (r r' : α × β × State) : Prop :=
  r'.1 = r.1 ∧ r'.2.1 = r.2.1 ∧ Alike s₀ b c r.2.2 r'.2.2

section Sequencing

variable {α β γ : Type} {s₀ : State} {b c : Bool} {R : γ → γ → Prop}

/-- What follows a value that is the same in both does so in like states. -/
theorem gives_bind {x y : Except Halt (α × State)} {f g : α × State → Except Halt γ}
    (h : Matching (Gives s₀ b c) x y)
    (hf : ∀ a t t', Alike s₀ b c t t' → Matching R (f (a, t)) (g (a, t'))) :
    Matching R (x >>= f) (y >>= g) := by
  refine h.bind ?_
  rintro ⟨a, t⟩ ⟨a', t'⟩ ⟨ha, ht⟩
  cases ha
  exact hf a t t' ht

/-- What follows a value and a memory that are the same in both does so in like states. -/
theorem leaves_bind {x y : Except Halt (α × β × State)} {f g : α × β × State → Except Halt γ}
    (h : Matching (Leaves s₀ b c) x y)
    (hf : ∀ a m t t', Alike s₀ b c t t' → Matching R (f (a, m, t)) (g (a, m, t'))) :
    Matching R (x >>= f) (y >>= g) := by
  refine h.bind ?_
  rintro ⟨a, m, t⟩ ⟨a', m', t'⟩ ⟨ha, hm, ht⟩
  cases ha
  cases hm
  exact hf a m t t' ht

/-- What both states do alike without looking at them. -/
theorem same_bind {x : Except Halt α} {f g : α → Except Halt γ}
    (hf : ∀ a, Matching R (f a) (g a)) : Matching R (x >>= f) (x >>= g) := by
  refine (Matching.same x).bind ?_
  rintro a _ rfl
  exact hf a

end Sequencing

section Functions

variable {s₀ s s' : State} {b c : Bool} {ip : Nat}

/-- What the buffers hold may be forgotten. -/
theorem Alike.forget (h : Alike s₀ b c s s') : Alike s₀ false false s s' :=
  ⟨h.disk, h.fdesc, h.cwd, h.spare, fun hb => (nomatch hb), fun hc => (nomatch hc), h.logged⟩

/-- The block buffers need not agree any more. -/
theorem Alike.forgetBlk (h : Alike s₀ b c s s') : Alike s₀ b false s s' :=
  ⟨h.disk, h.fdesc, h.cwd, h.spare, h.sct, fun hc => (nomatch hc), h.logged⟩

/-- The same sectors are written to both disks. -/
theorem Alike.sdWrite (h : Alike s₀ b c s s') {w : Writer} {buf buf' : Store} {n : Nat}
    (hbuf : Agree (512 * n) buf buf') (hw : HasMagic s₀.disk → w ≠ .writeSuperblock) (sector : Nat) :
    Alike s₀ b c (sdWrite w buf n sector s) (sdWrite w buf' n sector s') := by
  refine ⟨?_, h.fdesc, h.cwd, h.spare, h.sct, h.blk, h.logged.sdWrite hw buf n sector⟩
  change blit s'.disk _ buf' 0 _ = blit s.disk _ buf 0 _
  rw [h.disk]
  exact hbuf.moved s.disk _ 0 (by omega)

/-- What is read from the disk is the same, whatever was in the buffers. -/
theorem Alike.sdRead (h : Alike s₀ b c s s') (buf buf' : Store) (n sector : Nat) :
    Agree (512 * n) (sdRead s.disk buf n sector) (sdRead s'.disk buf' n sector) := by
  rw [h.disk]
  exact agree_blit buf buf' s.disk _ _

/-! ### Inodes -/

/-- The entry found lies inside the range searched. -/
theorem firstZero_lt {m : Store} {n i k : Nat} (h : firstZero m i n = some k) : k < i + n := by
  induction n generalizing i with
  | zero => cases h
  | succ n ih =>
      unfold firstZero at h
      split_ifs at h
      · cases h
        omega
      · have := ih h
        omega

/-- The first free entry is the same in two maps that agree. -/
theorem Agree.firstZero {m m' : Store} {bound n i : Nat} (h : Agree bound m m')
    (hn : i + n ≤ bound) : firstZero m' i n = firstZero m i n := by
  induction n generalizing i with
  | zero => rfl
  | succ n ih =>
      unfold Fs.firstZero
      rw [h i (by omega), ih (by omega)]

/-- The copies of the inode map in memory need not agree. -/
theorem Alike.inodeMap (h : Alike s₀ b c s s') (m m' : Store) :
    Alike s₀ b c { s with inodeMap := m } { s' with inodeMap := m' } :=
  ⟨h.disk, h.fdesc, h.cwd, h.spare, h.sct, h.blk, h.logged⟩

/-- Behind reading them, the copies of the inode map agree. -/
theorem Alike.getInodeMap (h : Alike s₀ b c s s') :
    Alike s₀ b c (getInodeMap s) (getInodeMap s') ∧
      Agree 512 (getInodeMap s).inodeMap (getInodeMap s').inodeMap :=
  ⟨h.inodeMap _ _, h.sdRead s.inodeMap s'.inodeMap 1 (fsStart + inodeMapOffset)⟩

/-- The map is written back with one entry changed. -/
theorem Alike.setInodeMap (h : Alike s₀ b c s s') {m m' : Store} (hm : Agree 512 m m') (i : Nat)
    (x : UInt8) : Alike s₀ b c (syncInodeMap { s with inodeMap := wr8 m i x })
      (syncInodeMap { s' with inodeMap := wr8 m' i x }) :=
  (h.inodeMap _ _).sdWrite (hm.wr8 i x) (fun _ => by simp) _

/-- The same inode is allocated. -/
theorem Alike.allocInode (h : Alike s₀ b c s s') :
    Matching (Gives s₀ b c) (allocInode s) (allocInode s') := by
  obtain ⟨hs, hm⟩ := h.getInodeMap
  unfold Fs.allocInode
  simp only [Agree.firstZero hm (show 0 + 512 ≤ 512 by omega)]
  cases firstZero (Fs.getInodeMap s).inodeMap 0 512 with
  | none => exact Matching.error _ _
  | some i => exact ⟨rfl, hs.setInodeMap hm i 1⟩

/-- The same inode is released. -/
theorem Alike.freeInodeMap (h : Alike s₀ b c s s') (inodeId : Nat) :
    Matching (Alike s₀ b c) (freeInodeMap inodeId s) (freeInodeMap inodeId s') := by
  obtain ⟨hs, hm⟩ := h.getInodeMap
  unfold Fs.freeInodeMap
  by_cases hid : 512 ≤ inodeId
  · simp only [if_pos hid]
    exact Matching.error _ _
  · simp only [if_neg hid]
    rw [hm inodeId (by omega)]
    by_cases hone : (Fs.getInodeMap s).inodeMap inodeId ≠ 1
    · rw [if_pos hone, if_pos hone]
      exact Matching.error _ _
    · rw [if_neg hone, if_neg hone]
      exact hs.setInodeMap hm inodeId 0

/-- The sector buffer is edited. -/
theorem Alike.editSct (h : Alike s₀ b c s s') {m m' : Store} {b' : Bool}
    (hm : b' = true → Agree 512 m m') :
    Alike s₀ b' c { s with sctBuffer := m } { s' with sctBuffer := m' } :=
  ⟨h.disk, h.fdesc, h.cwd, h.spare, hm, h.blk, h.logged⟩

/-- Behind reading an inode, the sector buffers agree. -/
theorem Alike.getInode (h : Alike s₀ b c s s') (inodeId : Nat) :
    Alike s₀ true c (getInode inodeId s) (getInode inodeId s') :=
  h.editSct fun _ => h.sdRead s.sctBuffer s'.sctBuffer 1 (inodeSector (inodeId / 4))

/-- The same sector of inodes is written. -/
theorem Alike.writeInode (h : Alike s₀ true c s s') (sctId : Nat) :
    Alike s₀ true c (writeInode sctId s) (writeInode sctId s') :=
  h.sdWrite (h.sct rfl) (fun _ => by simp) _

/-- An inode lies in the sector buffer with all its bytes. -/
theorem inodePtr_le (inodeId : Nat) : inodePtr inodeId ≤ 384 := by
  unfold inodePtr
  omega

/-- A field of the inode in the buffer is the same in both. -/
theorem Alike.inodeGet (h : Alike s₀ true c s s') (hip : ip ≤ 384) {field : Nat}
    (hf : field ≤ 124) : inodeGet s' ip field = inodeGet s ip field :=
  (h.sct rfl).rd32 (by omega)

/-- The same field is set in both buffers. -/
theorem Alike.inodeSet (h : Alike s₀ b c s s') (ip field v : Nat) :
    Alike s₀ b c (inodeSet ip field v s) (inodeSet ip field v s') :=
  h.editSct fun hb => (h.sct hb).wr32 _ _

/-- The same number is added to a field in both buffers. -/
theorem Alike.inodeAdd (h : Alike s₀ true c s s') (hip : ip ≤ 384) {field : Nat}
    (hf : field ≤ 124) (v : Nat) :
    Alike s₀ true c (inodeAdd ip field v s) (inodeAdd ip field v s') := by
  unfold Fs.inodeAdd
  rw [h.inodeGet hip hf]
  exact h.inodeSet _ _ _

/-- The same inode is made in both buffers and on both disks. -/
theorem Alike.createInode (h : Alike s₀ b c s s') (inodeId blockId type mode : Nat) :
    Alike s₀ true c (createInode inodeId blockId type mode s)
      (createInode inodeId blockId type mode s') := by
  have hset := (((((((h.getInode inodeId).inodeSet (inodePtr inodeId) inoMode mode).inodeSet
    (inodePtr inodeId) inoType type).inodeSet (inodePtr inodeId) inoUid minusOne).inodeSet
    (inodePtr inodeId) inoInodeId inodeId).inodeSet (inodePtr inodeId) inoLinksCount 1).inodeSet
    (inodePtr inodeId) inoBlocks 1).inodeSet (inodePtr inodeId) inoDirectBlock blockId
  unfold Fs.createInode
  refine Alike.writeInode ?_ _
  by_cases ht : type = iDir
  · simp only [if_pos ht]
    exact (hset.inodeSet _ _ _).inodeSet _ _ _
  · simp only [if_neg ht]
    exact (hset.inodeSet _ _ _).inodeSet _ _ _

/-- The inode in the buffer is written back to both disks. -/
theorem Alike.updateInode (h : Alike s₀ true c s s') (hip : ip ≤ 384) :
    Alike s₀ true c (updateInode ip s) (updateInode ip s') := by
  refine ⟨h.disk, h.fdesc, ?_, h.spare, h.sct, h.blk, h.logged⟩
  change rd32 (blit s'.currentInode 0 s'.sctBuffer ip 128) (0 + inoInodeId) =
    rd32 (blit s.currentInode 0 s.sctBuffer ip 128) (0 + inoInodeId)
  rw [rd32_blit_add _ _ (by decide), rd32_blit_add _ _ (by decide)]
  exact (h.sct rfl).rd32 (by unfold inoInodeId; omega)

/-! ### Blocks -/

/-- The block buffer is edited. -/
theorem Alike.editBlk (h : Alike s₀ b c s s') {m m' : Store} (hm : Agree 4096 m m') :
    Alike s₀ b true { s with blkBuffer := m } { s' with blkBuffer := m' } :=
  ⟨h.disk, h.fdesc, h.cwd, h.spare, h.sct, fun _ => hm, h.logged⟩

/-- The copies of the block map in memory need not agree, but for their spare bytes. -/
theorem Alike.blockMap (h : Alike s₀ b c s s') {m m' : Store}
    (hm : ∀ i, 4096 ≤ i → m i = 0 ∧ m' i = 0) :
    Alike s₀ b c { s with blockMap := m } { s' with blockMap := m' } :=
  ⟨h.disk, h.fdesc, h.cwd, hm, h.sct, h.blk, h.logged⟩

/-- Behind reading them, the copies of the block map agree. -/
theorem Alike.getBlockMap (h : Alike s₀ b c s s') :
    Alike s₀ b c (getBlockMap s) (getBlockMap s') ∧
      Agree 4096 (getBlockMap s).blockMap (getBlockMap s').blockMap := by
  refine ⟨h.blockMap fun i hi => ?_, h.sdRead s.blockMap s'.blockMap 8 (fsStart + blockMapOffset)⟩
  unfold Fs.sdRead
  rw [blit_apply_of_ne _ _ (by omega), blit_apply_of_ne _ _ (by omega)]
  exact h.spare i hi

/-- The map is written back with one entry changed. -/
theorem Alike.setBlockMap (h : Alike s₀ b c s s') (hm : Agree 4096 s.blockMap s'.blockMap)
    {i : Nat} {x : UInt8} (hi : i < 4096 ∨ x = 0) :
    Alike s₀ b c (syncBlockMap { s with blockMap := wr8 s.blockMap i x })
      (syncBlockMap { s' with blockMap := wr8 s'.blockMap i x }) := by
  refine (h.blockMap fun k hk => ?_).sdWrite (hm.wr8 i x) (fun _ => by simp) _
  by_cases hki : k = i
  · have hx : x = 0 := hi.resolve_left (by omega)
    rw [hki, wr8_apply, wr8_apply]
    exact ⟨hx, hx⟩
  · rw [wr8_apply_of_ne _ _ hki, wr8_apply_of_ne _ _ hki]
    exact h.spare k hk

/-- The same block is allocated. -/
theorem Alike.allocBlock (h : Alike s₀ b c s s') :
    Matching (Gives s₀ b c) (allocBlock s) (allocBlock s') := by
  obtain ⟨hs, hm⟩ := h.getBlockMap
  unfold Fs.allocBlock
  simp only [Agree.firstZero hm (show 0 + 4096 ≤ 4096 by omega)]
  cases hz : firstZero (Fs.getBlockMap s).blockMap 0 4096 with
  | none => exact Matching.error _ _
  | some i => exact ⟨rfl, hs.setBlockMap hm (.inl (by have := firstZero_lt hz; omega))⟩

/-- Behind reading a block, the block buffers agree. -/
theorem Alike.readBlock (h : Alike s₀ b c s s') (blockId : Nat) :
    Alike s₀ b true (readBlock blockId s) (readBlock blockId s') :=
  h.editBlk (h.sdRead s.blkBuffer s'.blkBuffer 8 (blockSector blockId))

/-- The same block is written. -/
theorem Alike.writeBlock (h : Alike s₀ b true s s') (blockId : Nat) :
    Alike s₀ b true (writeBlock blockId s) (writeBlock blockId s') :=
  h.sdWrite (h.blk rfl) (fun _ => by simp) _

/-- Behind clearing them, the block buffers agree. -/
theorem Alike.clearBlk (h : Alike s₀ b c s s') : Alike s₀ b true (clearBlk s) (clearBlk s') :=
  h.editBlk (agree_blit s.blkBuffer s'.blkBuffer zeros 0 4096)

/-- The same block is released and cleared. -/
theorem Alike.releaseBlock (h : Alike s₀ b c s s') (blockId : Nat) :
    Matching (Alike s₀ b true) (releaseBlock blockId s) (releaseBlock blockId s') := by
  obtain ⟨hs, hm⟩ := h.getBlockMap
  have hmark : (Fs.getBlockMap s').blockMap blockId = (Fs.getBlockMap s).blockMap blockId := by
    by_cases hlt : blockId < 4096
    · exact hm blockId hlt
    · obtain ⟨h0, h0'⟩ := hs.spare blockId (by omega)
      rw [h0, h0']
  unfold Fs.releaseBlock
  by_cases hid : 131072 ≤ blockId
  · simp only [if_pos hid]
    exact Matching.error _ _
  · simp only [if_neg hid]
    rw [hmark]
    by_cases hone : (Fs.getBlockMap s).blockMap blockId ≠ 1
    · rw [if_pos hone, if_pos hone]
      exact Matching.error _ _
    · rw [if_neg hone, if_neg hone]
      exact (hs.setBlockMap hm (.inr rfl)).clearBlk.writeBlock blockId

/-- The same directory block is made. -/
theorem Alike.createDirBlock (h : Alike s₀ b c s s') (dirBlockId parentInodeId dirInodeId : Nat) :
    Alike s₀ b true (createDirBlock dirBlockId parentInodeId dirInodeId s)
      (createDirBlock dirBlockId parentInodeId dirInodeId s') := by
  have hcleared := h.clearBlk
  exact (hcleared.editBlk ((((((((hcleared.blk rfl).wr8 _ _).wr32 _ _).wr32 _ _).wr8 _ _).wr8
    _ _).wr32 _ _).wr32 _ _)).writeBlock dirBlockId

/-- The same file block is made. -/
theorem Alike.createFileBlock (h : Alike s₀ b c s s') (blockId : Nat) :
    Alike s₀ b true (createFileBlock blockId s) (createFileBlock blockId s') :=
  h.clearBlk.writeBlock blockId

/-! ### Locating a byte -/

/-- A link of the inode leads to the same block, which may be a new one. -/
theorem Alike.inodeLink (h : Alike s₀ true c s s') (hip : ip ≤ 384) {rdSlot wrSlot : Nat}
    (hrd : rdSlot ≤ 124) :
    Matching (Gives s₀ true false) (inodeLink ip rdSlot wrSlot s) (inodeLink ip rdSlot wrSlot s') := by
  unfold Fs.inodeLink
  simp only [h.inodeGet hip hrd]
  by_cases hz : Fs.inodeGet s ip rdSlot = 0
  · rw [if_pos hz, if_pos hz]
    refine gives_bind h.allocBlock fun id t t' ht => ?_
    have hadd := (ht.inodeSet ip wrSlot id).inodeAdd hip (show inoBlocks ≤ 124 by decide) 1
    exact ⟨rfl, (hadd.clearBlk.writeBlock id).forgetBlk⟩
  · rw [if_neg hz, if_neg hz]
    exact ⟨rfl, h.forgetBlk⟩

/-- A link of an index block leads to the same block, which may be a new one. -/
theorem Alike.indexLink (h : Alike s₀ true c s s') (hip : ip ≤ 384) (parent : Nat) {off : Nat}
    (hoff : off < 1024) :
    Matching (Gives s₀ true false) (indexLink ip parent off s) (indexLink ip parent off s') := by
  have hread := h.readBlock parent
  have hentry : rd32 (Fs.readBlock parent s').blkBuffer (4 * off) =
      rd32 (Fs.readBlock parent s).blkBuffer (4 * off) := (hread.blk rfl).rd32 (by omega)
  unfold Fs.indexLink
  simp only [hentry]
  by_cases hz : rd32 (Fs.readBlock parent s).blkBuffer (4 * off) = 0
  · rw [if_pos hz, if_pos hz]
    refine gives_bind hread.allocBlock fun id t t' ht => ?_
    have hset := ht.editBlk ((ht.blk rfl).wr32 (4 * off) id)
    have hadd := (hset.inodeAdd hip (show inoBlocks ≤ 124 by decide) 1).writeBlock parent
    exact ⟨rfl, (hadd.clearBlk.writeBlock id).forgetBlk⟩
  · rw [if_neg hz, if_neg hz]
    exact ⟨rfl, hread.forgetBlk⟩

/-- A page is found in the same block. -/
theorem Alike.locatePage (h : Alike s₀ true c s s') (hip : ip ≤ 384) (page : Nat) :
    Matching (Gives s₀ true false) (locatePage ip page s) (locatePage ip page s') := by
  have h10 : ∀ n : Nat, n % 2 ^ 10 < 1024 := fun n => Nat.mod_lt n (by decide)
  have h20 : ∀ n : Nat, n % 2 ^ 20 / 2 ^ 10 < 1024 := fun n => by omega
  have h30 : ∀ n : Nat, n % 2 ^ 30 / 2 ^ 20 < 1024 := fun n => by omega
  unfold Fs.locatePage
  split_ifs with h1 h2 h3 h4
  · simp only [directSize] at h1
    refine gives_bind (h.inodeLink hip (by unfold inoDirectBlock; omega)) fun id t t' ht => ?_
    exact ⟨rfl, ht⟩
  · simp only [directSize, firstLevelSize] at h1 h2
    refine gives_bind (h.inodeLink hip (by unfold inoFirstBlock directSize; omega))
      fun first t t' ht => ?_
    refine gives_bind (ht.indexLink hip first (h10 _)) fun id u u' hu => ?_
    exact ⟨rfl, hu⟩
  · simp only [directSize, firstLevelSize, secondLevelSize] at h1 h2 h3
    refine gives_bind (h.inodeLink hip (by unfold inoSecondBlock directSize firstLevelSize; omega))
      fun second t t' ht => ?_
    refine gives_bind (ht.indexLink hip second (h20 _)) fun first u u' hu => ?_
    with_reducible refine gives_bind (hu.indexLink hip first (h10 _)) fun id v v' hv => ?_
    exact ⟨rfl, hv⟩
  · simp only [directSize, firstLevelSize, secondLevelSize, thirdLevelSize] at h1 h2 h3 h4
    refine gives_bind (h.inodeLink hip
      (by unfold inoSecondBlock directSize firstLevelSize secondLevelSize; omega))
      fun third t t' ht => ?_
    refine gives_bind (ht.indexLink hip third (h30 _)) fun second u u' hu => ?_
    with_reducible refine gives_bind (hu.indexLink hip second (h20 _)) fun first v v' hv => ?_
    with_reducible refine gives_bind (hv.indexLink hip first (h10 _)) fun id w w' hw => ?_
    exact ⟨rfl, hw⟩
  · exact ⟨rfl, h.forgetBlk⟩

/-- A byte is found at the same place. -/
theorem Alike.byteLocate (h : Alike s₀ true c s s') (hip : ip ≤ 384) (offset : Nat) :
    Matching (Gives s₀ true false) (byteLocate ip offset s) (byteLocate ip offset s') := by
  unfold Fs.byteLocate
  refine gives_bind (h.locatePage hip (offset / 4096)) fun id t t' ht => ?_
  cases id with
  | none => exact ⟨rfl, ht⟩
  | some id =>
      simp only [ht.inodeGet hip (show inoInodeId ≤ 124 by decide)]
      exact ⟨rfl, ht.writeInode _⟩

/-! ### Directories -/

section Block

variable {blk blk' : Store}

/-- Two blocks that agree have entries of the same types. -/
theorem Agree.dentryType (h : Agree 4096 blk blk') {i : Nat} (hi : i < 128) :
    dentryType blk' i = dentryType blk i :=
  Agree.rd32 h (by omega)

/-- Two blocks that agree have entries of the same inodes. -/
theorem Agree.dentryInodeId (h : Agree 4096 blk blk') {i : Nat} (hi : i < 128) :
    dentryInodeId blk' i = dentryInodeId blk i :=
  Agree.rd32 h (by omega)

/-- A name is compared with the same bytes, by induction on the bytes left. -/
theorem Agree.strcmpLoop (h : Agree 4096 blk blk') (mem : Store) {left i : Nat}
    (hi : i + left ≤ 4096) (p : Nat) : strcmpLoop blk' mem left i p = strcmpLoop blk mem left i p := by
  induction left generalizing i p with
  | zero => rfl
  | succ left ih =>
      unfold Fs.strcmpLoop
      rw [h i (by omega), ih (by omega)]

/-- A name matches the same entries. -/
theorem Agree.dentryMatches (h : Agree 4096 blk blk') (mem : Store) {i : Nat} (hi : i < 128)
    (name type : Nat) : dentryMatches blk' i mem name type = dentryMatches blk i mem name type := by
  unfold Fs.dentryMatches strcmpZero
  rw [Agree.dentryType h hi, Agree.strcmpLoop h mem (by unfold dentryName; omega)]

/-- The search in a block ends at the same slot, by induction on the slots left. -/
theorem Agree.searchLoop (h : Agree 4096 blk blk') (mem : Store) (fileNum name type : Nat)
    {left i : Nat} (hi : i + left ≤ 128) (find : Nat) :
    searchLoop blk' mem fileNum name type left i find =
      searchLoop blk mem fileNum name type left i find := by
  induction left generalizing i find with
  | zero => rfl
  | succ left ih =>
      unfold Fs.searchLoop
      rw [Agree.dentryType h (by omega), Agree.dentryMatches h mem (by omega),
        Agree.dentryInodeId h (by omega)]
      simp only [ih (show i + 1 + left ≤ 128 by omega)]

/-- The search depends on the test inside its range only. -/
theorem firstDentry_congr {P Q : Nat → Bool} {left i : Nat} (h : ∀ k, k < i + left → P k = Q k) :
    firstDentry P left i = firstDentry Q left i := by
  induction left generalizing i with
  | zero => rfl
  | succ left ih =>
      unfold firstDentry
      rw [h i (by omega), ih fun k hk => h k (by omega)]

end Block

/-- A name is found in the same slot. -/
theorem Alike.searchDentry (h : Alike s₀ b c s s') (searchInode name type : Nat) (mem : Store) :
    Matching (Gives s₀ true true) (searchDentry searchInode name type mem s)
      (searchDentry searchInode name type mem s') := by
  have hino := h.getInode searchInode
  have hip := inodePtr_le searchInode
  unfold Fs.searchDentry
  simp only [hino.inodeGet hip (show inoDirectBlock ≤ 124 by decide)]
  have hblk := hino.readBlock
    (Fs.inodeGet (Fs.getInode searchInode s) (inodePtr searchInode) inoDirectBlock)
  rw [hblk.inodeGet hip (show inoFileNum ≤ 124 by decide),
    Agree.searchLoop (hblk.blk rfl) mem _ _ _ (by omega)]
  refine same_bind fun id => ?_
  exact ⟨rfl, hblk⟩

/-- The same entry is made in the same slot. -/
theorem Alike.createDentry (h : Alike s₀ b c s s') (dirId subdirId name type : Nat) (mem : Store) :
    Matching (Gives s₀ true true) (createDentry dirId subdirId name type mem s)
      (createDentry dirId subdirId name type mem s') := by
  have hip := inodePtr_le dirId
  have hnum := (h.getInode dirId).inodeAdd hip (show inoFileNum ≤ 124 by decide) 1
  obtain ⟨t, ht⟩ : ∃ t, t = if type = iDir then
      Fs.inodeAdd (inodePtr dirId) inoLinksCount 1
        (Fs.inodeAdd (inodePtr dirId) inoFileNum 1 (Fs.getInode dirId s))
      else Fs.inodeAdd (inodePtr dirId) inoFileNum 1 (Fs.getInode dirId s) := ⟨_, rfl⟩
  obtain ⟨t', ht'⟩ : ∃ t', t' = if type = iDir then
      Fs.inodeAdd (inodePtr dirId) inoLinksCount 1
        (Fs.inodeAdd (inodePtr dirId) inoFileNum 1 (Fs.getInode dirId s'))
      else Fs.inodeAdd (inodePtr dirId) inoFileNum 1 (Fs.getInode dirId s') := ⟨_, rfl⟩
  have hcounted : Alike s₀ true c t t' := by
    rw [ht, ht']
    by_cases hdir : type = iDir
    · rw [if_pos hdir, if_pos hdir]
      exact hnum.inodeAdd hip (show inoLinksCount ≤ 124 by decide) 1
    · rw [if_neg hdir, if_neg hdir]
      exact hnum
  unfold Fs.createDentry
  simp only [← ht, ← ht', hcounted.inodeGet hip (show inoDirectBlock ≤ 124 by decide)]
  have hblk := hcounted.readBlock (Fs.inodeGet t (inodePtr dirId) inoDirectBlock)
  have hfirst : firstDentry (fun i => dentryType (Fs.readBlock (Fs.inodeGet t (inodePtr dirId)
      inoDirectBlock) t').blkBuffer i = 0) 128 0 = firstDentry (fun i => dentryType (Fs.readBlock
      (Fs.inodeGet t (inodePtr dirId) inoDirectBlock) t).blkBuffer i = 0) 128 0 :=
    firstDentry_congr fun k hk => by rw [Agree.dentryType (hblk.blk rfl) (by omega)]
  rw [hfirst]
  cases firstDentry _ 128 0 with
  | none => exact Matching.error _ _
  | some i =>
      refine same_bind fun n => ?_
      by_cases hlong : 4096 < dentryName i + n
      · rw [if_pos hlong, if_pos hlong]
        exact Matching.error _ _
      · rw [if_neg hlong, if_neg hlong]
        have hadd := (hblk.editBlk ((((hblk.blk rfl).wr32 (32 * i + 4) subdirId).wr32
          (32 * i) type).blit (dentryName i) mem name n)).writeInode (dirId / 4)
        simp only [addEntry, hadd.inodeGet hip (show inoDirectBlock ≤ 124 by decide)]
        exact ⟨rfl, hadd.writeBlock _⟩

/-- The same entry is cleared. -/
theorem Alike.removeDentry (h : Alike s₀ b c s s') (dirId subdirId : Nat) (ret : Bool) :
    Matching (Gives s₀ true true) (removeDentry dirId subdirId ret s)
      (removeDentry dirId subdirId ret s') := by
  have hip := inodePtr_le dirId
  obtain ⟨t, ht⟩ : ∃ t, t = Fs.writeInode (dirId / 4) (Fs.inodeAdd (inodePtr dirId) inoLinksCount
      (2 ^ 32 - 1) (Fs.inodeAdd (inodePtr dirId) inoFileNum (2 ^ 32 - 1) (Fs.getInode dirId s))) :=
    ⟨_, rfl⟩
  obtain ⟨t', ht'⟩ : ∃ t', t' = Fs.writeInode (dirId / 4) (Fs.inodeAdd (inodePtr dirId) inoLinksCount
      (2 ^ 32 - 1) (Fs.inodeAdd (inodePtr dirId) inoFileNum (2 ^ 32 - 1) (Fs.getInode dirId s'))) :=
    ⟨_, rfl⟩
  have hcounted : Alike s₀ true c t t' := by
    rw [ht, ht']
    exact (((h.getInode dirId).inodeAdd hip (show inoFileNum ≤ 124 by decide) _).inodeAdd hip
      (show inoLinksCount ≤ 124 by decide) _).writeInode _
  have hblk := hcounted.readBlock (Fs.inodeGet t (inodePtr dirId) inoDirectBlock)
  have hfirst : firstDentry (fun i => dentryInodeId (Fs.readBlock (Fs.inodeGet t (inodePtr dirId)
      inoDirectBlock) t').blkBuffer i = subdirId) 128 0 = firstDentry (fun i => dentryInodeId
      (Fs.readBlock (Fs.inodeGet t (inodePtr dirId) inoDirectBlock) t).blkBuffer i = subdirId) 128 0 :=
    firstDentry_congr fun k hk => by rw [Agree.dentryInodeId (hblk.blk rfl) (by omega)]
  unfold Fs.removeDentry
  simp only [← ht, ← ht', hcounted.inodeGet hip (show inoDirectBlock ≤ 124 by decide)]
  rw [hfirst]
  cases firstDentry _ 128 0 with
  | none => exact Matching.error _ _
  | some i =>
      have hdrop := hblk.editBlk (((hblk.blk rfl).wr32 (32 * i) 0).blit (dentryName i) zeros 0 dName)
      simp only [dropEntry, hdrop.inodeGet hip (show inoDirectBlock ≤ 124 by decide)]
      exact ⟨rfl, hdrop.writeBlock _⟩

/-- The same entry is removed, and the same counters are lowered. -/
theorem Alike.deleteDentry (h : Alike s₀ b c s s') (dirId subdirId type : Nat) :
    Matching (Gives s₀ true false) (deleteDentry dirId subdirId type s)
      (deleteDentry dirId subdirId type s') := by
  have hip := inodePtr_le subdirId
  have hino := h.getInode subdirId
  have hremove : ∀ ret, Matching (Gives s₀ true false)
      (Fs.removeDentry dirId subdirId ret (Fs.getInode subdirId s))
      (Fs.removeDentry dirId subdirId ret (Fs.getInode subdirId s')) := fun ret =>
    (hino.removeDentry dirId subdirId ret).mono fun _ _ hr => ⟨hr.1, hr.2.forgetBlk⟩
  unfold Fs.deleteDentry
  simp only [hino.inodeGet hip (show inoFileNum ≤ 124 by decide),
    hino.inodeGet hip (show inoLinksCount ≤ 124 by decide)]
  split_ifs
  · exact hremove _
  · exact ⟨rfl, hino.forgetBlk⟩
  · exact hremove _

end Functions

end Fs
