import OslabRiscv.Fs.CallSpec

/-!
# Formatting

`do_mkfs` clears the two maps and the inode area, which lie side by side, and
builds the root directory out of inode 0 and block 0.  Whatever was on the disk
before, the result is a volume, and its only inode is the root.
-/

namespace Fs

open ByteStore Outcome

/-! ## Clearing the areas -/

/-- The sectors that are filled are zero. -/
theorem fillSectors_disk (sector num : Nat) (s : State)
    (hz : ∀ k, k < 512 → s.sctBuffer k = 0) :
    (fillSectors sector num s).disk = blit s.disk (512 * sector) zeros 0 (512 * num) := by
  induction num generalizing sector s with
  | zero =>
      rw [Nat.mul_zero, blit_zero]
      rfl
  | succ num ih =>
      have hone : (sdWrite .mkfs s.sctBuffer 1 sector s).disk =
          blit s.disk (512 * sector) zeros 0 512 :=
        blit_congr fun k hk => by
          rw [Nat.zero_add]
          exact hz k hk
      unfold fillSectors
      rw [ih (sector + 1) (sdWrite .mkfs s.sctBuffer 1 sector s) hz, hone, Nat.mul_add,
        blit_zeros_append, Nat.mul_add, Nat.add_comm]

/-- The sector buffer stays. -/
theorem fillSectors_sctBuffer (sector num : Nat) (s : State) :
    (fillSectors sector num s).sctBuffer = s.sctBuffer := by
  induction num generalizing sector s with
  | zero => rfl
  | succ num ih =>
      unfold fillSectors
      rw [ih]
      rfl

/-- The maps and inodes are filled, and nothing else. -/
theorem Extends.fillSectors {s t : State} (sector num : Nat) (hlo : 16385 ≤ sector)
    (hhi : sector + num ≤ 17154) (h : Extends s t) : Extends s (fillSectors sector num t) := by
  induction num generalizing sector t with
  | zero => exact h
  | succ num ih =>
      unfold Fs.fillSectors
      refine ih (sector + 1) (by omega) (by omega) (Extends.sdWrite ?_ h)
      simp only [SdWrite.InArea]
      omega

/-- The cleared part of the disk: both maps and all inodes. -/
theorem clearArea_disk (s : State) :
    (clearArea s).disk = blit s.disk 8389120 zeros 0 393728 := by
  obtain ⟨t, ht⟩ : ∃ t : State, t = { s with sctBuffer := blit s.sctBuffer 0 zeros 0 512 } :=
    ⟨_, rfl⟩
  have hz : ∀ k, k < 512 → t.sctBuffer k = 0 := by
    intro k hk
    rw [ht]
    exact blit_apply_of_mem _ _ (by omega) (by omega)
  have hd : t.disk = s.disk := by rw [ht]
  have hsplit : blit s.disk 8389120 zeros 0 393728 = blit (blit (blit s.disk 8389120 zeros 0 512)
      8389632 zeros 0 131072) 8520704 zeros 0 262144 := by
    have hmaps := blit_zeros_append s.disk 8389120 512 131072
    have hall := blit_zeros_append s.disk 8389120 131584 262144
    rw [← hmaps] at hall
    exact hall.symm
  unfold clearArea
  simp only
  rw [← ht, fillSectors_disk _ _ _ (by rw [fillSectors_sctBuffer, fillSectors_sctBuffer]; exact hz),
    fillSectors_disk _ _ _ (by rw [fillSectors_sctBuffer]; exact hz), fillSectors_disk _ _ _ hz, hd,
    hsplit]
  rfl

/-- Clearing stays within the areas of the maps and inodes. -/
theorem Extends.clearArea {s t : State} (h : Extends s t) : Extends s (clearArea t) := by
  unfold Fs.clearArea
  exact (((h.setSct _).fillSectors _ _ (by decide) (by decide)).fillSectors _ _ (by decide)
    (by decide)).fillSectors _ _ (by decide) (by decide)

section Cleared

variable {s : State}

/-- No inode is marked. -/
theorem imap_clearArea {j : Nat} (hj : j < 512) : imap (clearArea s).disk j = 0 := by
  unfold imap
  rw [clearArea_disk]
  exact blit_apply_of_mem _ _ (by omega) (by omega)

/-- No block is marked. -/
theorem bmap_clearArea {c : Nat} (hc : c < 131072) : bmap (clearArea s).disk c = 0 := by
  unfold bmap
  rw [clearArea_disk]
  exact blit_apply_of_mem _ _ (by omega) (by omega)

/-- All fields are zero. -/
theorem ino_clearArea {j f : Nat} (hj : j < 512) (hf : f + 4 ≤ 128) :
    ino (clearArea s).disk j f = 0 := by
  refine rd32_eq_zero fun k hk => ?_
  rw [clearArea_disk]
  exact blit_apply_of_mem _ _ (by simp only [inoAddr]; omega) (by simp only [inoAddr]; omega)

end Cleared

/-! ## The root directory -/

/-- The disk `format` leaves behind. -/
def formatted (s : State) : Store :=
  setBlk (initIno (setBmap (setImap (clearArea s).disk 0 1) 0 1) 0 0 iDir oRdwr) 0
    (newDirBlock 0 0)

section Formatted

variable {s : State}

/-- The root is the only inode. -/
theorem imap_formatted {j : Nat} (hj : j < 512) :
    imap (formatted s) j = if j = 0 then 1 else 0 := by
  unfold formatted
  rw [imap_setBlk hj, imap_initIno hj, imap_setBmap hj, imap_setImap, imap_clearArea hj]

/-- Its block is the only one. -/
theorem bmap_formatted {c : Nat} (hc : c < 131072) :
    bmap (formatted s) c = if c = 0 then 1 else 0 := by
  unfold formatted
  rw [bmap_setBlk hc, bmap_initIno hc, bmap_setBmap, bmap_setImap (by decide), bmap_clearArea hc]

/-- The fields of the root. -/
theorem ino_formatted_root {f : Nat} (hf : f + 4 ≤ 128) :
    ino (formatted s) 0 f =
      ino (initIno (setBmap (setImap (clearArea s).disk 0 1) 0 1) 0 0 iDir oRdwr) 0 f := by
  unfold formatted
  rw [ino_setBlk (by decide) hf]

theorem ino_formatted_other {j f : Nat} (hj : j < 512) (hj0 : j ≠ 0) (hf : f + 4 ≤ 128) :
    ino (formatted s) j f = 0 := by
  unfold formatted
  rw [ino_setBlk hj hf, ino_initIno_of_ne hj0 hf, ino_setBmap (by decide), ino_setImap (by decide),
    ino_clearArea hj hf]

/-- The block of the root. -/
theorem ino_formatted_directBlock : ino (formatted s) 0 inoDirectBlock = 0 := by
  rw [ino_formatted_root (by decide), ino_initIno_directBlock (by decide)]

/-- The entries of the root. -/
theorem dirBlock_formatted {x : Nat} (hx : x < 4096) :
    dirBlock (formatted s) 0 x = newDirBlock 0 0 x := by
  unfold dirBlock
  rw [ino_formatted_directBlock]
  exact block_setBlk_self hx

/-- The root is a directory. -/
theorem formatted_root : IsDir (formatted s) 0 := by
  refine ⟨⟨by decide, ?_⟩, ?_⟩
  · rw [imap_formatted (by decide), if_pos rfl]
    decide
  · rw [ino_formatted_root (by decide), ino_initIno_type (by decide)]

/-- The root is the only inode in use. -/
theorem formatted_used {j : Nat} (hj : InodeUsed (formatted s) j) : j = 0 := by
  by_contra hne
  have := hj.2
  rw [imap_formatted hj.1, if_neg hne] at this
  exact this rfl

/-- No pointer is set: the root's block has number 0. -/
theorem ino_formatted_ptr {j slot : Nat} (hj : j < 512) (hs : slot < 19) :
    ino (formatted s) j (32 + 4 * slot) = 0 := by
  by_cases hj0 : j = 0
  · subst hj0
    by_cases hs0 : slot = 0
    · rw [hs0]
      exact ino_formatted_directBlock
    · rw [ino_formatted_root (by omega), ino_initIno_ptr (by omega), ino_setBmap (by decide),
        ino_setImap (by decide), ino_clearArea (by decide) (by omega)]
  · exact ino_formatted_other hj hj0 (by omega)

/-- No position but that of the root's block has one, and this is block zero. -/
theorem ref_formatted {q : Pos} (hq : q.Live (formatted s)) : ref (formatted s) q = 0 := by
  obtain ⟨i, slot, path⟩ := q
  have hi : i < 512 := hq.2.1
  have hs : slot < 19 := hq.1.1
  induction path with
  | nil => exact ino_formatted_ptr hi hs
  | cons o path ih => rw [ref_cons, if_pos (ih hq.tail)]

/-- **Formatting makes a volume.** -/
theorem formatted_volume : Volume (formatted s) where
  owned := by
    refine ⟨?_, fun q hq hne => absurd (ref_formatted hq) hne,
      fun q r hq _ hne _ => absurd (ref_formatted hq) hne⟩
    rw [bmap_formatted (by decide), if_pos rfl]
    decide
  low c hc := by
    rw [bmap_formatted hc]
    by_cases h0 : c = 0
    · rw [if_pos h0]
      exact Or.inr ⟨rfl, by omega⟩
    · rw [if_neg h0]
      exact Or.inl rfl
  root := formatted_root
  rootBlock := ino_formatted_directBlock
  dirBlock_ne j hj hne := absurd (formatted_used hj.1) hne
  dirOnly j hj slot _ hs := ino_formatted_ptr hj.1.1 hs
  fileBlock_ne j hj := by
    rw [formatted_used hj.1] at hj
    exact absurd formatted_root (not_isDir_of_isFile hj)
  id j hj := by
    rw [formatted_used hj.1] at hj
    exact absurd formatted_root (not_isDir_of_isFile hj)
  kind j hj := by
    rw [formatted_used hj]
    exact Or.inl formatted_root
  free j hj hz := by
    refine ⟨?_, fun slot hs => ino_formatted_ptr hj hs⟩
    refine ino_formatted_other hj ?_ (by decide)
    intro h0
    rw [imap_formatted hj, if_pos h0] at hz
    exact absurd hz (by decide)
  entries j hj k hk := by
    rw [formatted_used hj.1, dentryInodeId_congr (fun x hx => dirBlock_formatted hx) hk,
      newDirBlock_id (by decide) (by decide)]
    split_ifs <;> decide

end Formatted

/-! ## The call -/

theorem firstZero_zero {m : Store} {n : Nat} (h : m 0 = 0) (hn : 0 < n) :
    firstZero m 0 n = some 0 := by
  cases n with
  | zero => omega
  | succ n => simp [firstZero, h]

/-- A formatted disk with the root as current directory. -/
structure Formatted (s s' : State) : Prop where
  disk : s'.disk = formatted s
  cwd : currentId s' = 0
  ext : ∃ c, Extends { s with currentInode := c } s'

/-- `format` returns, and leaves a formatted disk. -/
theorem format_spec (s : State) : ∃ s', format s = .ok s' ∧ Formatted s s' := by
  obtain ⟨t, ht⟩ : ∃ t, t = clearArea s := ⟨_, rfl⟩
  have hinode : allocInode t = .ok (0, syncInodeMap { getInodeMap t with
      inodeMap := wr8 (getInodeMap t).inodeMap 0 1 }) := by
    unfold allocInode
    simp only
    rw [firstZero_zero (by rw [getInodeMap_apply (by decide), ht, imap_clearArea (by decide)])
      (by decide)]
  obtain ⟨u, hu⟩ : ∃ u, u = syncInodeMap { getInodeMap t with
      inodeMap := wr8 (getInodeMap t).inodeMap 0 1 } := ⟨_, rfl⟩
  have hdu : u.disk = setImap t.disk 0 1 := by
    rw [hu]
    exact syncInodeMap_disk (by decide) 1 t
  have hblock : allocBlock u = .ok (0, syncBlockMap { getBlockMap u with
      blockMap := wr8 (getBlockMap u).blockMap 0 1 }) := by
    unfold allocBlock
    simp only
    rw [firstZero_zero (by
      rw [getBlockMap_apply (by decide), hdu, bmap_setImap (by decide), ht,
        bmap_clearArea (by decide)]) (by decide)]
  obtain ⟨v, hv⟩ : ∃ v, v = syncBlockMap { getBlockMap u with
      blockMap := wr8 (getBlockMap u).blockMap 0 1 } := ⟨_, rfl⟩
  have hdv : v.disk = setBmap (setImap t.disk 0 1) 0 1 := by
    rw [hv, ← hdu]
    exact syncBlockMap_disk (by decide) 1 u
  obtain ⟨w, hw⟩ : ∃ w, w = createInode 0 0 iDir oRdwr v := ⟨_, rfl⟩
  have hdw : (writeInode (0 / 4) w).disk = initIno v.disk 0 0 iDir oRdwr := by
    rw [hw]
    exact writeInode_createInode (by decide) 0 iDir oRdwr v
  obtain ⟨x, hx⟩ : ∃ x, x = writeInode (0 / 4) (updateInode (inodePtr 0) w) := ⟨_, rfl⟩
  have hdx : x.disk = initIno v.disk 0 0 iDir oRdwr := by
    rw [hx, ← hdw]
    rfl
  have hformat : format s = .ok (createDirBlock 0 0 0 x) := by
    unfold format
    rw [← ht, hinode, hx, hw, hv, hu]
    change (do
      let r ← allocBlock _
      _ : Except Halt State) = _
    rw [← hu, hblock]
    rfl
  refine ⟨_, hformat, ?_, ?_, ?_⟩
  · rw [createDirBlock_disk (by decide), hdx, hdv, ht]
    rfl
  · -- `current_inode` is the copy made of the new inode
    have hcur : currentId (createDirBlock 0 0 0 x) =
        rd32 (blit w.currentInode 0 w.sctBuffer (inodePtr 0) 128) inoInodeId := by
      rw [hx]
      rfl
    have hcopy := rd32_blit_add w.currentInode w.sctBuffer (a := 0) (b := inodePtr 0) (n := 128)
      (k := inoInodeId) (by decide)
    rw [Nat.zero_add] at hcopy
    rw [hcur, hcopy]
    have hget := inodeGet_eq 0 w (show inoInodeId + 4 ≤ 128 by decide)
    have hflush : flushed 0 w = initIno v.disk 0 0 iDir oRdwr := by
      rw [← hdw]
      exact (writeInode_disk (by decide) w).symm
    rw [hflush, ino_initIno_inodeId (by decide)] at hget
    exact hget
  · refine ⟨blit w.currentInode 0 w.sctBuffer (inodePtr 0) 128, ?_⟩
    have hw' : Extends s w := by
      rw [hw, hv, hu, ht]
      exact ((((Extends.refl s).clearArea.getInodeMap.setInodeMap _).syncInodeMap.getBlockMap.setBlockMap
        _).syncBlockMap).createInode (by decide) 0 iDir oRdwr
    have hup : Extends { s with currentInode := blit w.currentInode 0 w.sctBuffer (inodePtr 0) 128 }
        (updateInode (inodePtr 0) w) := ⟨hw'.fdesc, rfl, hw'.writes⟩
    rw [hx]
    exact (hup.writeInode (by decide)).createDirBlock (by decide) 0 0

/-- **`do_mkfs`** formats, unless there is a file system and the answer is no. -/
theorem doMkfs_spec (reset : Bool) (s : State) :
    ∃ s', doMkfs reset s = .ok (0, s') ∧
      ((reset = false ∧ s'.disk = s.disk ∧ Extends s s') ∨
        ∃ t, Extends s t ∧ Formatted t s') := by
  have hread : Extends s (readSuperblock s) := ⟨rfl, rfl, [], by simp [readSuperblock], by simp⟩
  unfold doMkfs
  by_cases hmagic : rd32 (readSuperblock s).superblock 0 = superblockMagic
  · simp only [if_pos hmagic]
    cases reset with
    | true =>
        obtain ⟨s', hs', hf⟩ := format_spec (readSuperblock s)
        refine ⟨s', ?_, Or.inr ⟨_, hread, hf⟩⟩
        rw [if_pos rfl, hs']
        rfl
    | false => exact ⟨_, rfl, Or.inl ⟨rfl, rfl, hread⟩⟩
  · simp only [if_neg hmagic]
    obtain ⟨t, ht⟩ : ∃ t, t = writeSuperblock { readSuperblock s with
      superblock := storeWords (readSuperblock s).superblock 0 superblockWords } := ⟨_, rfl⟩
    have hext : Extends s t := by
      rw [ht]
      exact Extends.sdWrite (by simp [SdWrite.InArea, fsStart]) ⟨rfl, rfl, hread.writes⟩
    obtain ⟨s', hs', hf⟩ := format_spec t
    refine ⟨s', ?_, Or.inr ⟨t, hext, hf⟩⟩
    rw [← ht, hs']
    rfl

end Fs
