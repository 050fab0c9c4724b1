import OslabRiscv.Fs.Accounting
import OslabRiscv.Fs.Buffers

/-!
# What survives a restart

Every call leaves on the disk all that later calls need, descriptors and current directory apart.
So a restart is no more than closing all descriptors and going to the root: after it `do_mkfs` finds
the superblock, the user answers that nothing shall be reset, and every later call answers as it
would have without the restart.
-/

namespace Fs

open ByteStore Outcome

section Calls

variable {s₀ s s' : State} {b c : Bool} {ip : Nat}

/-! ## Reading and writing -/

/-- The same descriptor in both keeps the likeness. -/
theorem Alike.setFdesc (h : Alike s₀ b c s s') (fd : Nat) (f : Fdesc) :
    Alike s₀ b c (setFdesc fd f s) (setFdesc fd f s') := by
  refine ⟨h.disk, ?_, h.cwd, h.spare, h.sct, h.blk, h.logged⟩
  change (fun k => if k = fd then f else s'.fdescArray k) = _
  rw [h.fdesc]
  rfl

/-- The loop of a read takes the same bytes from both disks, by induction on its rounds. -/
theorem Alike.freadLoop (h : Alike s₀ true c s s') (hip : ip ≤ 384) (fd rounds length bytes : Nat)
    (buff : Store) : Matching (Leaves s₀ true false) (freadLoop ip fd rounds length bytes buff s)
      (freadLoop ip fd rounds length bytes buff s') := by
  induction rounds generalizing c length bytes buff s s' with
  | zero => exact ⟨rfl, rfl, h.forgetBlk⟩
  | succ rounds ih =>
      unfold Fs.freadLoop
      by_cases hlen : length = 0
      · rw [if_pos hlen, if_pos hlen]
        exact ⟨rfl, rfl, h.forgetBlk⟩
      · rw [if_neg hlen, if_neg hlen]
        simp only [h.fdesc]
        refine gives_bind (h.byteLocate hip (s.fdescArray fd).rdOffset) fun loc t t' ht => ?_
        cases loc with
        | none => exact ⟨rfl, rfl, ht⟩
        | some l =>
            obtain ⟨blockId, blockOffset⟩ := l
            have hread := ht.readBlock blockId
            simp only [hread.fdesc]
            rw [(hread.blk rfl).moved buff bytes blockOffset (by omega)]
            exact ih (hread.setFdesc fd _) _ _ _

/-- A read answers the same. -/
theorem Alike.doFread (h : Alike s₀ b c s s') (fd : Int) (buff : Store) (length : Int) :
    Matching (Leaves s₀ false false) (doFread fd buff length s) (doFread fd buff length s') := by
  unfold Fs.doFread
  refine same_bind fun fd => ?_
  have hino := h.getInode (s.fdescArray fd).inodeId
  have hip := inodePtr_le (s.fdescArray fd).inodeId
  simp only [h.fdesc, hino.inodeGet hip (show inoSize ≤ 124 by decide)]
  split_ifs with hmode hfree hsize
  · exact ⟨rfl, rfl, h.forget⟩
  · exact ⟨rfl, rfl, h.forget⟩
  · exact ⟨rfl, rfl, hino.forget⟩
  · refine leaves_bind (hino.freadLoop hip fd _ _ _ buff) fun done buff' t t' ht => ?_
    cases done with
    | none => exact ⟨rfl, rfl, ht.forget⟩
    | some bytes =>
        simp only [ht.fdesc, ht.inodeGet hip (show inoSize ≤ 124 by decide)]
        have hset := ht.inodeSet (inodePtr (s.fdescArray fd).inodeId) inoSize
          (max (Fs.inodeGet t (inodePtr (s.fdescArray fd).inodeId) inoSize) (t.fdescArray fd).rdOffset)
        rw [hset.inodeGet hip (show inoInodeId ≤ 124 by decide)]
        exact ⟨rfl, rfl, (hset.writeInode _).forget⟩

/-- The loop of a write puts the same bytes on both disks, by induction on its rounds. -/
theorem Alike.fwriteLoop (h : Alike s₀ true c s s') (hip : ip ≤ 384) (fd : Nat) (buff : Store)
    (rounds length bytes : Nat) :
    Matching (Gives s₀ true false) (fwriteLoop ip fd buff rounds length bytes s)
      (fwriteLoop ip fd buff rounds length bytes s') := by
  induction rounds generalizing c length bytes s s' with
  | zero => exact ⟨rfl, h.forgetBlk⟩
  | succ rounds ih =>
      unfold Fs.fwriteLoop
      by_cases hlen : length = 0
      · rw [if_pos hlen, if_pos hlen]
        exact ⟨rfl, h.forgetBlk⟩
      · rw [if_neg hlen, if_neg hlen]
        simp only [h.fdesc]
        refine gives_bind (h.byteLocate hip (s.fdescArray fd).wrOffset) fun loc t t' ht => ?_
        cases loc with
        | none => exact ⟨rfl, ht⟩
        | some l =>
            obtain ⟨blockId, blockOffset⟩ := l
            have hread := ht.readBlock blockId
            have hwrite := (hread.editBlk ((hread.blk rfl).blit blockOffset buff bytes
              (min length (4096 - blockOffset)))).writeBlock blockId
            simp only [hwrite.fdesc]
            exact ih (hwrite.setFdesc fd _) _ _

/-- A write answers the same. -/
theorem Alike.doFwrite (h : Alike s₀ b c s s') (fd : Int) (buff : Store) (length : Int) :
    Matching (Gives s₀ false false) (doFwrite fd buff length s) (doFwrite fd buff length s') := by
  unfold Fs.doFwrite
  refine same_bind fun fd => ?_
  simp only [h.fdesc]
  split_ifs with hmode hfree hlong
  · exact ⟨rfl, h.forget⟩
  · exact ⟨rfl, h.forget⟩
  · exact ⟨rfl, h.forget⟩
  · have hino := h.getInode (s.fdescArray fd).inodeId
    have hip := inodePtr_le (s.fdescArray fd).inodeId
    refine gives_bind (hino.fwriteLoop hip fd buff _ _ _) fun done t t' ht => ?_
    cases done with
    | none => exact ⟨rfl, ht.forget⟩
    | some bytes =>
        simp only [ht.fdesc, ht.inodeGet hip (show inoSize ≤ 124 by decide)]
        have hset := ht.inodeSet (inodePtr (s.fdescArray fd).inodeId) inoSize
          (max (Fs.inodeGet t (inodePtr (s.fdescArray fd).inodeId) inoSize) (t.fdescArray fd).wrOffset)
        rw [hset.inodeGet hip (show inoInodeId ≤ 124 by decide)]
        exact ⟨rfl, (hset.writeInode _).forget⟩

/-- Closing a descriptor answers the same. -/
theorem Alike.doFclose (h : Alike s₀ b c s s') (fd : Int) :
    Matching (Gives s₀ false false) (doFclose fd s) (doFclose fd s') := by
  unfold Fs.doFclose
  refine same_bind fun fd => ?_
  exact ⟨rfl, (h.setFdesc fd _).forget⟩

/-- A seek behind the end allocates the same block. -/
theorem Alike.seekExtend (h : Alike s₀ true c s s') (hip : ip ≤ 384) (size target : Nat) :
    Matching (Alike s₀ true false) (seekExtend ip size target s) (seekExtend ip size target s') := by
  unfold Fs.seekExtend
  split_ifs
  · refine gives_bind (h.byteLocate hip target) fun loc t t' ht => ?_
    exact ht.inodeSet _ _ _
  · exact h.forgetBlk

/-- A seek answers the same. -/
theorem Alike.doLseek (h : Alike s₀ b c s s') (fd offset : Int) (whence junk : Nat) :
    Matching (Gives s₀ false false) (doLseek fd offset whence junk s)
      (doLseek fd offset whence junk s') := by
  unfold Fs.doLseek
  refine same_bind fun fd => ?_
  have hino := h.getInode (s.fdescArray fd).inodeId
  have hip := inodePtr_le (s.fdescArray fd).inodeId
  simp only [h.fdesc, hino.inodeGet hip (show inoSize ≤ 124 by decide)]
  split_ifs with hfree hread
  · exact ⟨rfl, h.forget⟩
  · exact ⟨rfl, hino.forget⟩
  · refine ((hino.setFdesc fd _).seekExtend hip _ _).bind fun t t' ht => ?_
    exact ⟨rfl, ((ht.setFdesc fd _).writeInode _).forget⟩
  · exact ⟨rfl, ((hino.setFdesc fd _).writeInode _).forget⟩
  · refine ((hino.setFdesc fd _).seekExtend hip _ _).bind fun t t' ht => ?_
    exact ⟨rfl, ((ht.setFdesc fd _).writeInode _).forget⟩
  · exact ⟨rfl, ((hino.setFdesc fd _).writeInode _).forget⟩

/-! ## Formatting -/

/-- The same sectors are filled with zeros. -/
theorem Alike.fillSectors (h : Alike s₀ true c s s') (sector num : Nat) :
    Alike s₀ true c (fillSectors sector num s) (fillSectors sector num s') := by
  induction num generalizing sector s s' with
  | zero => exact h
  | succ num ih => exact ih (h.sdWrite (h.sct rfl) (fun _ => by simp) sector) (sector + 1)

/-- Formatting does the same to both disks. -/
theorem Alike.format (h : Alike s₀ b c s s') :
    Matching (Alike s₀ true true) (format s) (format s') := by
  have hclear : Alike s₀ true c (clearArea s) (clearArea s') :=
    (((h.editSct fun _ => agree_blit s.sctBuffer s'.sctBuffer zeros 0 512).fillSectors
      _ _).fillSectors _ _).fillSectors _ _
  unfold Fs.format
  with_reducible refine gives_bind hclear.allocInode fun rootInodeId t t' ht => ?_
  with_reducible refine gives_bind ht.allocBlock fun rootDirBlock u u' hu => ?_
  exact (((hu.createInode rootInodeId rootDirBlock iDir oRdwr).updateInode
    (inodePtr_le rootInodeId)).writeInode (rootInodeId / 4)).createDirBlock _ _ _

/-- Where one disk is formatted, so is the other. -/
theorem Alike.format_ok (h : Alike s₀ b c s s') {t : State} (ht : Fs.format s = .ok t) :
    ∃ t', Fs.format s' = .ok t' ∧ Alike s₀ true true t t' := by
  with_reducible exact h.format.exists_ok ht

/-- Words stored at the same place keep two buffers in agreement. -/
theorem Agree.storeWords {n : Nat} {m m' : Store} (h : Agree n m m') (a : Nat) (vs : List Nat) :
    Agree n (storeWords m a vs) (storeWords m' a vs) := by
  induction vs generalizing a m m' with
  | nil => exact h
  | cons v vs ih => exact ih (Agree.wr32 h a v) (a + 4)

/-- The superblock is read. -/
theorem Alike.readSuperblock (h : Alike s₀ b c s s') :
    Alike s₀ b c (readSuperblock s) (readSuperblock s') ∧
      Agree 512 (readSuperblock s).superblock (readSuperblock s').superblock :=
  ⟨⟨h.disk, h.fdesc, h.cwd, h.spare, h.sct, h.blk, h.logged⟩,
    h.sdRead s.superblock s'.superblock 1 fsStart⟩

/-- The magic number that `do_mkfs` looks at is the one on the disk. -/
theorem readSuperblock_magic (s : State) :
    rd32 (readSuperblock s).superblock 0 = superblockMagic ↔ HasMagic s.disk := by
  have hread : rd32 (readSuperblock s).superblock 0 = rd32 s.disk (512 * fsStart) :=
    rd32_blit_add s.superblock s.disk (by decide : 0 + 4 ≤ 512 * 1)
  rw [hread]
  exact Iff.rfl

/-- The same superblock is written, on a disk that has none yet. -/
theorem Alike.writeSuperblock (h : Alike s₀ b c s s') (hsuper : Agree 512 s.superblock s'.superblock)
    (hmagic : ¬HasMagic s₀.disk) : Alike s₀ b c (writeSuperblock s) (writeSuperblock s') :=
  h.sdWrite hsuper (fun h => absurd h hmagic) fsStart

/-- `do_mkfs` answers the same: both disks have a superblock or neither does. -/
theorem Alike.doMkfs (h : Alike s b c s s') (reset : Bool) :
    Matching (Gives s false false) (doMkfs reset s) (doMkfs reset s') := by
  obtain ⟨hs, hsuper⟩ := h.readSuperblock
  have hword : rd32 (Fs.readSuperblock s').superblock 0 = rd32 (Fs.readSuperblock s).superblock 0 :=
    hsuper.rd32 (by omega)
  unfold Fs.doMkfs
  simp only [hword]
  split_ifs with hmagic hreset
  · with_reducible refine hs.format.bind ?_
    intro t t' ht
    exact ⟨rfl, ht.forget⟩
  · exact ⟨rfl, hs.forget⟩
  · have hset : Alike s b c
        { Fs.readSuperblock s with
          superblock := storeWords (Fs.readSuperblock s).superblock 0 superblockWords }
        { Fs.readSuperblock s' with
          superblock := storeWords (Fs.readSuperblock s').superblock 0 superblockWords } :=
      ⟨hs.disk, hs.fdesc, hs.cwd, hs.spare, hs.sct, hs.blk, hs.logged⟩
    have hwritten := hset.writeSuperblock (Agree.storeWords hsuper 0 superblockWords)
      fun h => hmagic ((readSuperblock_magic s).mpr h)
    with_reducible refine hwritten.format.bind ?_
    intro t t' ht
    exact ⟨rfl, ht.forget⟩

/-! ## Paths -/

/-- A path leads through the same directories, by induction on the rounds of its loop. -/
theorem Alike.walkLoop (h : Alike s₀ b c s s') (fuel dirId dir subdir : Nat) (mem : Store) :
    Matching (Leaves s₀ false false) (walkLoop fuel dirId dir subdir mem s)
      (walkLoop fuel dirId dir subdir mem s') := by
  induction fuel generalizing b c dirId dir subdir mem s s' with
  | zero => exact Matching.error _ _
  | succ fuel ih =>
      unfold Fs.walkLoop
      split_ifs with hmore
      · refine gives_bind (h.searchDentry dirId dir iDir mem) fun id t t' ht => ?_
        simp only
        split_ifs with hid
        · exact ⟨rfl, rfl, ht.forget⟩
        · refine same_bind ?_
          rintro ⟨dir', mem'⟩
          exact ih ht _ _ _ _
      · exact ⟨rfl, rfl, h.forget⟩

/-- A path leads to the same directory. -/
theorem Alike.walk (h : Alike s₀ b c s s') (path : Nat) (mem : Store) :
    Matching (Leaves s₀ false false) (walk path mem s) (walk path mem s') := by
  unfold Fs.walk
  simp only [h.cwd]
  refine same_bind ?_
  rintro ⟨dir, mem'⟩
  simp only
  split_ifs with hdir
  · exact ⟨rfl, rfl, h.forget⟩
  · exact h.walkLoop _ _ _ _ _

/-- The loop of `do_cd` goes through the same directories, by induction on its rounds. -/
theorem Alike.cdLoop (h : Alike s₀ b c s s') (fuel dirId subdir : Nat) (mem : Store) :
    Matching (Leaves s₀ false false) (cdLoop fuel dirId subdir mem s)
      (cdLoop fuel dirId subdir mem s') := by
  induction fuel generalizing b c dirId subdir mem s s' with
  | zero => exact Matching.error _ _
  | succ fuel ih =>
      unfold Fs.cdLoop
      refine same_bind ?_
      rintro ⟨dir, mem'⟩
      refine gives_bind (h.searchDentry dirId dir iDir mem') fun id t t' ht => ?_
      simp only
      split_ifs with hid hmore
      · exact ⟨rfl, rfl, ht.forget⟩
      · exact ih ht _ _ _
      · exact ⟨rfl, rfl, ht.forget⟩

/-- `do_cd` goes to the same directory. -/
theorem Alike.doCd (h : Alike s₀ b c s s') (path : Nat) (mem : Store) :
    Matching (Leaves s₀ false false) (doCd path mem s) (doCd path mem s') := by
  unfold Fs.doCd
  rw [h.cwd]
  refine leaves_bind (h.cdLoop _ _ _ _) fun target mem' t t' ht => ?_
  cases target with
  | none => exact ⟨rfl, rfl, ht⟩
  | some dirId =>
      exact ⟨rfl, rfl, ((ht.getInode dirId).updateInode (inodePtr_le dirId)).forget⟩

/-- The same entries are listed, by induction on the slots left. -/
theorem Alike.lsLoop (h : Alike s₀ b true s s') {left i : Nat} (hi : i + left ≤ 128)
    (dentryNum : Nat) : Alike s₀ false true (lsLoop left i dentryNum s) (lsLoop left i dentryNum s') := by
  induction left generalizing b i dentryNum s s' with
  | zero => exact ⟨h.disk, h.fdesc, h.cwd, h.spare, fun hb => (nomatch hb), h.blk, h.logged⟩
  | succ left ih =>
      unfold Fs.lsLoop
      rw [Agree.dentryType (h.blk rfl) (by omega), Agree.dentryInodeId (h.blk rfl) (by omega)]
      split_ifs
      · exact ⟨h.disk, h.fdesc, h.cwd, h.spare, fun hb => (nomatch hb), h.blk, h.logged⟩
      · exact ih (h.getInode _) (by omega) _
      · exact ih h (by omega) _

/-- The entries of a directory are read from the same blocks. -/
theorem Alike.listDir (h : Alike s₀ b c s s') (dirId : Nat) (all : Bool) :
    Alike s₀ false false (listDir dirId all s) (listDir dirId all s') := by
  have hino := h.getInode dirId
  have hip := inodePtr_le dirId
  unfold Fs.listDir
  simp only [hino.inodeGet hip (show inoDirectBlock ≤ 124 by decide)]
  have hblk := hino.readBlock
    (Fs.inodeGet (Fs.getInode dirId s) (inodePtr dirId) inoDirectBlock)
  rw [hblk.inodeGet hip (show inoFileNum ≤ 124 by decide)]
  split_ifs
  · exact (hblk.lsLoop (by omega) _).forget
  · exact hblk.forget

/-- `do_ls` answers the same. -/
theorem Alike.doLs (h : Alike s₀ b c s s') (path option : Nat) (mem : Store) :
    Matching (Leaves s₀ false false) (doLs path option mem s) (doLs path option mem s') := by
  unfold Fs.doLs
  simp only [h.cwd]
  split_ifs
  · refine leaves_bind (h.cdLoop _ _ _ _) fun target mem' t t' ht => ?_
    cases target with
    | none => exact ⟨rfl, rfl, ht⟩
    | some dirId => exact ⟨rfl, rfl, ht.listDir dirId _⟩
  · exact ⟨rfl, rfl, h.listDir _ _⟩

/-- `do_statfs` counts the same. -/
theorem Alike.doStatfs (h : Alike s₀ b c s s') : Gives s₀ false false (doStatfs s) (doStatfs s') := by
  obtain ⟨hs, hsuper⟩ := h.readSuperblock
  unfold Fs.doStatfs
  simp only [hsuper.rd32 (show 0 + 4 ≤ 512 by omega)]
  split_ifs
  · exact ⟨rfl, hs.getInodeMap.1.getBlockMap.1.forget⟩
  · exact ⟨rfl, hs.forget⟩

/-- `do_cat` answers the same. -/
theorem Alike.doCat (h : Alike s₀ b c s s') (path : Nat) (mem : Store) :
    Matching (Leaves s₀ false false) (doCat path mem s) (doCat path mem s') := by
  unfold Fs.doCat
  refine leaves_bind (h.walk path mem) fun target mem' t t' ht => ?_
  cases target with
  | none => exact ⟨rfl, rfl, ht⟩
  | some p =>
      refine gives_bind (ht.searchDentry p.1 p.2 iFile mem') fun id u u' hu => ?_
      simp only
      split_ifs
      · exact ⟨rfl, rfl, hu.forget⟩
      · have hino := hu.getInode id
        rw [hino.inodeGet (inodePtr_le id) (show inoDirectBlock ≤ 124 by decide)]
        exact ⟨rfl, rfl, (hino.readBlock _).forget⟩

/-- The same inode is made under the same number. -/
theorem Alike.makeInode (h : Alike s₀ b c s s') (dirId dir type : Nat) (mem : Store) :
    Matching (fun r r' => r'.1 = r.1 ∧ r'.2.1 = r.2.1 ∧ Alike s₀ true true r.2.2 r'.2.2)
      (makeInode dirId dir type mem s) (makeInode dirId dir type mem s') := by
  unfold Fs.makeInode
  refine gives_bind h.allocInode fun id t t' ht => ?_
  refine gives_bind (ht.createDentry dirId id dir type mem) fun dentryId u u' hu => ?_
  refine gives_bind hu.allocBlock fun blockId v v' hv => ?_
  exact ⟨rfl, rfl, (hv.createInode dentryId blockId type oRdwr).writeInode _⟩

/-- `do_mkdir` and `do_touch` answer the same. -/
theorem Alike.makePath (h : Alike s₀ b c s s') (type path : Nat) (mem : Store) :
    Matching (Leaves s₀ false false) (makePath type path mem s) (makePath type path mem s') := by
  unfold Fs.makePath
  refine leaves_bind (h.walk path mem) fun target mem' t t' ht => ?_
  cases target with
  | none => exact ⟨rfl, rfl, ht⟩
  | some p =>
      refine same_bind fun illegal => ?_
      cases illegal with
      | true => exact ⟨rfl, rfl, ht⟩
      | false =>
          refine gives_bind (ht.searchDentry p.1 p.2 type mem') fun found u u' hu => ?_
          by_cases hfound : found ≠ minusOne
          · simp only [if_pos hfound]
            exact ⟨rfl, rfl, hu.forget⟩
          · simp only [if_neg hfound]
            refine leaves_bind (hu.makeInode p.1 p.2 type mem') fun dentryId blockId v v' hv => ?_
            by_cases hdir : type = iDir
            · simp only [if_pos hdir]
              exact ⟨rfl, rfl, (hv.createDirBlock _ _ _).forget⟩
            · simp only [if_neg hdir]
              exact ⟨rfl, rfl, (hv.createFileBlock _).forget⟩

/-- The same inode is released with its block. -/
theorem Alike.removeInode (h : Alike s₀ b c s s') (dentryId type : Nat) :
    Matching (Alike s₀ true true) (removeInode dentryId type s) (removeInode dentryId type s') := by
  have hino := h.getInode dentryId
  have hip := inodePtr_le dentryId
  unfold Fs.removeInode
  simp only [hino.inodeGet hip (show inoType ≤ 124 by decide),
    hino.inodeGet hip (show inoDirectBlock ≤ 124 by decide)]
  split_ifs with htype
  · exact Matching.error _ _
  · refine (hino.releaseBlock _).bind ?_
    intro t t' ht
    exact ((ht.editSct fun _ => (ht.sct rfl).blit (inodePtr dentryId) zeros 0 128).writeInode
      _).freeInodeMap dentryId

/-- `do_rmdir` and `do_rm` answer the same. -/
theorem Alike.removePath (h : Alike s₀ b c s s') (type path : Nat) (mem : Store) :
    Matching (Leaves s₀ false false) (removePath type path mem s) (removePath type path mem s') := by
  unfold Fs.removePath
  refine leaves_bind (h.walk path mem) fun target mem' t t' ht => ?_
  cases target with
  | none => exact ⟨rfl, rfl, ht⟩
  | some p =>
      refine gives_bind (ht.searchDentry p.1 p.2 type mem') fun id u u' hu => ?_
      simp only
      split_ifs with hid
      · exact ⟨rfl, rfl, hu.forget⟩
      · refine gives_bind (hu.deleteDentry p.1 id type) fun goOn v v' hv => ?_
        simp only
        split_ifs with hgo
        · refine (hv.removeInode id type).bind ?_
          intro w w' hw
          exact ⟨rfl, rfl, hw.forget⟩
        · exact ⟨rfl, rfl, hv.forget⟩

/-- `do_ln` answers the same. -/
theorem Alike.doLn (h : Alike s₀ b c s s') (srcPath dstPath : Nat) (mem : Store) :
    Matching (Leaves s₀ false false) (doLn srcPath dstPath mem s) (doLn srcPath dstPath mem s') := by
  unfold Fs.doLn
  refine leaves_bind (h.walk srcPath mem) fun src mem' t t' ht => ?_
  cases src with
  | none => exact ⟨rfl, rfl, ht⟩
  | some p =>
      refine leaves_bind (ht.walk dstPath mem') fun dst mem'' u u' hu => ?_
      cases dst with
      | none => exact ⟨rfl, rfl, hu⟩
      | some q =>
          refine gives_bind (hu.searchDentry p.1 p.2 (iDir ||| iFile) mem'') fun id v v' hv => ?_
          simp only
          split_ifs with hid
          · exact ⟨rfl, rfl, hv.forget⟩
          · refine gives_bind (hv.searchDentry q.1 q.2 dLink mem'') fun found w w' hw => ?_
            simp only
            split_ifs with hfound
            · exact ⟨rfl, rfl, hw.forget⟩
            · have hlinked := ((hw.getInode id).inodeAdd (inodePtr_le id)
                (show inoLinksCount ≤ 124 by decide) 1).writeInode (id / 4)
              refine gives_bind (hlinked.createDentry q.1 id q.2 dLink mem'') fun _ x x' hx => ?_
              exact ⟨rfl, rfl, hx.forget⟩

/-- The same descriptor is given out. -/
theorem Alike.openInode (h : Alike s₀ b c s s') (fileInodeId mode pid : Nat) :
    Matching (Gives s₀ false false) (openInode fileInodeId mode pid s)
      (openInode fileInodeId mode pid s') := by
  have hino := h.getInode fileInodeId
  unfold Fs.openInode
  simp only [hino.inodeGet (inodePtr_le fileInodeId) (show inoMode ≤ 124 by decide), hino.fdesc]
  split_ifs
  · exact ⟨rfl, hino.forget⟩
  · cases freeFdesc (Fs.getInode fileInodeId s).fdescArray numFdescs 0 with
    | none => exact Matching.error _ _
    | some i => exact ⟨rfl, (((hino.inodeSet _ _ _).writeInode _).setFdesc _ _).forget⟩

/-- `do_fopen` answers the same. -/
theorem Alike.doFopen (h : Alike s₀ b c s s') (path mode pid : Nat) (mem : Store) :
    Matching (Leaves s₀ false false) (doFopen path mode pid mem s) (doFopen path mode pid mem s') := by
  unfold Fs.doFopen
  rw [h.cwd]
  refine gives_bind (h.searchDentry (currentId s) path iFile mem) fun found t t' ht => ?_
  simp only
  split_ifs
  · refine leaves_bind (ht.makePath iFile path mem) fun touched mem' u u' hu => ?_
    refine gives_bind (hu.openInode touched mode pid) fun fd v v' hv => ?_
    exact ⟨rfl, rfl, hv⟩
  · refine gives_bind (ht.openInode found mode pid) fun fd u u' hu => ?_
    exact ⟨rfl, rfl, hu⟩

/-! ## Any call -/

/-- What a call returns, and the memory of its process behind it. -/
abbrev Answer := Nat × Option Store

/-- What a call with a result and user memory answers. -/
def told (x : Except Halt (Nat × Store × State)) : Except Halt (Answer × State) :=
  x.map fun r => ((r.1, some r.2.1), r.2.2)

/-- What a call with a result answers. -/
def told' (x : Except Halt (Nat × State)) : Except Halt (Answer × State) :=
  x.map fun r => ((r.1, none), r.2)

/-- Perform a call, and keep what it answers. -/
def answer : Call → State → Except Halt (Answer × State)
  | .mkfs reset, s => told' (doMkfs reset s)
  | .statfs, s => told' (.ok (doStatfs s))
  | .cd path mem, s => told (doCd path mem s)
  | .mkdir path mem, s => told (doMkdir path mem s)
  | .rmdir path mem, s => told (doRmdir path mem s)
  | .ls path option mem, s => told (doLs path option mem s)
  | .touch path mem, s => told (doTouch path mem s)
  | .cat path mem, s => told (doCat path mem s)
  | .fopen path mode pid mem, s => told (doFopen path mode pid mem s)
  | .fread fd buff length, s => told (doFread fd buff length s)
  | .fwrite fd buff length, s => told' (doFwrite fd buff length s)
  | .fclose fd, s => told' (doFclose fd s)
  | .ln srcPath dstPath mem, s => told (doLn srcPath dstPath mem s)
  | .rm path mem, s => told (doRm path mem s)
  | .lseek fd offset whence junk, s => told' (doLseek fd offset whence junk.toNat s)

/-- Without its answer a call with a memory only ends. -/
theorem map_snd_told (x : Except Halt (Nat × Store × State)) : (told x).map Prod.snd = ended x := by
  cases x with
  | ok a => rfl
  | error e => rfl

/-- Without its answer a call only ends. -/
theorem map_snd_told' (x : Except Halt (Nat × State)) : (told' x).map Prod.snd = ended' x := by
  cases x with
  | ok a => rfl
  | error e => rfl

/-- Without their answers the calls are those of a run. -/
theorem after_answer (call : Call) (s : State) : after answer call s = exec call s := by
  cases call with
  | mkfs | fwrite | fclose | lseek => exact map_snd_told' _
  | statfs => rfl
  | cd | mkdir | rmdir | ls | touch | cat | fopen | fread | ln | rm => exact map_snd_told _

/-- Calls that leave the same memory give the same answer. -/
theorem Alike.told {x y : Except Halt (Nat × Store × State)} (h : Matching (Leaves s₀ false false) x y) :
    Matching (SameAnswers (Alike s₀ false false)) (told x) (told y) :=
  h.map fun _ _ hr => ⟨congrArg₂ Prod.mk hr.1 (congrArg some hr.2.1), hr.2.2⟩

/-- Calls that return the same number give the same answer. -/
theorem Alike.told' {x y : Except Halt (Nat × State)} (h : Matching (Gives s₀ false false) x y) :
    Matching (SameAnswers (Alike s₀ false false)) (told' x) (told' y) :=
  h.map fun _ _ hr => ⟨congrArg (·, none) hr.1, hr.2⟩

/-- No call sees what the buffers hold. -/
theorem Alike.answer (h : Alike s b c s s') (call : Call) :
    Matching (SameAnswers (Alike s false false)) (answer call s) (answer call s') := by
  cases call with
  | mkfs reset => exact Alike.told' (h.doMkfs reset)
  | statfs => exact Alike.told' h.doStatfs
  | cd path mem => exact Alike.told (h.doCd path mem)
  | mkdir path mem => exact Alike.told (h.makePath iDir path mem)
  | rmdir path mem => exact Alike.told (h.removePath iDir path mem)
  | ls path option mem => exact Alike.told (h.doLs path option mem)
  | touch path mem => exact Alike.told (h.makePath iFile path mem)
  | cat path mem => exact Alike.told (h.doCat path mem)
  | fopen path mode pid mem => exact Alike.told (h.doFopen path mode pid mem)
  | fread fd buff length => exact Alike.told (h.doFread fd buff length)
  | fwrite fd buff length => exact Alike.told' (h.doFwrite fd buff length)
  | fclose fd => exact Alike.told' (h.doFclose fd)
  | ln srcPath dstPath mem => exact Alike.told (h.doLn srcPath dstPath mem)
  | rm path mem => exact Alike.told (h.removePath iFile path mem)
  | lseek fd offset whence junk => exact Alike.told' (h.doLseek fd offset whence junk.toNat)

/-- The state may be taken for the one it has come from. -/
theorem Alike.rebase (h : Alike s₀ b c s s') : Alike s b c s s' :=
  ⟨h.disk, h.fdesc, h.cwd, h.spare, h.sct, h.blk, .refl s⟩

theorem Alike.refl (hspare : ∀ i, 4096 ≤ i → s.blockMap i = 0) : Alike s true true s s :=
  ⟨rfl, rfl, rfl, fun i hi => ⟨hspare i hi, hspare i hi⟩, fun _ => .refl _ _, fun _ => .refl _ _, .refl s⟩

end Calls

/-! ## The superblock -/

section Superblock

variable {s s' : State}

/-- No write but the superblock's own reaches the superblock. -/
theorem HasMagic.kept (h : HasMagic s.disk) (hlog : Logged s s') (hw : WritesOk s s') :
    HasMagic s'.disk := by
  obtain ⟨ws, hws, hdisk, hsuper⟩ := hlog
  obtain ⟨ws', hws', harea⟩ := hw
  cases List.append_cancel_left (hws.symm.trans hws')
  have hsame : rd32 s'.disk (512 * fsStart) = rd32 s.disk (512 * fsStart) := by
    refine rd32_congr fun k hk => hdisk _ fun w hw hcov => ?_
    have hin := harea w hw
    have hne := hsuper h w hw
    obtain ⟨hlo, hhi⟩ := hcov
    obtain ⟨writer, sector, count⟩ := w
    simp only [fsStart] at hlo hhi
    cases writer with
    | writeSuperblock => exact hne rfl
    | _ =>
        simp only [SdWrite.InArea] at hin
        omega
  exact hsame.trans h

/-- Words stored further up leave those below. -/
theorem rd32_storeWords_before (m : Store) {a b : Nat} (h : b + 4 ≤ a) (vs : List Nat) :
    rd32 (storeWords m a vs) b = rd32 m b := by
  induction vs generalizing m a with
  | nil => rfl
  | cons v vs ih =>
      unfold storeWords
      rw [ih _ (by omega), rd32_wr32_of_ne m (by omega)]

/-- A superblock written with the magic number is found again. -/
theorem writeSuperblock_magic (s : State) (sb : Store) :
    HasMagic (writeSuperblock { s with superblock := storeWords sb 0 superblockWords }).disk := by
  have hcopy : rd32 (blit s.disk (512 * fsStart) (storeWords sb 0 superblockWords) 0 (512 * 1))
      (512 * fsStart + 0) = rd32 (storeWords sb 0 superblockWords) (0 + 0) :=
    rd32_blit_add _ _ (by omega)
  have hword : rd32 (storeWords sb 0 superblockWords) (0 + 0) = superblockMagic := by
    unfold superblockWords storeWords
    rw [rd32_storeWords_before _ (by omega), rd32_wr32_of_lt _ (by decide)]
  rw [hword, Nat.add_zero] at hcopy
  unfold HasMagic writeSuperblock sdWrite
  dsimp only
  rw [hcopy]

/-- Formatting leaves the magic number. -/
theorem format_magic (hspare : ∀ i, 4096 ≤ i → s.blockMap i = 0) (hmagic : HasMagic s.disk)
    (h : format s = .ok s') : HasMagic s'.disk := by
  obtain ⟨_, _, halike⟩ := (Alike.refl hspare).format_ok h
  obtain ⟨t, ht, hformatted⟩ := format_spec s
  rw [h] at ht
  cases ht
  obtain ⟨c, hext⟩ := hformatted.ext
  exact hmagic.kept halike.logged hext.writes

/-- Behind `do_mkfs` the disk has the magic number. -/
theorem doMkfs_magic {reset : Bool} {ret : Nat} (hspare : ∀ i, 4096 ≤ i → s.blockMap i = 0)
    (h : doMkfs reset s = .ok (ret, s')) : HasMagic s'.disk := by
  unfold doMkfs at h
  by_cases hmagic : rd32 (readSuperblock s).superblock 0 = superblockMagic
  · have hdisk : HasMagic (readSuperblock s).disk := (readSuperblock_magic s).mp hmagic
    simp only [if_pos hmagic] at h
    cases reset with
    | true =>
        obtain ⟨t, ht, hret⟩ := exists_of_bind_ok h
        cases hret
        exact format_magic (s := readSuperblock s) hspare hdisk ht
    | false =>
        cases h
        exact hdisk
  · simp only [if_neg hmagic] at h
    obtain ⟨u, hu⟩ : ∃ u, u = writeSuperblock { readSuperblock s with
      superblock := storeWords (readSuperblock s).superblock 0 superblockWords } := ⟨_, rfl⟩
    have hdisk : HasMagic u.disk := by
      rw [hu]
      exact writeSuperblock_magic _ _
    have hmap : u.blockMap = s.blockMap := by
      rw [hu]
      rfl
    rw [← hu] at h
    obtain ⟨t, ht, hret⟩ := exists_of_bind_ok h
    cases hret
    exact format_magic (s := u) (by rw [hmap]; exact hspare) hdisk ht

end Superblock

/-! ## Restarts -/

/-- The memory when the machine is switched on, and the disk as it was left. -/
def powerOn (disk : Store) : State := { bootState with disk := disk }

/-- A call, or the machine is switched off and on again. -/
inductive Event
  | call (c : Call)
  | restart

/-- What happens.  Behind a restart `main` calls `do_mkfs`, and nothing shall be reset. -/
def happens : Event → State → Except Halt (Option Answer × State)
  | .call c, s => (answer c s).map fun r => (some r.1, r.2)
  | .restart, s => (doMkfs false (powerOn s.disk)).map fun r => (none, r.2)

/-- All descriptors are closed, and the root is the current directory. -/
def closed (s : State) : State :=
  { s with fdescArray := fun _ => ⟨0, 0, 0, 0, 0⟩, currentInode := zeros }

/-- The same without restarts: all descriptors are closed instead, and the root is gone to. -/
def stays : Event → State → Except Halt (Option Answer × State)
  | .call c, s => (answer c s).map fun r => (some r.1, r.2)
  | .restart, s => .ok (none, closed s)

/-- What the calls take for granted. -/
def EventOk (s : State) : Event → Prop
  | .call c => CallOk s c
  | .restart => True

instance (s : State) (e : Event) : Decidable (EventOk s e) := by
  cases e <;> unfold EventOk <;> infer_instance

/-- Two states that go on alike, of a system with a file system on its disk. -/
structure Mounted (s s' : State) : Prop where
  alike : Alike s false false s s'
  sound : Sound s
  magic : HasMagic s.disk

section Restart

variable {s s' : State}

/-- A call of two mounted systems answers the same and leaves them mounted. -/
theorem Mounted.call (h : Mounted s s') {c : Call} (hok : CallOk s c) :
    Matching (SameAnswers Mounted) (answer c s) (answer c s') := by
  have hmatch := (h.alike.answer c).and_left (P := fun r => exec c s = .ok r.2) fun r hr => by
    rw [← after_answer]
    unfold after
    rw [hr]
    rfl
  refine hmatch.mono ?_
  rintro r r' ⟨⟨hans, halike⟩, hexec⟩
  exact ⟨hans, halike.rebase, exec_sound h.sound hok hexec,
    h.magic.kept halike.logged ((exec_effect h.sound hok).of_ok hexec).writes⟩

/-- At the start a disk with a superblock is kept as it is. -/
theorem doMkfs_powerOn {d : Store} (h : HasMagic d) :
    doMkfs false (powerOn d) = .ok (0, readSuperblock (powerOn d)) := by
  unfold doMkfs
  simp only [if_pos ((readSuperblock_magic (powerOn d)).mpr h)]
  rfl

/-- A system that was restarted goes on like one whose descriptors were closed. -/
theorem Mounted.restart (h : Mounted s s') :
    Mounted (closed s) (readSuperblock (powerOn s'.disk)) := by
  refine ⟨⟨h.alike.disk, rfl, rfl, fun i hi => ⟨(h.alike.spare i hi).1, rfl⟩, fun hb => (nomatch hb),
    fun hc => (nomatch hc), .refl _⟩, ⟨h.sound.volume, fun fd => ?_⟩, h.magic⟩
  constructor
  · simp [closed]
  · simp [closed]

/-- An event of the run answers the same and leaves both systems mounted. -/
theorem Mounted.step (e : Event) (s s' : State) (h : Mounted s s') (hok : EventOk s e) :
    Matching (SameAnswers Mounted) (stays e s) (happens e s') := by
  cases e with
  | call c => exact (h.call hok).map fun _ _ hr => ⟨congrArg some hr.1, hr.2⟩
  | restart =>
      have hmagic : HasMagic s'.disk := by
        rw [h.alike.disk]
        exact h.magic
      simp only [stays, happens, doMkfs_powerOn hmagic]
      exact ⟨rfl, h.restart⟩

/-- A freshly formatted system goes on like itself. -/
theorem powerOn_mounted {d : Store} (h : doMkfs true (powerOn d) = .ok (0, s)) : Mounted s s := by
  have hspare : ∀ i, 4096 ≤ i → (powerOn d).blockMap i = 0 := fun _ _ => rfl
  have halike := (Alike.refl hspare).doMkfs true
  rw [h] at halike
  exact ⟨halike.2.rebase, (doMkfs_sound (s := powerOn d) bootState_bounded h).1,
    doMkfs_magic hspare h⟩

end Restart

/-- **A restart loses nothing.**  Whenever the machine is switched off between two calls and on again,
every call answers as if only all descriptors had been closed and the root had been made the current
directory, and the disk is the same at the end; a call that does not return, does not do so either. -/
theorem restart_loses_nothing {d : Store} {s : State} {es : List Event}
    (hfresh : doMkfs true (powerOn d) = .ok (0, s)) (hok : AllSteps (after stays) EventOk es s) :
    (∀ as t, trace stays es s = .ok (as, t) →
      ∃ t', trace happens es s = .ok (as, t') ∧ t'.disk = t.disk) ∧
    ∀ e, trace stays es s = .error e → trace happens es s = .error e := by
  have hmatch := Matching.trace Mounted.step es s s (powerOn_mounted hfresh) hok
  refine ⟨fun as t h => ?_, fun e h => hmatch.eq_error h⟩
  obtain ⟨⟨as', t'⟩, hrun, hans, hmounted⟩ := hmatch.exists_ok h
  cases hans
  exact ⟨t', hrun, hmounted.alike.disk⟩

/-- Something is written into a file, and read behind a restart. -/
def reread : List Event :=
  [.call (.fopen 100 oRdwr 1 memA), .call (.fwrite 0 memA 3), .restart,
    .call (.fopen 100 oRdonly 1 memA), .call (.fread 0 zeros 3)]

/-- What was written is read back behind a restart. -/
theorem restart_loses_nothing_reread : ∃ as t t', trace stays reread freshState = .ok (as, t) ∧
    as.map (Option.map Prod.fst) = [some 0, some 3, none, some 0, some 3] ∧
    trace happens reread freshState = .ok (as, t') ∧ t'.disk = t.disk := by
  obtain ⟨⟨as, t⟩, h, hvalues⟩ := exists_of_returns (ε := Halt) (x := trace stays reread freshState)
    (P := fun r => r.1.map (Option.map Prod.fst) = [some 0, some 3, none, some 0, some 3])
    (by decide +kernel)
  have hok : AllSteps (after stays) EventOk reread freshState := by decide +kernel
  obtain ⟨t', hrun, hdisk⟩ := (restart_loses_nothing (d := zeros) freshState_eq hok).1 as t h
  exact ⟨as, t, t', h, hvalues, hrun, hdisk⟩

end Fs
