import OslabRiscv.Fs.FileData

/-!
# Reading, writing and seeking: one call each

The transfer loops of `do_fread` and `do_fwrite` cut the range into pages.
`freadLoop_spec` and `fwriteLoop_spec` put the pages together again: whatever
the cut, a read delivers the file's bytes and a write is one move into the
file.  The specifications of the three calls follow from them; each is stated
over the volume before and after the call.
-/

namespace Fs

open ByteStore Outcome

/-! ## Descriptors -/

@[simp] theorem setFdesc_fdescArray_self (fd : Nat) (f : Fdesc) (s : State) :
    (setFdesc fd f s).fdescArray fd = f := by
  simp [setFdesc]

theorem setFdesc_fdescArray_of_ne {fd k : Nat} (f : Fdesc) (s : State) (h : k ≠ fd) :
    (setFdesc fd f s).fdescArray k = s.fdescArray k := by
  simp [setFdesc, h]

/-- Of two settings the last one counts. -/
@[simp] theorem setFdesc_setFdesc (fd : Nat) (f g : Fdesc) (s : State) :
    setFdesc fd f (setFdesc fd g s) = setFdesc fd f s := by
  unfold setFdesc
  congr 1
  funext k
  by_cases hk : k = fd
  · rw [if_pos hk, if_pos hk]
  · rw [if_neg hk, if_neg hk]
    exact if_neg hk

@[simp] theorem setFdesc_self (fd : Nat) (s : State) : setFdesc fd (s.fdescArray fd) s = s := by
  unfold setFdesc
  congr 1
  funext k
  by_cases hk : k = fd
  · rw [if_pos hk, hk]
  · rw [if_neg hk]

/-- Setting a descriptor writes nothing. -/
theorem Extends.setFdesc {s t : State} (fd : Nat) (f : Fdesc) (h : Extends s t) :
    Extends (setFdesc fd f s) (setFdesc fd f t) := by
  refine ⟨?_, h.cwd, h.writes⟩
  unfold Fs.setFdesc
  simp only [h.fdesc]

/-- The inode stays in its buffer. -/
theorem Loaded.setFdesc {i : Nat} {s : State} (fd : Nat) (f : Fdesc) (h : Loaded i s) :
    Loaded i (setFdesc fd f s) := ⟨h.disk, h.owned, h.used, h.id⟩

/-- What was stored stays stored. -/
theorem Stored.setFdesc {i w n b : Nat} {src : Store} {s s' : State} (fd : Nat) (f : Fdesc)
    (h : Stored i w n src b s s') : Stored i w n src b s (setFdesc fd f s') :=
  ⟨h.loaded.setFdesc fd f, h.touched, h.field, h.bytes⟩

/-- Reading a block leaves what was stored. -/
theorem Stored.readBlock {i w n b : Nat} {src : Store} {s s' : State} (c : Nat)
    (h : Stored i w n src b s s') : Stored i w n src b s (readBlock c s') :=
  ⟨⟨h.loaded.disk, h.loaded.owned, h.loaded.used, h.loaded.id⟩, h.touched, h.field, h.bytes⟩

/-! ## The loops -/

section Loops

variable {i fd : Nat}

/-- The block of an offset is found, or made. -/
theorem Loaded.byteLocate {s : State} {offset : Nat} (hs : Loaded i s) (ho : offset < 2 ^ 32) :
    Holds (· = Halt.noMoreBlocks)
      (fun r => ∃ b, r.1 = some (b, offset % 4096) ∧
        ref r.2.disk (pagePos i (offset / 4096)) = b ∧ b ≠ 0 ∧
        Stored i 0 0 zeros 0 s r.2 ∧ Extends s r.2)
      (byteLocate (inodePtr i) offset s) := by
  have hspec := byteLocate_spec (by rw [← hs.disk]; exact hs.owned)
    (by rw [← hs.disk]; exact hs.used) (by rw [← hs.disk]; exact hs.id) ho
  refine hspec.mono fun r hr => ?_
  obtain ⟨b, hb, hloc, hdisk⟩ := hr
  refine ⟨b, hb, ?_, hloc.ne, hloc.stored hs hdisk, hloc.ext⟩
  rw [hdisk]
  exact hloc.ref

/-- The buffer after `read_block` holds the file's bytes of that page. -/
theorem readBlock_fileByte {s : State} {o k b : Nat} (hs : Loaded i s) (ho : o < 2 ^ 32)
    (href : ref s.disk (pagePos i (o / 4096)) = b) (hb : b ≠ 0) (hk : o % 4096 + k < 4096) :
    (readBlock b s).blkBuffer (o % 4096 + k) = fileByte s.disk i (o + k) := by
  have hpage : o / 4096 < pageLimit := by
    unfold pageLimit
    omega
  have hlt : b < 131072 :=
    href ▸ (hs.owned.used _ (pagePos_live hs.used hpage) (by rw [href]; exact hb)).1
  have hcache := readBlock_caches hs.used.1 hlt s
  rw [← hs.disk] at hcache
  rw [hcache _ hk]
  have hdiv : (o + k) / 4096 = o / 4096 := by omega
  have hmod : (o + k) % 4096 = o % 4096 + k := by omega
  unfold fileByte dataByte
  rw [hdiv, hmod, if_pos hpage, href, if_neg hb]
  rfl

/-- **What a whole read delivers.**  The bytes come from the file as it was
before; the read may have allocated blocks for holes but stores nothing. -/
theorem freadLoop_spec (rounds L B : Nat) (buff : Store) (s : State) (hs : Loaded i s)
    (hL : L ≤ rounds) (hoff : (s.fdescArray fd).rdOffset + L < 2 ^ 32) :
    Holds (· = Halt.noMoreBlocks)
      (fun r => r.1 = some (B + L) ∧
        r.2.1 = blit buff B (fileByte s.disk i) (s.fdescArray fd).rdOffset L ∧
        Stored i 0 0 zeros 0 s r.2.2 ∧
        Extends (setFdesc fd
          { s.fdescArray fd with rdOffset := (s.fdescArray fd).rdOffset + L } s) r.2.2)
      (freadLoop (inodePtr i) fd rounds L B buff s) := by
  induction rounds generalizing L B buff s with
  | zero =>
      obtain rfl : L = 0 := by omega
      refine ⟨rfl, (blit_zero _ _ _ _).symm, .refl hs, ?_⟩
      rw [Nat.add_zero, setFdesc_self]
      exact .refl s
  | succ rounds ih =>
      unfold freadLoop
      by_cases hz : L = 0
      · subst hz
        rw [if_pos rfl]
        refine ⟨rfl, (blit_zero _ _ _ _).symm, .refl hs, ?_⟩
        rw [Nat.add_zero, setFdesc_self]
        exact .refl s
      · rw [if_neg hz]
        refine (hs.byteLocate (by omega)).bind fun r hr => ?_
        obtain ⟨loc, t⟩ := r
        obtain ⟨b, hb, href, hne, hst, hext⟩ := hr
        simp only at hb href hst hext ⊢
        subst hb
        -- one round: `n` bytes of the page that holds the read offset
        set o := (s.fdescArray fd).rdOffset with hodef
        obtain ⟨n, hn⟩ : ∃ n, n = min L (4096 - o % 4096) := ⟨_, rfl⟩
        have hnL : n ≤ L := by omega
        have hnp : o % 4096 + n ≤ 4096 := by omega
        have hfd : (readBlock b t).fdescArray fd = s.fdescArray fd := by
          rw [← hext.fdesc]
          rfl
        simp only [← hn, hfd, ← hodef]
        rw [Nat.mod_eq_of_lt (show o + n < 2 ^ 32 by omega)]
        have hbuf : blit buff B (readBlock b t).blkBuffer (o % 4096) n =
            blit buff B (fileByte s.disk i) o n := by
          refine blit_congr fun k hk => ?_
          rw [readBlock_fileByte hst.loaded (by omega) href hne (by omega), hst.bytes, blit_zero]
        rw [hbuf]
        have hround := (hst.readBlock b).setFdesc fd { s.fdescArray fd with rdOffset := o + n }
        refine (ih (L - n) (B + n) _ _ hround.loaded (by omega) ?_).mono fun r hr => ?_
        · rw [setFdesc_fdescArray_self]
          change o + n + (L - n) < 2 ^ 32
          omega
        · obtain ⟨hdone, hout, hst', hext'⟩ := hr
          rw [setFdesc_fdescArray_self, setFdesc_setFdesc] at hext'
          rw [setFdesc_fdescArray_self] at hout
          refine ⟨?_, ?_, hround.empty_trans hst', ?_⟩
          · rw [hdone]
            congr 1
            omega
          · rw [hout]
            rw [hround.bytes, blit_zero]
            change blit _ _ _ (o + n) _ = _
            rw [blit_append]
            congr 1
            omega
          · have hrd : o + n + (L - n) = o + L := by omega
            simp only [hrd] at hext'
            exact ((hext.readBlock b).setFdesc fd _).trans hext'

/-- **What a whole write does.**  However the range is cut into pages, the
file has received one move.  A write may end at 4GB; the offset is then 0. -/
theorem fwriteLoop_spec (buff : Store) (rounds L B : Nat) (s : State) (hs : Loaded i s)
    (hL : L ≤ rounds) (ho : (s.fdescArray fd).wrOffset < 2 ^ 32)
    (hoff : (s.fdescArray fd).wrOffset + L ≤ 2 ^ 32) :
    Holds (· = Halt.noMoreBlocks)
      (fun r => r.1 = some (B + L) ∧
        Stored i (s.fdescArray fd).wrOffset L buff B s r.2 ∧
        Extends (setFdesc fd
          { s.fdescArray fd with wrOffset := ((s.fdescArray fd).wrOffset + L) % 2 ^ 32 } s) r.2)
      (fwriteLoop (inodePtr i) fd buff rounds L B s) := by
  induction rounds generalizing L B s with
  | zero =>
      obtain rfl : L = 0 := by omega
      refine ⟨rfl, .refl hs, ?_⟩
      rw [Nat.add_zero, Nat.mod_eq_of_lt ho, setFdesc_self]
      exact .refl s
  | succ rounds ih =>
      unfold fwriteLoop
      by_cases hz : L = 0
      · subst hz
        rw [if_pos rfl]
        refine ⟨rfl, .refl hs, ?_⟩
        rw [Nat.add_zero, Nat.mod_eq_of_lt ho, setFdesc_self]
        exact .refl s
      · rw [if_neg hz]
        refine (hs.byteLocate (by omega)).bind fun r hr => ?_
        obtain ⟨loc, t⟩ := r
        obtain ⟨b, hb, href, hne, hst, hext⟩ := hr
        simp only at hb href hst hext ⊢
        subst hb
        set o := (s.fdescArray fd).wrOffset with hodef
        obtain ⟨n, hn⟩ : ∃ n, n = min L (4096 - o % 4096) := ⟨_, rfl⟩
        have hnL : n ≤ L := by omega
        have hnp : o % 4096 + n ≤ 4096 := by omega
        have hpage : o / 4096 < pageLimit := by
          unfold pageLimit
          omega
        simp only [← hn]
        obtain ⟨u, hu⟩ : ∃ u, u = writeBlock b { readBlock b t with
          blkBuffer := blit (readBlock b t).blkBuffer (o % 4096) buff B n } := ⟨_, rfl⟩
        have hfd : u.fdescArray fd = s.fdescArray fd := by
          rw [hu, ← hext.fdesc]
          rfl
        simp only [← hu, hfd, ← hodef]
        obtain ⟨o', ho'⟩ : ∃ o', o' = (o + n) % 2 ^ 32 := ⟨_, rfl⟩
        rw [← ho']
        have hwrite : Stored i o n buff B t u :=
          hu ▸ stored_writeBlock hst.loaded hpage href hne hnp
        have hround := (hst.empty_trans hwrite).setFdesc fd
          { s.fdescArray fd with wrOffset := o' }
        have hb : b < 131072 := href ▸ (hst.loaded.owned.used _
          (pagePos_live hst.loaded.used hpage) (by rw [href]; exact hne)).1
        have hextu : Extends s u := hu ▸ ((hext.readBlock b).setBlk _).writeBlock hb
        refine (ih (L - n) (B + n) _ hround.loaded (by omega) ?_ ?_).mono fun r hr => ?_
        · rw [setFdesc_fdescArray_self]
          exact ho' ▸ Nat.mod_lt _ (by decide)
        · rw [setFdesc_fdescArray_self]
          change o' + (L - n) ≤ 2 ^ 32
          omega
        · obtain ⟨hdone, hst', hext'⟩ := hr
          rw [setFdesc_fdescArray_self, setFdesc_setFdesc] at hext'
          rw [setFdesc_fdescArray_self] at hst'
          have hrest : Stored i (o + n) (L - n) buff (B + n)
              (setFdesc fd { s.fdescArray fd with wrOffset := o' } u) r.2 := by
            by_cases hend : L - n = 0
            · rw [hend] at hst' ⊢
              exact hst'.empty_trans (.refl hst'.loaded)
            · rwa [show o + n = o' by omega]
          refine ⟨?_, ?_, ?_⟩
          · rw [hdone]
            congr 1
            omega
          · have hall := hround.trans hrest
            rwa [show n + (L - n) = L by omega] at hall
          · have hwr : (o' + (L - n)) % 2 ^ 32 = (o + L) % 2 ^ 32 := by omega
            simp only [hwr] at hext'
            exact (hextu.setFdesc fd _).trans hext'

end Loops

/-! ## The size field -/

/-- From `s` to `s'` the file behind inode `i` has got size `v` and the given
bytes; the rest of the volume is framed by `Touched`. -/
structure Updated (i v : Nat) (bytes : Store) (s s' : State) : Prop where
  owned : Owned s'.disk
  touched : Touched i s.disk s'.disk
  size : ino s'.disk i inoSize = v
  bytes : fileByte s'.disk i = bytes

section Size

variable {i v : Nat} {s s' : State}

/-- An inode that is read is in its buffer. -/
theorem loaded_getInode (ho : Owned s.disk) (hi : InodeUsed s.disk i)
    (hid : ino s.disk i inoInodeId = i) : Loaded i (getInode i s) :=
  ⟨(flushed_getInode hi.1 s).symm, ho, hi, hid⟩

/-- A field outside the pointers moves no block. -/
theorem ref_setField {d : Store} {f : Nat} (hi : i < 512) (hf : f + 4 ≤ 32) {q : Pos}
    (hq : q.Live d) : ref (wr32 d (inoAddr i + f) v) q = ref d q := by
  obtain ⟨j, slot, path⟩ := q
  have hj : j < 512 := hq.2.1
  have hs : slot < 19 := hq.1.1
  refine ref_congr ?_ ?_ hq.1
  · apply rd32_wr32_of_ne
    simp only [inoAddr]
    omega
  · intro o' q' hv _
    have ho' := hv.head_lt
    apply rd32_wr32_of_ne
    simp only [inoAddr, blkAddr]
    omega

/-- A field of an inode is not in the inode map. -/
theorem imap_setField {d : Store} {f j : Nat} (hj : j < 512) :
    imap (wr32 d (inoAddr i + f) v) j = imap d j := by
  apply wr32_apply_of_ne
  simp only [inoAddr]
  omega

/-- A field of an inode is not in the block map. -/
theorem bmap_setField {d : Store} {f c : Nat} (hc : c < 131072) :
    bmap (wr32 d (inoAddr i + f) v) c = bmap d c := by
  apply wr32_apply_of_ne
  simp only [inoAddr]
  omega

/-- A field of an inode is not in a data block. -/
theorem blkByte_setField {d : Store} {f c k : Nat} (hi : i < 512) (hf : f + 4 ≤ 128) :
    blkByte (wr32 d (inoAddr i + f) v) c k = blkByte d c k := by
  apply wr32_apply_of_ne
  simp only [inoAddr, blkAddr]
  omega

/-- A field below the block numbers leaves the owners of the blocks. -/
theorem owned_setField {d : Store} {f : Nat} (h : Owned d) (hi : i < 512) (hf : f + 4 ≤ 32) :
    Owned (wr32 d (inoAddr i + f) v) := by
  have hlive : ∀ q : Pos, q.Live (wr32 d (inoAddr i + f) v) → q.Live d := by
    intro q hq
    exact ⟨hq.1, hq.2.1, by rw [← imap_setField hq.2.1]; exact hq.2.2⟩
  refine ⟨by rw [bmap_setField (by omega)]; exact h.zero_used, ?_, ?_⟩
  · intro q hq hne
    rw [ref_setField hi hf (hlive q hq)] at hne ⊢
    have hu := h.used q (hlive q hq) hne
    exact ⟨hu.1, by rw [bmap_setField hu.1]; exact hu.2⟩
  · intro q q' hq hq' hne heq
    rw [ref_setField hi hf (hlive q hq)] at hne heq
    rw [ref_setField hi hf (hlive q' hq')] at heq
    exact h.inj q q' (hlive q hq) (hlive q' hq') hne heq

/-- Setting the size touches the inode only. -/
theorem touched_setSize {d : Store} (hi : i < 512) :
    Touched i d (wr32 d (inoAddr i + inoSize) v) where
  imap _ hj := imap_setField hj
  bmap _ hc _ := bmap_setField hc
  bmap_new _ hc hz hne := absurd ((bmap_setField hc).trans hz) hne
  ref_keep _ hp _ := ref_setField hi (by decide) hp
  ref_other _ hp _ := ref_setField hi (by decide) hp
  ref_new _ hp hz hne := absurd ((ref_setField hi (by decide) hp).trans hz) hne
  ino j f _ _ hne := by
    apply rd32_wr32_of_ne
    simp only [inoAddr, inoSize]
    omega
  blk _ _ _ _ _ := blkByte_setField hi (by decide)

/-- A field below the block numbers leaves the bytes of the file. -/
theorem fileByte_setField {d : Store} {f : Nat} (hi : InodeUsed d i) (hf : f + 4 ≤ 32) :
    fileByte (wr32 d (inoAddr i + f) v) i = fileByte d i := by
  funext x
  unfold fileByte
  by_cases hp : x / 4096 < pageLimit
  · rw [if_pos hp, if_pos hp]
    unfold dataByte
    rw [ref_setField hi.1 hf (pagePos_live hi hp), blkByte_setField hi.1 (by omega)]
  · rw [if_neg hp, if_neg hp]

/-- The last step of a transfer: the size is stored and the sector written. -/
theorem Stored.finish {w n b : Nat} {src : Store} (h : Stored i w n src b s s')
    (hv : v < 2 ^ 32) :
    Updated i v (blit (fileByte s.disk i) w src b n) s
      (writeInode (i / 4) (inodeSet (inodePtr i) inoSize v s')) := by
  have hl := h.loaded
  have hdisk : (writeInode (i / 4) (inodeSet (inodePtr i) inoSize v s')).disk =
      wr32 s'.disk (inoAddr i + inoSize) v := by
    rw [writeInode_disk hl.used.1, flushed_inodeSet i s' (by decide), ← hl.disk]
  refine ⟨?_, ?_, ?_, ?_⟩
  · rw [hdisk]
    exact owned_setField hl.owned hl.used.1 (by decide)
  · rw [hdisk]
    exact h.touched.trans (touched_setSize hl.used.1)
  · rw [hdisk]
    exact rd32_wr32_of_lt _ hv
  · rw [hdisk, fileByte_setField hl.used (by decide), h.bytes]

end Size

/-! ## The calls -/

section Calls

variable {s : State} {fd : Nat} {f : Fdesc}

/-- A descriptor number below the limit. -/
theorem fdescAt_ofNat (hfd : fd < numFdescs) : fdescAt fd = .ok fd := by
  unfold fdescAt
  rw [if_pos ⟨by omega, by exact_mod_cast hfd⟩, Int.toNat_natCast]

/-- A number that fits into 32 bits. -/
theorem toU32_ofNat {n : Nat} (hn : n < 2 ^ 32) : toU32 n = n := by
  unfold toU32
  omega

/-- Descriptor `fd` is `f`, and it is open on an inode in use. -/
structure OpenOn (s : State) (fd : Nat) (f : Fdesc) : Prop where
  lt : fd < numFdescs
  desc : s.fdescArray fd = f
  occupied : f.status ≠ fAvailable
  owned : Owned s.disk
  used : InodeUsed s.disk f.inodeId
  id : ino s.disk f.inodeId inoInodeId = f.inodeId

/-- The inode of an open descriptor is read. -/
theorem OpenOn.loaded (h : OpenOn s fd f) : Loaded f.inodeId (getInode f.inodeId s) :=
  loaded_getInode h.owned h.used h.id

/-- A field of the inode in the buffer is that on the disk. -/
theorem Loaded.inodeGet {i g : Nat} (h : Loaded i s) (hg : g + 4 ≤ 128) :
    inodeGet s (inodePtr i) g = ino s.disk i g := by
  rw [inodeGet_eq i s hg, ← h.disk]

/-- The size that a call reads. -/
theorem OpenOn.inodeGet_size (h : OpenOn s fd f) :
    Fs.inodeGet (getInode f.inodeId s) (inodePtr f.inodeId) inoSize =
      ino s.disk f.inodeId inoSize := h.loaded.inodeGet (by decide)

/-- Storing the size leaves the inode number in the buffer. -/
theorem Loaded.inodeGet_setSize {i v : Nat} (h : Loaded i s) :
    Fs.inodeGet (inodeSet (inodePtr i) inoSize v s) (inodePtr i) inoInodeId = i := by
  rw [inodeGet_eq i _ (by decide), flushed_inodeSet i s (by decide), ← h.disk]
  refine (rd32_wr32_of_ne _ ?_).trans h.id
  simp only [inoInodeId, inoSize]
  omega

/-- Loading the inode first is no change. -/
theorem Stored.of_getInode {i j w n b : Nat} {src : Store} {t : State}
    (h : Stored i w n src b (getInode j s) t) : Stored i w n src b s t :=
  ⟨h.loaded, h.touched, h.field, h.bytes⟩

/-- What follows on a read inode follows on the state before. -/
theorem Extends.of_getInode {j : Nat} {t : State}
    (h : Extends (Fs.setFdesc fd f (Fs.getInode j s)) t) : Extends (Fs.setFdesc fd f s) t :=
  ⟨h.fdesc, h.cwd, h.writes⟩

/-- `do_fwrite` through a descriptor that may write. -/
theorem doFwrite_spec (h : OpenOn s fd f) (hmode : f.mode ≠ oRdonly) (buff : Store)
    {n : Nat} (hn : f.wrOffset + n < 2 ^ 32) :
    Holds (· = Halt.noMoreBlocks)
      (fun r => r.1 = n ∧
        Updated f.inodeId (max (ino s.disk f.inodeId inoSize) (f.wrOffset + n))
          (blit (fileByte s.disk f.inodeId) f.wrOffset buff 0 n) s r.2 ∧
        Extends (setFdesc fd { f with wrOffset := f.wrOffset + n } s) r.2)
      (doFwrite fd buff n s) := by
  have hdesc := h.desc
  unfold doFwrite
  rw [fdescAt_ofNat h.lt]
  change Holds _ _ (if (s.fdescArray fd).mode = oRdonly then _ else _)
  rw [hdesc, if_neg hmode, if_neg h.occupied, toU32_ofNat (by omega), if_neg (by omega)]
  have hgd : (getInode f.inodeId s).fdescArray fd = f := hdesc
  have hloop := fwriteLoop_spec buff n n 0 (getInode f.inodeId s) h.loaded (le_refl n)
    (by rw [hgd]; omega) (by rw [hgd]; omega)
  refine hloop.bind fun r hr => ?_
  obtain ⟨done, t⟩ := r
  obtain ⟨hdone, hst, hext⟩ := hr
  simp only at hdone hst hext
  rw [hgd] at hst hext
  simp only [Nat.mod_eq_of_lt hn] at hext
  subst hdone
  have hwr : (t.fdescArray fd).wrOffset = f.wrOffset + n := by
    rw [hext.fdesc, setFdesc_fdescArray_self]
  have hsize : inodeGet t (inodePtr f.inodeId) inoSize = ino s.disk f.inodeId inoSize := by
    rw [hst.loaded.inodeGet (by decide)]
    exact hst.field inoSize (by decide)
  simp only [hwr, hsize, hst.loaded.inodeGet_setSize, Nat.zero_add]
  have hlt : ino s.disk f.inodeId inoSize < 2 ^ 32 := rd32_lt _ _
  refine ⟨rfl, hst.of_getInode.finish (max_lt hlt hn), ?_⟩
  exact (hext.of_getInode.inodeSet _ _ _).writeInode h.used.1

/-- `do_fread` through a descriptor that may read, inside the file. -/
theorem doFread_spec (h : OpenOn s fd f) (hmode : f.mode ≠ oWronly) (buff : Store)
    {n : Nat} (hn : f.rdOffset + n < 2 ^ 32) (hin : f.rdOffset + n ≤ ino s.disk f.inodeId inoSize) :
    Holds (· = Halt.noMoreBlocks)
      (fun r => r.1 = n ∧ r.2.1 = blit buff 0 (fileByte s.disk f.inodeId) f.rdOffset n ∧
        Updated f.inodeId (ino s.disk f.inodeId inoSize) (fileByte s.disk f.inodeId) s r.2.2 ∧
        Extends (setFdesc fd { f with rdOffset := f.rdOffset + n } s) r.2.2)
      (doFread fd buff n s) := by
  have hdesc := h.desc
  have hld := h.loaded
  unfold doFread
  rw [fdescAt_ofNat h.lt]
  change Holds _ _ (if (s.fdescArray fd).mode = oWronly then _ else _)
  rw [hdesc, if_neg hmode, if_neg h.occupied, toU32_ofNat (by omega)]
  have hgd : (getInode f.inodeId s).fdescArray fd = f := hdesc
  simp only [h.inodeGet_size]
  rw [Nat.mod_eq_of_lt hn, if_neg (by omega)]
  have hloop := freadLoop_spec n n 0 buff (getInode f.inodeId s) hld (le_refl n)
    (by rw [hgd]; exact hn)
  refine hloop.bind fun r hr => ?_
  obtain ⟨done, out, t⟩ := r
  obtain ⟨hdone, hout, hst, hext⟩ := hr
  simp only at hdone hout hst hext
  rw [hgd] at hout hext
  subst hdone
  have hrd : (t.fdescArray fd).rdOffset = f.rdOffset + n := by
    rw [hext.fdesc, setFdesc_fdescArray_self]
  have hsize : inodeGet t (inodePtr f.inodeId) inoSize = ino s.disk f.inodeId inoSize := by
    rw [hst.loaded.inodeGet (by decide)]
    exact hst.field inoSize (by decide)
  simp only [hrd, hsize, hst.loaded.inodeGet_setSize, Nat.zero_add]
  have hlt : ino s.disk f.inodeId inoSize < 2 ^ 32 := rd32_lt _ _
  have hupd := hst.of_getInode.finish (max_lt hlt hn)
  rw [max_eq_left hin] at hupd ⊢
  rw [blit_zero] at hupd
  refine ⟨rfl, hout, hupd, ?_⟩
  exact (hext.of_getInode.inodeSet _ _ _).writeInode h.used.1

/-- The offset a seek asks for, before any wrap-around. -/
def seekTo (offset : Int) (whence base size : Nat) : Int :=
  if whence = 0 then offset else if whence = 1 then base + offset else size + offset

/-- A seek within 32 bits goes where it asks to. -/
theorem seekTarget_eq {offset : Int} {whence base size t : Nat} (junk : Nat) (hw : whence < 3)
    (ht : seekTo offset whence base size = t) (hlt : t < 2 ^ 32) :
    seekTarget offset whence base size junk = t := by
  unfold seekTarget
  unfold seekTo at ht
  split_ifs at ht ⊢ with h0 h1 h2
  · rw [ht, toU32_ofNat hlt]
  · rw [ht, toU32_ofNat hlt]
  · rw [ht, toU32_ofNat hlt]
  · omega

/-- The descriptor after a seek to read offset `rt` and write offset `wt`; each
applies only when the mode has its bit. -/
def seekFdesc (f : Fdesc) (rt wt : Nat) : Fdesc :=
  { f with
    rdOffset := if f.mode &&& 1 ≠ 0 then rt else f.rdOffset
    wrOffset := if f.mode &&& 2 ≠ 0 then wt else f.wrOffset }

/-- The size after a seek to write offset `wt`. -/
def seekSize (f : Fdesc) (size wt : Nat) : Nat :=
  if f.mode &&& 2 ≠ 0 then max size wt else size

/-- Writing back a sector that was not changed. -/
theorem writeInode_updated {i : Nat} (hs : Loaded i s) :
    Updated i (ino s.disk i inoSize) (fileByte s.disk i) s (writeInode (i / 4) s) := by
  have hdisk : (writeInode (i / 4) s).disk = s.disk := by
    rw [writeInode_disk hs.used.1, ← hs.disk]
  refine ⟨?_, ?_, ?_, ?_⟩
  · rw [hdisk]
    exact hs.owned
  · rw [hdisk]
    exact .refl i _
  · rw [hdisk]
  · rw [hdisk]

/-- The write half of `do_lseek`: a seek beyond the end makes a hole. -/
theorem seekExtend_spec {i wt : Nat} (hs : Loaded i s) (hwt : wt < 2 ^ 32) :
    Holds (· = Halt.noMoreBlocks)
      (fun t => Updated i (max (ino s.disk i inoSize) wt) (fileByte s.disk i) s
        (writeInode (i / 4) t) ∧ Extends s t)
      (seekExtend (inodePtr i) (ino s.disk i inoSize) wt s) := by
  unfold seekExtend
  by_cases hlt : ino s.disk i inoSize < wt
  · rw [if_pos hlt]
    refine (hs.byteLocate hwt).bind fun r hr => ?_
    obtain ⟨loc, t⟩ := r
    obtain ⟨b, _, _, _, hst, hext⟩ := hr
    have hupd := hst.finish hwt
    rw [blit_zero] at hupd
    rw [max_eq_right (le_of_lt hlt)]
    exact ⟨hupd, hext.inodeSet _ _ _⟩
  · rw [if_neg hlt]
    rw [max_eq_left (by omega)]
    exact ⟨writeInode_updated hs, .refl s⟩

/-- `do_lseek` through an open descriptor, unless the read offset asked for is
beyond the end. -/
theorem doLseek_spec (h : OpenOn s fd f) {offset : Int} {whence rt wt : Nat} (junk : Nat)
    (hw : whence < 3)
    (hr : f.mode &&& 1 ≠ 0 →
      seekTo offset whence f.rdOffset (ino s.disk f.inodeId inoSize) = rt ∧
        rt ≤ ino s.disk f.inodeId inoSize)
    (hwr : f.mode &&& 2 ≠ 0 →
      seekTo offset whence f.wrOffset (ino s.disk f.inodeId inoSize) = wt ∧ wt < 2 ^ 32) :
    Holds (· = Halt.noMoreBlocks)
      (fun r => r.1 = 0 ∧
        Updated f.inodeId (seekSize f (ino s.disk f.inodeId inoSize) wt)
          (fileByte s.disk f.inodeId) s r.2 ∧
        Extends (setFdesc fd (seekFdesc f rt wt) s) r.2)
      (doLseek fd offset whence junk s) := by
  have hdesc := h.desc
  have hld := h.loaded
  unfold doLseek
  rw [fdescAt_ofNat h.lt]
  change Holds _ _ (if (s.fdescArray fd).status = fAvailable then _ else _)
  rw [hdesc, if_neg h.occupied]
  simp only [h.inodeGet_size]
  have hrt : f.mode &&& 1 ≠ 0 → rt < 2 ^ 32 :=
    fun hm => lt_of_le_of_lt (hr hm).2 (rd32_lt _ _)
  -- the read half
  obtain ⟨g, hg⟩ : ∃ g, g = { f with rdOffset := (seekFdesc f rt wt).rdOffset } := ⟨_, rfl⟩
  have hread : (if f.mode &&& 1 ≠ 0 then
      { f with rdOffset := seekTarget offset whence f.rdOffset (ino s.disk f.inodeId inoSize) junk }
      else f) = g := by
    rw [hg]
    unfold seekFdesc
    by_cases hm : f.mode &&& 1 ≠ 0
    · simp only [if_pos hm, seekTarget_eq junk hw (hr hm).1 (hrt hm)]
    · simp only [if_neg hm]
  have hin : ¬(f.mode &&& 1 ≠ 0 ∧ ino s.disk f.inodeId inoSize <
      seekTarget offset whence f.rdOffset (ino s.disk f.inodeId inoSize) junk) := by
    intro hcon
    rw [seekTarget_eq junk hw (hr hcon.1).1 (hrt hcon.1)] at hcon
    have := (hr hcon.1).2
    omega
  have hgm : g.mode = f.mode := by rw [hg]
  have hgw : g.wrOffset = f.wrOffset := by rw [hg]
  have hgi : g.inodeId = f.inodeId := by rw [hg]
  rw [if_neg hin]
  simp only [hread, hgm, hgw, hgi]
  -- the write half
  have hld' := hld.setFdesc fd g
  by_cases hm : f.mode &&& 2 ≠ 0
  · have hgs : { g with wrOffset := wt } = seekFdesc f rt wt := by
      rw [hg]
      unfold seekFdesc
      simp only [if_pos hm]
    rw [if_pos hm, seekTarget_eq _ hw (hwr hm).1 (hwr hm).2]
    refine (seekExtend_spec hld' (hwr hm).2).bind fun t ht => ?_
    obtain ⟨hupd, hext⟩ := ht
    rw [hgm, hgi] at hgs
    rw [hgs]
    refine ⟨rfl, ?_, ?_⟩
    · unfold seekSize
      rw [if_pos hm]
      exact ⟨hupd.owned, hupd.touched, hupd.size, hupd.bytes⟩
    · have hext' := (hext.setFdesc fd (seekFdesc f rt wt)).writeInode h.used.1
      rw [setFdesc_setFdesc] at hext'
      exact hext'.of_getInode
  · have hgs : g = seekFdesc f rt wt := by
      rw [hg]
      unfold seekFdesc
      simp only [if_neg hm]
    rw [if_neg hm]
    have hupd := writeInode_updated hld'
    refine ⟨rfl, ?_, ?_⟩
    · unfold seekSize
      rw [if_neg hm]
      exact ⟨hupd.owned, hupd.touched, hupd.size, hupd.bytes⟩
    · rw [← hgs]
      exact (Extends.writeInode h.used.1 (.refl _)).of_getInode

end Calls

end Fs
