import OslabRiscv.Fs.FileSemantics
import OslabRiscv.Fs.FileFrame

/-!
# Reading and the disk

Reads and writes find their block with one function, `byte_locate`, which allocates what
is missing.  Where the tree of a page is complete it allocates nothing (`byteLocate_full`), so
a read whose pages are all there leaves the disk as it was; a read of a page that is not there
puts one in, and the disk cannot be as it was (`freadLoop_fills`).
-/

namespace Fs

open ByteStore Outcome

/-- The page of byte `x` of inode `i` has a block. -/
def Filled (d : Store) (i x : Nat) : Prop := ref d (pagePos i (x / 4096)) ≠ 0

/-- All pages of the `n` bytes from offset `o` on have a block.  Offsets wrap around at 4GB. -/
def FilledRange (d : Store) (i o n : Nat) : Prop := ∀ k < n, Filled d i ((o + k) % 2 ^ 32)

/-- The call returns and the disk is as it was. -/
def ReadPure (s : State) (fd : Nat) (buff : Store) (length : Int) : Prop :=
  ∃ r, doFread fd buff length s = .ok r ∧ r.2.2.disk = s.disk

section Full

variable {i slot o : Nat} {q : List Nat} {s : State}

/-- What a node of the tree hangs on is there. -/
theorem ref_tail_ne {d : Store} (h : ref d ⟨i, slot, o :: q⟩ ≠ 0) : ref d ⟨i, slot, q⟩ ≠ 0 := by
  intro hz
  rw [ref_cons, if_pos hz] at h
  exact h rfl

/-- Only the block buffer differs. -/
def OnlyBlk (s t : State) : Prop := ∃ b, t = { s with blkBuffer := b }

theorem OnlyBlk.flushed {s t : State} (h : OnlyBlk s t) : Fs.flushed i t = Fs.flushed i s := by
  obtain ⟨b, rfl⟩ := h
  rfl

theorem OnlyBlk.trans {s t u : State} (h : OnlyBlk s t) (h' : OnlyBlk t u) : OnlyBlk s u := by
  obtain ⟨b, rfl⟩ := h
  obtain ⟨c, rfl⟩ := h'
  exact ⟨c, rfl⟩

/-- The block at position `p` was found, without a write. -/
def Found (i : Nat) (s : State) (p : Pos) (r : Nat × State) : Prop :=
  r.1 = ref (flushed i s) p ∧ OnlyBlk s r.2

/-- A slot that has its block is found, and nothing is written. -/
theorem inodeLink_full (hs : slot < 19) (hne : ref (flushed i s) ⟨i, slot, []⟩ ≠ 0) :
    Holds (fun _ => False) (Found i s ⟨i, slot, []⟩)
      (inodeLink (inodePtr i) (32 + 4 * slot) (32 + 4 * slot) s) := by
  have hget : inodeGet s (inodePtr i) (32 + 4 * slot) = ref (flushed i s) ⟨i, slot, []⟩ :=
    inodeGet_eq i s (by omega)
  unfold inodeLink
  simp only [hget]
  rw [if_neg hne]
  exact ⟨rfl, s.blkBuffer, rfl⟩

/-- So is a word of an index block. -/
theorem indexLink_full (h : Owned (flushed i s)) (hlive : Pos.Live (flushed i s) ⟨i, slot, o :: q⟩)
    (hne : ref (flushed i s) ⟨i, slot, o :: q⟩ ≠ 0) :
    Holds (fun _ => False) (Found i s ⟨i, slot, o :: q⟩)
      (indexLink (inodePtr i) (ref (flushed i s) ⟨i, slot, q⟩) o s) := by
  unfold indexLink
  simp only [indexEntry_eq h hlive (ref_tail_ne hne)]
  rw [if_neg hne]
  exact ⟨rfl, _, rfl⟩

/-- One level further down from a position that was found. -/
theorem Found.indexLink {r : Nat × State} (hf : Found i s ⟨i, slot, q⟩ r)
    (h : Owned (flushed i s)) (hlive : Pos.Live (flushed i s) ⟨i, slot, o :: q⟩)
    (hne : ref (flushed i s) ⟨i, slot, o :: q⟩ ≠ 0) :
    Holds (fun _ => False) (Found i s ⟨i, slot, o :: q⟩) (Fs.indexLink (inodePtr i) r.1 o r.2) := by
  have hflush : flushed i r.2 = flushed i s := hf.2.flushed
  have hlink := indexLink_full (s := r.2) (by rw [hflush]; exact h) (by rw [hflush]; exact hlive)
    (by rw [hflush]; exact hne)
  rw [hflush, ← hf.1] at hlink
  refine hlink.mono fun r' hr' => ⟨?_, hf.2.trans hr'.2⟩
  rw [hr'.1, hflush]

/-- So is a path, by induction on it. -/
theorem linkPath_full (h : Owned (flushed i s)) (hi : InodeUsed (flushed i s) i) (path : List Nat)
    (hv : Pos.Valid ⟨i, slot, path⟩) (hne : ref (flushed i s) ⟨i, slot, path⟩ ≠ 0) :
    Holds (fun _ => False) (Found i s ⟨i, slot, path⟩) (linkPath (inodePtr i) slot path s) := by
  induction path with
  | nil => exact inodeLink_full hv.1 hne
  | cons o q ih =>
      exact (ih hv.tail (ref_tail_ne hne)).bind fun r hr => hr.indexLink h ⟨hv, hi⟩ hne

/-- A page that is there is found without a write. -/
theorem locatePage_full {page : Nat} (h : Owned (flushed i s)) (hi : InodeUsed (flushed i s) i)
    (hp : page < pageLimit) (hne : ref (flushed i s) (pagePos i page) ≠ 0) :
    Holds (fun _ => False)
      (fun r => r.1 = some (ref (flushed i s) (pagePos i page)) ∧ OnlyBlk s r.2)
      (locatePage (inodePtr i) page s) := by
  have hvalid := pagePos_valid i hp
  have hinode := pagePos_inode i page
  rw [locatePage_eq i hp]
  generalize pagePos i page = p at *
  obtain ⟨j, slot, path⟩ := p
  obtain rfl : j = i := hinode
  refine (linkPath_full h hi path hvalid hne).bind fun r hr => ?_
  exact ⟨congrArg some hr.1, hr.2⟩

/-- The inode stays loaded, and neither the disk nor a descriptor has changed. -/
structure Clean (i : Nat) (s t : State) : Prop where
  loaded : Loaded i t
  disk : t.disk = s.disk
  fdesc : t.fdescArray = s.fdescArray

/-- **`byte_locate` on a page that is there** leaves the disk as it was. -/
theorem byteLocate_full (hs : Loaded i s) (ho : o < 2 ^ 32) (hf : Filled s.disk i o) :
    Holds (fun _ => False)
      (fun r => r.1 = some (ref s.disk (pagePos i (o / 4096)), o % 4096) ∧ Clean i s r.2)
      (byteLocate (inodePtr i) o s) := by
  have hpage : o / 4096 < pageLimit := by
    unfold pageLimit
    omega
  unfold Filled at hf
  rw [hs.disk] at hf
  unfold byteLocate
  refine (locatePage_full (by rw [← hs.disk]; exact hs.owned) (by rw [← hs.disk]; exact hs.used)
    hpage hf).bind fun r hr => ?_
  obtain ⟨loc, t⟩ := r
  obtain ⟨hloc, b, hb⟩ := hr
  simp only at hloc hb ⊢
  subst hloc
  subst hb
  obtain ⟨t, ht⟩ : ∃ t, t = { s with blkBuffer := b } := ⟨_, rfl⟩
  have hflush : flushed i t = s.disk := by
    rw [hs.disk, ht]
    rfl
  have hid : inodeGet t (inodePtr i) inoInodeId = i := by
    rw [inodeGet_eq i _ (by decide), hflush, hs.id]
  rw [← ht]
  simp only [hid]
  have hdisk : (writeInode (i / 4) t).disk = s.disk := by
    rw [writeInode_disk hs.used.1, hflush]
  refine ⟨by rw [← hs.disk], ⟨⟨?_, ?_, ?_, ?_⟩, hdisk, by rw [ht]; rfl⟩⟩
  · rw [flushed_writeInode hs.used.1, hdisk, hflush]
  · rw [hdisk]
    exact hs.owned
  · rw [hdisk]
    exact hs.used
  · rw [hdisk]
    exact hs.id

end Full

/-! ## The loop -/

section Loop

variable {i fd : Nat}

/-- One page of the range, from offset `o` on. -/
theorem filled_page {d : Store} {o k : Nat} (ho : o < 2 ^ 32) (hk : o % 4096 + k < 4096) :
    Filled d i ((o + k) % 2 ^ 32) ↔ Filled d i o := by
  have hdiv : (o + k) % 2 ^ 32 / 4096 = o / 4096 := by omega
  unfold Filled
  rw [hdiv]

/-- The range after the first `n` bytes. -/
theorem FilledRange.drop {d : Store} {o n m : Nat} (h : FilledRange d i o (n + m)) :
    FilledRange d i ((o + n) % 2 ^ 32) m := by
  intro k hk
  have hstep := h (n + k) (by omega)
  rwa [← Nat.add_assoc, ← Nat.mod_add_mod] at hstep

/-- A read of pages that are all there leaves the disk as it was. -/
theorem freadLoop_full (rounds L B : Nat) (buff : Store) (s : State) (hs : Loaded i s)
    (hL : L ≤ rounds) (ho : (s.fdescArray fd).rdOffset < 2 ^ 32)
    (hf : FilledRange s.disk i (s.fdescArray fd).rdOffset L) :
    Holds (fun _ => False)
      (fun r => r.1 = some (B + L) ∧ Loaded i r.2.2 ∧ r.2.2.disk = s.disk ∧
        (r.2.2.fdescArray fd).rdOffset = ((s.fdescArray fd).rdOffset + L) % 2 ^ 32)
      (freadLoop (inodePtr i) fd rounds L B buff s) := by
  induction rounds generalizing L B buff s with
  | zero =>
      obtain rfl : L = 0 := by omega
      exact ⟨rfl, hs, rfl, (Nat.mod_eq_of_lt ho).symm⟩
  | succ rounds ih =>
      unfold freadLoop
      by_cases hz : L = 0
      · subst hz
        rw [if_pos rfl]
        exact ⟨rfl, hs, rfl, (Nat.mod_eq_of_lt ho).symm⟩
      · rw [if_neg hz]
        have hfirst := hf 0 (by omega)
        rw [Nat.add_zero, Nat.mod_eq_of_lt ho] at hfirst
        refine (byteLocate_full hs ho hfirst).bind fun r hr => ?_
        obtain ⟨loc, t⟩ := r
        obtain ⟨hloc, hclean⟩ := hr
        simp only at hloc hclean ⊢
        subst hloc
        set o := (s.fdescArray fd).rdOffset with hodef
        obtain ⟨n, hn⟩ : ∃ n, n = min L (4096 - o % 4096) := ⟨_, rfl⟩
        obtain ⟨b, hb⟩ : ∃ b, b = ref s.disk (pagePos i (o / 4096)) := ⟨_, rfl⟩
        have hfd : (readBlock b t).fdescArray fd = s.fdescArray fd := by
          rw [← hclean.fdesc]
          rfl
        simp only [← hn, ← hb, hfd, ← hodef]
        obtain ⟨m, rfl⟩ : ∃ m, L = n + m := ⟨L - n, by omega⟩
        rw [Nat.add_sub_cancel_left]
        obtain ⟨u, hu⟩ : ∃ u, u = setFdesc fd
          { s.fdescArray fd with rdOffset := (o + n) % 2 ^ 32 } (readBlock b t) := ⟨_, rfl⟩
        have hoff : (u.fdescArray fd).rdOffset = (o + n) % 2 ^ 32 := by
          rw [hu, setFdesc_fdescArray_self]
        have hdisk : u.disk = s.disk := by
          rw [hu, ← hclean.disk]
          rfl
        have hload : Loaded i u := by
          rw [hu]
          exact Loaded.setFdesc fd _ ⟨hclean.loaded.disk, hclean.loaded.owned, hclean.loaded.used,
            hclean.loaded.id⟩
        rw [← hu]
        refine (ih m (B + n) _ u hload (by omega) ?_ ?_).mono fun r hr => ?_
        · rw [hoff]
          exact Nat.mod_lt _ (by decide)
        · rw [hoff, hdisk]
          exact hf.drop
        · obtain ⟨hdone, hload', hdisk', hoff'⟩ := hr
          refine ⟨by rw [hdone, Nat.add_assoc], hload', hdisk'.trans hdisk, ?_⟩
          rw [hoff', hoff, Nat.mod_add_mod, Nat.add_assoc]

/-- A page that is there stays there. -/
theorem Kept.filled {s t : State} {x : Nat} (h : Kept i s t) (hs : Loaded i s) (hx : x < 2 ^ 32)
    (hf : Filled s.disk i x) : Filled t.disk i x := by
  have hpage : x / 4096 < pageLimit := by
    unfold pageLimit
    omega
  unfold Filled at hf ⊢
  rw [h.touched.ref_keep _ (pagePos_live hs.used hpage) hf]
  exact hf

/-- A range put together from its first page and the rest. -/
theorem FilledRange.append {d : Store} {o n m : Nat} (ho : o < 2 ^ 32) (hn : o % 4096 + n ≤ 4096)
    (hpage : Filled d i o) (hrest : FilledRange d i ((o + n) % 2 ^ 32) m) :
    FilledRange d i o (n + m) := by
  intro k hk
  by_cases hkn : k < n
  · exact (filled_page ho (by omega)).mpr hpage
  · have hstep := hrest (k - n) (by omega)
    rw [Nat.mod_add_mod] at hstep
    rwa [show o + n + (k - n) = o + k by omega] at hstep

/-- After a read every page of the range is there. -/
theorem freadLoop_fills (rounds L B : Nat) (buff : Store) (s : State) (hs : Loaded i s)
    (hL : L ≤ rounds) (ho : (s.fdescArray fd).rdOffset < 2 ^ 32) :
    Holds (· = Halt.noMoreBlocks)
      (fun r => r.1 = some (B + L) ∧ Kept i s r.2.2 ∧
        FilledRange r.2.2.disk i (s.fdescArray fd).rdOffset L)
      (freadLoop (inodePtr i) fd rounds L B buff s) := by
  induction rounds generalizing L B buff s with
  | zero =>
      obtain rfl : L = 0 := by omega
      exact ⟨rfl, .refl hs, fun k hk => absurd hk (Nat.not_lt_zero k)⟩
  | succ rounds ih =>
      unfold freadLoop
      by_cases hz : L = 0
      · subst hz
        rw [if_pos rfl]
        exact ⟨rfl, .refl hs, fun k hk => absurd hk (Nat.not_lt_zero k)⟩
      · rw [if_neg hz]
        refine (hs.byteLocate ho).bind fun r hr => ?_
        obtain ⟨loc, t⟩ := r
        obtain ⟨b, hb, href, hne, hst, hext⟩ := hr
        simp only at hb href hst hext ⊢
        subst hb
        set o := (s.fdescArray fd).rdOffset with hodef
        obtain ⟨n, hn⟩ : ∃ n, n = min L (4096 - o % 4096) := ⟨_, rfl⟩
        have hfd : (readBlock b t).fdescArray fd = s.fdescArray fd := by
          rw [← hext.fdesc]
          rfl
        simp only [← hn, hfd, ← hodef]
        obtain ⟨m, rfl⟩ : ∃ m, L = n + m := ⟨L - n, by omega⟩
        rw [Nat.add_sub_cancel_left]
        obtain ⟨u, hu⟩ : ∃ u, u = setFdesc fd
          { s.fdescArray fd with rdOffset := (o + n) % 2 ^ 32 } (readBlock b t) := ⟨_, rfl⟩
        have hoff : (u.fdescArray fd).rdOffset = (o + n) % 2 ^ 32 := by
          rw [hu, setFdesc_fdescArray_self]
        have hkept : Kept i s u := by
          rw [hu]
          exact (hst.readBlock b).kept.setFdesc fd _
        have hpage : Filled u.disk i o := by
          unfold Filled
          rw [hu]
          exact fun hcon => hne (href.symm.trans hcon)
        rw [← hu]
        refine (ih m (B + n) _ u hkept.loaded (by omega) ?_).mono fun r hr => ?_
        · rw [hoff]
          exact Nat.mod_lt _ (by decide)
        · obtain ⟨hdone, hkept', hrest⟩ := hr
          rw [hoff] at hrest
          refine ⟨by rw [hdone, Nat.add_assoc], hkept.trans hkept', ?_⟩
          exact .append ho (by omega) (hkept'.filled hkept.loaded ho hpage) hrest

end Loop

/-! ## The call -/

section Call

variable {s : State} {fd : Nat} {f : Fdesc}

/-- `do_fread` refuses: the bytes asked for end beyond the end of the file, in 32-bit
arithmetic. -/
def ReadRefused (d : Store) (f : Fdesc) (length : Int) : Prop :=
  ino d f.inodeId inoSize < (f.rdOffset + toU32 length) % 2 ^ 32

instance (d : Store) (f : Fdesc) (length : Int) : Decidable (ReadRefused d f length) :=
  inferInstanceAs (Decidable (_ < _))

/-- A refused read has only loaded the inode. -/
theorem doFread_refused (h : OpenOn s fd f) (hmode : f.mode ≠ oWronly) (buff : Store)
    {length : Int} (hr : ReadRefused s.disk f length) :
    doFread fd buff length s = .ok (0, buff, getInode f.inodeId s) := by
  have hdesc := h.desc
  unfold doFread
  rw [fdescAt_ofNat h.lt]
  change (if (s.fdescArray fd).mode = oWronly then _ else _) = _
  rw [hdesc, if_neg hmode, if_neg h.occupied]
  simp only [h.inodeGet_size]
  exact if_pos hr

/-- The state in which the call returns, after the loop: the size is stored and the sector
written back. -/
def readDone (i fd : Nat) (t : State) : State :=
  writeInode (i / 4) (inodeSet (inodePtr i) inoSize
    (max (ino t.disk i inoSize) (t.fdescArray fd).rdOffset) t)

/-- At the end of a read the size is raised to the offset. -/
theorem readDone_disk {i : Nat} {t : State} (h : Loaded i t) :
    (readDone i fd t).disk = wr32 t.disk (inoAddr i + inoSize)
      (max (ino t.disk i inoSize) (t.fdescArray fd).rdOffset) := by
  unfold readDone
  rw [writeInode_disk h.used.1, flushed_inodeSet i t (by decide), ← h.disk]

/-- A read that is not refused is its loop. -/
theorem doFread_reads (h : OpenOn s fd f) (hmode : f.mode ≠ oWronly) (buff : Store)
    {length : Int} (hr : ¬ReadRefused s.disk f length) {E : Halt → Prop}
    {P : Nat × Store × State → Prop}
    (hloop : Holds E
      (fun r => ∃ n, r.1 = some n ∧ Loaded f.inodeId r.2.2 ∧
        P (n, r.2.1, readDone f.inodeId fd r.2.2))
      (freadLoop (inodePtr f.inodeId) fd (toU32 length) (toU32 length) 0 buff
        (getInode f.inodeId s))) :
    Holds E P (doFread fd buff length s) := by
  have hdesc := h.desc
  unfold doFread
  rw [fdescAt_ofNat h.lt]
  change Holds _ _ (if (s.fdescArray fd).mode = oWronly then _ else _)
  rw [hdesc, if_neg hmode, if_neg h.occupied]
  simp only [h.inodeGet_size]
  rw [if_neg (show ¬(_ < _) from hr)]
  refine hloop.bind fun r hr => ?_
  obtain ⟨done, out, t⟩ := r
  obtain ⟨n, hdone, hload, hP⟩ := hr
  simp only at hdone hload hP ⊢
  subst hdone
  simp only [hload.inodeGet_setSize, hload.inodeGet (show inoSize + 4 ≤ 128 by decide)]
  exact hP

/-- Storing the size that is there. -/
theorem setSize_self (d : Store) (i : Nat) :
    wr32 d (inoAddr i + inoSize) (ino d i inoSize) = d := by
  funext k
  by_cases hk : inoAddr i + inoSize ≤ k ∧ k < inoAddr i + inoSize + 4
  · obtain ⟨m, rfl⟩ : ∃ m, k = inoAddr i + inoSize + m := ⟨k - (inoAddr i + inoSize), by omega⟩
    refine byte_eq_of_rd32 ?_ (by omega)
    exact rd32_wr32_of_lt d (rd32_lt _ _)
  · exact wr32_apply_of_ne d (by omega)

/-- A read that returns has put in every page of its range. -/
theorem doFread_fills (h : OpenOn s fd f) (hmode : f.mode ≠ oWronly) (hb : f.rdOffset < 2 ^ 32)
    (buff : Store) {length : Int} (hr : ¬ReadRefused s.disk f length) :
    Holds (· = Halt.noMoreBlocks)
      (fun r => r.1 = toU32 length ∧
        FilledRange r.2.2.disk f.inodeId f.rdOffset (toU32 length))
      (doFread fd buff length s) := by
  have hgd : (getInode f.inodeId s).fdescArray fd = f := h.desc
  have hloop := freadLoop_fills (toU32 length) (toU32 length) 0 buff _ h.loaded (le_refl _)
    (by rw [hgd]; exact hb)
  rw [hgd] at hloop
  refine doFread_reads h hmode buff hr (hloop.mono fun q hq => ?_)
  obtain ⟨hdone, hkept, hf⟩ := hq
  refine ⟨_, hdone, hkept.loaded, Nat.zero_add _, fun k hk => ?_⟩
  have hpage := hf k hk
  have hlt : (f.rdOffset + k) % 2 ^ 32 / 4096 < pageLimit := by
    unfold pageLimit
    omega
  unfold Filled at hpage ⊢
  rw [readDone_disk hkept.loaded, ref_setField hkept.loaded.used.1 (by decide)
    (pagePos_live hkept.loaded.used hlt)]
  exact hpage

/-- A read of pages that are all there returns, and the disk is as it was. -/
theorem doFread_full (h : OpenOn s fd f) (hmode : f.mode ≠ oWronly) (hb : f.rdOffset < 2 ^ 32)
    (buff : Store) {length : Int} (hr : ¬ReadRefused s.disk f length)
    (hf : FilledRange s.disk f.inodeId f.rdOffset (toU32 length)) :
    Holds (fun _ => False) (fun r => r.2.2.disk = s.disk) (doFread fd buff length s) := by
  have hgd : (getInode f.inodeId s).fdescArray fd = f := h.desc
  have hloop := freadLoop_full (toU32 length) (toU32 length) 0 buff _ h.loaded (le_refl _)
    (by rw [hgd]; exact hb) (by rw [hgd]; exact hf)
  rw [hgd] at hloop
  refine doFread_reads h hmode buff hr (hloop.mono fun q hq => ?_)
  obtain ⟨hdone, hload, hdisk, hoff⟩ := hq
  refine ⟨_, hdone, hload, ?_⟩
  -- the size cannot grow: the read ended inside the file
  have hin : (q.2.2.fdescArray fd).rdOffset ≤ ino s.disk f.inodeId inoSize := by
    rw [hoff]
    exact Nat.le_of_not_lt hr
  change (readDone _ fd q.2.2).disk = s.disk
  rw [readDone_disk hload, hdisk]
  change wr32 s.disk _ (max (ino s.disk _ inoSize) _) = s.disk
  rw [max_eq_left hin]
  exact setSize_self _ _

/-- **When a read is pure.**  For every descriptor that may read and every length (a negative
one counts modulo `2 ^ 32`, as in the code): the call returns with the disk as it was exactly
when it refuses or every page of the range has a block. -/
theorem fread_pure (h : WellFormed s) (hfd : fd < numFdescs)
    (hopen : (s.fdescArray fd).status ≠ fAvailable) (hmode : (s.fdescArray fd).mode ≠ oWronly)
    (hb : (s.fdescArray fd).rdOffset < 2 ^ 32) (buff : Store) (length : Int) :
    ReadPure s fd buff length ↔
      ReadRefused s.disk (s.fdescArray fd) length ∨
        FilledRange s.disk (s.fdescArray fd).inodeId (s.fdescArray fd).rdOffset (toU32 length) := by
  have hon := h.openOn hfd hopen
  by_cases hr : ReadRefused s.disk (s.fdescArray fd) length
  · exact iff_of_true ⟨_, doFread_refused hon hmode buff hr, rfl⟩ (Or.inl hr)
  · constructor
    · intro hpure
      obtain ⟨r, hret, hdisk⟩ := hpure
      have hf := ((doFread_fills hon hmode hb buff hr).of_ok hret).2
      rw [hdisk] at hf
      exact Or.inr hf
    · intro hcond
      have hread := doFread_full hon hmode hb buff hr (hcond.resolve_left hr)
      exact hread.exists_ok fun e he => he.elim

/-- The sample stays well formed under a call that returns. -/
theorem sample_after {op : FileOp} {b : Store} {x : Except Halt (Nat × State)}
    (ha : (view sampleState).Admissible op)
    (hop : runOp sampleState op = x.map fun r => ((r.1, b), r.2)) (hok : x.isOk = true) :
    WellFormed ((x.toOption.map Prod.snd).getD sampleState) := by
  cases x with
  | error e => cases hok
  | ok r => exact ((fileOp_refines sampleState_wellFormed ha).of_ok hop).2.2

/-- The sample with three bytes written to the file. -/
def writtenState : State :=
  ((doFwrite 0 (fun _ => 7) 3 sampleState).toOption.map Prod.snd).getD sampleState

/-- They are read through the other descriptor. -/
theorem fread_pure_written : ReadPure writtenState 1 zeros 3 := by
  have hadm : (view sampleState).Admissible (.fwrite 0 (fun _ => 7) 3) :=
    ⟨by decide, by decide, by decide⟩
  have hop : runOp sampleState (.fwrite 0 (fun _ => 7) 3) =
      (doFwrite 0 (fun _ => 7) 3 sampleState).map fun r => ((r.1, fun _ => 7), r.2) := by
    unfold runOp
    change (doFwrite 0 (fun _ => 7) 3 sampleState >>= _) = _
    cases doFwrite 0 (fun _ => 7) 3 sampleState <;> rfl
  have hw : WellFormed writtenState := sample_after hadm hop (by decide +kernel)
  refine (fread_pure hw (by decide) (by decide +kernel) (by decide +kernel) (by decide +kernel)
    zeros 3).mpr (Or.inr ?_)
  have hfilled : ∀ k < 3, ref writtenState.disk (pagePos 1 ((0 + k) % 2 ^ 32 / 4096)) ≠ 0 := by
    decide +kernel
  have hfile : (writtenState.fdescArray 1).inodeId = 1 := by decide +kernel
  have hoff : (writtenState.fdescArray 1).rdOffset = 0 := by decide +kernel
  rw [hfile, hoff]
  exact hfilled

/-- The sample after a seek to 4100 through the descriptor that writes. -/
def holeState : State :=
  ((doLseek 0 4100 0 0 sampleState).toOption.map Prod.snd).getD sampleState

/-- Reading the page that was skipped allocates a block for it. -/
theorem fread_fills_hole : WellFormed holeState ∧ ¬ReadPure holeState 1 zeros 5 := by
  have hadm : (view sampleState).Admissible (.lseek 0 4100 0 0) :=
    ⟨by decide, by decide, by decide, by decide⟩
  have hread : returns (fun r => bmap r.2.2.disk 2 = 1) (doFread 1 zeros 5 holeState) = true := by
    decide +kernel
  have hfree : bmap holeState.disk 2 = 0 := by decide +kernel
  have hop : runOp sampleState (.lseek 0 4100 0 0) =
      (doLseek 0 4100 0 0 sampleState).map fun r => ((r.1, zeros), r.2) := by
    unfold runOp
    change (doLseek 0 4100 0 0 sampleState >>= _) = _
    cases doLseek 0 4100 0 0 sampleState <;> rfl
  refine ⟨sample_after hadm hop (by decide +kernel), fun hpure => ?_⟩
  obtain ⟨r, hret, hdisk⟩ := hpure
  obtain ⟨r', hret', hused⟩ := exists_of_returns hread
  have hsame := hret.symm.trans hret'
  injection hsame with hret'
  rw [← hret', hdisk, hfree] at hused
  exact absurd hused (by decide)

end Call

end Fs
