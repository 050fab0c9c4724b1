import OslabRiscv.Fs.Transfer

/-!
# Calls on a descriptor stay in its file

Lengths and seek offsets come from the user unchecked: a negative length is a
huge one, and offsets wrap around at 4GB.  What a transfer then delivers is of
no interest, but it still must not reach another file.  `doFread_moved`,
`doFwrite_moved` and `doLseek_moved` say so for every argument.
-/

namespace Fs

open ByteStore Outcome

/-- The offsets of a descriptor are 32-bit numbers. -/
def Fdesc.Bounded (f : Fdesc) : Prop := f.rdOffset < 2 ^ 32 ∧ f.wrOffset < 2 ^ 32

/-- The call worked on the file of descriptor `fd`, which was `f`: only that
file and the offsets of that descriptor have changed. -/
structure Moved (s : State) (fd : Nat) (f : Fdesc) (s' : State) : Prop where
  owned : Owned s'.disk
  touched : Touched f.inodeId s.disk s'.disk
  fdesc : ∃ g : Fdesc, g.inodeId = f.inodeId ∧ g.status = f.status ∧ g.Bounded ∧
    Extends (setFdesc fd g s) s'

/-- The inode stays loaded while only its file changes. -/
structure Kept (i : Nat) (s s' : State) : Prop where
  loaded : Loaded i s'
  touched : Touched i s.disk s'.disk

section Loops

variable {i fd : Nat} {s s' s'' : State}

/-- Storing into the file keeps its inode loaded. -/
theorem Stored.kept {w n b : Nat} {src : Store} (h : Stored i w n src b s s') : Kept i s s' :=
  ⟨h.loaded, h.touched⟩

theorem Kept.refl (h : Loaded i s) : Kept i s s := ⟨h, .refl i _⟩

theorem Kept.trans (h : Kept i s s') (h' : Kept i s' s'') : Kept i s s'' :=
  ⟨h'.loaded, h.touched.trans h'.touched⟩

/-- A descriptor is set. -/
theorem Kept.setFdesc (fd : Nat) (f : Fdesc) (h : Kept i s s') : Kept i s (setFdesc fd f s') :=
  ⟨h.loaded.setFdesc fd f, h.touched⟩

/-- The state inside a transfer loop: the file was kept and the read offset of
the descriptor is some 32-bit number. -/
def Reading (i fd : Nat) (s s' : State) : Prop :=
  Kept i s s' ∧ ∃ o, o < 2 ^ 32 ∧
    Extends (setFdesc fd { s.fdescArray fd with rdOffset := o } s) s'

/-- The same for the write offset. -/
def Writing (i fd : Nat) (s s' : State) : Prop :=
  Kept i s s' ∧ ∃ o, o < 2 ^ 32 ∧
    Extends (setFdesc fd { s.fdescArray fd with wrOffset := o } s) s'

theorem Reading.refl (hs : Loaded i s) (ho : (s.fdescArray fd).rdOffset < 2 ^ 32) :
    Reading i fd s s := by
  refine ⟨.refl hs, (s.fdescArray fd).rdOffset, ho, ?_⟩
  rw [setFdesc_self]
  exact .refl s

theorem Writing.refl (hs : Loaded i s) (ho : (s.fdescArray fd).wrOffset < 2 ^ 32) :
    Writing i fd s s := by
  refine ⟨.refl hs, (s.fdescArray fd).wrOffset, ho, ?_⟩
  rw [setFdesc_self]
  exact .refl s

theorem Reading.trans (h : Reading i fd s s') (h' : Reading i fd s' s'') :
    Reading i fd s s'' := by
  obtain ⟨hk, o, _, hext⟩ := h
  obtain ⟨hk', o', ho', hext'⟩ := h'
  refine ⟨hk.trans hk', o', ho', ?_⟩
  have hdesc : s'.fdescArray fd = { s.fdescArray fd with rdOffset := o } := by
    rw [hext.fdesc, setFdesc_fdescArray_self]
  rw [hdesc] at hext'
  have hmid := hext.setFdesc fd { s.fdescArray fd with rdOffset := o' }
  rw [setFdesc_setFdesc] at hmid
  exact hmid.trans hext'

theorem Writing.trans (h : Writing i fd s s') (h' : Writing i fd s' s'') :
    Writing i fd s s'' := by
  obtain ⟨hk, o, _, hext⟩ := h
  obtain ⟨hk', o', ho', hext'⟩ := h'
  refine ⟨hk.trans hk', o', ho', ?_⟩
  have hdesc : s'.fdescArray fd = { s.fdescArray fd with wrOffset := o } := by
    rw [hext.fdesc, setFdesc_fdescArray_self]
  rw [hdesc] at hext'
  have hmid := hext.setFdesc fd { s.fdescArray fd with wrOffset := o' }
  rw [setFdesc_setFdesc] at hmid
  exact hmid.trans hext'

/-- The loop of `do_fread`, by induction on its rounds. -/
theorem freadLoop_kept (rounds L B : Nat) (buff : Store) (s : State) (hs : Loaded i s)
    (ho : (s.fdescArray fd).rdOffset < 2 ^ 32) :
    Holds (· = Halt.noMoreBlocks) (fun r => Reading i fd s r.2.2)
      (freadLoop (inodePtr i) fd rounds L B buff s) := by
  induction rounds generalizing L B buff s with
  | zero => exact Reading.refl hs ho
  | succ rounds ih =>
      unfold freadLoop
      by_cases hz : L = 0
      · rw [if_pos hz]
        exact Reading.refl hs ho
      · rw [if_neg hz]
        refine (hs.byteLocate ho).bind fun r hr => ?_
        obtain ⟨loc, t⟩ := r
        obtain ⟨b, hb, _, _, hst, hext⟩ := hr
        simp only at hb hst hext ⊢
        subst hb
        have hfd : (readBlock b t).fdescArray fd = s.fdescArray fd := by
          rw [← hext.fdesc]
          rfl
        simp only [hfd]
        obtain ⟨o, hodef⟩ : ∃ o, o = ((s.fdescArray fd).rdOffset +
          min L (4096 - (s.fdescArray fd).rdOffset % 4096)) % 2 ^ 32 := ⟨_, rfl⟩
        have holt : o < 2 ^ 32 := hodef ▸ Nat.mod_lt _ (by decide)
        rw [← hodef]
        have hround : Reading i fd s (setFdesc fd { s.fdescArray fd with rdOffset := o }
            (readBlock b t)) :=
          ⟨(hst.readBlock b).kept.setFdesc fd _, o, holt, (hext.readBlock b).setFdesc fd _⟩
        refine (ih _ _ _ _ hround.1.loaded ?_).mono fun r hr => hround.trans hr
        rw [setFdesc_fdescArray_self]
        exact holt

/-- The loop of `do_fwrite`, by induction on its rounds. -/
theorem fwriteLoop_kept (buff : Store) (rounds L B : Nat) (s : State) (hs : Loaded i s)
    (ho : (s.fdescArray fd).wrOffset < 2 ^ 32) :
    Holds (· = Halt.noMoreBlocks)
      (fun r => Writing i fd s r.2 ∧ (L ≤ rounds → r.1 = some (B + L)))
      (fwriteLoop (inodePtr i) fd buff rounds L B s) := by
  induction rounds generalizing L B s with
  | zero => exact ⟨Writing.refl hs ho, fun hL => by rw [Nat.le_zero.mp hL, Nat.add_zero]⟩
  | succ rounds ih =>
      unfold fwriteLoop
      by_cases hz : L = 0
      · rw [if_pos hz]
        exact ⟨Writing.refl hs ho, fun _ => by rw [hz, Nat.add_zero]⟩
      · rw [if_neg hz]
        refine (hs.byteLocate ho).bind fun r hr => ?_
        obtain ⟨loc, t⟩ := r
        obtain ⟨b, hb, href, hne, hst, hext⟩ := hr
        simp only at hb href hst hext ⊢
        subst hb
        have hpage : (s.fdescArray fd).wrOffset / 4096 < pageLimit := by
          unfold pageLimit
          omega
        have hlt : b < 131072 := href ▸ (hst.loaded.owned.used _
          (pagePos_live hst.loaded.used hpage) (by rw [href]; exact hne)).1
        obtain ⟨n, hn⟩ : ∃ n, n = min L (4096 - (s.fdescArray fd).wrOffset % 4096) := ⟨_, rfl⟩
        simp only [← hn]
        obtain ⟨u, hu⟩ : ∃ u, u = writeBlock b { readBlock b t with
          blkBuffer := blit (readBlock b t).blkBuffer ((s.fdescArray fd).wrOffset % 4096)
            buff B n } := ⟨_, rfl⟩
        have hfd : u.fdescArray fd = s.fdescArray fd := by
          rw [hu, ← hext.fdesc]
          rfl
        have hwrite : Stored i (s.fdescArray fd).wrOffset n buff B t u :=
          hu ▸ stored_writeBlock hst.loaded hpage href hne (by omega)
        have hextu : Extends s u := hu ▸ ((hext.readBlock b).setBlk _).writeBlock hlt
        simp only [← hu, hfd]
        obtain ⟨o, hodef⟩ : ∃ o, o = ((s.fdescArray fd).wrOffset + n) % 2 ^ 32 := ⟨_, rfl⟩
        have holt : o < 2 ^ 32 := hodef ▸ Nat.mod_lt _ (by decide)
        rw [← hodef]
        have hround : Writing i fd s (setFdesc fd { s.fdescArray fd with wrOffset := o } u) :=
          ⟨(hst.empty_trans hwrite).kept.setFdesc fd _, o, holt, hextu.setFdesc fd _⟩
        refine (ih _ _ _ hround.1.loaded ?_).mono fun r hr => ⟨hround.trans hr.1, fun hL => ?_⟩
        · rw [setFdesc_fdescArray_self]
          exact holt
        · rw [hr.2 (by omega)]
          congr 1
          omega

end Loops

/-! ## The calls -/

section Calls

variable {s t : State} {fd : Nat} {f : Fdesc}

/-- The last sector write of a call keeps the file, whatever size it stores. -/
theorem Kept.finish {i v : Nat} (h : Kept i s t) :
    Owned (writeInode (i / 4) (inodeSet (inodePtr i) inoSize v t)).disk ∧
      Touched i s.disk (writeInode (i / 4) (inodeSet (inodePtr i) inoSize v t)).disk := by
  have hl := h.loaded
  rw [writeInode_disk hl.used.1, flushed_inodeSet i t (by decide), ← hl.disk]
  exact ⟨owned_setField hl.owned hl.used.1 (by decide), h.touched.trans (touched_setSize hl.used.1)⟩

/-- A call that changed nothing but buffers. -/
theorem Moved.of_extends (h : OpenOn s fd f) (hb : f.Bounded) (hd : t.disk = s.disk)
    (hext : Extends s t) : Moved s fd f t := by
  refine ⟨by rw [hd]; exact h.owned, by rw [hd]; exact .refl _ _, f, rfl, rfl, hb, ?_⟩
  rw [← h.desc, setFdesc_self]
  exact hext

/-- `do_fread` changes its file and its descriptor only. -/
theorem doFread_moved (h : OpenOn s fd f) (hb : f.Bounded) (buff : Store) (length : Int) :
    Holds (· = Halt.noMoreBlocks) (fun r => Moved s fd f r.2.2) (doFread fd buff length s) := by
  have hdesc := h.desc
  have hquit : Moved s fd f (getInode f.inodeId s) :=
    .of_extends h hb rfl ((Extends.refl s).getInode _)
  unfold doFread
  rw [fdescAt_ofNat h.lt]
  change Holds _ _ (if (s.fdescArray fd).mode = oWronly then _ else _)
  rw [hdesc]
  by_cases hmode : f.mode = oWronly
  · rw [if_pos hmode]
    exact .of_extends h hb rfl (.refl s)
  · rw [if_neg hmode, if_neg h.occupied]
    simp only [h.inodeGet_size]
    by_cases hshort : ino s.disk f.inodeId inoSize < (f.rdOffset + toU32 length) % 2 ^ 32
    · rw [if_pos hshort]
      exact hquit
    · rw [if_neg hshort]
      have hgd : (getInode f.inodeId s).fdescArray fd = f := hdesc
      have hloop := freadLoop_kept (toU32 length) (toU32 length) 0 buff (getInode f.inodeId s)
        h.loaded (by rw [hgd]; exact hb.1)
      refine hloop.bind fun r hr => ?_
      obtain ⟨done, out, u⟩ := r
      obtain ⟨hkept, o, ho, hext⟩ := hr
      rw [hgd] at hext
      cases done with
      | none =>
          exact ⟨hkept.loaded.owned, hkept.touched, { f with rdOffset := o }, rfl, rfl,
            ⟨ho, hb.2⟩, hext.of_getInode⟩
      | some n =>
          simp only [hkept.loaded.inodeGet_setSize]
          have hfin := hkept.finish (v := max (inodeGet u (inodePtr f.inodeId) inoSize)
            (u.fdescArray fd).rdOffset)
          exact ⟨hfin.1, hfin.2, { f with rdOffset := o }, rfl, rfl, ⟨ho, hb.2⟩,
            (hext.of_getInode.inodeSet _ _ _).writeInode h.used.1⟩

/-- `do_fwrite` changes its file and its descriptor only. -/
theorem doFwrite_moved (h : OpenOn s fd f) (hb : f.Bounded) (buff : Store) (length : Int) :
    Holds (· = Halt.noMoreBlocks) (fun r => Moved s fd f r.2) (doFwrite fd buff length s) := by
  have hdesc := h.desc
  unfold doFwrite
  rw [fdescAt_ofNat h.lt]
  change Holds _ _ (if (s.fdescArray fd).mode = oRdonly then _ else _)
  rw [hdesc]
  by_cases hmode : f.mode = oRdonly
  · rw [if_pos hmode]
    exact .of_extends h hb rfl (.refl s)
  · rw [if_neg hmode, if_neg h.occupied]
    by_cases hbig : 2 ^ 32 < (f.wrOffset + toU32 length) % 2 ^ 32
    · simp only [if_pos hbig]
      exact .of_extends h hb rfl (.refl s)
    · simp only [if_neg hbig]
      have hgd : (getInode f.inodeId s).fdescArray fd = f := hdesc
      have hloop := fwriteLoop_kept buff (toU32 length) (toU32 length) 0 (getInode f.inodeId s)
        h.loaded (by rw [hgd]; exact hb.2)
      refine hloop.bind fun r hr => ?_
      obtain ⟨done, u⟩ := r
      obtain ⟨⟨hkept, o, ho, hext⟩, _⟩ := hr
      rw [hgd] at hext
      cases done with
      | none =>
          exact ⟨hkept.loaded.owned, hkept.touched, { f with wrOffset := o }, rfl, rfl,
            ⟨hb.1, ho⟩, hext.of_getInode⟩
      | some n =>
          simp only [hkept.loaded.inodeGet_setSize]
          have hfin := hkept.finish (v := max (inodeGet u (inodePtr f.inodeId) inoSize)
            (u.fdescArray fd).wrOffset)
          exact ⟨hfin.1, hfin.2, { f with wrOffset := o }, rfl, rfl, ⟨hb.1, ho⟩,
            (hext.of_getInode.inodeSet _ _ _).writeInode h.used.1⟩

/-- An unsigned number has 32 bits. -/
theorem toU32_lt (x : Int) : toU32 x < 2 ^ 32 := by
  unfold toU32
  omega

/-- So has the offset of a seek. -/
theorem seekTarget_lt {offset : Int} {whence base size junk : Nat} (hj : junk < 2 ^ 32) :
    seekTarget offset whence base size junk < 2 ^ 32 := by
  unfold seekTarget
  split_ifs
  · exact toU32_lt _
  · exact toU32_lt _
  · exact toU32_lt _
  · exact hj

/-- The write half of a seek keeps the file. -/
theorem seekExtend_kept {i size target : Nat} (hs : Loaded i s) (ht : target < 2 ^ 32) :
    Holds (· = Halt.noMoreBlocks)
      (fun t => Owned (writeInode (i / 4) t).disk ∧ Touched i s.disk (writeInode (i / 4) t).disk ∧
        Extends s t)
      (seekExtend (inodePtr i) size target s) := by
  unfold seekExtend
  by_cases hlt : size < target
  · rw [if_pos hlt]
    refine (hs.byteLocate ht).bind fun r hr => ?_
    obtain ⟨loc, t⟩ := r
    obtain ⟨b, _, _, _, hst, hext⟩ := hr
    have hfin := hst.kept.finish (v := target)
    exact ⟨hfin.1, hfin.2, hext.inodeSet _ _ _⟩
  · rw [if_neg hlt]
    have hupd := writeInode_updated hs
    exact ⟨hupd.owned, hupd.touched, .refl s⟩

/-- `do_lseek` changes its file and its descriptor only. -/
theorem doLseek_moved (h : OpenOn s fd f) (hb : f.Bounded) (offset : Int) (whence : Nat)
    {junk : Nat} (hj : junk < 2 ^ 32) :
    Holds (· = Halt.noMoreBlocks) (fun r => Moved s fd f r.2)
      (doLseek fd offset whence junk s) := by
  have hdesc := h.desc
  unfold doLseek
  rw [fdescAt_ofNat h.lt]
  change Holds _ _ (if (s.fdescArray fd).status = fAvailable then _ else _)
  rw [hdesc, if_neg h.occupied]
  simp only [h.inodeGet_size]
  obtain ⟨rt, hrt⟩ : ∃ rt, rt = seekTarget offset whence f.rdOffset
    (ino s.disk f.inodeId inoSize) junk := ⟨_, rfl⟩
  have hrtlt : rt < 2 ^ 32 := hrt ▸ seekTarget_lt hj
  rw [← hrt]
  by_cases hpast : f.mode &&& 1 ≠ 0 ∧ ino s.disk f.inodeId inoSize < rt
  · rw [if_pos hpast]
    exact .of_extends h hb rfl ((Extends.refl s).getInode _)
  · rw [if_neg hpast]
    obtain ⟨g, hg⟩ : ∃ g, g = (if f.mode &&& 1 ≠ 0 then { f with rdOffset := rt } else f) :=
      ⟨_, rfl⟩
    have hgi : g.inodeId = f.inodeId ∧ g.status = f.status ∧ g.Bounded := by
      rw [hg]
      by_cases hm : f.mode &&& 1 ≠ 0
      · rw [if_pos hm]
        exact ⟨rfl, rfl, hrtlt, hb.2⟩
      · rw [if_neg hm]
        exact ⟨rfl, rfl, hb⟩
    obtain ⟨junk', hjunk'⟩ : ∃ j, j = (if f.mode &&& 1 ≠ 0 then rt else junk) := ⟨_, rfl⟩
    have hjlt : junk' < 2 ^ 32 := by
      rw [hjunk']
      by_cases hm : f.mode &&& 1 ≠ 0
      · rw [if_pos hm]
        exact hrtlt
      · rw [if_neg hm]
        exact hj
    have hld := h.loaded.setFdesc fd g
    simp only [← hg, ← hjunk']
    rw [hgi.1]
    by_cases hm : g.mode &&& 2 ≠ 0
    · rw [if_pos hm]
      obtain ⟨wt, hwt⟩ : ∃ wt, wt = seekTarget offset whence g.wrOffset
        (ino s.disk f.inodeId inoSize) junk' := ⟨_, rfl⟩
      have hwtlt : wt < 2 ^ 32 := hwt ▸ seekTarget_lt hjlt
      rw [← hwt]
      refine (seekExtend_kept hld hwtlt).bind fun t ht => ?_
      obtain ⟨howned, htouch, hext⟩ := ht
      refine ⟨howned, htouch, ⟨f.inodeId, g.status, g.mode, g.rdOffset, wt⟩, rfl, hgi.2.1,
        ⟨hgi.2.2.1, hwtlt⟩, ?_⟩
      have hext' := (hext.setFdesc fd ⟨f.inodeId, g.status, g.mode, g.rdOffset, wt⟩).writeInode
        h.used.1
      rw [setFdesc_setFdesc] at hext'
      exact hext'.of_getInode
    · rw [if_neg hm]
      have hupd := writeInode_updated hld
      refine ⟨hupd.owned, hupd.touched, g, hgi.1, hgi.2.1, hgi.2.2, ?_⟩
      exact (Extends.writeInode h.used.1 (.refl _)).of_getInode

end Calls

end Fs
