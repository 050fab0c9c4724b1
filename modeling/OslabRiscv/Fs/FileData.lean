import OslabRiscv.Fs.Growth
import OslabRiscv.Fs.Files

/-!
# The bytes of a file

`fileByte d i x` is byte `x` of the file behind inode `i`, read through its
block tree with holes as zeros.  Growing the tree keeps every byte
(`Grown.fileByte`); storing a range in one data block changes exactly that
range (`fileByte_store`).  The two transfer loops repeat these steps, and
`freadLoop_spec` and `fwriteLoop_spec` say what a whole transfer does.

`Touched i d d'` is the frame all calls on one file share: the maps only gain
blocks of `i`, and nothing that belongs to another inode moves.
-/

namespace Fs

open ByteStore Outcome

/-! ## What a call on one file may touch -/

/-- Between `d` and `d'` only inode `i`, its tree and its data have changed. -/
structure Touched (i : Nat) (d d' : Store) : Prop where
  imap : ∀ j, j < 512 → imap d' j = imap d j
  bmap : ∀ c, c < 131072 → Fs.bmap d c ≠ 0 → Fs.bmap d' c = Fs.bmap d c
  bmap_new : ∀ c, c < 131072 → Fs.bmap d c = 0 → Fs.bmap d' c ≠ 0 →
    Fs.bmap d' c = 1 ∧ c ≠ 0 ∧ c < 4096 ∧ ∃ p : Pos, p.Live d ∧ p.inode = i ∧ ref d' p = c
  ref_keep : ∀ p : Pos, p.Live d → ref d p ≠ 0 → ref d' p = ref d p
  ref_other : ∀ p : Pos, p.Live d → p.inode ≠ i → ref d' p = ref d p
  ref_new : ∀ p : Pos, p.Live d → ref d p = 0 → ref d' p ≠ 0 →
    ref d' p < 131072 ∧ Fs.bmap d (ref d' p) = 0
  ino : ∀ j f, j < 512 → f + 4 ≤ 128 →
    j ≠ i ∨ f + 4 ≤ 20 ∨ (24 ≤ f ∧ f + 4 ≤ 28) ∨ 108 ≤ f → ino d' j f = ino d j f
  blk : ∀ c k, BlockUsed d c → k < 4096 →
    (∀ p : Pos, p.Live d → p.inode = i → ref d p = c → c = 0) → blkByte d' c k = blkByte d c k

/-- Growth touches one file. -/
theorem Grown.touched {i : Nat} {d d' : Store} (h : Grown i d d') : Touched i d d' where
  imap := h.imap
  bmap := h.bmap
  bmap_new := h.bmap_new
  ref_keep := h.ref_keep
  ref_other := h.ref_other
  ref_new := h.ref_new
  ino j f hj hf hne := h.ino j f hj hf (by omega)
  blk c k hc hk hown := h.blk c k hc hk fun p hp hpi _ => hown p hp hpi

theorem Touched.refl (i : Nat) (d : Store) : Touched i d d := (Grown.refl i d).touched

/-- What happens to the tree of a file that is touched. -/
theorem Touched.tree {i : Nat} {d d' : Store} (h : Touched i d d') : TreeGrown i d d' :=
  ⟨h.imap, h.bmap, h.bmap_new, h.ref_keep, h.ref_other, h.ref_new⟩

/-- The same positions are live. -/
theorem Touched.live {i : Nat} {d d' : Store} (h : Touched i d d') {p : Pos} :
    p.Live d' ↔ p.Live d :=
  h.tree.live

/-- A used block stays used. -/
theorem Touched.blockUsed {i : Nat} {d d' : Store} (h : Touched i d d') {c : Nat}
    (hc : BlockUsed d c) : BlockUsed d' c :=
  h.tree.blockUsed hc

theorem Touched.trans {i : Nat} {d d' d'' : Store} (h : Touched i d d')
    (h' : Touched i d' d'') : Touched i d d'' := by
  have ht := h.tree.trans h'.tree
  refine ⟨ht.imap, ht.bmap, ht.bmap_new, ht.ref_keep, ht.ref_other, ht.ref_new, ?_, ?_⟩
  · intro j f hj hf hne
    exact (h'.ino j f hj hf hne).trans (h.ino j f hj hf hne)
  · intro c k hc hk hown
    refine (h'.blk c k (h.blockUsed hc) hk ?_).trans (h.blk c k hc hk hown)
    intro p hp hpi heq
    have hlive := h.live.mp hp
    exact (h.tree.named_before hc hlive heq).elim id (hown p hlive hpi)

/-- Data of other inodes stays. -/
theorem Touched.data {i : Nat} {d d' : Store} (h : Touched i d d') (ho : Owned d) {p : Pos}
    (hp : p.Live d) (hpi : p.inode ≠ i) {k : Nat} (hk : k < 4096) :
    dataByte d' p k = dataByte d p k := by
  unfold dataByte
  rw [h.ref_other p hp hpi]
  by_cases hz : ref d p = 0
  · rw [if_pos hz, if_pos hz]
  · rw [if_neg hz, if_neg hz]
    apply h.blk _ _ (ho.used p hp hz) hk
    intro q hq hqi heq
    have hqp := ho.inj q p hq hp (by rw [heq]; exact hz) heq
    exact absurd (hqp ▸ hqi) hpi

/-! ## Storing data -/

section Store

variable {d : Store} {p : Pos} {o n b : Nat} {src : Store}

/-- Storing in the data block at `p` moves no pointer. -/
theorem ref_store (h : Owned d) (hp : p.Live d) (hpd : p.Data) (hn : o + n ≤ 4096)
    {q : Pos} (hq : q.Live d) :
    ref (blit d (blkAddr (ref d p) + o) src b n) q = ref d q := by
  obtain ⟨i, slot, path⟩ := q
  refine ref_congr ?_ ?_ hq.1
  · apply rd32_blit_of_ne
    have hi : i < 512 := hq.2.1
    have hs : slot < 19 := hq.1.1
    simp only [inoAddr, blkAddr]
    omega
  · intro o' q' hv hne
    have hlive : Pos.Live d ⟨i, slot, q'⟩ := ⟨hv.tail, hq.2⟩
    have ho' := hv.head_lt
    -- an index block is not the data block at `p`
    have hcne : ref d ⟨i, slot, q'⟩ ≠ ref d p := by
      intro heq
      have hpos := h.inj _ _ hlive hp hne heq
      exact hv.tail_not_data (hpos ▸ hpd)
    apply rd32_blit_of_ne
    simp only [blkAddr]
    omega

/-- Data that is stored leaves the owners of the blocks. -/
theorem owned_store (h : Owned d) (hp : p.Live d) (hpd : p.Data) (hn : o + n ≤ 4096) :
    Owned (blit d (blkAddr (ref d p) + o) src b n) := by
  have himap : ∀ j, j < 512 → imap (blit d (blkAddr (ref d p) + o) src b n) j = imap d j := by
    intro j hj
    apply blit_apply_of_ne
    simp only [blkAddr]
    omega
  have hbmap : ∀ c, c < 131072 →
      bmap (blit d (blkAddr (ref d p) + o) src b n) c = bmap d c := by
    intro c hc
    apply blit_apply_of_ne
    simp only [blkAddr]
    omega
  have hlive : ∀ q : Pos, q.Live (blit d (blkAddr (ref d p) + o) src b n) → q.Live d := by
    intro q hq
    exact ⟨hq.1, hq.2.1, by rw [← himap _ hq.2.1]; exact hq.2.2⟩
  refine ⟨by rw [hbmap 0 (by omega)]; exact h.zero_used, ?_, ?_⟩
  · intro q hq hne
    rw [ref_store h hp hpd hn (hlive q hq)] at hne ⊢
    have hu := h.used q (hlive q hq) hne
    exact ⟨hu.1, by rw [hbmap _ hu.1]; exact hu.2⟩
  · intro q q' hq hq' hne heq
    rw [ref_store h hp hpd hn (hlive q hq)] at hne heq
    rw [ref_store h hp hpd hn (hlive q' hq')] at heq
    exact h.inj q q' (hlive q hq) (hlive q' hq') hne heq

/-- Data that is stored touches its file. -/
theorem touched_store (h : Owned d) (hp : p.Live d) (hpd : p.Data) (hz : ref d p ≠ 0)
    (hn : o + n ≤ 4096) :
    Touched p.inode d (blit d (blkAddr (ref d p) + o) src b n) where
  imap j hj := by
    apply blit_apply_of_ne
    simp only [blkAddr]
    omega
  bmap c hc _ := by
    apply blit_apply_of_ne
    simp only [blkAddr]
    omega
  bmap_new c hc hzero hne := by
    have hsame : Fs.bmap (blit d (blkAddr (ref d p) + o) src b n) c = Fs.bmap d c := by
      apply blit_apply_of_ne
      simp only [blkAddr]
      omega
    exact absurd (hsame.trans hzero) hne
  ref_keep q hq _ := ref_store h hp hpd hn hq
  ref_other q hq _ := ref_store h hp hpd hn hq
  ref_new q hq hzero hne := absurd ((ref_store h hp hpd hn hq).trans hzero) hne
  ino j f hj hf _ := by
    apply rd32_blit_of_ne
    simp only [inoAddr, blkAddr]
    omega
  blk c k _ hk hown := by
    have hne : ref d p ≠ c := fun heq => hz (heq.trans (hown p hp rfl heq))
    apply blit_apply_of_ne
    simp only [blkAddr]
    omega

/-- The stored range is read back at `p`; every other data position keeps its
bytes. -/
theorem dataByte_store (h : Owned d) (hp : p.Live d) (hpd : p.Data) (hz : ref d p ≠ 0)
    (hn : o + n ≤ 4096) {q : Pos} (hq : q.Live d) {k : Nat} (hk : k < 4096) :
    dataByte (blit d (blkAddr (ref d p) + o) src b n) q k =
      if q = p ∧ o ≤ k ∧ k < o + n then src (b + (k - o)) else dataByte d q k := by
  unfold dataByte
  rw [ref_store h hp hpd hn hq]
  by_cases hin : q = p ∧ o ≤ k ∧ k < o + n
  · obtain ⟨hqp, hlo, hhi⟩ := hin
    subst hqp
    rw [if_neg hz, if_pos ⟨rfl, hlo, hhi⟩]
    unfold blkByte
    rw [blit_apply_of_mem _ _ (by omega) (by omega)]
    congr 1
    omega
  · rw [if_neg hin]
    by_cases hqz : ref d q = 0
    · rw [if_pos hqz, if_pos hqz]
    · rw [if_neg hqz, if_neg hqz]
      apply blit_apply_of_ne
      by_cases hqp : q = p
      · have hout : ¬(o ≤ k ∧ k < o + n) := fun hcon => hin ⟨hqp, hcon⟩
        rw [hqp]
        omega
      · have hne : ref d q ≠ ref d p := fun heq => hqp (h.inj q p hq hp hqz heq)
        simp only [blkAddr]
        omega

end Store

/-! ## File contents -/

/-- Byte `x` of the file behind inode `i`; holes read as zero. -/
def fileByte (d : Store) (i x : Nat) : UInt8 :=
  if x / 4096 < pageLimit then dataByte d (pagePos i (x / 4096)) (x % 4096) else 0

/-- The position of a page is live in an inode in use. -/
theorem pagePos_live {d : Store} {i page : Nat} (hi : InodeUsed d i) (hp : page < pageLimit) :
    (pagePos i page).Live d :=
  ⟨pagePos_valid i hp, by rw [pagePos_inode]; exact hi⟩

/-- Growth leaves the bytes of every file. -/
theorem Grown.fileByte {i : Nat} {d d' : Store} (h : Grown i d d') {j : Nat}
    (hj : InodeUsed d j) : fileByte d' j = fileByte d j := by
  funext x
  unfold Fs.fileByte
  by_cases hp : x / 4096 < pageLimit
  · rw [if_pos hp, if_pos hp]
    exact h.data _ (pagePos_live hj hp) (pagePos_data _ _) _ (Nat.mod_lt _ (by decide))
  · rw [if_neg hp, if_neg hp]

/-- Work on a file leaves the bytes of the others. -/
theorem Touched.fileByte {i : Nat} {d d' : Store} (h : Touched i d d') (ho : Owned d) {j : Nat}
    (hj : InodeUsed d j) (hne : j ≠ i) : fileByte d' j = fileByte d j := by
  funext x
  unfold Fs.fileByte
  by_cases hp : x / 4096 < pageLimit
  · rw [if_pos hp, if_pos hp]
    exact h.data ho (pagePos_live hj hp) (by rw [pagePos_inode]; exact hne)
      (Nat.mod_lt _ (by decide))
  · rw [if_neg hp, if_neg hp]

/-- Storing `n` bytes in the block of the page of `w` stores them in the file
at `w`. -/
theorem fileByte_store {d : Store} {i w n b : Nat} {src : Store} (h : Owned d)
    (hi : InodeUsed d i) (hw : w / 4096 < pageLimit)
    (hz : ref d (pagePos i (w / 4096)) ≠ 0) (hn : w % 4096 + n ≤ 4096) :
    fileByte (blit d (blkAddr (ref d (pagePos i (w / 4096))) + w % 4096) src b n) i =
      blit (fileByte d i) w src b n := by
  funext x
  have hp := pagePos_live hi hw
  unfold fileByte
  by_cases hx : x / 4096 < pageLimit
  · rw [if_pos hx, dataByte_store h hp (pagePos_data _ _) hz hn (pagePos_live hi hx)
      (Nat.mod_lt _ (by decide))]
    by_cases hin : w ≤ x ∧ x < w + n
    · have hpage : x / 4096 = w / 4096 := by omega
      rw [if_pos ⟨by rw [hpage], by omega, by omega⟩, blit_apply_of_mem _ _ hin.1 hin.2]
      congr 1
      omega
    · rw [blit_apply_of_ne _ _ (by omega), if_pos hx, if_neg]
      intro hcon
      have hpage := pagePos_inj hcon.1
      omega
  · rw [if_neg hx, blit_apply_of_ne _ _ (by omega), if_neg hx]

/-! ## One transfer -/

/-- The sector buffer holds inode `i`, as it is on disk. -/
structure Loaded (i : Nat) (s : State) : Prop where
  disk : s.disk = flushed i s
  owned : Owned s.disk
  used : InodeUsed s.disk i
  id : ino s.disk i inoInodeId = i

/-- From `s` to `s'` the `n` bytes of `src` from `b` on have been stored in file
`i` at offset `w`, and nothing else has been done to a file. -/
structure Stored (i w n : Nat) (src : Store) (b : Nat) (s s' : State) : Prop where
  loaded : Loaded i s'
  touched : Touched i s.disk s'.disk
  field : ∀ f, f + 4 ≤ 28 → ino s'.disk i f = ino s.disk i f
  bytes : fileByte s'.disk i = blit (fileByte s.disk i) w src b n

section Stored

variable {i w n m b : Nat} {src : Store} {s s' s'' : State}

theorem Stored.refl (h : Loaded i s) : Stored i w 0 src b s s where
  loaded := h
  touched := .refl i _
  field _ _ := rfl
  bytes := (blit_zero _ _ _ _).symm

/-- Consecutive transfers are one transfer. -/
theorem Stored.trans (h : Stored i w n src b s s')
    (h' : Stored i (w + n) m src (b + n) s' s'') : Stored i w (n + m) src b s s'' where
  loaded := h'.loaded
  touched := h.touched.trans h'.touched
  field f hf := (h'.field f hf).trans (h.field f hf)
  bytes := by rw [h'.bytes, h.bytes, blit_append]

/-- A call that stored no byte is the start of any transfer. -/
theorem Stored.empty_trans {w' b' : Nat} {src' : Store} (h : Stored i w' 0 src' b' s s')
    (h' : Stored i w n src b s' s'') : Stored i w n src b s s'' where
  loaded := h'.loaded
  touched := h.touched.trans h'.touched
  field f hf := (h'.field f hf).trans (h.field f hf)
  bytes := by rw [h'.bytes, h.bytes, blit_zero]

/-- `byte_locate` stores nothing. -/
theorem Located.stored {p : Pos} (hs : Loaded i s) (h : Located i s p b s')
    (hd : s'.disk = flushed i s') : Stored i 0 0 zeros 0 s s' := by
  have hg := h.grown
  rw [← hs.disk, ← hd] at hg
  have hfield : ∀ f, f + 4 ≤ 28 → ino s'.disk i f = ino s.disk i f :=
    fun f hf => hg.ino i f hs.used.1 (by omega) (Or.inr (Or.inl hf))
  refine ⟨⟨hd, by rw [hd]; exact h.owned, ?_, ?_⟩, hg.touched, hfield, ?_⟩
  · exact ⟨hs.used.1, by rw [hg.imap i hs.used.1]; exact hs.used.2⟩
  · rw [hfield inoInodeId (by decide)]
    exact hs.id
  · rw [blit_zero, hg.fileByte hs.used]

/-- The block buffer goes to its block. -/
theorem writeBlock_disk (hb : b < 131072) (s : State) :
    (writeBlock b s).disk = blit s.disk (blkAddr b) s.blkBuffer 0 4096 := by
  unfold writeBlock sdWrite
  simp only [blockSector_addr hb]

/-- Read, modify and write the block of the page of `w`. -/
theorem stored_writeBlock {B : Nat} (hs : Loaded i s) (hw : w / 4096 < pageLimit)
    (href : ref s.disk (pagePos i (w / 4096)) = b) (hb : b ≠ 0) (hn : w % 4096 + n ≤ 4096) :
    Stored i w n src B s (writeBlock b
      { readBlock b s with
        blkBuffer := blit (readBlock b s).blkBuffer (w % 4096) src B n }) := by
  have hlive := pagePos_live hs.used hw
  have hdata := pagePos_data i (w / 4096)
  have hlt : b < 131072 := href ▸ (hs.owned.used _ hlive (by rw [href]; exact hb)).1
  have hcache : Caches (readBlock b s).blkBuffer s.disk (blkAddr b) 4096 := by
    have h := readBlock_caches hs.used.1 hlt s
    rwa [← hs.disk] at h
  have hblit : ∀ d, Caches (readBlock b s).blkBuffer d (blkAddr b) 4096 →
      blit d (blkAddr b) (blit (readBlock b s).blkBuffer (w % 4096) src B n) 0 4096 =
        blit d (blkAddr b + w % 4096) src B n := by
    intro d hd
    rw [store_blit _ _ _ hn, hd.store_eq]
  have hdisk : (writeBlock b
      { readBlock b s with
        blkBuffer := blit (readBlock b s).blkBuffer (w % 4096) src B n }).disk =
      blit s.disk (blkAddr b + w % 4096) src B n := by
    rw [writeBlock_disk hlt]
    exact hblit s.disk hcache
  have hflush : flushed i (writeBlock b
      { readBlock b s with
        blkBuffer := blit (readBlock b s).blkBuffer (w % 4096) src B n }) =
      blit s.disk (blkAddr b + w % 4096) src B n := by
    rw [flushed_writeBlock hs.used.1 hlt]
    refine Eq.trans ?_ (hblit s.disk hcache)
    congr 1
    exact hs.disk.symm
  have htouch : Touched (pagePos i (w / 4096)).inode s.disk
      (blit s.disk (blkAddr (ref s.disk (pagePos i (w / 4096))) + w % 4096) src B n) :=
    touched_store hs.owned hlive hdata (by rw [href]; exact hb) hn
  have hfield : ∀ f, f + 4 ≤ 128 →
      ino (blit s.disk (blkAddr b + w % 4096) src B n) i f = ino s.disk i f := by
    intro f hf
    have hi := hs.used.1
    apply rd32_blit_of_ne
    simp only [inoAddr, blkAddr]
    omega
  rw [pagePos_inode, href] at htouch
  refine ⟨⟨hdisk.trans hflush.symm, ?_, ?_, ?_⟩, by rw [hdisk]; exact htouch, ?_, ?_⟩
  · rw [hdisk, ← href]
    exact owned_store hs.owned hlive hdata hn
  · rw [hdisk]
    exact ⟨hs.used.1, by rw [htouch.imap i hs.used.1]; exact hs.used.2⟩
  · rw [hdisk, hfield _ (by decide)]
    exact hs.id
  · intro f hf
    rw [hdisk, hfield f (by omega)]
  · rw [hdisk, ← href]
    exact fileByte_store hs.owned hs.used hw (by rw [href]; exact hb) hn

end Stored

end Fs
