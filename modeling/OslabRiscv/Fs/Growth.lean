import OslabRiscv.Fs.Locate

/-!
# How `byte_locate` grows a file

The tree of a file only ever grows: `Grown i d d'` collects what stays fixed
when blocks are added to the tree of inode `i`.  It composes, one new pointer
is an instance (`grown_linkAt`), and each of the two linking helpers of
`byte_locate` performs at most one such step (`inodeLink_spec`,
`indexLink_spec`).  `byteLocate_spec` chains them along the page's position.
-/

namespace Fs

open ByteStore Outcome

/-! ## Growing one inode -/

/-- Byte `k` of the data block at a position; a missing block reads as zero. -/
def dataByte (d : Store) (p : Pos) (k : Nat) : UInt8 :=
  if ref d p = 0 then 0 else blkByte d (ref d p) k

/-- The map and reference part of growth: between `d` and `d'` the inode map
is unchanged, and blocks and references were only added, for inode `i`. -/
structure TreeGrown (i : Nat) (d d' : Store) : Prop where
  imap : ∀ j, j < 512 → imap d' j = imap d j
  bmap : ∀ c, c < 131072 → Fs.bmap d c ≠ 0 → Fs.bmap d' c = Fs.bmap d c
  bmap_new : ∀ c, c < 131072 → Fs.bmap d c = 0 → Fs.bmap d' c ≠ 0 →
    Fs.bmap d' c = 1 ∧ c ≠ 0 ∧ c < 4096 ∧ ∃ p : Pos, p.Live d ∧ p.inode = i ∧ ref d' p = c
  ref_keep : ∀ p : Pos, p.Live d → ref d p ≠ 0 → ref d' p = ref d p
  ref_other : ∀ p : Pos, p.Live d → p.inode ≠ i → ref d' p = ref d p
  ref_new : ∀ p : Pos, p.Live d → ref d p = 0 → ref d' p ≠ 0 →
    ref d' p < 131072 ∧ Fs.bmap d (ref d' p) = 0

/-- The same positions are live. -/
theorem TreeGrown.live {i : Nat} {d d' : Store} (h : TreeGrown i d d') {p : Pos} :
    p.Live d' ↔ p.Live d := by
  constructor
  · rintro ⟨hv, hlt, hu⟩
    exact ⟨hv, hlt, by rwa [h.imap _ hlt] at hu⟩
  · rintro ⟨hv, hlt, hu⟩
    exact ⟨hv, hlt, by rwa [h.imap _ hlt]⟩

/-- A used block stays used. -/
theorem TreeGrown.blockUsed {i : Nat} {d d' : Store} (h : TreeGrown i d d') {c : Nat}
    (hc : BlockUsed d c) : BlockUsed d' c :=
  ⟨hc.1, by rw [h.bmap c hc.1 hc.2]; exact hc.2⟩

/-- A position that names a block in use named it before, or the block is 0. -/
theorem TreeGrown.named_before {i : Nat} {d d' : Store} (h : TreeGrown i d d') {c : Nat} {p : Pos}
    (hc : BlockUsed d c) (hlive : p.Live d) (heq : ref d' p = c) : c = 0 ∨ ref d p = c := by
  by_cases hz : ref d p = 0
  · by_cases hz' : ref d' p = 0
    · exact Or.inl (by rw [← heq, hz'])
    · have hfree := (h.ref_new p hlive hz hz').2
      rw [heq] at hfree
      exact absurd hfree hc.2
  · exact Or.inr (by rw [← h.ref_keep p hlive hz, heq])

theorem TreeGrown.trans {i : Nat} {d d' d'' : Store} (h : TreeGrown i d d')
    (h' : TreeGrown i d' d'') : TreeGrown i d d'' where
  imap j hj := (h'.imap j hj).trans (h.imap j hj)
  bmap c hc hne := by
    have h1 := h.bmap c hc hne
    exact (h'.bmap c hc (by rw [h1]; exact hne)).trans h1
  bmap_new c hc hz hne := by
    by_cases hmid : Fs.bmap d' c = 0
    · obtain ⟨hone, hc0, hlt, p, hp, hpi, href⟩ := h'.bmap_new c hc hmid hne
      exact ⟨hone, hc0, hlt, p, h.live.mp hp, hpi, href⟩
    · obtain ⟨hone, hc0, hlt, p, hp, hpi, href⟩ := h.bmap_new c hc hz hmid
      refine ⟨(h'.bmap c hc hmid).trans hone, hc0, hlt, p, hp, hpi, ?_⟩
      rw [h'.ref_keep p (h.live.mpr hp) (by rw [href]; exact hc0), href]
  ref_keep p hp hne := by
    have h1 := h.ref_keep p hp hne
    exact (h'.ref_keep p (h.live.mpr hp) (by rw [h1]; exact hne)).trans h1
  ref_other p hp hne := (h'.ref_other p (h.live.mpr hp) hne).trans (h.ref_other p hp hne)
  ref_new p hp hz hne := by
    by_cases hmid : ref d' p = 0
    · obtain ⟨hlt, hfree⟩ := h'.ref_new p (h.live.mpr hp) hmid hne
      refine ⟨hlt, ?_⟩
      by_contra hcon
      rw [h.bmap _ hlt hcon] at hfree
      exact hcon hfree
    · rw [h'.ref_keep p (h.live.mpr hp) hmid]
      exact h.ref_new p hp hz hmid

/-- Between `d` and `d'` only the block tree of inode `i` has grown. -/
structure Grown (i : Nat) (d d' : Store) : Prop where
  imap : ∀ j, j < 512 → imap d' j = imap d j
  bmap : ∀ c, c < 131072 → Fs.bmap d c ≠ 0 → Fs.bmap d' c = Fs.bmap d c
  bmap_new : ∀ c, c < 131072 → Fs.bmap d c = 0 → Fs.bmap d' c ≠ 0 →
    Fs.bmap d' c = 1 ∧ c ≠ 0 ∧ c < 4096 ∧ ∃ p : Pos, p.Live d ∧ p.inode = i ∧ ref d' p = c
  ref_keep : ∀ p : Pos, p.Live d → ref d p ≠ 0 → ref d' p = ref d p
  ref_other : ∀ p : Pos, p.Live d → p.inode ≠ i → ref d' p = ref d p
  ref_new : ∀ p : Pos, p.Live d → ref d p = 0 → ref d' p ≠ 0 →
    ref d' p < 131072 ∧ Fs.bmap d (ref d' p) = 0
  ino : ∀ j f, j < 512 → f + 4 ≤ 128 → j ≠ i ∨ f + 4 ≤ 28 ∨ 108 ≤ f → ino d' j f = ino d j f
  blk : ∀ c k, BlockUsed d c → k < 4096 →
    (∀ p : Pos, p.Live d → p.inode = i → ¬ p.Data → ref d p = c → c = 0) → blkByte d' c k = blkByte d c k
  data : ∀ p : Pos, p.Live d → p.Data → ∀ k, k < 4096 → dataByte d' p k = dataByte d p k

theorem Grown.refl (i : Nat) (d : Store) : Grown i d d where
  imap _ _ := rfl
  bmap _ _ _ := rfl
  bmap_new _ _ h h' := absurd h h'
  ref_keep _ _ _ := rfl
  ref_other _ _ _ := rfl
  ref_new _ _ h h' := absurd h h'
  ino _ _ _ _ _ := rfl
  blk _ _ _ _ _ := rfl
  data _ _ _ _ _ := rfl

/-- Growth in maps and references. -/
theorem Grown.tree {i : Nat} {d d' : Store} (h : Grown i d d') : TreeGrown i d d' :=
  ⟨h.imap, h.bmap, h.bmap_new, h.ref_keep, h.ref_other, h.ref_new⟩

/-- The same positions are live. -/
theorem Grown.live {i : Nat} {d d' : Store} (h : Grown i d d') {p : Pos} :
    p.Live d' ↔ p.Live d :=
  h.tree.live

/-- A used block stays used. -/
theorem Grown.blockUsed {i : Nat} {d d' : Store} (h : Grown i d d') {c : Nat}
    (hc : BlockUsed d c) : BlockUsed d' c :=
  h.tree.blockUsed hc

theorem Grown.trans {i : Nat} {d d' d'' : Store} (h : Grown i d d') (h' : Grown i d' d'') :
    Grown i d d'' := by
  have ht := h.tree.trans h'.tree
  refine ⟨ht.imap, ht.bmap, ht.bmap_new, ht.ref_keep, ht.ref_other, ht.ref_new, ?_, ?_, ?_⟩
  · intro j f hj hf hne
    exact (h'.ino j f hj hf hne).trans (h.ino j f hj hf hne)
  · -- an index block of `i` that was in use before the first step is one before both
    intro c k hc hk hidx
    refine (h'.blk c k (h.blockUsed hc) hk ?_).trans (h.blk c k hc hk hidx)
    intro p hp hpi hpd heq
    have hlive := h.live.mp hp
    exact (h.tree.named_before hc hlive heq).elim id (hidx p hlive hpi hpd)
  · intro p hp hpd k hk
    exact (h'.data p (h.live.mpr hp) hpd k hk).trans (h.data p hp hpd k hk)

/-- The cell of a position of inode `i`: a word of the inode, or of one of its
index blocks. -/
def CellOf (d : Store) (i cell : Nat) : Prop :=
  (∃ slot, slot < 19 ∧ cell = inoAddr i + (32 + 4 * slot)) ∨
    ∃ p : Pos, ∃ o, p.Live d ∧ p.inode = i ∧ ¬ p.Data ∧ ref d p ≠ 0 ∧ o < 1024 ∧
      cell = blkAddr (ref d p) + 4 * o

/-- The cell of a position is a pointer cell. -/
theorem CellOf.isCell {d : Store} (h : Owned d) {i b cell : Nat} (hb0 : bmap d b = 0)
    (hc : CellOf d i cell) : IsCell i b cell := by
  rcases hc with hslot | ⟨p, o, hp, _, _, _, ho, rfl⟩
  · exact Or.inl hslot
  · exact Or.inr ⟨ref d p, o, h.ref_ne_of_free hp hb0, ho, rfl⟩

/-- **One new pointer is growth.**  The pointer goes to position `t` of inode
`i`, which was empty, and names a block that was free. -/
theorem grown_linkAt {d : Store} (h : Owned d) {i cell b v : Nat} {t : Pos}
    (ht : t.Live d) (hti : t.inode = i) (hz : ref d t = 0) (hb4 : b < 4096)
    (hb0 : bmap d b = 0) (hcell : CellOf d i cell)
    (href : ∀ p : Pos, p.Live d → ref (linkAt d i cell b v) p = if p = t then b else ref d p) :
    Grown i d (linkAt d i cell b v) := by
  have hi : i < 512 := hti ▸ ht.2.1
  have hb : b < 131072 := by omega
  have hic := hcell.isCell h hb0
  have hbne : b ≠ 0 := fun h0 => h.zero_used (h0 ▸ hb0)
  have htarget : ref (linkAt d i cell b v) t = b := by rw [href t ht, if_pos rfl]
  have hkeep : ∀ p : Pos, p.Live d → ref d p ≠ 0 → ref (linkAt d i cell b v) p = ref d p := by
    intro p hp hne
    rw [href p hp, if_neg]
    rintro rfl
    exact hne hz
  have hblk : ∀ c k, BlockUsed d c → k < 4096 →
      (∀ p : Pos, p.Live d → p.inode = i → ¬ p.Data → ref d p = c → c = 0) →
      blkByte (linkAt d i cell b v) c k = blkByte d c k := by
    intro c k hc hk hidx
    have hcb : c ≠ b := fun heq => hc.2 (heq ▸ hb0)
    apply blkByte_linkAt hi hb hcb hk
    rcases hcell with ⟨slot, hs, rfl⟩ | ⟨p, o, hp, hpi, hpd, hpz, ho, rfl⟩
    · simp only [inoAddr, blkAddr]
      omega
    · have hne : ref d p ≠ c := fun heq => hpz (heq.trans (hidx p hp hpi hpd heq))
      simp only [blkAddr]
      omega
  refine ⟨fun j hj => imap_linkAt hi hic hj, ?_, ?_, hkeep, ?_, ?_, ?_, hblk, ?_⟩
  · intro c hc hne
    rw [bmap_linkAt hi hb hic hc, if_neg]
    rintro rfl
    exact hne hb0
  · intro c hc hzero hne
    rw [bmap_linkAt hi hb hic hc] at hne ⊢
    by_cases hcb : c = b
    · rw [if_pos hcb]
      exact ⟨rfl, hcb ▸ hbne, by omega, t, ht, hti, by rw [htarget, hcb]⟩
    · rw [if_neg hcb] at hne
      exact absurd hzero hne
  · intro p hp hpi
    rw [href p hp, if_neg]
    rintro rfl
    exact hpi hti
  · intro p hp hzero hne
    rw [href p hp] at hne ⊢
    by_cases hpt : p = t
    · rw [if_pos hpt]
      exact ⟨hb, hb0⟩
    · rw [if_neg hpt] at hne
      exact absurd hzero hne
  · intro j f hj hf hne
    apply ino_linkAt hb hj hf
    · rcases hcell with ⟨slot, hs, rfl⟩ | ⟨p, o, _, _, _, _, _, rfl⟩ <;>
        simp only [inoAddr, blkAddr] <;> omega
    · omega
  · -- data: a new data block is clear, an old one is not touched
    intro p hp hpd k hk
    unfold dataByte
    by_cases hpt : p = t
    · subst hpt
      rw [htarget, if_neg hbne, if_pos hz, blkByte_linkAt_fresh hk]
    · rw [href p hp, if_neg hpt]
      by_cases hz' : ref d p = 0
      · rw [if_pos hz', if_pos hz']
      · rw [if_neg hz', if_neg hz']
        apply hblk _ _ (h.used p hp hz') hk
        intro p' hp' _ hpd' heq
        have := h.inj p' p hp' hp (by rw [heq]; exact hz') heq
        exact absurd (this ▸ hpd) hpd'

/-- The new pointer leaves every block with one owner. -/
theorem owned_linkAt {d : Store} (h : Owned d) {i cell b v : Nat} {t : Pos} (hi : i < 512)
    (hb4 : b < 4096) (hb0 : bmap d b = 0) (hcell : CellOf d i cell)
    (href : ∀ p : Pos, p.Live d → ref (linkAt d i cell b v) p = if p = t then b else ref d p) :
    Owned (linkAt d i cell b v) := by
  have hb : b < 131072 := by omega
  have hic := hcell.isCell h hb0
  have hone : bmap (linkAt d i cell b v) b = 1 := by
    rw [bmap_linkAt hi hb hic hb, if_pos rfl]
  refine h.link hb0 hb (fun j hj => imap_linkAt hi hic hj) ?_ ?_ href
  · rw [hone]
    decide
  · intro c hc hcb
    rw [bmap_linkAt hi hb hic hc, if_neg hcb]

/-! ## The linking helpers -/

/-- Inode `i` is loaded and position `p` of it holds block `b` after the step
from `s` to `s'`. -/
structure Located (i : Nat) (s : State) (p : Pos) (b : Nat) (s' : State) : Prop where
  ext : Extends s s'
  owned : Owned (flushed i s')
  grown : Grown i (flushed i s) (flushed i s')
  ref : ref (flushed i s') p = b
  ne : b ≠ 0

theorem Located.trans {i : Nat} {s s' s'' : State} {p q : Pos} {b c : Nat}
    (h : Located i s p b s') (h' : Located i s' q c s'') : Located i s q c s'' :=
  ⟨h.ext.trans h'.ext, h'.owned, h.grown.trans h'.grown, h'.ref, h'.ne⟩

/-- The position is empty, a block was allocated and stored: the common end of
both helpers. -/
theorem located_linkAt {i b cell v : Nat} {s s' : State} {t : Pos}
    (h : Owned (flushed i s)) (ht : t.Live (flushed i s)) (hti : t.inode = i)
    (hz : Fs.ref (flushed i s) t = 0) (hb4 : b < 4096) (hb0 : bmap (flushed i s) b = 0)
    (hcell : CellOf (flushed i s) i cell)
    (href : ∀ p : Pos, p.Live (flushed i s) →
      Fs.ref (linkAt (flushed i s) i cell b v) p = if p = t then b else Fs.ref (flushed i s) p)
    (hs' : flushed i s' = linkAt (flushed i s) i cell b v) (hext : Extends s s') :
    Located i s t b s' := by
  refine ⟨hext, ?_, ?_, ?_, fun h0 => h.zero_used (h0 ▸ hb0)⟩
  · rw [hs']
    exact owned_linkAt h (hti ▸ ht.2.1) hb4 hb0 hcell href
  · rw [hs']
    exact grown_linkAt h ht hti hz hb4 hb0 hcell href
  · rw [hs', href t ht, if_pos rfl]

/-- Clearing the buffer and writing it out clears the block on disk. -/
theorem flushed_clear_writeBlock {i b : Nat} (hi : i < 512) (hb : b < 131072) (s : State) :
    flushed i (writeBlock b (clearBlk s)) = blit (flushed i s) (blkAddr b) zeros 0 4096 := by
  rw [flushed_writeBlock hi hb]
  change blit (flushed i s) _ (blit s.blkBuffer 0 zeros 0 4096) 0 4096 = _
  funext k
  by_cases hk : blkAddr b ≤ k ∧ k < blkAddr b + 4096
  · rw [blit_apply_of_mem _ _ hk.1 hk.2, blit_apply_of_mem _ _ hk.1 hk.2,
      blit_apply_of_mem _ _ (by omega) (by omega)]
    rfl
  · rw [blit_apply_of_ne _ _ (by omega), blit_apply_of_ne _ _ (by omega)]

/-- The state after `inodeLink` stored the new block `b` in slot `slot`. -/
theorem flushed_inodeLink {i slot b : Nat} (hi : i < 512) (hs : slot < 19) (hb : b < 4096)
    (s : State) :
    flushed i (writeBlock b (clearBlk (inodeAdd (inodePtr i) inoBlocks 1
        (inodeSet (inodePtr i) (32 + 4 * slot) b (allocatedBlock b s))))) =
      linkAt (flushed i s) i (inoAddr i + (32 + 4 * slot)) b
        ((inodeGet (inodeSet (inodePtr i) (32 + 4 * slot) b (allocatedBlock b s))
          (inodePtr i) inoBlocks + 1) % 2 ^ 32) := by
  rw [flushed_clear_writeBlock hi (by omega), inodeAdd, flushed_inodeSet i _ (by decide),
    flushed_inodeSet i _ (by omega), flushed_allocatedBlock hi hb]
  rfl

/-- A slot of the inode is found or linked. -/
theorem inodeLink_spec {i slot : Nat} {s : State} (h : Owned (flushed i s))
    (hi : InodeUsed (flushed i s) i) (hs : slot < 19) :
    Holds (· = Halt.noMoreBlocks) (fun r => Located i s ⟨i, slot, []⟩ r.1 r.2)
      (inodeLink (inodePtr i) (32 + 4 * slot) (32 + 4 * slot) s) := by
  have hlive : Pos.Live (flushed i s) ⟨i, slot, []⟩ := ⟨⟨hs, Nat.zero_le _, by simp⟩, hi⟩
  have hget : inodeGet s (inodePtr i) (32 + 4 * slot) = ref (flushed i s) ⟨i, slot, []⟩ :=
    inodeGet_eq i s (by omega)
  unfold inodeLink
  simp only [hget]
  by_cases hz : ref (flushed i s) ⟨i, slot, []⟩ = 0
  · rw [if_pos hz]
    rcases allocBlock_spec s with ⟨b, hb, hb0, _, halloc⟩ | ⟨herr, _⟩
    · rw [halloc]
      have hb' : b < 131072 := by omega
      have hbz : bmap (flushed i s) b = 0 := by rw [bmap_flushed s hb']; exact hb0
      refine located_linkAt h hlive rfl hz hb hbz (Or.inl ⟨slot, hs, rfl⟩)
        (ref_linkInode h hi hs hz hb' hbz) (flushed_inodeLink hi.1 hs hb s) ?_
      exact .writeBlock hb' (.clearBlk (.inodeAdd _ _ _ (.inodeSet _ _ _
        (.allocatedBlock b (.refl s)))))
    · rw [herr]
      rfl
  · rw [if_neg hz]
    exact ⟨Extends.refl s, h, Grown.refl i _, rfl, hz⟩

/-- The state after `indexLink` stored the new block `b` at entry `o` of the
index block `c`. -/
theorem flushed_indexLink {i c o b : Nat} (hi : i < 512) (hc : c < 131072) (ho : o < 1024)
    (hb : b < 4096) (s : State) :
    flushed i (writeBlock b (clearBlk (writeBlock c (inodeAdd (inodePtr i) inoBlocks 1
        { allocatedBlock b (readBlock c s) with
          blkBuffer := wr32 (allocatedBlock b (readBlock c s)).blkBuffer (4 * o) b })))) =
      linkAt (flushed i s) i (blkAddr c + 4 * o) b
        ((inodeGet (allocatedBlock b (readBlock c s)) (inodePtr i) inoBlocks + 1) % 2 ^ 32) := by
  rw [flushed_clear_writeBlock hi (by omega), flushed_writeBlock hi hc, inodeAdd,
    flushed_inodeSet i _ (by decide)]
  have hflush : flushed i { allocatedBlock b (readBlock c s) with
      blkBuffer := wr32 (allocatedBlock b (readBlock c s)).blkBuffer (4 * o) b } =
      wr8 (flushed i s) (8389632 + b) 1 := by
    change flushed i (allocatedBlock b (readBlock c s)) = _
    rw [flushed_allocatedBlock hi hb]
    rfl
  rw [hflush]
  -- the buffer still holds the index block: the map and the inode lie elsewhere
  have hcache : ∀ v, Caches (readBlock c s).blkBuffer
      (wr32 (wr8 (flushed i s) (8389632 + b) 1) (inoAddr i + inoBlocks) v) (blkAddr c) 4096 := by
    intro v
    refine (readBlock_caches hi hc s).congr fun k hk hlt => ?_
    rw [wr32_apply_of_ne _ (by simp only [inoAddr, inoBlocks, blkAddr] at *; omega),
      wr8_apply_of_ne _ _ (by simp only [blkAddr] at *; omega)]
  change blit (blit _ (blkAddr c) (wr32 (readBlock c s).blkBuffer (4 * o) b) 0 4096) _ _ _ _ = _
  rw [store_wr32 _ _ (by omega), (hcache _).store_eq,
    wr32_comm _ (by simp only [inoAddr, inoBlocks, blkAddr]; omega)]
  rfl

/-- The entry that the index block holds for the next level down. -/
theorem indexEntry_eq {i slot o : Nat} {q : List Nat} {s : State} (h : Owned (flushed i s))
    (hlive : Pos.Live (flushed i s) ⟨i, slot, o :: q⟩)
    (hq : ref (flushed i s) ⟨i, slot, q⟩ ≠ 0) :
    rd32 (readBlock (ref (flushed i s) ⟨i, slot, q⟩) s).blkBuffer (4 * o) =
      ref (flushed i s) ⟨i, slot, o :: q⟩ := by
  have ho : o < 1024 := hlive.1.head_lt
  obtain ⟨hpar, _⟩ := h.used _ hlive.tail hq
  rw [(readBlock_caches hlive.2.1 hpar s).rd32 (by omega), ref_cons, if_neg hq]
  rfl

/-- A word of an index block is found or linked. -/
theorem indexLink_spec {i slot o : Nat} {q : List Nat} {s : State} (h : Owned (flushed i s))
    (hlive : Pos.Live (flushed i s) ⟨i, slot, o :: q⟩)
    (hq : ref (flushed i s) ⟨i, slot, q⟩ ≠ 0) :
    Holds (· = Halt.noMoreBlocks) (fun r => Located i s ⟨i, slot, o :: q⟩ r.1 r.2)
      (indexLink (inodePtr i) (ref (flushed i s) ⟨i, slot, q⟩) o s) := by
  have hi : i < 512 := hlive.2.1
  have ho : o < 1024 := hlive.1.head_lt
  obtain ⟨hpar, _⟩ := h.used _ hlive.tail hq
  unfold indexLink
  simp only [indexEntry_eq h hlive hq]
  by_cases hz : ref (flushed i s) ⟨i, slot, o :: q⟩ = 0
  · rw [if_pos hz]
    rcases allocBlock_spec (readBlock (ref (flushed i s) ⟨i, slot, q⟩) s) with
      ⟨b, hb, hb0, _, halloc⟩ | ⟨herr, _⟩
    · rw [halloc]
      have hb' : b < 131072 := by omega
      have hbz : bmap (flushed i s) b = 0 := by rw [bmap_flushed s hb']; exact hb0
      refine located_linkAt h hlive rfl hz hb hbz
        (Or.inr ⟨⟨i, slot, q⟩, o, hlive.tail, rfl, hlive.1.tail_not_data, hq, ho, rfl⟩)
        (ref_linkIndex h hlive hq hz hb' hbz) (flushed_indexLink hi hpar ho hb s) ?_
      exact .writeBlock hb' (.clearBlk (.writeBlock hpar (.inodeAdd _ _ _ (.setBlk _
        (.allocatedBlock b (.readBlock _ (.refl s)))))))
    · rw [herr]
      rfl
  · rw [if_neg hz]
    exact ⟨.readBlock _ (.refl s), h, Grown.refl i _, rfl, hz⟩

/-! ## The page's position -/

/-- The position that holds page `page` of inode `i`. -/
def pagePos (i page : Nat) : Pos :=
  if page < 14 then ⟨i, page, []⟩
  else if page < 3086 then ⟨i, 14 + (page - 14) / 1024, [(page - 14) % 1024]⟩
  else ⟨i, 17 + (page - 3086) / 2 ^ 20,
    [(page - 3086) % 2 ^ 20 % 1024, (page - 3086) % 2 ^ 20 / 1024]⟩

/-- The inode of a page's position. -/
theorem pagePos_inode (i page : Nat) : (pagePos i page).inode = i := by
  unfold pagePos
  split_ifs <;> rfl

/-- The largest page number the three levels hold. -/
def pageLimit : Nat := 3086 + 2 * 2 ^ 20

/-- A page within the limit has a position in the tree. -/
theorem pagePos_valid (i : Nat) {page : Nat} (h : page < pageLimit) :
    (pagePos i page).Valid := by
  unfold pageLimit at h
  unfold pagePos
  split_ifs with h0 h1
  · exact ⟨by change page < 19; omega, Nat.zero_le _, by simp⟩
  · refine ⟨by change 14 + (page - 14) / 1024 < 19; omega, ?_, ?_⟩
    · change 1 ≤ depth (14 + (page - 14) / 1024)
      unfold depth
      rw [if_neg (by omega), if_pos (by omega)]
    · intro o ho
      rw [List.mem_singleton] at ho
      omega
  · refine ⟨by change 17 + (page - 3086) / 2 ^ 20 < 19; omega, ?_, ?_⟩
    · change 2 ≤ depth (17 + (page - 3086) / 2 ^ 20)
      unfold depth
      rw [if_neg (by omega), if_neg (by omega)]
    · intro o ho
      simp only [List.mem_cons, List.not_mem_nil, or_false] at ho
      omega

/-- The position of a page holds data. -/
theorem pagePos_data (i page : Nat) : (pagePos i page).Data := by
  unfold pagePos Pos.Data depth
  split_ifs <;> simp_all <;> omega

/-- Different pages lie at different positions. -/
theorem pagePos_inj {i page page' : Nat} (h : pagePos i page = pagePos i page') :
    page = page' := by
  unfold pagePos at h
  split_ifs at h <;> simp at h <;> omega

/-! ## The walk along a position -/

/-- From a slot of the inode down a path, linking what is missing. -/
def linkPath (ip slot : Nat) : List Nat → State → Except Halt (Nat × State)
  | [], s => inodeLink ip (32 + 4 * slot) (32 + 4 * slot) s
  | o :: q, s => do
    let (b, s) ← linkPath ip slot q s
    indexLink ip b o s

/-- The three levels the 32-bit offsets reach are one walk, along the page's position. -/
theorem locatePage_eq (i : Nat) {page : Nat} (hp : page < pageLimit) (ip : Nat) (s : State) :
    locatePage ip page s = (do
      let (b, s) ← linkPath ip (pagePos i page).slot (pagePos i page).path s
      .ok (some b, s)) := by
  unfold pageLimit at hp
  unfold locatePage
  by_cases h0 : page < 14
  · have hpos : pagePos i page = ⟨i, page, []⟩ := by simp only [pagePos, if_pos h0]
    rw [hpos, if_pos (show page < directSize from h0)]
    rfl
  · rw [if_neg (show ¬ page < directSize from h0)]
    by_cases h1 : page < 3086
    · have hpos : pagePos i page = ⟨i, 14 + (page - 14) / 1024, [(page - 14) % 1024]⟩ := by
        simp only [pagePos, if_neg h0, if_pos h1]
      have hslot : inoFirstBlock + 4 * ((page - directSize) / 2 ^ 10) =
          32 + 4 * (14 + (page - 14) / 1024) := by
        unfold inoFirstBlock directSize
        omega
      have hoff : (page - directSize) % 2 ^ 10 = (page - 14) % 1024 := rfl
      rw [hpos, if_pos (show page < directSize + firstLevelSize from h1)]
      simp only [hslot, hoff, linkPath, bind_assoc]
    · have hpos : pagePos i page = ⟨i, 17 + (page - 3086) / 2 ^ 20,
          [(page - 3086) % 2 ^ 20 % 1024, (page - 3086) % 2 ^ 20 / 1024]⟩ := by
        simp only [pagePos, if_neg h0, if_neg h1]
      have hslot : inoSecondBlock + 4 * ((page - 3086) / 2 ^ 20) =
          32 + 4 * (17 + (page - 3086) / 2 ^ 20) := by
        unfold inoSecondBlock
        omega
      have hrest : page - (directSize + firstLevelSize) = page - 3086 := rfl
      have hlast : (page - 3086) % 2 ^ 20 % 2 ^ 10 = (page - 3086) % 2 ^ 20 % 1024 := by omega
      have hmid : (page - 3086) % 2 ^ 20 / 2 ^ 10 = (page - 3086) % 2 ^ 20 / 1024 := by omega
      rw [hpos, if_neg (show ¬ page < directSize + firstLevelSize from h1),
        if_pos (show page < directSize + firstLevelSize + secondLevelSize from hp)]
      simp only [hslot, hrest, hmid, hlast, linkPath, bind_assoc]

/-- A path is found or linked, by induction on it. -/
theorem linkPath_spec {i slot : Nat} {s : State} (h : Owned (flushed i s))
    (hi : InodeUsed (flushed i s) i) (path : List Nat) (hv : Pos.Valid ⟨i, slot, path⟩) :
    Holds (· = Halt.noMoreBlocks) (fun r => Located i s ⟨i, slot, path⟩ r.1 r.2)
      (linkPath (inodePtr i) slot path s) := by
  induction path with
  | nil => exact inodeLink_spec h hi hv.1
  | cons o q ih =>
      refine (ih hv.tail).bind fun r hr => ?_
      have hlive : Pos.Live (flushed i r.2) ⟨i, slot, o :: q⟩ := hr.grown.live.mpr ⟨hv, hi⟩
      have hspec := indexLink_spec hr.owned hlive (by rw [hr.ref]; exact hr.ne)
      rw [hr.ref] at hspec
      exact hspec.mono fun _ hr' => hr.trans hr'

/-- `locatePage` on a page of the three levels the 32-bit offsets reach. -/
theorem locatePage_spec {i page : Nat} {s : State} (h : Owned (flushed i s))
    (hi : InodeUsed (flushed i s) i) (hp : page < pageLimit) :
    Holds (· = Halt.noMoreBlocks)
      (fun r => ∃ b, r.1 = some b ∧ Located i s (pagePos i page) b r.2)
      (locatePage (inodePtr i) page s) := by
  have hvalid := pagePos_valid i hp
  have hinode := pagePos_inode i page
  rw [locatePage_eq i hp]
  generalize pagePos i page = p at *
  obtain ⟨j, slot, path⟩ := p
  obtain rfl : j = i := hinode
  refine (linkPath_spec h hi path hvalid).bind fun r hr => ?_
  exact ⟨r.1, rfl, hr⟩

/-- **`byte_locate` finds or makes the block of the page.**  It returns that
block, the tree of the inode has at most grown, and the sector buffer has been
written back. -/
theorem byteLocate_spec {i offset : Nat} {s : State} (h : Owned (flushed i s))
    (hi : InodeUsed (flushed i s) i) (hid : ino (flushed i s) i inoInodeId = i)
    (ho : offset < 2 ^ 32) :
    Holds (· = Halt.noMoreBlocks)
      (fun r => ∃ b, r.1 = some (b, offset % 4096) ∧
        Located i s (pagePos i (offset / 4096)) b r.2 ∧ r.2.disk = flushed i r.2)
      (byteLocate (inodePtr i) offset s) := by
  have hpage : offset / 4096 < pageLimit := by
    unfold pageLimit
    omega
  unfold byteLocate
  refine (locatePage_spec h hi hpage).bind fun r hr => ?_
  obtain ⟨loc, s'⟩ := r
  obtain ⟨b, hb, hloc⟩ := hr
  simp only at hb hloc ⊢
  subst hb
  have hid' : inodeGet s' (inodePtr i) inoInodeId = i := by
    rw [inodeGet_eq i s' (by decide), hloc.grown.ino i inoInodeId hi.1 (by decide)
      (by right; left; decide), hid]
  simp only [hid']
  refine ⟨b, rfl, ⟨.writeInode hi.1 hloc.ext, ?_, ?_, ?_, hloc.ne⟩, ?_⟩
  · rw [flushed_writeInode hi.1]
    exact hloc.owned
  · rw [flushed_writeInode hi.1]
    exact hloc.grown
  · rw [flushed_writeInode hi.1]
    exact hloc.ref
  · rw [flushed_writeInode hi.1, writeInode_disk hi.1]

end Fs
