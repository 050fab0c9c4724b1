import OslabRiscv.Fs.Effect
import OslabRiscv.Fs.FileFrame

/-!
# The volume invariant

`Volume` is what every call relies on: blocks are owned, the root is there,
directories have exactly one block and their entries carry inode numbers that
exist, free inodes hold no pointers.  It does not say that the maps are exact
or that the directories form a tree; those are stronger and are treated on
their own.  Each of the five effects of the calls on paths keeps it, and so
does a call on an open file.
-/

namespace Fs

open ByteStore Outcome

structure Volume (d : Store) : Prop where
  owned : Owned d
  /-- The block map holds zeros and ones, and ones only where `alloc_block`
  looks. -/
  low : ∀ c, c < 131072 → bmap d c = 0 ∨ (bmap d c = 1 ∧ c < 4096)
  root : IsDir d 0
  rootBlock : ino d 0 inoDirectBlock = 0
  dirBlock_ne : ∀ j, IsDir d j → j ≠ 0 → ino d j inoDirectBlock ≠ 0
  dirOnly : ∀ j, IsDir d j → ∀ slot, 0 < slot → slot < 19 → ino d j (32 + 4 * slot) = 0
  fileBlock_ne : ∀ j, IsFile d j → ino d j inoDirectBlock ≠ 0
  id : ∀ j, IsFile d j → ino d j inoInodeId = j
  kind : ∀ j, InodeUsed d j → IsDir d j ∨ IsFile d j
  free : ∀ j, j < 512 → imap d j = 0 →
    ino d j inoType = 0 ∧ ∀ slot, slot < 19 → ino d j (32 + 4 * slot) = 0
  entries : ∀ j, IsDir d j → ∀ k, k < 128 → dentryInodeId (dirBlock d j) k < 512

/-- No inode is a file and a directory. -/
theorem not_isDir_of_isFile {d : Store} {j : Nat} (h : IsFile d j) : ¬ IsDir d j := by
  intro hd
  have h1 := h.2
  rw [hd.2] at h1
  exact absurd h1 (by decide)

/-- The position of an inode's first block. -/
def firstPos (i : Nat) : Pos := ⟨i, 0, []⟩

/-- The first block of an inode in use is part of its tree. -/
theorem firstPos_live {d : Store} {i : Nat} (h : InodeUsed d i) : (firstPos i).Live d :=
  ⟨⟨show 0 < 19 by decide, Nat.zero_le _, by simp [firstPos]⟩, h⟩

/-- The first block holds data. -/
theorem firstPos_data (i : Nat) : (firstPos i).Data := rfl

/-- The first block is the one `direct_block[0]` names. -/
theorem ref_firstPos (d : Store) (i : Nat) : ref d (firstPos i) = ino d i inoDirectBlock := rfl

section Owned

variable {d d' : Store}

/-- A volume whose pointers and index blocks are kept has the same tree. -/
theorem ref_frame {q : Pos} (hq : q.Live d)
    (hino : ino d' q.inode (32 + 4 * q.slot) = ino d q.inode (32 + 4 * q.slot))
    (hblk : ∀ r : Pos, r.Live d → ¬ r.Data → ref d r ≠ 0 →
      ∀ x, x < 4096 → block d' (ref d r) x = block d (ref d r) x) : ref d' q = ref d q := by
  obtain ⟨i, slot, path⟩ := q
  refine ref_congr hino ?_ hq.1
  intro o q' hv hne
  have hword := hblk ⟨i, slot, q'⟩ ⟨hv.tail, hq.2⟩ hv.tail_not_data hne
  have ho := hv.head_lt
  unfold blkWord
  refine rd32_congr fun m hm => ?_
  rw [Nat.add_assoc]
  exact hword _ (by omega)

/-- An index block is nobody's first block. -/
theorem Owned.index_ne_first (h : Owned d) {r : Pos} (hr : r.Live d) (hrd : ¬ r.Data)
    (hz : ref d r ≠ 0) {p : Nat} (hp : InodeUsed d p) : ref d r ≠ ino d p inoDirectBlock := by
  intro heq
  have hpos := h.inj r (firstPos p) hr (firstPos_live hp) hz heq
  rw [hpos] at hrd
  exact hrd (firstPos_data p)

/-- Two inodes in use with the same first block are the same, unless that
block is block 0. -/
theorem Owned.first_inj (h : Owned d) {p q : Nat} (hp : InodeUsed d p) (hq : InodeUsed d q)
    (hz : ino d p inoDirectBlock ≠ 0) (heq : ino d p inoDirectBlock = ino d q inoDirectBlock) :
    p = q := by
  have hpos := h.inj _ _ (firstPos_live hp) (firstPos_live hq) hz heq
  exact congrArg Pos.inode hpos

end Owned

section Volume

variable {d d' : Store} (hV : Volume d)

include hV

/-- The first block of any inode is one the allocator knows. -/
theorem Volume.first_lt {i : Nat} (hi : i < 512) : ino d i inoDirectBlock < 4096 := by
  by_cases hu : imap d i = 0
  · have hz := (hV.free i hi hu).2 0 (by decide)
    change ino d i 32 = 0 at hz
    change ino d i 32 < 4096
    omega
  · by_cases hz : ino d i inoDirectBlock = 0
    · rw [hz]
      decide
    · have hused := hV.owned.used _ (firstPos_live ⟨hi, hu⟩) hz
      rcases hV.low _ hused.1 with h0 | h1
      · exact absurd h0 hused.2
      · exact h1.2

/-- The block of a directory is in use. -/
theorem Volume.dir_used {p : Nat} (hp : IsDir d p) :
    BlockUsed d (ino d p inoDirectBlock) := by
  by_cases hz : ino d p inoDirectBlock = 0
  · rw [hz]
    exact ⟨by decide, hV.owned.zero_used⟩
  · exact hV.owned.used _ (firstPos_live hp.1) hz

/-- The blocks of directories lie in the data area. -/
theorem Volume.dirsInRange : DirsInRange d := fun _ hj => (hV.dir_used hj).1

/-- Different directories have different blocks. -/
theorem Volume.dir_inj {p q : Nat} (hp : IsDir d p) (hq : IsDir d q)
    (h : ino d p inoDirectBlock = ino d q inoDirectBlock) : p = q := by
  by_cases hz : ino d p inoDirectBlock = 0
  · have hp0 : p = 0 := by
      by_contra hne
      exact hV.dirBlock_ne p hp hne hz
    have hq0 : q = 0 := by
      by_contra hne
      exact hV.dirBlock_ne q hq hne (h ▸ hz)
    rw [hp0, hq0]
  · exact hV.owned.first_inj hp.1 hq.1 hz h

/-- The first block of a directory and of another inode differ. -/
theorem Volume.dir_first_ne {p x : Nat} (hp : IsDir d p) (hx : InodeUsed d x) (hpx : p ≠ x) :
    ino d p inoDirectBlock ≠ ino d x inoDirectBlock := by
  intro heq
  rcases hV.kind x hx with hxd | hxf
  · exact hpx (hV.dir_inj hp hxd heq)
  · have hz : ino d p inoDirectBlock ≠ 0 := heq ▸ hV.fileBlock_ne x hxf
    exact hpx (hV.owned.first_inj hp.1 hx hz heq)

end Volume

/-! ## Changes that move no block -/

/-- From `d` to `d'` no map, type or pointer has changed, and the only blocks
written are blocks of directories, whose entries stay in range. -/
structure Quiet (d d' : Store) : Prop where
  imap_eq : ∀ j, j < 512 → imap d' j = imap d j
  bmap_eq : ∀ c, c < 131072 → bmap d' c = bmap d c
  type_eq : ∀ j, j < 512 → ino d' j inoType = ino d j inoType
  id_eq : ∀ j, j < 512 → ino d' j inoInodeId = ino d j inoInodeId
  ptr_eq : ∀ j slot, j < 512 → slot < 19 → ino d' j (32 + 4 * slot) = ino d j (32 + 4 * slot)
  blk_eq : ∀ c x, (∀ p, IsDir d p → c ≠ ino d p inoDirectBlock) → x < 4096 →
    block d' c x = block d c x
  entries : ∀ p, IsDir d p → ∀ k, k < 128 → dentryInodeId (dirBlock d' p) k < 512

section Quiet

variable {d d' : Store}

/-- The same inodes are in use. -/
theorem Quiet.inodeUsed (h : Quiet d d') {j : Nat} : InodeUsed d' j ↔ InodeUsed d j :=
  inodeUsed_congr (h.imap_eq j)

/-- The same inodes are directories. -/
theorem Quiet.isDir (h : Quiet d d') {j : Nat} : IsDir d' j ↔ IsDir d j :=
  typed_congr h.inodeUsed (h.type_eq j) iDir

/-- The same inodes are files. -/
theorem Quiet.isFile (h : Quiet d d') {j : Nat} : IsFile d' j ↔ IsFile d j :=
  typed_congr h.inodeUsed (h.type_eq j) iFile

/-- The trees have the same positions. -/
theorem Quiet.live (h : Quiet d d') {q : Pos} : q.Live d' ↔ q.Live d := by
  unfold Pos.Live
  rw [h.inodeUsed]

/-- The trees hold the same blocks. -/
theorem Quiet.ref (h : Quiet d d') (hV : Volume d) {q : Pos} (hq : q.Live d) :
    ref d' q = ref d q := by
  refine ref_frame hq (h.ptr_eq _ _ hq.2.1 hq.1.1) ?_
  intro r hr hrd hz x hx
  exact h.blk_eq _ x (fun p hp => hV.owned.index_ne_first hr hrd hz hp.1) hx

/-- The first blocks are the same. -/
theorem Quiet.direct (h : Quiet d d') {j : Nat} (hj : j < 512) :
    ino d' j inoDirectBlock = ino d j inoDirectBlock := h.ptr_eq j 0 hj (by decide)

/-- A volume stays one when no block is taken or released. -/
theorem Volume.quiet (hV : Volume d) (h : Quiet d d') : Volume d' where
  owned := by
    refine ⟨by rw [h.bmap_eq 0 (by decide)]; exact hV.owned.zero_used, ?_, ?_⟩
    · intro q hq hne
      have hq' := h.live.mp hq
      rw [h.ref hV hq'] at hne ⊢
      have hu := hV.owned.used q hq' hne
      exact ⟨hu.1, by rw [h.bmap_eq _ hu.1]; exact hu.2⟩
    · intro q r hq hr hne heq
      have hq' := h.live.mp hq
      have hr' := h.live.mp hr
      rw [h.ref hV hq'] at hne heq
      rw [h.ref hV hr'] at heq
      exact hV.owned.inj q r hq' hr' hne heq
  low c hc := by
    rw [h.bmap_eq c hc]
    exact hV.low c hc
  root := h.isDir.mpr hV.root
  rootBlock := by
    rw [h.direct (by decide)]
    exact hV.rootBlock
  dirBlock_ne j hj hne := by
    rw [h.direct hj.1.1]
    exact hV.dirBlock_ne j (h.isDir.mp hj) hne
  dirOnly j hj slot h0 hs := by
    rw [h.ptr_eq j slot hj.1.1 hs]
    exact hV.dirOnly j (h.isDir.mp hj) slot h0 hs
  fileBlock_ne j hj := by
    rw [h.direct hj.1.1]
    exact hV.fileBlock_ne j (h.isFile.mp hj)
  id j hj := by
    rw [h.id_eq j hj.1.1]
    exact hV.id j (h.isFile.mp hj)
  kind j hj := by
    rw [h.isDir, h.isFile]
    exact hV.kind j (h.inodeUsed.mp hj)
  free j hj hfree := by
    rw [h.imap_eq j hj] at hfree
    obtain ⟨htype, hptr⟩ := hV.free j hj hfree
    refine ⟨by rw [h.type_eq j hj]; exact htype, ?_⟩
    intro slot hs
    rw [h.ptr_eq j slot hj hs]
    exact hptr slot hs
  entries j hj := h.entries j (h.isDir.mp hj)

end Quiet

/-- A block that is a directory's only at `p` reads the same for the others. -/
theorem Volume.otherDir {d d' : Store} (hV : Volume d) {p j : Nat} (hp : IsDir d p)
    (hj : IsDir d j) (hjp : j ≠ p)
    (hdir : ino d' j inoDirectBlock = ino d j inoDirectBlock)
    (hblk : ∀ x, x < 4096 → ino d j inoDirectBlock ≠ ino d p inoDirectBlock →
      block d' (ino d j inoDirectBlock) x = block d (ino d j inoDirectBlock) x) {x : Nat}
    (hx : x < 4096) : dirBlock d' j x = dirBlock d j x := by
  unfold dirBlock
  rw [hdir]
  exact hblk x hx fun heq => hjp (hV.dir_inj hj hp heq)

/-- Of a directory only entry `k` has changed. -/
theorem entries_of_other {blk blk' : Store} {k j : Nat} (hj : j < 128) (hjk : j ≠ k)
    (h : ∀ x, x < 4096 → x / 32 ≠ k → blk' x = blk x) :
    dentryType blk' j = dentryType blk j ∧ dentryInodeId blk' j = dentryInodeId blk j := by
  refine ⟨rd32_congr fun m hm => ?_, rd32_congr fun m hm => ?_⟩
  · exact h _ (by omega) (by omega)
  · exact h _ (by omega) (by omega)

/-- Entries stay in range where only entry `k` of `p` changes, to one in range. -/
theorem Volume.entries_edit {d d' : Store} (hV : Volume d) (p k : Nat) {j : Nat} (hj : IsDir d j)
    (hother : j ≠ p → ∀ y, y < 4096 → dirBlock d' j y = dirBlock d j y)
    (hslot : j = p → ∀ y, y < 4096 → y / 32 ≠ k → dirBlock d' j y = dirBlock d j y)
    (hnew : j = p → k < 128 → dentryInodeId (dirBlock d' j) k < 512) {l : Nat} (hl : l < 128) :
    dentryInodeId (dirBlock d' j) l < 512 := by
  by_cases hjp : j = p
  · by_cases hlk : l = k
    · rw [hlk] at hl ⊢
      exact hnew hjp hl
    · rw [(entries_of_other hl hlk (hslot hjp)).2]
      exact hV.entries j hj l hl
  · rw [dentryInodeId_congr (hother hjp) hl]
    exact hV.entries j hj l hl

section Effects

variable {d d' : Store} {p k x : Nat}

/-- A new link takes and releases no block. -/
theorem Linked.quiet (hV : Volume d) (hp : IsDir d p) (hx : x < 512)
    (h : Linked d d' p k x) : Quiet d d' where
  imap_eq := h.imap_eq
  bmap_eq := h.bmap_eq
  type_eq j hj := h.ino_eq j _ hj (by decide) (Or.inl (Or.inl (by decide)))
  id_eq j hj := h.ino_eq j _ hj (by decide) (Or.inl (Or.inl (by decide)))
  ptr_eq j slot hj hs :=
    h.ino_eq j _ hj (by omega) (Or.inl (Or.inr (Or.inr (by omega))))
  blk_eq c y hc hy := h.blk_eq c y (hc p hp) hy
  entries j hj l hl := by
    refine hV.entries_edit p k hj (fun hjp y hy => ?_) (fun hjp => ?_) (fun hjp _ => ?_) hl
    · exact hV.otherDir hp hj hjp
        (h.ino_eq j _ hj.1.1 (by decide) (Or.inl notCount_directBlock))
        (fun y hy hne => h.blk_eq _ y hne hy) hy
    · rw [hjp]
      exact h.entry.other
    · rw [hjp, h.entry.entryId]
      exact hx

/-- A removed link takes and releases no block. -/
theorem Unlinked.quiet (hV : Volume d) (hp : IsDir d p) (h : Unlinked d d' p k x) :
    Quiet d d' where
  imap_eq := h.imap_eq
  bmap_eq := h.bmap_eq
  type_eq j hj := h.ino_eq j _ hj (by decide) (Or.inr (Or.inl (by decide)))
  id_eq j hj := h.ino_eq j _ hj (by decide) (Or.inr (Or.inl (by decide)))
  ptr_eq j slot hj hs :=
    h.ino_eq j _ hj (by omega) (Or.inr (Or.inr (Or.inr (by omega))))
  blk_eq c y hc hy := h.blk_eq c y (hc p hp) hy
  entries j hj l hl := by
    refine hV.entries_edit p k hj (fun hjp y hy => ?_) (fun hjp => ?_) (fun hjp hk => ?_) hl
    · exact hV.otherDir hp hj hjp (h.ino_eq j _ hj.1.1 (by decide) (Or.inl hjp))
        (fun y hy hne => h.blk_eq _ y hne hy) hy
    · rw [hjp]
      exact h.entry.other
    · rw [hjp, h.entry.stale, ← h.entry.entryId]
      exact hV.entries p hp k hk

/-- Opening a file takes and releases no block. -/
theorem Opened.quiet (hV : Volume d) (h : Opened d d' x) : Quiet d d' where
  imap_eq := h.imap_eq
  bmap_eq := h.bmap_eq
  type_eq j hj := h.ino_eq j _ hj (by decide) (Or.inr (Or.inl (by decide)))
  id_eq j hj := h.ino_eq j _ hj (by decide) (Or.inr (Or.inr (by decide)))
  ptr_eq j slot hj hs := h.ino_eq j _ hj (by omega) (Or.inr (Or.inr (by omega)))
  blk_eq c y _ hy := h.blk_eq c y hy
  entries j hj l hl := by
    have hsame : ∀ y, y < 4096 → dirBlock d' j y = dirBlock d j y := by
      intro y hy
      unfold dirBlock
      rw [h.ino_eq j _ hj.1.1 (by decide) (Or.inr (Or.inr (by decide))), h.blk_eq _ y hy]
    rw [dentryInodeId_congr hsame hl]
    exact hV.entries j hj l hl

end Effects

/-! ## Making an inode -/

/-- A new directory block has two entries. -/
theorem newDirBlock_type (p i k : Nat) :
    dentryType (newDirBlock p i) k = if k < 2 then iDir else 0 := by
  unfold dentryType newDirBlock
  have hcases : k = 0 ∨ k = 1 ∨ 2 ≤ k := by omega
  rcases hcases with hk | hk | hk
  · subst hk
    rw [rd32_wr32_of_ne _ (by decide), rd32_wr32_of_ne _ (by decide),
      rd32_wr8_of_ne _ _ (by decide), rd32_wr8_of_ne _ _ (by decide),
      rd32_wr32_of_ne _ (by decide), rd32_wr32_of_lt _ (by decide), if_pos (by decide)]
  · subst hk
    rw [rd32_wr32_of_ne _ (by decide), rd32_wr32_of_lt _ (by decide), if_pos (by decide)]
  · have hfar : ∀ a, a + 4 ≤ 64 → 32 * k + 4 ≤ a ∨ a + 4 ≤ 32 * k := by
      intro a ha
      omega
    rw [rd32_wr32_of_ne _ (hfar _ (by decide)), rd32_wr32_of_ne _ (hfar _ (by decide)),
      rd32_wr8_of_ne _ _ (by unfold dentryName; omega),
      rd32_wr8_of_ne _ _ (by unfold dentryName; omega),
      rd32_wr32_of_ne _ (hfar _ (by decide)), rd32_wr32_of_ne _ (hfar _ (by decide)),
      rd32_wr8_of_ne _ _ (by unfold dentryName; omega), rd32_zeros, if_neg (by omega)]

/-- The entries of a new directory block name it and its parent. -/
theorem newDirBlock_id {p i : Nat} (hp : p < 512) (hi : i < 512) (k : Nat) :
    dentryInodeId (newDirBlock p i) k = if k = 0 then i else if k = 1 then p else 0 := by
  unfold dentryInodeId newDirBlock
  have hcases : k = 0 ∨ k = 1 ∨ 2 ≤ k := by omega
  rcases hcases with hk | hk | hk
  · subst hk
    rw [rd32_wr32_of_ne _ (by decide), rd32_wr32_of_ne _ (by decide),
      rd32_wr8_of_ne _ _ (by decide), rd32_wr8_of_ne _ _ (by decide),
      rd32_wr32_of_lt _ (by omega), if_pos rfl]
  · subst hk
    rw [rd32_wr32_of_lt _ (by omega), if_neg (by decide), if_pos rfl]
  · have hfar : ∀ a, a + 4 ≤ 64 → 32 * k + 4 + 4 ≤ a ∨ a + 4 ≤ 32 * k + 4 := by
      intro a ha
      omega
    rw [rd32_wr32_of_ne _ (hfar _ (by decide)), rd32_wr32_of_ne _ (hfar _ (by decide)),
      rd32_wr8_of_ne _ _ (by unfold dentryName; omega),
      rd32_wr8_of_ne _ _ (by unfold dentryName; omega),
      rd32_wr32_of_ne _ (hfar _ (by decide)), rd32_wr32_of_ne _ (hfar _ (by decide)),
      rd32_wr8_of_ne _ _ (by unfold dentryName; omega), rd32_zeros, if_neg (by omega),
      if_neg (by omega)]

section Made

variable {d d' : Store} {p k i b type : Nat}

/-- The other inodes are in use as before. -/
theorem Made.inodeUsed (h : Made d d' p k i b type) {j : Nat} (hj : j ≠ i) :
    InodeUsed d' j ↔ InodeUsed d j :=
  inodeUsed_congr fun hlt => by rw [h.imap_eq j hlt, if_neg hj]

/-- The inode that was made is in use. -/
theorem Made.new_used (h : Made d d' p k i b type) : InodeUsed d' i := by
  refine ⟨h.free.1, ?_⟩
  rw [h.imap_eq i h.free.1, if_pos rfl]
  decide

/-- The other inodes keep their types. -/
theorem Made.type_eq (h : Made d d' p k i b type) {j : Nat} (hj : j < 512) (hne : j ≠ i) :
    ino d' j inoType = ino d j inoType :=
  h.ino_eq j _ hj (by decide) hne (Or.inr (Or.inl (by decide)))

/-- The other inodes keep their blocks. -/
theorem Made.ptr_eq (h : Made d d' p k i b type) {j slot : Nat} (hj : j < 512) (hs : slot < 19)
    (hne : j ≠ i) : ino d' j (32 + 4 * slot) = ino d j (32 + 4 * slot) :=
  h.ino_eq j _ hj (by omega) hne (Or.inr (Or.inr (Or.inr (by omega))))

/-- The other inodes are directories as before. -/
theorem Made.isDir (h : Made d d' p k i b type) {j : Nat} (hne : j ≠ i) :
    IsDir d' j ↔ IsDir d j :=
  typed_congr (h.inodeUsed hne) (fun hj => h.type_eq hj hne) iDir

/-- The other inodes are files as before. -/
theorem Made.isFile (h : Made d d' p k i b type) {j : Nat} (hne : j ≠ i) :
    IsFile d' j ↔ IsFile d j :=
  typed_congr (h.inodeUsed hne) (fun hj => h.type_eq hj hne) iFile

/-- The inode that was made was not in use. -/
theorem Made.ne_of_used (h : Made d d' p k i b type) {j : Nat} (hj : InodeUsed d j) : j ≠ i :=
  fun heq => hj.2 (heq ▸ h.free.2)

/-- The tree of an inode that was there is as it was. -/
theorem Made.ref_old (h : Made d d' p k i b type) (hV : Volume d) (hp : IsDir d p) {q : Pos}
    (hq : q.Live d) : ref d' q = ref d q := by
  refine ref_frame hq (h.ptr_eq hq.2.1 hq.1.1 (h.ne_of_used hq.2)) ?_
  intro r hr hrd hz x hx
  refine h.blk_eq _ x ?_ (hV.owned.index_ne_first hr hrd hz hp.1) hx
  exact hV.owned.ref_ne_of_free hr h.blockFree.2

/-- The new inode has its first block and no other. -/
theorem Made.ref_new (h : Made d d' p k i b type) (hV : Volume d) {q : Pos} (hq : q.Valid)
    (hqi : q.inode = i) : ref d' q = if q = firstPos i then b else 0 := by
  obtain ⟨j, slot, path⟩ := q
  change j = i at hqi
  subst hqi
  have hs : slot < 19 := hq.1
  have hroot : ref d' ⟨j, slot, []⟩ = if slot = 0 then b else 0 := by
    by_cases h0 : slot = 0
    · rw [if_pos h0, h0]
      exact h.directBlock
    · rw [if_neg h0, ref_nil, h.pointer _ (by omega) (by omega)]
      exact (hV.free j h.free.1 h.free.2).2 slot hs
  cases path with
  | nil =>
      rw [hroot]
      by_cases h0 : slot = 0
      · rw [if_pos h0, if_pos]
        rw [h0]
        rfl
      · rw [if_neg h0, if_neg]
        intro heq
        exact h0 (congrArg Pos.slot heq)
  | cons o path =>
      rw [if_neg (fun heq => by cases congrArg Pos.path heq)]
      have hne : slot ≠ 0 := by
        intro h0
        have hl : path.length + 1 ≤ depth slot := hq.2.1
        rw [h0] at hl
        change path.length + 1 ≤ 0 at hl
        omega
      -- all pointers of the slot are zero
      have hall : ∀ l, ref d' ⟨j, slot, l⟩ = 0 := by
        intro l
        induction l with
        | nil => rw [hroot, if_neg hne]
        | cons o l ih => rw [ref_cons, if_pos ih]
      exact hall _

/-- Behind the making of an inode every block still has one owner. -/
theorem Made.owned (h : Made d d' p k i b type) (hV : Volume d) (hp : IsDir d p) :
    Owned d' := by
  have hb0 : b ≠ 0 := fun h0 => hV.owned.zero_used (h0 ▸ h.blockFree.2)
  have hb : b < 131072 := by
    have := h.blockFree.1
    omega
  have hold : ∀ q : Pos, q.Live d' → q.inode ≠ i → q.Live d := fun q hq hne =>
    ⟨hq.1, (h.inodeUsed hne).mp hq.2⟩
  have hnew : ∀ q : Pos, q.Live d' → q.inode = i → ref d' q ≠ 0 →
      q = firstPos i ∧ ref d' q = b := by
    intro q hq hqi hne
    rw [h.ref_new hV hq.1 hqi] at hne ⊢
    by_cases heq : q = firstPos i
    · exact ⟨heq, by rw [if_pos heq]⟩
    · rw [if_neg heq] at hne
      exact absurd rfl hne
  have hone : bmap d' b = 1 := by rw [h.bmap_eq b hb, if_pos rfl]
  refine ⟨?_, ?_, ?_⟩
  · rw [h.bmap_eq 0 (by decide), if_neg (Ne.symm hb0)]
    exact hV.owned.zero_used
  · intro q hq hne
    by_cases hqi : q.inode = i
    · rw [(hnew q hq hqi hne).2]
      exact ⟨hb, by rw [hone]; decide⟩
    · have hq' := hold q hq hqi
      rw [h.ref_old hV hp hq'] at hne ⊢
      have hu := hV.owned.used q hq' hne
      have hcb := hV.owned.ref_ne_of_free hq' h.blockFree.2
      exact ⟨hu.1, by rw [h.bmap_eq _ hu.1, if_neg hcb]; exact hu.2⟩
  · intro q r hq hr hne heq
    have hner : ref d' r ≠ 0 := heq ▸ hne
    by_cases hqi : q.inode = i
    · have hqn := hnew q hq hqi hne
      by_cases hri : r.inode = i
      · rw [hqn.1, (hnew r hr hri hner).1]
      · have hr' := hold r hr hri
        rw [hqn.2, h.ref_old hV hp hr'] at heq
        exact absurd heq.symm (hV.owned.ref_ne_of_free hr' h.blockFree.2)
    · have hq' := hold q hq hqi
      rw [h.ref_old hV hp hq'] at hne heq
      by_cases hri : r.inode = i
      · rw [(hnew r hr hri hner).2] at heq
        exact absurd heq (hV.owned.ref_ne_of_free hq' h.blockFree.2)
      · have hr' := hold r hr hri
        rw [h.ref_old hV hp hr'] at heq
        exact hV.owned.inj q r hq' hr' hne heq

/-- The entries of a directory that was there: only entry `k` of `p` is new. -/
theorem Made.dirBlock_other (h : Made d d' p k i b type) (hV : Volume d) (hp : IsDir d p)
    {j x : Nat} (hj : IsDir d j) (hjp : j ≠ p) (hx : x < 4096) :
    dirBlock d' j x = dirBlock d j x := by
  have hptr : ino d' j (32 + 4 * 0) = ino d j (32 + 4 * 0) :=
    h.ptr_eq hj.1.1 (by decide) (h.ne_of_used hj.1)
  refine hV.otherDir hp hj hjp hptr ?_ hx
  intro y hy hne
  refine h.blk_eq _ y ?_ hne hy
  intro heq
  exact (hV.dir_used hj).2 (heq ▸ h.blockFree.2)

/-- A volume stays one when a file or a directory is made. -/
theorem Volume.made (hV : Volume d) (hp : IsDir d p) (h : Made d d' p k i b type)
    (htype : type = iDir ∨ type = iFile) : Volume d' := by
  have hi := h.free.1
  have hb0 : b ≠ 0 := fun h0 => hV.owned.zero_used (h0 ▸ h.blockFree.2)
  have hroot : (0 : Nat) ≠ i := h.ne_of_used hV.root.1
  have hdirect : ∀ j, j < 512 → j ≠ i → ino d' j inoDirectBlock = ino d j inoDirectBlock :=
    fun j hj hne => h.ptr_eq hj (show 0 < 19 by decide) hne
  refine ⟨h.owned hV hp, ?_, (h.isDir hroot).mpr hV.root, ?_, ?_, ?_, ?_, ?_, ?_, ?_, ?_⟩
  · intro c hc
    rw [h.bmap_eq c hc]
    by_cases hcb : c = b
    · rw [if_pos hcb]
      exact Or.inr ⟨rfl, hcb ▸ h.blockFree.1⟩
    · rw [if_neg hcb]
      exact hV.low c hc
  · rw [hdirect 0 (by decide) hroot]
    exact hV.rootBlock
  · intro j hj hne
    by_cases hji : j = i
    · rw [hji, h.directBlock]
      exact hb0
    · rw [hdirect j hj.1.1 hji]
      exact hV.dirBlock_ne j ((h.isDir hji).mp hj) hne
  · intro j hj slot h0 hs
    by_cases hji : j = i
    · rw [hji, h.pointer _ (by omega) (by omega)]
      exact (hV.free i hi h.free.2).2 slot hs
    · rw [h.ptr_eq hj.1.1 hs hji]
      exact hV.dirOnly j ((h.isDir hji).mp hj) slot h0 hs
  · intro j hj
    by_cases hji : j = i
    · rw [hji, h.directBlock]
      exact hb0
    · rw [hdirect j hj.1.1 hji]
      exact hV.fileBlock_ne j ((h.isFile hji).mp hj)
  · intro j hj
    by_cases hji : j = i
    · rw [hji]
      exact h.newId
    · rw [h.ino_eq j _ hj.1.1 (by decide) hji (Or.inr (Or.inl (by decide)))]
      exact hV.id j ((h.isFile hji).mp hj)
  · intro j hj
    by_cases hji : j = i
    · rw [hji]
      rcases htype with ht | ht
      · exact Or.inl ⟨h.new_used, h.newType.trans ht⟩
      · exact Or.inr ⟨h.new_used, h.newType.trans ht⟩
    · rw [h.isDir hji, h.isFile hji]
      exact hV.kind j ((h.inodeUsed hji).mp hj)
  · intro j hj hfree
    rw [h.imap_eq j hj] at hfree
    have hji : j ≠ i := by
      intro heq
      rw [if_pos heq] at hfree
      exact absurd hfree (by decide)
    rw [if_neg hji] at hfree
    obtain ⟨ht, hptr⟩ := hV.free j hj hfree
    refine ⟨by rw [h.type_eq hj hji]; exact ht, ?_⟩
    intro slot hs
    rw [h.ptr_eq hj hs hji]
    exact hptr slot hs
  · intro j hj l hl
    by_cases hji : j = i
    · -- the block of the new directory
      have hdir : type = iDir := by
        rw [← h.newType, ← hji]
        exact hj.2
      have hblk : ∀ x, x < 4096 → dirBlock d' j x = newDirBlock p i x := by
        intro x hx
        unfold dirBlock
        rw [hji, h.directBlock, h.newBlk x hx, if_pos hdir]
      rw [dentryInodeId_congr hblk hl, newDirBlock_id hp.1.1 hi]
      split_ifs
      · exact hi
      · exact hp.1.1
      · decide
    · have hj' := (h.isDir hji).mp hj
      refine hV.entries_edit p k hj' (fun hjp y hy => ?_) (fun hjp => ?_) (fun hjp _ => ?_) hl
      · exact h.dirBlock_other hV hp hj' hjp hy
      · rw [hjp]
        exact h.entry.other
      · rw [hjp, h.entry.entryId]
        exact hi

end Made

/-! ## Removing an inode -/

section Removed

variable {d d' : Store} {p k x b : Nat}

/-- One inode less is in use. -/
theorem Removed.inodeUsed (h : Removed d d' p k x b) {j : Nat} :
    InodeUsed d' j ↔ InodeUsed d j ∧ j ≠ x := by
  unfold InodeUsed
  constructor
  · intro hu
    have hne : j ≠ x := by
      intro heq
      have := hu.2
      rw [h.imap_eq j hu.1, if_pos heq] at this
      exact this rfl
    refine ⟨⟨hu.1, ?_⟩, hne⟩
    have := hu.2
    rwa [h.imap_eq j hu.1, if_neg hne] at this
  · intro hu
    refine ⟨hu.1.1, ?_⟩
    rw [h.imap_eq j hu.1.1, if_neg hu.2]
    exact hu.1.2

/-- The other inodes keep their types. -/
theorem Removed.type_eq (h : Removed d d' p k x b) {j : Nat} (hj : j < 512) (hne : j ≠ x) :
    ino d' j inoType = ino d j inoType :=
  h.ino_eq j _ hj (by decide) hne (Or.inr (Or.inl (by decide)))

/-- The other inodes keep their blocks. -/
theorem Removed.ptr_eq (h : Removed d d' p k x b) {j slot : Nat} (hj : j < 512) (hs : slot < 19)
    (hne : j ≠ x) : ino d' j (32 + 4 * slot) = ino d j (32 + 4 * slot) :=
  h.ino_eq j _ hj (by omega) hne (Or.inr (Or.inr (Or.inr (by omega))))

/-- The inodes of a type are the others of that type. -/
theorem Removed.typed (h : Removed d d' p k x b) {j : Nat} (type : Nat) :
    InodeUsed d' j ∧ ino d' j inoType = type ↔
      (InodeUsed d j ∧ ino d j inoType = type) ∧ j ≠ x := by
  rw [h.inodeUsed]
  constructor
  · intro hj
    exact ⟨⟨hj.1.1, by rw [← h.type_eq hj.1.1.1 hj.1.2]; exact hj.2⟩, hj.1.2⟩
  · intro hj
    exact ⟨⟨hj.1.1, hj.2⟩, by rw [h.type_eq hj.1.1.1 hj.2]; exact hj.1.2⟩

/-- The other inodes are directories as before. -/
theorem Removed.isDir (h : Removed d d' p k x b) {j : Nat} : IsDir d' j ↔ IsDir d j ∧ j ≠ x :=
  h.typed iDir

/-- The other inodes are files as before. -/
theorem Removed.isFile (h : Removed d d' p k x b) {j : Nat} :
    IsFile d' j ↔ IsFile d j ∧ j ≠ x :=
  h.typed iFile

variable (hb : ino d x inoDirectBlock = b) (hx : InodeUsed d x)

include hb hx

/-- The trees of the other inodes are as they were. -/
theorem Removed.ref_old (h : Removed d d' p k x b) (hV : Volume d) (hp : IsDir d p) {q : Pos}
    (hq : q.Live d) (hqx : q.inode ≠ x) : ref d' q = ref d q := by
  refine ref_frame hq (h.ptr_eq hq.2.1 hq.1.1 hqx) ?_
  intro r hr hrd hz y hy
  refine h.blk_eq _ y ?_ (hV.owned.index_ne_first hr hrd hz hp.1) hy
  rw [← hb]
  exact hV.owned.index_ne_first hr hrd hz hx

/-- No other inode refers to the block that is released. -/
theorem Removed.ref_ne (hV : Volume d) {q : Pos} (hq : q.Live d) (hz : ref d q ≠ 0)
    (hqx : q.inode ≠ x) : ref d q ≠ b := by
  intro heq
  rw [← hb] at heq
  have hpos := hV.owned.inj q (firstPos x) hq (firstPos_live hx) hz heq
  exact hqx (congrArg Pos.inode hpos)

/-- A volume stays one when an inode other than the root is removed. -/
theorem Volume.removed (hV : Volume d) (hp : IsDir d p) (h : Removed d d' p k x b)
    (hx0 : x ≠ 0) : Volume d' := by
  have hbne : b ≠ 0 := by
    rw [← hb]
    rcases hV.kind x hx with hxd | hxf
    · exact hV.dirBlock_ne x hxd hx0
    · exact hV.fileBlock_ne x hxf
  have hdirect : ∀ j, j < 512 → j ≠ x → ino d' j inoDirectBlock = ino d j inoDirectBlock :=
    fun j hj hne => h.ptr_eq hj (show 0 < 19 by decide) hne
  have hold : ∀ q : Pos, q.Live d' → q.Live d ∧ q.inode ≠ x := fun q hq =>
    ⟨⟨hq.1, (h.inodeUsed.mp hq.2).1⟩, (h.inodeUsed.mp hq.2).2⟩
  refine ⟨⟨?_, ?_, ?_⟩, ?_, h.isDir.mpr ⟨hV.root, Ne.symm hx0⟩, ?_, ?_, ?_, ?_, ?_, ?_, ?_, ?_⟩
  · rw [h.bmap_eq 0 (by decide), if_neg (Ne.symm hbne)]
    exact hV.owned.zero_used
  · intro q hq hne
    obtain ⟨hq', hqx⟩ := hold q hq
    rw [h.ref_old hb hx hV hp hq' hqx] at hne ⊢
    have hu := hV.owned.used q hq' hne
    have hcb := Removed.ref_ne hb hx hV hq' hne hqx
    exact ⟨hu.1, by rw [h.bmap_eq _ hu.1, if_neg hcb]; exact hu.2⟩
  · intro q r hq hr hne heq
    obtain ⟨hq', hqx⟩ := hold q hq
    obtain ⟨hr', hrx⟩ := hold r hr
    rw [h.ref_old hb hx hV hp hq' hqx] at hne heq
    rw [h.ref_old hb hx hV hp hr' hrx] at heq
    exact hV.owned.inj q r hq' hr' hne heq
  · intro c hc
    rw [h.bmap_eq c hc]
    by_cases hcb : c = b
    · rw [if_pos hcb]
      exact Or.inl rfl
    · rw [if_neg hcb]
      exact hV.low c hc
  · rw [hdirect 0 (by decide) (Ne.symm hx0)]
    exact hV.rootBlock
  · intro j hj hne
    obtain ⟨hj', hjx⟩ := h.isDir.mp hj
    rw [hdirect j hj.1.1 hjx]
    exact hV.dirBlock_ne j hj' hne
  · intro j hj slot h0 hs
    obtain ⟨hj', hjx⟩ := h.isDir.mp hj
    rw [h.ptr_eq hj.1.1 hs hjx]
    exact hV.dirOnly j hj' slot h0 hs
  · intro j hj
    obtain ⟨hj', hjx⟩ := h.isFile.mp hj
    rw [hdirect j hj.1.1 hjx]
    exact hV.fileBlock_ne j hj'
  · intro j hj
    obtain ⟨hj', hjx⟩ := h.isFile.mp hj
    rw [h.ino_eq j _ hj.1.1 (by decide) hjx (Or.inr (Or.inl (by decide)))]
    exact hV.id j hj'
  · intro j hj
    obtain ⟨hj', hjx⟩ := h.inodeUsed.mp hj
    rcases hV.kind j hj' with hd | hf
    · exact Or.inl (h.isDir.mpr ⟨hd, hjx⟩)
    · exact Or.inr (h.isFile.mpr ⟨hf, hjx⟩)
  · intro j hj hfree
    by_cases hjx : j = x
    · rw [hjx]
      exact ⟨h.clear _ (by decide), fun slot hs => h.clear _ (by omega)⟩
    · rw [h.imap_eq j hj, if_neg hjx] at hfree
      obtain ⟨ht, hptr⟩ := hV.free j hj hfree
      refine ⟨by rw [h.type_eq hj hjx]; exact ht, ?_⟩
      intro slot hs
      rw [h.ptr_eq hj hs hjx]
      exact hptr slot hs
  · intro j hj l hl
    obtain ⟨hj', hjx⟩ := h.isDir.mp hj
    have hentry : j = p → _ := fun hjp => h.entry (hjp ▸ hjx)
    refine hV.entries_edit p k hj' (fun hjp y hy => ?_) (fun hjp => ?_) (fun hjp hk => ?_) hl
    · refine hV.otherDir hp hj' hjp (hdirect j hj.1.1 hjx) (fun y hy hne => ?_) hy
      exact h.blk_eq _ y (by rw [← hb]; exact hV.dir_first_ne hj' hx hjx) hne hy
    · rw [hjp]
      exact (hentry hjp).other
    · rw [hjp, (hentry hjp).stale, ← (hentry hjp).entryId]
      exact hV.entries p hp k hk

end Removed

/-! ## Working on a file -/

section Touched

variable {d d' : Store} {i : Nat}

/-- A change of one file leaves the directories. -/
theorem Touched.isDir (h : Touched i d d') {j : Nat} : IsDir d' j ↔ IsDir d j :=
  typed_congr h.inodeUsed h.type_eq iDir

/-- The blocks of directories are not the file's. -/
theorem Touched.dirBlock_eq (h : Touched i d d') (hV : Volume d) (hi : IsFile d i) {j x : Nat}
    (hj : IsDir d j) (hx : x < 4096) : dirBlock d' j x = dirBlock d j x := by
  have hji : j ≠ i := fun heq => not_isDir_of_isFile hi (heq ▸ hj)
  unfold dirBlock
  rw [h.ino j inoDirectBlock hj.1.1 (by decide) (Or.inl hji)]
  refine h.blk _ x (hV.dir_used hj) hx ?_
  intro q hq hqi heq
  by_contra hz
  have hpos := hV.owned.inj q (firstPos j) hq (firstPos_live hj.1) (by rw [heq]; exact hz) heq
  rw [hpos] at hqi
  exact hji hqi

/-- A volume stays one when only a file has changed. -/
theorem Volume.touched (hV : Volume d) (hi : IsFile d i) (ho : Owned d') (h : Touched i d d') :
    Volume d' := by
  have hne : ∀ j, IsDir d j → j ≠ i := fun j hj heq => not_isDir_of_isFile hi (heq ▸ hj)
  refine ⟨ho, ?_, h.isDir.mpr hV.root, ?_, ?_, ?_, ?_, ?_, ?_, ?_, ?_⟩
  · intro c hc
    by_cases hz : bmap d c = 0
    · by_cases hz' : bmap d' c = 0
      · exact Or.inl hz'
      · obtain ⟨hone, _, hlt, _⟩ := h.bmap_new c hc hz hz'
        exact Or.inr ⟨hone, hlt⟩
    · rw [h.bmap c hc hz]
      exact hV.low c hc
  · rw [h.ino 0 inoDirectBlock (by decide) (by decide) (Or.inl (hne 0 hV.root))]
    exact hV.rootBlock
  · intro j hj h0
    have hj' := h.isDir.mp hj
    rw [h.ino j inoDirectBlock hj'.1.1 (by decide) (Or.inl (hne j hj'))]
    exact hV.dirBlock_ne j hj' h0
  · intro j hj slot h0 hs
    have hj' := h.isDir.mp hj
    rw [h.ino j _ hj'.1.1 (by omega) (Or.inl (hne j hj'))]
    exact hV.dirOnly j hj' slot h0 hs
  · intro j hj
    have hj' := h.isFile.mp hj
    have hkeep := h.ref_keep (firstPos j) (firstPos_live hj'.1) (hV.fileBlock_ne j hj')
    rw [ref_firstPos, ref_firstPos] at hkeep
    rw [hkeep]
    exact hV.fileBlock_ne j hj'
  · intro j hj
    have hj' := h.isFile.mp hj
    rw [h.ino j inoInodeId hj'.1.1 (by decide) (Or.inr (Or.inl (by decide)))]
    exact hV.id j hj'
  · intro j hj
    rw [h.isDir, h.isFile]
    exact hV.kind j (h.inodeUsed.mp hj)
  · intro j hj hfree
    rw [h.imap j hj] at hfree
    have hji : j ≠ i := fun heq => hi.1.2 (heq ▸ hfree)
    obtain ⟨ht, hptr⟩ := hV.free j hj hfree
    refine ⟨by rw [h.ino j inoType hj (by decide) (Or.inl hji)]; exact ht, ?_⟩
    intro slot hs
    rw [h.ino j _ hj (by omega) (Or.inl hji)]
    exact hptr slot hs
  · intro j hj l hl
    have hj' := h.isDir.mp hj
    rw [dentryInodeId_congr (fun x hx => h.dirBlock_eq hV hi hj' hx) hl]
    exact hV.entries j hj' l hl

end Touched

end Fs
