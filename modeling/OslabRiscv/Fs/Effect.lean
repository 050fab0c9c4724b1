import OslabRiscv.Fs.Walk
import OslabRiscv.Fs.FileSemantics

/-!
# What a call on a path can do to the volume

There are five ways: a new inode with its entry (`Made`), a further entry for
an inode (`Linked`), an entry removed (`Unlinked`), an entry removed with its
inode (`Removed`), and an owner noted in an inode (`Opened`).  Each is stated
through the readers of the volume and says what changes and that nothing else
does.  Every invariant of the file system is derived from these five.
-/

namespace Fs

open ByteStore Outcome

/-- Field `f` of a directory is not one of the two counts its entries change. -/
def NotCount (f : Nat) : Prop := f + 4 ≤ 16 ∨ (20 ≤ f ∧ f + 4 ≤ 24) ∨ 28 ≤ f

/-- Directory `p` has got entry `k` of the given type for inode `i`; its
number of entries has gone up. -/
structure NewEntry (d d' : Store) (p k i type : Nat) : Prop where
  slot : k < 128
  dead : dentryType (dirBlock d p) k = 0
  first : ∀ j, j < k → dentryType (dirBlock d p) j ≠ 0
  fileNum : ino d' p inoFileNum = (ino d p inoFileNum + 1) % 2 ^ 32
  entryType : dentryType (dirBlock d' p) k = type
  entryId : dentryInodeId (dirBlock d' p) k = i
  other : ∀ x, x < 4096 → x / 32 ≠ k → dirBlock d' p x = dirBlock d p x

/-- Directory `p` has lost entry `k`, the first one with inode number `x`. -/
structure OldEntry (d d' : Store) (p k x : Nat) : Prop where
  slot : k < 128
  entryId : dentryInodeId (dirBlock d p) k = x
  first : ∀ j, j < k → dentryInodeId (dirBlock d p) j ≠ x
  fileNum : ino d' p inoFileNum = (ino d p inoFileNum + (2 ^ 32 - 1)) % 2 ^ 32
  entryType : dentryType (dirBlock d' p) k = 0
  stale : dentryInodeId (dirBlock d' p) k = x
  other : ∀ y, y < 4096 → y / 32 ≠ k → dirBlock d' p y = dirBlock d p y

/-- Inode `i` with block `b` has been made and entered in directory `p`. -/
structure Made (d d' : Store) (p k i b type : Nat) : Prop where
  free : i < 512 ∧ imap d i = 0
  blockFree : b < 4096 ∧ bmap d b = 0
  entry : NewEntry d d' p k i type
  imap_eq : ∀ j, j < 512 → imap d' j = if j = i then 1 else imap d j
  bmap_eq : ∀ c, c < 131072 → bmap d' c = if c = b then 1 else bmap d c
  ino_eq : ∀ j f, j < 512 → f + 4 ≤ 128 → j ≠ i → j ≠ p ∨ NotCount f → ino d' j f = ino d j f
  newType : ino d' i inoType = type
  newId : ino d' i inoInodeId = i
  linksCount : ino d' i inoLinksCount = 1
  newFileNum : ino d' i inoFileNum = if type = iDir then 2 else 0
  directBlock : ino d' i inoDirectBlock = b
  pointer : ∀ f, 36 ≤ f → f + 4 ≤ 128 → ino d' i f = ino d i f
  blk_eq : ∀ c x, c ≠ b → c ≠ ino d p inoDirectBlock → x < 4096 → block d' c x = block d c x
  newBlk : ∀ x, x < 4096 → block d' b x = (if type = iDir then newDirBlock p i else zeros) x

/-- A further entry for inode `x` in directory `p`. -/
structure Linked (d d' : Store) (p k x : Nat) : Prop where
  entry : NewEntry d d' p k x dLink
  imap_eq : ∀ j, j < 512 → imap d' j = imap d j
  bmap_eq : ∀ c, c < 131072 → bmap d' c = bmap d c
  ino_eq : ∀ j f, j < 512 → f + 4 ≤ 128 → NotCount f ∨ (j ≠ p ∧ j ≠ x) → ino d' j f = ino d j f
  fileNum : ∀ j, j < 512 → j ≠ p → ino d' j inoFileNum = ino d j inoFileNum
  linksCount : ino d' x inoLinksCount = (ino d x inoLinksCount + 1) % 2 ^ 32
  otherLinks : ∀ j, j < 512 → j ≠ x → ino d' j inoLinksCount = ino d j inoLinksCount
  blk_eq : ∀ c y, c ≠ ino d p inoDirectBlock → y < 4096 → block d' c y = block d c y

/-- The entry alone has been removed. -/
structure Unlinked (d d' : Store) (p k x : Nat) : Prop where
  entry : OldEntry d d' p k x
  imap_eq : ∀ j, j < 512 → imap d' j = imap d j
  bmap_eq : ∀ c, c < 131072 → bmap d' c = bmap d c
  ino_eq : ∀ j f, j < 512 → f + 4 ≤ 128 → j ≠ p ∨ NotCount f → ino d' j f = ino d j f
  blk_eq : ∀ c y, c ≠ ino d p inoDirectBlock → y < 4096 → block d' c y = block d c y

/-- The entry has been removed with its inode `x` and block `b`. -/
structure Removed (d d' : Store) (p k x b : Nat) : Prop where
  slot : k < 128
  entryId : dentryInodeId (dirBlock d p) k = x
  first : ∀ j, j < k → dentryInodeId (dirBlock d p) j ≠ x
  /-- What the entries of `p` are now, unless `p` itself has gone. -/
  entry : p ≠ x → OldEntry d d' p k x
  used : imap d x = 1
  blockUsed : bmap d b = 1
  imap_eq : ∀ j, j < 512 → imap d' j = if j = x then 0 else imap d j
  bmap_eq : ∀ c, c < 131072 → bmap d' c = if c = b then 0 else bmap d c
  ino_eq : ∀ j f, j < 512 → f + 4 ≤ 128 → j ≠ x → j ≠ p ∨ NotCount f →
    ino d' j f = ino d j f
  clear : ∀ f, f + 4 ≤ 128 → ino d' x f = 0
  blk_eq : ∀ c y, c ≠ b → c ≠ ino d p inoDirectBlock → y < 4096 → block d' c y = block d c y

/-- Only the owner field of inode `x` has changed. -/
structure Opened (d d' : Store) (x : Nat) : Prop where
  imap_eq : ∀ j, j < 512 → imap d' j = imap d j
  bmap_eq : ∀ c, c < 131072 → bmap d' c = bmap d c
  ino_eq : ∀ j f, j < 512 → f + 4 ≤ 128 → j ≠ x ∨ f + 4 ≤ 8 ∨ 12 ≤ f → ino d' j f = ino d j f
  blk_eq : ∀ c y, y < 4096 → block d' c y = block d c y

/-! ## Entries of a block -/

section Entries

variable {blk mem : Store} {k j id type name n x : Nat}

theorem addEntry_other (hn : n ≤ dName) (hx : x / 32 ≠ k) :
    addEntry blk k id type mem name n x = blk x := by
  unfold addEntry
  unfold dName at hn
  rw [blit_apply_of_ne _ _ (by unfold dentryName; omega), wr32_apply_of_ne _ (by omega),
    wr32_apply_of_ne _ (by omega)]

/-- The type of the new entry. -/
theorem addEntry_type (ht : type < 2 ^ 32) :
    dentryType (addEntry blk k id type mem name n) k = type := by
  unfold addEntry dentryType
  rw [rd32_blit_of_ne _ _ (by unfold dentryName; omega), rd32_wr32_of_lt _ ht]

/-- The inode number of the new entry. -/
theorem addEntry_id (hid : id < 2 ^ 32) :
    dentryInodeId (addEntry blk k id type mem name n) k = id := by
  unfold addEntry dentryInodeId
  rw [rd32_blit_of_ne _ _ (by unfold dentryName; omega), rd32_wr32_of_ne _ (by omega),
    rd32_wr32_of_lt _ hid]

theorem dropEntry_other (hx : x / 32 ≠ k) : dropEntry blk k x = blk x := by
  unfold dropEntry dName
  rw [blit_apply_of_ne _ _ (by unfold dentryName; omega), wr32_apply_of_ne _ (by omega)]

/-- The type of the removed entry. -/
theorem dropEntry_type : dentryType (dropEntry blk k) k = 0 := by
  unfold dropEntry dentryType
  rw [rd32_blit_of_ne _ _ (by unfold dentryName; omega), rd32_wr32]
  rfl

/-- The inode number of the removed entry, which stays. -/
theorem dropEntry_id : dentryInodeId (dropEntry blk k) k = dentryInodeId blk k := by
  unfold dropEntry dentryInodeId
  rw [rd32_blit_of_ne _ _ (by unfold dentryName; omega), rd32_wr32_of_ne _ (by omega)]

end Entries

/-! ## The counts of a directory -/

section Counts

variable {d : Store} {p j f type c : Nat}

/-- The inode map when a directory gains an entry. -/
theorem imap_bumpDir (hj : j < 512) : imap (bumpDir d p type) j = imap d j := by
  unfold bumpDir
  by_cases ht : type = iDir
  · simp only [if_pos ht, imap_setIno hj]
  · simp only [if_neg ht, imap_setIno hj]

/-- The block map when a directory gains an entry. -/
theorem bmap_bumpDir (hc : c < 131072) : bmap (bumpDir d p type) c = bmap d c := by
  unfold bumpDir
  by_cases ht : type = iDir
  · simp only [if_pos ht, bmap_setIno hc]
  · simp only [if_neg ht, bmap_setIno hc]

/-- A field that is not the one that is set. -/
theorem ino_setIno_frame {i g v : Nat} {d : Store} (hf : f + 4 ≤ 128) (hg : g + 4 ≤ 128)
    (h : j ≠ i ∨ f + 4 ≤ g ∨ g + 4 ≤ f) : ino (setIno d i g v) j f = ino d j f := by
  by_cases hj : j = i
  · subst hj
    exact ino_setIno_field (by omega)
  · exact ino_setIno_of_ne hj hg hf

/-- A field beside the two counts. -/
theorem count_frame (h : j ≠ p ∨ NotCount f) :
    (j ≠ p ∨ f + 4 ≤ inoFileNum ∨ inoFileNum + 4 ≤ f) ∧
      (j ≠ p ∨ f + 4 ≤ inoLinksCount ∨ inoLinksCount + 4 ≤ f) := by
  unfold NotCount at h
  unfold inoFileNum inoLinksCount
  omega

/-- The other fields when a directory gains an entry. -/
theorem ino_bumpDir (hf : f + 4 ≤ 128) (h : j ≠ p ∨ NotCount f) :
    ino (bumpDir d p type) j f = ino d j f := by
  obtain ⟨hnum, hlinks⟩ := count_frame h
  unfold bumpDir
  by_cases ht : type = iDir
  · simp only [if_pos ht]
    rw [ino_setIno_frame hf (by decide) hlinks,
      ino_setIno_frame hf (by decide) hnum]
  · simp only [if_neg ht]
    rw [ino_setIno_frame hf (by decide) hnum]

/-- The number of entries, one higher. -/
theorem ino_bumpDir_fileNum :
    ino (bumpDir d p type) p inoFileNum = (ino d p inoFileNum + 1) % 2 ^ 32 := by
  unfold bumpDir
  by_cases ht : type = iDir
  · simp only [if_pos ht]
    rw [ino_setIno_field (by decide), ino_setIno_self, Nat.mod_mod]
  · simp only [if_neg ht]
    rw [ino_setIno_self, Nat.mod_mod]

/-- A file does not count among the links of its directory. -/
theorem ino_bumpDir_linksCount (ht : type ≠ iDir) :
    ino (bumpDir d p type) j inoLinksCount = ino d j inoLinksCount := by
  unfold bumpDir
  simp only [if_neg ht]
  exact ino_setIno_frame (by decide) (by decide) (Or.inr (Or.inr (by decide)))

/-- The inode map when a directory loses an entry. -/
theorem imap_dropDir (hj : j < 512) : imap (dropDir d p) j = imap d j := by
  unfold dropDir
  simp only [imap_setIno hj]

/-- The block map when a directory loses an entry. -/
theorem bmap_dropDir (hc : c < 131072) : bmap (dropDir d p) c = bmap d c := by
  unfold dropDir
  simp only [bmap_setIno hc]

/-- The other fields when a directory loses an entry. -/
theorem ino_dropDir (hf : f + 4 ≤ 128) (h : j ≠ p ∨ NotCount f) :
    ino (dropDir d p) j f = ino d j f := by
  obtain ⟨hnum, hlinks⟩ := count_frame h
  unfold dropDir
  simp only
  rw [ino_setIno_frame hf (by decide) hlinks,
    ino_setIno_frame hf (by decide) hnum]

/-- The number of entries, one lower. -/
theorem ino_dropDir_fileNum :
    ino (dropDir d p) p inoFileNum = (ino d p inoFileNum + (2 ^ 32 - 1)) % 2 ^ 32 := by
  unfold dropDir
  simp only
  rw [ino_setIno_field (by decide), ino_setIno_self, Nat.mod_mod]

end Counts

theorem notCount_directBlock : NotCount inoDirectBlock := Or.inr (Or.inr (by decide))

/-! ## From edits to effects -/

section Effects

variable {d mem : Store} {p c k i b x type name n : Nat}

/-- `create_dentry` is a new entry and nothing else. -/
theorem newEntry_edit (hp : p < 512) (hc : ino d p inoDirectBlock = c) (hk : k < 128)
    (hdead : dentryType (block d c) k = 0) (hfirst : ∀ j, j < k → dentryType (block d c) j ≠ 0)
    (hn : n ≤ dName) (hi : i < 2 ^ 32) (ht : type < 2 ^ 32) :
    NewEntry d (setBlk (bumpDir d p type) c (addEntry (block d c) k i type mem name n)) p k i
      type := by
  have hsame : ∀ y, y < 4096 →
      dirBlock (setBlk (bumpDir d p type) c (addEntry (block d c) k i type mem name n)) p y =
        addEntry (block d c) k i type mem name n y := by
    intro y hy
    unfold dirBlock
    rw [ino_setBlk hp (by decide), bumpDir_directBlock, hc, block_setBlk_self hy]
  have hold : dirBlock d p = block d c := by rw [← hc]; rfl
  refine ⟨hk, by rw [hold]; exact hdead, fun j hj => by rw [hold]; exact hfirst j hj, ?_, ?_, ?_,
    ?_⟩
  · rw [ino_setBlk hp (by decide), ino_bumpDir_fileNum]
  · rw [dentryType_congr hsame hk, addEntry_type ht]
  · rw [dentryInodeId_congr hsame hk, addEntry_id hi]
  · intro y hy hyk
    rw [hsame y hy, hold, addEntry_other hn hyk]

/-- `delete_dentry` removes an entry and nothing else. -/
theorem unlinked_edit (hp : p < 512) (hc : ino d p inoDirectBlock = c) (hk : k < 128)
    (hid : dentryInodeId (block d c) k = x)
    (hfirst : ∀ j, j < k → dentryInodeId (block d c) j ≠ x) :
    Unlinked d (setBlk (dropDir d p) c (dropEntry (block d c) k)) p k x := by
  have hsame : ∀ y, y < 4096 →
      dirBlock (setBlk (dropDir d p) c (dropEntry (block d c) k)) p y =
        dropEntry (block d c) k y := by
    intro y hy
    unfold dirBlock
    rw [ino_setBlk hp (by decide), dropDir_directBlock, hc, block_setBlk_self hy]
  have hold : dirBlock d p = block d c := by rw [← hc]; rfl
  refine ⟨⟨hk, by rw [hold]; exact hid, fun j hj => by rw [hold]; exact hfirst j hj, ?_, ?_, ?_,
    ?_⟩, ?_, ?_, ?_, ?_⟩
  · rw [ino_setBlk hp (by decide), ino_dropDir_fileNum]
  · rw [dentryType_congr hsame hk, dropEntry_type]
  · rw [dentryInodeId_congr hsame hk, dropEntry_id, hid]
  · intro y hy hyk
    rw [hsame y hy, hold, dropEntry_other hyk]
  · intro j hj
    rw [imap_setBlk hj, imap_dropDir hj]
  · intro e he
    rw [bmap_setBlk he, bmap_dropDir he]
  · intro j f hj hf h
    rw [ino_setBlk hj hf, ino_dropDir hf h]
  · intro e y he hy
    rw [block_setBlk_of_ne (by rw [← hc]; exact he) hy, block_dropDir hp]

/-- Edits elsewhere do not disturb a new entry. -/
theorem NewEntry.transport {d₁ d₂ d' : Store} (h : NewEntry d₁ d₂ p k i type)
    (hold : ∀ y, y < 4096 → dirBlock d₁ p y = dirBlock d p y)
    (hnew : ∀ y, y < 4096 → dirBlock d' p y = dirBlock d₂ p y)
    (hnum : ino d₁ p inoFileNum = ino d p inoFileNum)
    (hnum' : ino d' p inoFileNum = ino d₂ p inoFileNum) : NewEntry d d' p k i type where
  slot := h.slot
  dead := by
    rw [← dentryType_congr hold h.slot]
    exact h.dead
  first j hj := by
    have hk := h.slot
    rw [← dentryType_congr hold (by omega)]
    exact h.first j hj
  fileNum := by rw [hnum', h.fileNum, hnum]
  entryType := by
    rw [dentryType_congr hnew h.slot]
    exact h.entryType
  entryId := by
    rw [dentryInodeId_congr hnew h.slot]
    exact h.entryId
  other y hy hyk := by rw [hnew y hy, h.other y hy hyk, hold y hy]

/-- Edits elsewhere do not disturb a removed entry. -/
theorem OldEntry.transport {d₂ d' : Store} (h : OldEntry d d₂ p k x)
    (hnew : ∀ y, y < 4096 → dirBlock d' p y = dirBlock d₂ p y)
    (hnum' : ino d' p inoFileNum = ino d₂ p inoFileNum) : OldEntry d d' p k x where
  slot := h.slot
  entryId := h.entryId
  first := h.first
  fileNum := by rw [hnum', h.fileNum]
  entryType := by
    rw [dentryType_congr hnew h.slot]
    exact h.entryType
  stale := by
    rw [dentryInodeId_congr hnew h.slot]
    exact h.stale
  other y hy hyk := by rw [hnew y hy, h.other y hy hyk]

/-- `do_mkdir` and `do_touch`, once the name is known to be new. -/
theorem made_edit (hp : p < 512) (hc : ino d p inoDirectBlock = c) (hpi : p ≠ i) (hi : i < 512)
    (hfree : imap d i = 0) (hb : b < 4096) (hb0 : bmap d b = 0) (hcb : c ≠ b) (hk : k < 128)
    (hdead : dentryType (block d c) k = 0) (hfirst : ∀ j, j < k → dentryType (block d c) j ≠ 0)
    (hn : n ≤ dName) (ht : type < 2 ^ 32) :
    Made d (setBlk (initIno (setBmap (setBlk (bumpDir (setImap d i 1) p type) c
      (addEntry (block (setImap d i 1) c) k i type mem name n)) b 1) i b type oRdwr) b
      (if type = iDir then newDirBlock p i else zeros)) p k i b type := by
  have hb' : b < 131072 := by omega
  have hblk1 : ∀ e y, block (setImap d i 1) e y = block d e y := fun e y => block_setImap hi
  have hc1 : ino (setImap d i 1) p inoDirectBlock = c := by rw [ino_setImap hi, hc]
  obtain ⟨d₂, hd₂⟩ : ∃ d₂, d₂ = setBlk (bumpDir (setImap d i 1) p type) c
    (addEntry (block (setImap d i 1) c) k i type mem name n) := ⟨_, rfl⟩
  have hentry : NewEntry (setImap d i 1) d₂ p k i type := by
    rw [hd₂]
    refine newEntry_edit hp hc1 hk ?_ ?_ hn (by omega) ht
    · rw [dentryType_congr (fun y _ => hblk1 c y) hk]
      exact hdead
    · intro j hj
      rw [dentryType_congr (fun y _ => hblk1 c y) (by omega)]
      exact hfirst j hj
  have hino2 : ∀ j f, j < 512 → f + 4 ≤ 128 → j ≠ p ∨ NotCount f → ino d₂ j f = ino d j f := by
    intro j f hj hf h
    rw [hd₂, ino_setBlk hj hf, ino_bumpDir hf h, ino_setImap hi]
  have hblk2 : ∀ e y, e ≠ c → y < 4096 → block d₂ e y = block d e y := by
    intro e y he hy
    rw [hd₂, block_setBlk_of_ne he hy, block_bumpDir hp, hblk1]
  rw [← hd₂]
  obtain ⟨d', hd'⟩ : ∃ d', d' = setBlk (initIno (setBmap d₂ b 1) i b type oRdwr) b
    (if type = iDir then newDirBlock p i else zeros) := ⟨_, rfl⟩
  have hino' : ∀ j f, j < 512 → f + 4 ≤ 128 → j ≠ i → ino d' j f = ino d₂ j f := by
    intro j f hj hf hne
    rw [hd', ino_setBlk hj hf, ino_initIno_of_ne hne hf, ino_setBmap hb']
  have hblk' : ∀ e y, e ≠ b → y < 4096 → block d' e y = block d₂ e y := by
    intro e y he hy
    rw [hd', block_setBlk_of_ne he hy, block_initIno hi, block_setBmap hb']
  have hc2 : ino d₂ p inoDirectBlock = c := by
    rw [hino2 p _ hp (by decide) (Or.inr notCount_directBlock), hc]
  have hc' : ino d' p inoDirectBlock = c := by rw [hino' p _ hp (by decide) hpi, hc2]
  rw [← hd']
  refine ⟨⟨hi, hfree⟩, ⟨hb, hb0⟩, ?_, ?_, ?_, ?_, ?_, ?_, ?_, ?_, ?_, ?_, ?_, ?_⟩
  · refine hentry.transport ?_ ?_ (ino_setImap hi) (hino' p _ hp (by decide) hpi)
    · intro y _
      unfold dirBlock
      rw [hc1, hc, hblk1]
    · intro y hy
      unfold dirBlock
      rw [hc', hc2, hblk' c y hcb hy]
  · intro j hj
    rw [hd', imap_setBlk hj, imap_initIno hj, imap_setBmap hj, hd₂, imap_setBlk hj,
      imap_bumpDir hj, imap_setImap]
  · intro e he
    rw [hd', bmap_setBlk he, bmap_initIno he, bmap_setBmap, hd₂, bmap_setBlk he, bmap_bumpDir he,
      bmap_setImap hi]
  · intro j f hj hf hne h
    rw [hino' j f hj hf hne, hino2 j f hj hf h]
  · rw [hd', ino_setBlk hi (by decide), ino_initIno_type ht]
  · rw [hd', ino_setBlk hi (by decide), ino_initIno_inodeId hi]
  · rw [hd', ino_setBlk hi (by decide), ino_initIno_linksCount]
  · rw [hd', ino_setBlk hi (by decide), ino_initIno_fileNum]
  · rw [hd', ino_setBlk hi (by decide), ino_initIno_directBlock (by omega)]
  · intro f hf hf'
    rw [hd', ino_setBlk hi hf', ino_initIno_ptr hf, ino_setBmap hb',
      hino2 i f hi hf' (Or.inl (Ne.symm hpi))]
  · intro e y he hep hy
    rw [hblk' e y he hy, hblk2 e y (by rw [← hc]; exact hep) hy]
  · intro y hy
    rw [hd', block_setBlk_self hy]

/-- `do_ln`, once both names are resolved. -/
theorem linked_edit (hp : p < 512) (hc : ino d p inoDirectBlock = c) (hx : x < 512)
    (hk : k < 128) (hdead : dentryType (block d c) k = 0)
    (hfirst : ∀ j, j < k → dentryType (block d c) j ≠ 0) (hn : n ≤ dName) :
    Linked d (setBlk (bumpDir (setIno d x inoLinksCount ((ino d x inoLinksCount + 1) % 2 ^ 32))
      p dLink) c (addEntry (block (setIno d x inoLinksCount
        ((ino d x inoLinksCount + 1) % 2 ^ 32)) c) k x dLink mem name n)) p k x := by
  obtain ⟨d₁, hd₁⟩ : ∃ d₁, d₁ = setIno d x inoLinksCount
    ((ino d x inoLinksCount + 1) % 2 ^ 32) := ⟨_, rfl⟩
  have hblk1 : ∀ e y, block d₁ e y = block d e y := by
    intro e y
    rw [hd₁, block_setIno hx (by decide)]
  have hino1 : ∀ j f, f + 4 ≤ 128 → j ≠ x ∨ f + 4 ≤ 24 ∨ 28 ≤ f → ino d₁ j f = ino d j f := by
    intro j f hf h
    rw [hd₁]
    exact ino_setIno_frame hf (by decide) h
  have hc1 : ino d₁ p inoDirectBlock = c := by
    rw [hino1 p _ (by decide) (Or.inr (Or.inr (by decide))), hc]
  rw [← hd₁]
  have hnd : dLink ≠ iDir := by decide
  refine ⟨?_, ?_, ?_, ?_, ?_, ?_, ?_, ?_⟩
  · refine (newEntry_edit hp hc1 hk ?_ ?_ hn (by omega) (by decide)).transport ?_
      (fun _ _ => rfl) (hino1 p _ (by decide) (Or.inr (Or.inl (by decide)))) rfl
    · rw [dentryType_congr (fun y _ => hblk1 c y) hk]
      exact hdead
    · intro j hj
      rw [dentryType_congr (fun y _ => hblk1 c y) (by omega)]
      exact hfirst j hj
    · intro y _
      unfold dirBlock
      rw [hc1, hc, hblk1]
  · intro j hj
    rw [imap_setBlk hj, imap_bumpDir hj, hd₁, imap_setIno hj]
  · intro e he
    rw [bmap_setBlk he, bmap_bumpDir he, hd₁, bmap_setIno he]
  · intro j f hj hf h
    have hframe : j ≠ p ∨ NotCount f := by
      rcases h with h | h
      · exact Or.inr h
      · exact Or.inl h.1
    rw [ino_setBlk hj hf, ino_bumpDir hf hframe]
    refine hino1 j f hf ?_
    unfold NotCount at h
    omega
  · intro j hj hjp
    rw [ino_setBlk hj (by decide), ino_bumpDir (by decide) (Or.inl hjp)]
    exact hino1 j _ (by decide) (Or.inr (Or.inl (by decide)))
  · rw [ino_setBlk hx (by decide), ino_bumpDir_linksCount hnd, hd₁, ino_setIno_self, Nat.mod_mod]
  · intro j hj hjx
    rw [ino_setBlk hj (by decide), ino_bumpDir_linksCount hnd]
    exact hino1 j _ (by decide) (Or.inl hjx)
  · intro e y he hy
    rw [block_setBlk_of_ne (by rw [← hc]; exact he) hy, block_bumpDir hp, hblk1]

/-- `do_rmdir` and `do_rm` of the last link. -/
theorem removed_edit {d₂ : Store} (h : Unlinked d d₂ p k x) (hp : p < 512) (hx : x < 512)
    (hcp : ino d p inoDirectBlock ≠ b ∨ p = x) (hb : b < 131072) (hused : imap d x = 1)
    (hone : bmap d b = 1) :
    Removed d (setImap (clearIno (setBlk (setBmap d₂ b 0) b zeros) x) x 0) p k x b := by
  obtain ⟨d', hd'⟩ : ∃ d', d' = setImap (clearIno (setBlk (setBmap d₂ b 0) b zeros) x) x 0 :=
    ⟨_, rfl⟩
  have hino' : ∀ j f, j < 512 → f + 4 ≤ 128 → j ≠ x → ino d' j f = ino d₂ j f := by
    intro j f hj hf hne
    rw [hd', ino_setImap hx, ino_clearIno_of_ne hne hf, ino_setBlk hj hf, ino_setBmap hb]
  have hblk' : ∀ e y, e ≠ b → y < 4096 → block d' e y = block d₂ e y := by
    intro e y he hy
    rw [hd', block_setImap hx, block_clearIno hx, block_setBlk_of_ne he hy, block_setBmap hb]
  rw [← hd']
  refine ⟨h.entry.slot, h.entry.entryId, h.entry.first, ?_, hused, hone, ?_, ?_, ?_, ?_, ?_⟩
  · intro hpx
    have hne : ino d p inoDirectBlock ≠ b := by
      rcases hcp with hne | heq
      · exact hne
      · exact absurd heq hpx
    have hc2 : ino d₂ p inoDirectBlock = ino d p inoDirectBlock :=
      h.ino_eq p _ hp (by decide) (Or.inr notCount_directBlock)
    refine h.entry.transport ?_ (hino' p _ hp (by decide) hpx)
    intro y hy
    unfold dirBlock
    rw [hino' p _ hp (by decide) hpx, hblk' _ y (by rw [hc2]; exact hne) hy]
  · intro j hj
    rw [hd', imap_setImap, imap_clearIno hj, imap_setBlk hj, imap_setBmap hj, h.imap_eq j hj]
  · intro e he
    rw [hd', bmap_setImap hx, bmap_clearIno he, bmap_setBlk he, bmap_setBmap, h.bmap_eq e he]
  · intro j f hj hf hne hnc
    rw [hino' j f hj hf hne, h.ino_eq j f hj hf hnc]
  · intro f hf
    rw [hd', ino_setImap hx, ino_clearIno_self hf]
  · intro e y he hep hy
    rw [hblk' e y he hy, h.blk_eq e y hep hy]

end Effects

end Fs
