import OslabRiscv.Fs.FullMap

/-!
# Removing what was just made

`do_rmdir` after a `do_mkdir` that returns puts the disk back as it was, up to what nobody
refers to.  `do_rm` after `do_touch` does the same but for one count: making a
file leaves the number of links of its directory alone, removing one takes it
down by one.
-/

namespace Fs

open ByteStore Outcome

/-- The entry has been removed with its inode, its name has been cleared and the
directory has one link less. -/
structure Erased (d d' : Store) (p k x b : Nat) : Prop extends Removed d d' p k x b where
  nameless : ∀ m, m < dName → dirBlock d' p (dentryName k + m) = 0
  parentLinks : ino d' p inoLinksCount = (ino d p inoLinksCount + (2 ^ 32 - 1)) % 2 ^ 32

/-- From `d` to `d'` the maps and the inodes are the same, but for the number of
links of directory `p`, and so is every block in use, but for the inode number in
the dead entry `k` of `p`. -/
structure RestoredBut (d d' : Store) (p k : Nat) : Prop where
  imap_eq : ∀ j, j < 512 → imap d' j = imap d j
  bmap_eq : ∀ c, c < 131072 → bmap d' c = bmap d c
  ino_eq : ∀ j w, j < 512 → w < 32 → j ≠ p ∨ 4 * w ≠ inoLinksCount →
    ino d' j (4 * w) = ino d j (4 * w)
  blk_eq : ∀ c x, BlockUsed d c → x < 4096 →
    c ≠ ino d p inoDirectBlock ∨ x < 32 * k + 4 ∨ 32 * k + 8 ≤ x → block d' c x = block d c x
  slot : k < 128
  dead : entType d p k = 0

/-- **Restored**: the number of links is the same as well. -/
structure Restored (d d' : Store) (p k : Nat) : Prop extends RestoredBut d d' p k where
  links : ino d' p inoLinksCount = ino d p inoLinksCount

/-- The name of a removed entry is zero. -/
theorem dropEntry_name {blk : Store} {k m : Nat} (hm : m < dName) :
    dropEntry blk k (dentryName k + m) = 0 := by
  unfold dropEntry
  rw [blit_apply_add _ _ hm]
  rfl

theorem ino_dropDir_links {d : Store} {p : Nat} :
    ino (dropDir d p) p inoLinksCount = (ino d p inoLinksCount + (2 ^ 32 - 1)) % 2 ^ 32 := by
  unfold dropDir
  simp only
  rw [ino_setIno_self, ino_setIno_field (by decide), Nat.mod_mod]

section Erase

variable {s : State} {mem : Store} {p k x b type : Nat}

/-- `delete_dentry` and what follows, once inode `x` has been found to have entry
`k` and nothing before it. -/
theorem erase_exact {d : Store} (hd : s.disk = d) (hp : IsDir d p)
    (hcu : BlockUsed d (ino d p inoDirectBlock)) (hx : x < 512) (hpx : p ≠ x)
    (hlast : lastLink d x type) (hk : k < 128) (hid : entId d p k = x)
    (hfirst : ∀ j, j < k → entId d p j ≠ x) (hty : ino d x inoType = type)
    (hb : ino d x inoDirectBlock = b) (hblt : b < 4096) (hcb : ino d p inoDirectBlock ≠ b)
    (hbmap : bmap d b = 1) (himap : imap d x = 1) :
    ∃ t u, deleteDentry p x type s = .ok (true, t) ∧ removeInode x type t = .ok u ∧
      Erased d u.disk p k x b ∧ Extends s u := by
  subst hd
  have hspec : Holds _ _ (deleteDentry p x type s) := deleteDentry_spec hp.1.1 hx rfl hcu.1
  obtain ⟨r, hdel, hcase⟩ := hspec.exists_ok fun _ hnone => absurd hid (hnone k hk)
  rcases hcase with ⟨_, _, hno, _⟩ | ⟨hgo, _, l, hl, hlid, hlfirst, hdisk, hext⟩
  · exact absurd hlast hno
  · obtain ⟨goOn, t⟩ := r
    change goOn = _ at hgo
    change t.disk = _ at hdisk
    rw [decide_eq_true hlast] at hgo
    have hlk : l = k := by
      rcases Nat.lt_trichotomy l k with hlt | heq | hlt
      · exact absurd hlid (hfirst l hlt)
      · exact heq
      · exact absurd hid (hlfirst k hlt)
    subst hlk hgo
    have hunl : Unlinked s.disk t.disk p l x := by
      rw [hdisk]
      exact unlinked_edit hp.1.1 rfl hk hid hfirst
    have hkeep : ∀ f, f + 4 ≤ 128 → ino t.disk x f = ino s.disk x f := fun f hf =>
      hunl.ino_eq x f hx hf (Or.inl (Ne.symm hpx))
    have hspec' : Holds _ _ (removeInode x type t) :=
      removeInode_spec hx ((hkeep _ (by decide)).trans hb) hblt
    obtain ⟨u, hrem, _, _, _, hdisku, hextu⟩ := hspec'.exists_ok fun _ hno => by
        rw [hkeep _ (by decide), hunl.bmap_eq b (by omega), hunl.imap_eq x hx] at hno
        exact absurd hno (by simp [hty, hbmap, himap])
    have hb' : b < 131072 := by omega
    have hremoved : Removed s.disk u.disk p l x b := by
      rw [hdisku]
      exact removed_edit hunl hp.1.1 hx (Or.inl hcb) hb' himap hbmap
    refine ⟨t, u, hdel, hrem, { hremoved with nameless := ?_, parentLinks := ?_ },
      hext.trans hextu⟩
    · intro m hm
      have hin : dentryName l + m < 4096 := by
        unfold dentryName
        unfold dName at hm
        omega
      unfold dirBlock
      rw [hremoved.ino_eq p _ hp.1.1 (by decide) hpx (Or.inr notCount_directBlock), hdisku,
        block_setImap hx, block_clearIno hx, block_setBlk_of_ne hcb hin, block_setBmap hb', hdisk,
        block_setBlk_self hin]
      exact dropEntry_name hm
    · rw [hdisku, ino_setImap hx, ino_clearIno_of_ne hpx (by decide),
        ino_setBlk hp.1.1 (by decide), ino_setBmap hb', hdisk, ino_setBlk hp.1.1 (by decide)]
      exact ino_dropDir_links

end Erase

/-! ## There and back -/

section Undo

variable {d d' d'' : Store} {p k i b type : Nat} {mem : Store} {name n : Nat}

/-- A word whose four bytes are the same. -/
theorem entry_bytes {blk blk' : Store} {k y : Nat} (hy : y < 4096) (hk : y / 32 = k)
    (hid : y < 32 * k + 4 ∨ 32 * k + 8 ≤ y) (htype : dentryType blk k = dentryType blk' k)
    (hname : ∀ m, m < dName → blk (dentryName k + m) = blk' (dentryName k + m)) :
    blk y = blk' y := by
  rcases hid with hlt | hge
  · obtain ⟨m, rfl⟩ : ∃ m, y = 32 * k + m := ⟨y - 32 * k, by omega⟩
    exact byte_eq_of_rd32 htype (by omega)
  · obtain ⟨m, rfl⟩ : ∃ m, y = dentryName k + m := ⟨y - dentryName k, by unfold dentryName; omega⟩
    exact hname m (by unfold dName; unfold dentryName at hk; omega)

/-- What was made and erased leaves all but a dead slot as before. -/
theorem Created.restored (hc : Consistent d) (hp : IsDir d p)
    (h : Created d d' p k i b type mem name n) (he : Erased d' d'' p k i b) :
    RestoredBut d d'' p k := by
  have hpi : p ≠ i := fun heq => hp.1.2 (heq ▸ h.free.2)
  have hcp : ino d' p inoDirectBlock = ino d p inoDirectBlock :=
    h.ino_eq p _ hp.1.1 (by decide) hpi (Or.inr notCount_directBlock)
  have hcp' : ino d'' p inoDirectBlock = ino d p inoDirectBlock :=
    (he.ino_eq p _ hp.1.1 (by decide) hpi (Or.inr notCount_directBlock)).trans hcp
  refine ⟨?_, ?_, ?_, ?_, h.entry.slot, h.entry.dead⟩
  · intro j hj
    rw [he.imap_eq j hj, h.imap_eq j hj]
    by_cases hji : j = i
    · rw [if_pos hji, hji, h.free.2]
    · rw [if_neg hji, if_neg hji]
  · intro c hlt
    rw [he.bmap_eq c hlt, h.bmap_eq c hlt]
    by_cases hcb : c = b
    · rw [if_pos hcb, hcb, h.blockFree.2]
    · rw [if_neg hcb, if_neg hcb]
  · intro j w hj hw hother
    by_cases hji : j = i
    · rw [hji, he.clear _ (by omega), hc.free i h.free.1 h.free.2 _ (by omega)]
    · by_cases hnum : j = p ∧ 4 * w = inoFileNum
      · -- the entry was counted in and is counted out
        have hlt : ino d p inoFileNum < 2 ^ 32 := rd32_lt _ _
        rw [hnum.1, hnum.2, (he.entry hpi).fileNum, h.entry.fileNum]
        omega
      · have hfar : j ≠ p ∨ NotCount (4 * w) := by
          unfold NotCount
          unfold inoFileNum at hnum
          unfold inoLinksCount at hother
          omega
        rw [he.ino_eq j _ hj (by omega) hji hfar, h.ino_eq j _ hj (by omega) hji hfar]
  · intro c x hused hx hother
    have hcb : c ≠ b := fun heq => hused.2 (heq ▸ h.blockFree.2)
    by_cases hcc : c = ino d p inoDirectBlock
    · have hblk : block d'' c = dirBlock d'' p := by rw [hcc, ← hcp']; rfl
      have hblk0 : block d c = dirBlock d p := by rw [hcc]; rfl
      rw [hblk, hblk0]
      by_cases hslot : x / 32 = k
      · refine entry_bytes hx hslot (hother.resolve_left (not_not.mpr hcc)) ?_ ?_
        · rw [h.entry.dead]
          exact (he.entry hpi).entryType
        · intro m hm
          rw [he.nameless m hm, hc.dead p hp k h.entry.slot h.entry.dead m hm]
      · rw [(he.entry hpi).other x hx hslot, h.entry.other x hx hslot]
    · rw [he.blk_eq c x hcb (by rw [hcp]; exact hcc) hx, h.blk_eq c x hcb hcc hx]

/-- The links of the directory: a removed directory was counted when it was made, a
removed file was not. -/
theorem Created.links (h : Created d d' p k i b type mem name n) (he : Erased d' d'' p k i b) :
    ino d'' p inoLinksCount =
      if type = iDir then ino d p inoLinksCount
      else (ino d p inoLinksCount + (2 ^ 32 - 1)) % 2 ^ 32 := by
  have hlt : ino d p inoLinksCount < 2 ^ 32 := rd32_lt _ _
  rw [he.parentLinks, h.parentLinks]
  by_cases ht : type = iDir
  · rw [if_pos ht, if_pos ht]
    omega
  · rw [if_neg ht, if_neg ht]

/-- The new entry is the only one a search for its name and type finds. -/
theorem Created.finds (h : Created d d' p k i b type mem name n) (hname : OneName mem name n)
    (hbit : type &&& type ≠ 0)
    (hfresh : ∀ l, l < 128 → ¬ Hit (dirBlock d p) mem name n type l) {id : Nat}
    (hf : Finds (dirBlock d' p) mem name n type id) : id = i := by
  have hnew : Hit (dirBlock d' p) mem name n type k := by
    refine ⟨by rw [h.entry.entryType]; exact hbit, fun m hm => ?_⟩
    rw [h.name_eq m (lt_of_le_of_lt hm hname.fit)]
    by_cases hlt : m < n
    · rw [if_pos hlt]
    · rw [if_neg hlt, show m = n by omega, hname.ends]
  have hold : ∀ l, l < 128 → l ≠ k → ¬ Hit (dirBlock d' p) mem name n type l := by
    intro l hl hlk hit
    refine hfresh l hl ⟨?_, fun m hm => ?_⟩
    · rw [← (entries_of_other hl hlk h.entry.other).1]
      exact hit.1
    · have hfit := hname.fit
      unfold dName at hfit
      rw [← h.entry.other _ (by unfold dentryName; omega) (by unfold dentryName; omega)]
      exact hit.2 m hm
  rcases hf with ⟨l, hl, hit, _, hid⟩ | ⟨hnone, _⟩
  · have hlk : l = k := by
      by_contra hne
      exact hold l hl hne hit
    rw [hid, hlk, h.entry.entryId]
  · exact absurd hnew (hnone k h.entry.slot)

/-- In front of the new entry no slot carries the number of the new inode: they are
all live, and live entries name inodes that were in use. -/
theorem Created.first (hc : Consistent d) (hp : IsDir d p)
    (h : Created d d' p k i b type mem name n) {j : Nat} (hj : j < k) : entId d' p j ≠ i := by
  have hk := h.entry.slot
  have hj' : j < 128 := by omega
  intro heq
  have hsame : entId d' p j = entId d p j :=
    (entries_of_other hj' (by omega) h.entry.other).2
  have hused := hc.named_used hp ⟨hj', h.entry.first j hj⟩
  rw [← hsame, heq] at hused
  exact hused.2 h.free.2

end Undo

/-- The same directories with the same live entries in the same slots. -/
structure SameEntries (d d' : Store) : Prop where
  dir : ∀ q, IsDir d' q ↔ IsDir d q
  live : ∀ q l, IsDir d q → (LiveEntry d' q l ↔ LiveEntry d q l)
  entry : ∀ q l, IsDir d q → LiveEntry d q l →
    ∀ x, x < 32 → dirBlock d' q (32 * l + x) = dirBlock d q (32 * l + x)

/-- The live entries of every directory are the same. -/
theorem RestoredBut.sameEntries {d d' : Store} {p k : Nat} (hc : Consistent d)
    (h : RestoredBut d d' p k) : SameEntries d d' := by
  have hdirect : ∀ q, q < 512 → ino d' q inoDirectBlock = ino d q inoDirectBlock :=
    fun q hq => h.ino_eq q 8 hq (by decide) (Or.inr (by decide))
  have hkind : ∀ q, q < 512 → ino d' q inoType = ino d q inoType :=
    fun q hq => h.ino_eq q 1 hq (by decide) (Or.inr (by decide))
  have hblk : ∀ q, IsDir d q → ∀ x, x < 4096 → x < 32 * k + 4 ∨ 32 * k + 8 ≤ x ∨
      ino d q inoDirectBlock ≠ ino d p inoDirectBlock → dirBlock d' q x = dirBlock d q x := by
    intro q hq x hx hother
    unfold dirBlock
    rw [hdirect q hq.1.1]
    exact h.blk_eq _ x (hc.dir_used hq) hx (by tauto)
  have htype : ∀ q, IsDir d q → ∀ l, l < 128 → entType d' q l = entType d q l := by
    intro q hq l hl
    refine rd32_congr fun m hm => hblk q hq _ (by omega) ?_
    omega
  refine ⟨fun q => ?_, fun q l hq => ?_, fun q l hq hl x hx => ?_⟩
  · unfold IsDir InodeUsed
    constructor
    · rintro ⟨⟨hlt, hused⟩, hty⟩
      rw [h.imap_eq q hlt] at hused
      exact ⟨⟨hlt, hused⟩, (hkind q hlt).symm.trans hty⟩
    · rintro ⟨⟨hlt, hused⟩, hty⟩
      rw [h.imap_eq q hlt]
      exact ⟨⟨hlt, hused⟩, (hkind q hlt).trans hty⟩
  · unfold LiveEntry
    constructor
    · rintro ⟨hlt, hne⟩
      exact ⟨hlt, htype q hq l hlt ▸ hne⟩
    · rintro ⟨hlt, hne⟩
      exact ⟨hlt, (htype q hq l hlt).symm ▸ hne⟩
  · have hlt := hl.1
    by_cases hqp : ino d q inoDirectBlock = ino d p inoDirectBlock
    · have hlk : l ≠ k := by
        rintro rfl
        have hdead : entType d q l = 0 := by
          have hdead := h.dead
          unfold entType dirBlock at hdead ⊢
          rw [hqp]
          exact hdead
        exact hl.2 hdead
      exact hblk q hq _ (by omega) (by omega)
    · exact hblk q hq _ (by omega) (Or.inr (Or.inr hqp))

section Calls

variable {s s' : State} {mem : Store} {name n type p k i b : Nat}

/-- Removing what has just been made. -/
theorem removePath_created (hc : Consistent s.disk) (hp : IsDir s.disk p)
    (hcwd : currentId s' = p) (hname : OneName mem name n) (ht : type = iDir ∨ type = iFile)
    (hfresh : ∀ l, l < 128 → ¬ Hit (dirBlock s.disk p) mem name n type l)
    (h : Created s.disk s'.disk p k i b type mem name n) :
    ∃ s'', removePath type name mem s' = .ok (0, mem, s'') ∧
      Erased s'.disk s''.disk p k i b ∧ Extends s' s'' := by
  have hpi : p ≠ i := fun heq => hp.1.2 (heq ▸ h.free.2)
  have hp' : IsDir s'.disk p := h.isDir_old hp
  have hcp : ino s'.disk p inoDirectBlock = ino s.disk p inoDirectBlock :=
    h.ino_eq p _ hp.1.1 (by decide) hpi (Or.inr notCount_directBlock)
  have hcu := hc.dir_used hp
  have hcb : ino s.disk p inoDirectBlock ≠ b := fun heq => hcu.2 (heq ▸ h.blockFree.2)
  have hcu' : BlockUsed s'.disk (ino s'.disk p inoDirectBlock) := by
    rw [hcp]
    refine ⟨hcu.1, ?_⟩
    rw [h.bmap_eq _ hcu.1, if_neg hcb]
    exact hcu.2
  have htype : type ≠ 0 ∧ type &&& type ≠ 0 := by
    rcases ht with rfl | rfl <;> decide
  have hedit : SlotEdit (· = p) s.disk s'.disk p k :=
    ⟨h.entry.other, fun j hj hne => absurd hj hne, fun j hj hne => absurd hj hne⟩
  have hlive : LiveEntry s'.disk p k := ⟨h.entry.slot, by
    change dentryType (dirBlock s'.disk p) k ≠ 0
    rw [h.entry.entryType]
    exact htype.1⟩
  have hcount := hedit.count_new rfl (hc.count p hp) (fun hl => hl.2 h.entry.dead) hlive
    h.entry.fileNum
  obtain ⟨id, hsearch, hfinds⟩ := searchDentry_name type hp.1.1
    hcu'.1 hcount hname.ne hname.string hname.fit
  have hid : id = i := h.finds hname htype.2 hfresh hfinds
  subst hid
  have hi := h.free.1
  have hlast : lastLink s'.disk id type := by
    refine ⟨h.linksCount, fun hdir => ?_⟩
    rw [h.newFileNum, if_pos hdir]
  obtain ⟨t, u, hdel, hrem, herased, hext⟩ := erase_exact (s := searched p s')
    (d := s'.disk) rfl hp' hcu' hi hpi
    hlast h.entry.slot h.entry.entryId (fun j hj => h.first hc hp hj) h.newType h.directBlock
    h.blockFree.1 (by rw [hcp]; exact hcb)
    (by rw [h.bmap_eq b (lt_trans h.blockFree.1 (by decide)), if_pos rfl])
    (by rw [h.imap_eq id hi, if_pos rfl])
  refine ⟨u, ?_, herased, (((Extends.refl s').getInode p).readBlock _).trans hext⟩
  have hnone : id ≠ minusOne := by
    intro heq
    rw [heq] at hi
    exact absurd hi (by decide)
  unfold removePath
  rw [walk_oneName hname, hcwd]
  change (searchDentry p name type mem s' >>= _) = _
  rw [hsearch]
  change (if id = minusOne then _ else _) = _
  rw [if_neg hnone, hdel]
  change (removeInode id type t >>= _) = _
  rw [hrem]
  rfl

/-- What `do_rmdir` after `do_mkdir` should do. -/
def MkdirRmdirRestores (s : State) (name : Nat) (mem : Store) : Prop :=
  ∃ s' s'' k, doMkdir name mem s = .ok (0, mem, s') ∧ doRmdir name mem s' = .ok (0, mem, s'') ∧
    Restored s.disk s''.disk (currentId s) k ∧ SameEntries s.disk s''.disk ∧
    s''.currentInode = s.currentInode ∧ s''.fdescArray = s.fdescArray

/-- **`do_rmdir` undoes `do_mkdir`** if and only if `alloc_block` sees a free block: otherwise
`do_mkdir` does not return. -/
theorem mkdir_rmdir_restores (hc : Consistent s.disk) (hv : Vacant s) (hname : OneName mem name n)
    (hfresh : Fresh s mem name n iDir) : MkdirRmdirRestores s name mem ↔ BlockInSight s := by
  constructor
  · rintro ⟨s', s'', k, hmkdir, -⟩
    by_contra hs
    have hstop : doMkdir name mem s = .error .noMoreBlocks := makePath_noBlock hc hv hs hname hfresh
    rw [hstop] at hmkdir
    cases hmkdir
  · intro hs
    obtain ⟨k, i, b, s', hmkdir, hmade, hext⟩ :=
      makePath_created hc hv hs hname (by decide) hfresh
    have hcwd : currentId s' = currentId s := by
      unfold currentId
      rw [hext.cwd]
    obtain ⟨s'', hrmdir, herased, hext'⟩ :=
      removePath_created hc hv.cwd hcwd hname (Or.inl rfl) hfresh.2 hmade
    have hall := hext.trans hext'
    have hrest := hmade.restored hc hv.cwd herased
    exact ⟨s', s'', k, hmkdir, hrmdir, { hrest with
      links := (hmade.links herased).trans (if_pos rfl) }, hrest.sameEntries hc, hall.cwd,
      hall.fdesc⟩

/-- On a disk just formatted. -/
theorem mkdir_rmdir_restores_a : BlockInSight freshState ∧ MkdirRmdirRestores freshState 100 memA :=
  ⟨freshState_blockInSight, (mkdir_rmdir_restores freshState_consistent freshState_vacant memA_oneName
    (freshState_fresh iDir)).mpr freshState_blockInSight⟩

/-- With the map full in sight there is nothing to undo: `do_mkdir` stops. -/
theorem mkdir_rmdir_not_restores : ∃ s, Consistent s.disk ∧ Vacant s ∧ OneName memA 100 1 ∧
    Fresh s memA 100 1 iDir ∧ doMkdir 100 memA s = .error .noMoreBlocks ∧
    ¬ MkdirRmdirRestores s 100 memA := by
  obtain ⟨s, hc, hv, -, hs, hfresh⟩ := full_map
  have hstop : doMkdir 100 memA s = .error .noMoreBlocks :=
    makePath_noBlock hc hv hs memA_oneName (hfresh iDir)
  refine ⟨s, hc, hv, memA_oneName, hfresh iDir, hstop, ?_⟩
  rintro ⟨s', s'', k, hmkdir, -⟩
  rw [hstop] at hmkdir
  cases hmkdir

/-- `do_rm` after `do_touch` restores all but the number of links of the directory,
which has gone down by one. -/
theorem touch_rm_restores (hc : Consistent s.disk) (hv : Vacant s) (hs : BlockInSight s)
    (hname : OneName mem name n) (hfresh : Fresh s mem name n iFile) :
    ∃ i s' s'' k, doTouch name mem s = .ok (i, mem, s') ∧ doRm name mem s' = .ok (0, mem, s'') ∧
      RestoredBut s.disk s''.disk (currentId s) k ∧ SameEntries s.disk s''.disk ∧
      ino s''.disk (currentId s) inoLinksCount =
        (ino s.disk (currentId s) inoLinksCount + (2 ^ 32 - 1)) % 2 ^ 32 := by
  obtain ⟨k, i, b, s', htouch, hmade, hext⟩ :=
    makePath_created hc hv hs hname (by decide) hfresh
  have hcwd : currentId s' = currentId s := by
    unfold currentId
    rw [hext.cwd]
  obtain ⟨s'', hrm, herased, _⟩ :=
    removePath_created hc hv.cwd hcwd hname (Or.inr rfl) hfresh.2 hmade
  have hrest := hmade.restored hc hv.cwd herased
  exact ⟨i, s', s'', k, htouch, hrm, hrest, hrest.sameEntries hc,
    (hmade.links herased).trans (if_neg (by decide))⟩

/-- What `do_rm` after `do_touch` should do: the two maps, every inode and the live entries of
every directory are as before. -/
def TouchRmRestores (s : State) (name : Nat) (mem : Store) : Prop :=
  ∃ x y, doTouch name mem s = .ok x ∧ doRm name x.2.1 x.2.2 = .ok y ∧
    (∀ i, i < 512 → imap y.2.2.disk i = imap s.disk i) ∧
    (∀ c, c < 131072 → bmap y.2.2.disk c = bmap s.disk c) ∧
    (∀ i w, i < 512 → w < 32 → ino y.2.2.disk i (4 * w) = ino s.disk i (4 * w)) ∧
    SameEntries s.disk y.2.2.disk

/-- **`do_rm` never undoes `do_touch`.** -/
theorem touch_rm_never_restores (hc : Consistent s.disk) (hv : Vacant s)
    (hname : OneName mem name n) (hfresh : Fresh s mem name n iFile) :
    ¬ TouchRmRestores s name mem := by
  rintro ⟨x, y, htouch, hrm, -, -, hino, -⟩
  by_cases hs : BlockInSight s
  · obtain ⟨i, s', s'', k, htouch', hrm', _, _, hlinks⟩ := touch_rm_restores hc hv hs hname hfresh
    rw [htouch] at htouch'
    cases htouch'
    rw [hrm] at hrm'
    cases hrm'
    have hkept : ino s''.disk (currentId s) inoLinksCount = ino s.disk (currentId s) inoLinksCount :=
      hino (currentId s) 6 hv.cwd.1.1 (by decide)
    rw [hkept] at hlinks
    have hlt : ino s.disk (currentId s) inoLinksCount < 2 ^ 32 := rd32_lt _ _
    omega
  · have hstop : doTouch name mem s = .error .noMoreBlocks :=
      makePath_noBlock hc hv hs hname hfresh
    rw [hstop] at htouch
    cases htouch

end Calls

/-- A process with the strings `a`, `b` and `..`. -/
def memVisit : Store := fun k =>
  if k = 100 then 97 else if k = 110 then 98 else if k = 140 ∨ k = 141 then 46 else 0

/-- Make a directory, do something in it, leave it and remove it. -/
def visiting (cs : List Call) : List Call :=
  [.mkdir 100 memVisit, .cd 100 memVisit] ++ cs ++ [.cd 140 memVisit, .rmdir 100 memVisit]

/-- A directory in which a file was made and removed is empty and cannot be removed,
whereas one that was left alone can. -/
theorem touch_rm_blocks_rmdir :
    (∃ t, run exec (visiting []) freshState = .ok t ∧ ¬ IsDir t.disk 1) ∧
      ∃ t, run exec (visiting [.touch 110 memVisit, .rm 110 memVisit]) freshState = .ok t ∧
        IsDir t.disk 1 ∧ ino t.disk 1 inoFileNum = 2 ∧ ino t.disk 1 inoLinksCount = 0 := by
  have halone : returns (fun t => ¬ IsDir t.disk 1) (run exec (visiting []) freshState) = true := by
    decide +kernel
  have hused : returns (fun t => IsDir t.disk 1 ∧ ino t.disk 1 inoFileNum = 2 ∧
      ino t.disk 1 inoLinksCount = 0)
      (run exec (visiting [.touch 110 memVisit, .rm 110 memVisit]) freshState) = true := by
    decide +kernel
  exact ⟨exists_of_returns halone, exists_of_returns hused⟩

theorem touch_rm_never_restores_a : ¬ TouchRmRestores freshState 100 memA :=
  touch_rm_never_restores freshState_consistent freshState_vacant memA_oneName
    (freshState_fresh iFile)

end Fs
