import OslabRiscv.Fs.Lookup

/-!
# Making a file or a directory

On a consistent disk `do_mkdir` and `do_touch` of a plain name refuse, with the
disk as it was (`makePath_taken`), or make exactly one inode and one entry
(`makePath_created`).  Which of the two is decided by the name and the entries
of the current directory alone.  A free block does not always help: where
`alloc_block` does not look at it the call stops (`makePath_noBlock`).
-/

namespace Fs

open ByteStore Outcome

/-- What the structures on the disk owe each other. -/
structure Consistent (d : Store) : Prop where
  /-- A block an inode in use refers to is marked, and has no other reference. -/
  owned : Owned d
  /-- A marked block is referred to. -/
  noLeak : NoLeak d
  /-- The inodes in use are the root and those that live entries name. -/
  inodes : ∀ i, InodeUsed d i ↔ i = 0 ∨ ∃ q k, IsDir d q ∧ LiveEntry d q k ∧ entId d q k = i
  free : ∀ i, i < 512 → imap d i = 0 → ∀ f, f + 4 ≤ 128 → ino d i f = 0
  dead : ∀ q, IsDir d q → ∀ k, k < 128 → entType d q k = 0 →
    ∀ m, m < dName → dirBlock d q (dentryName k + m) = 0
  count : ∀ q, IsDir d q → ino d q inoFileNum = (liveSlots d q).card
  /-- Live entries of one name have types that share no bit. -/
  distinct : ∀ q, IsDir d q → ∀ k l, LiveEntry d q k → LiveEntry d q l → k ≠ l →
    (∃ n, SameName (dirBlock d q) (dentryName k) (dirBlock d q) (dentryName l) n) →
    entType d q k &&& entType d q l = 0

/-- A path that is one component: at most 23 bytes other than zero and `/`, then
two zero bytes. -/
structure OneName (mem : Store) (name n : Nat) : Prop where
  ne : name ≠ 0
  run : PlainRun mem name n
  ends : mem (name + n) = 0
  next : mem (name + n + 1) = 0
  fit : n < dName

/-- Room for one more: a free inode, a free block and a dead entry in the current
directory. -/
structure Vacant (s : State) : Prop where
  cwd : IsDir s.disk (currentId s)
  inode : ∃ i, i < 512 ∧ imap s.disk i = 0
  block : ∃ b, b < 131072 ∧ bmap s.disk b = 0
  slot : ∃ k, k < 128 ∧ entType s.disk (currentId s) k = 0

/-- A block is free where `alloc_block` looks for one: it reads eight of the 256
sectors of the block map, and scans their bytes only. -/
def BlockInSight (s : State) : Prop := ∃ b, b < 4096 ∧ bmap s.disk b = 0

/-- A directory of a consistent disk has a block in use. -/
theorem Consistent.dir_used {d : Store} (h : Consistent d) {p : Nat} (hp : IsDir d p) :
    BlockUsed d (ino d p inoDirectBlock) := by
  by_cases hz : ino d p inoDirectBlock = 0
  · rw [hz]
    exact ⟨by decide, h.owned.zero_used⟩
  · exact h.owned.used _ (firstPos_live hp.1) hz

/-- Live entries name inodes in use. -/
theorem Consistent.named_used {d : Store} (h : Consistent d) {q k : Nat} (hq : IsDir d q)
    (hk : LiveEntry d q k) : InodeUsed d (entId d q k) :=
  (h.inodes _).mpr (Or.inr ⟨q, k, hq, hk, rfl⟩)

section OneName

variable {mem : Store} {name n : Nat}

/-- A single name is a string. -/
theorem OneName.string (h : OneName mem name n) : NameEnds mem name n := h.run.ends h.ends

/-- No component follows. -/
theorem OneName.no_subdir (h : OneName mem name n) :
    ¬ (getSubdir mem name ≠ 0 ∧ mem (getSubdir mem name) ≠ 0) := by
  rw [getSubdir_end h.string h.fit]
  by_cases hfull : n + 1 = dName
  · rw [if_pos hfull]
    exact fun hcon => hcon.1 rfl
  · rw [if_neg hfull]
    exact fun hcon => hcon.2 h.next

/-- The path is its only component. -/
theorem walk_oneName (h : OneName mem name n) (s : State) :
    walk name mem s = .ok (some (currentId s, name), mem, s) := by
  obtain ⟨k, hk, _⟩ := addressSpace_succ
  unfold walk
  rw [getDir_end h.ne h.run h.fit h.ends]
  change (if name = 0 then _ else _) = _
  rw [if_neg h.ne, hk]
  unfold walkLoop
  rw [if_neg h.no_subdir]

end OneName

/-! ## The inode and the entry -/

/-- Field `f` of a fresh inode `i` with block `b`. -/
def freshField (i b type f : Nat) : Nat :=
  if f = inoMode then oRdwr
  else if f = inoType then type
  else if f = inoUid then minusOne
  else if f = inoInodeId then i
  else if f = inoFileNum then if type = iDir then 2 else 0
  else if f = inoSize then if type = iDir then 4096 else 0
  else if f = inoLinksCount then 1
  else if f = inoBlocks then 1
  else if f = inoDirectBlock then b
  else 0

/-- **What making an inode does.**  Besides what `Made` says, the entry carries
the name, the parent has one more link if a directory was made, and the inode is
as `create_inode` sets it up. -/
structure Created (d d' : Store) (p k i b type : Nat) (mem : Store) (name n : Nat) : Prop
    extends Made d d' p k i b type where
  name_eq : ∀ m, m < dName →
    dirBlock d' p (dentryName k + m) = if m < n then mem (name + m) else 0
  parentLinks : ino d' p inoLinksCount =
    if type = iDir then (ino d p inoLinksCount + 1) % 2 ^ 32 else ino d p inoLinksCount
  field : ∀ w, w < 32 → ino d' i (4 * w) = freshField i b type (4 * w)

section Fields

variable {d blk mem : Store} {p k i b id type mode name n : Nat}

/-- The name of the new entry is the one given, behind which the old bytes stay. -/
theorem addEntry_name {m : Nat} (hm : m < dName) :
    addEntry blk k id type mem name n (dentryName k + m) =
      if m < n then mem (name + m) else blk (dentryName k + m) := by
  unfold addEntry
  unfold dName at hm
  by_cases hlt : m < n
  · rw [if_pos hlt, blit_apply_add _ _ hlt]
  · rw [if_neg hlt, blit_apply_of_ne _ _ (by omega),
      wr32_apply_of_ne _ (by unfold dentryName; omega),
      wr32_apply_of_ne _ (by unfold dentryName; omega)]

/-- A directory counts among the links of its parent. -/
theorem ino_bumpDir_links :
    ino (bumpDir d p type) p inoLinksCount =
      if type = iDir then (ino d p inoLinksCount + 1) % 2 ^ 32 else ino d p inoLinksCount := by
  by_cases ht : type = iDir
  · rw [if_pos ht]
    unfold bumpDir
    simp only [if_pos ht]
    rw [ino_setIno_self, ino_setIno_field (by decide), Nat.mod_mod]
  · rw [if_neg ht, ino_bumpDir_linksCount ht]

/-- The nine fields `create_inode` sets. -/
theorem ino_initIno_field (hi : i < 512) (hb : b < 2 ^ 32) (ht : type < 2 ^ 32) {f : Nat}
    (hf : f = inoMode ∨ f = inoType ∨ f = inoUid ∨ f = inoInodeId ∨ f = inoFileNum ∨
      f = inoSize ∨ f = inoLinksCount ∨ f = inoBlocks ∨ f = inoDirectBlock) :
    ino (initIno d i b type oRdwr) i f = freshField i b type f := by
  have hlast : ∀ {d g v}, v < 2 ^ 32 → ino (setIno d i g v) i g = v := by
    intro d g v hv
    rw [ino_setIno_self, Nat.mod_eq_of_lt hv]
  rcases hf with rfl | rfl | rfl | rfl | rfl | rfl | rfl | rfl | rfl
  · unfold initIno
    simp only
    repeat rw [ino_setIno_field (by decide)]
    exact hlast (by decide)
  · rw [ino_initIno_type ht]
    rfl
  · unfold initIno
    simp only
    repeat rw [ino_setIno_field (by decide)]
    exact hlast (by decide)
  · rw [ino_initIno_inodeId hi]
    rfl
  · rw [ino_initIno_fileNum]
    rfl
  · unfold initIno
    simp only
    rw [ino_setIno_field (by decide), hlast (by split_ifs <;> decide)]
    rfl
  · rw [ino_initIno_linksCount]
    rfl
  · unfold initIno
    simp only
    repeat rw [ino_setIno_field (by decide)]
    exact hlast (by decide)
  · rw [ino_initIno_directBlock hb]
    rfl

end Fields

/-- `makeInode` and the block its caller fills in, on a consistent disk. -/
theorem created_edit (mem : Store) (name : Nat) {d : Store} {p k i b type n : Nat} (hc : Consistent d)
    (hp : IsDir d p) (hi : i < 512) (hfree : imap d i = 0) (hb : b < 4096) (hb0 : bmap d b = 0)
    (hk : k < 128) (hdead : entType d p k = 0) (hfirst : ∀ j, j < k → entType d p j ≠ 0)
    (hn : n ≤ dName) (ht : type < 2 ^ 32) :
    Created d (setBlk (inodeMade d p k i b type mem name n) b
      (if type = iDir then newDirBlock p i else zeros)) p k i b type mem name n := by
  have hpi : p ≠ i := fun heq => hp.1.2 (heq ▸ hfree)
  have hcb : ino d p inoDirectBlock ≠ b := fun heq => (hc.dir_used hp).2 (heq ▸ hb0)
  have hb' : b < 131072 := by omega
  have hmade : Made d (setBlk (inodeMade d p k i b type mem name n) b
      (if type = iDir then newDirBlock p i else zeros)) p k i b type :=
    made_edit hp.1.1 rfl hpi hi hfree hb hb0 hcb hk hdead hfirst hn ht
  refine { hmade with name_eq := ?_, parentLinks := ?_, field := ?_ }
  · intro m hm
    have hin : dentryName k + m < 4096 := by
      unfold dentryName
      unfold dName at hm
      omega
    have hpc : ino (setBlk (inodeMade d p k i b type mem name n) b
        (if type = iDir then newDirBlock p i else zeros)) p inoDirectBlock =
        ino d p inoDirectBlock :=
      hmade.ino_eq p _ hp.1.1 (by decide) hpi (Or.inr notCount_directBlock)
    unfold dirBlock
    rw [hpc, block_setBlk_of_ne hcb hin]
    unfold inodeMade
    rw [block_initIno hi, block_setBmap hb', block_setBlk_self hin, addEntry_name hm,
      block_setImap hi]
    by_cases hlt : m < n
    · rw [if_pos hlt, if_pos hlt]
    · rw [if_neg hlt, if_neg hlt]
      exact hc.dead p hp k hk hdead m hm
  · rw [ino_setBlk hp.1.1 (by decide)]
    unfold inodeMade
    rw [ino_initIno_of_ne hpi (by decide), ino_setBmap hb', ino_setBlk hp.1.1 (by decide),
      ino_bumpDir_links, ino_setImap hi]
  · intro w hw
    by_cases hset : w ≤ 8
    · rw [ino_setBlk hi (by omega)]
      unfold inodeMade
      refine ino_initIno_field hi (by omega) ht ?_
      unfold inoMode inoType inoUid inoInodeId inoFileNum inoSize inoLinksCount inoBlocks
        inoDirectBlock
      omega
    · rw [hmade.pointer _ (by omega) (by omega), hc.free i hi hfree _ (by omega)]
      have hnone : ∀ g, g ≤ 32 → 4 * w ≠ g := by
        intro g hg
        omega
      unfold freshField
      rw [if_neg (hnone _ (by decide)), if_neg (hnone _ (by decide)), if_neg (hnone _ (by decide)),
        if_neg (hnone _ (by decide)), if_neg (hnone _ (by decide)), if_neg (hnone _ (by decide)),
        if_neg (hnone _ (by decide)), if_neg (hnone _ (by decide)), if_neg (hnone _ (by decide))]

/-! ## The calls -/

section Calls

variable {s : State} {mem : Store} {name n type : Nat}

/-- The name is allowed and no live entry of the current directory has it with a
type that shares a bit with `type`. -/
def Fresh (s : State) (mem : Store) (name n type : Nat) : Prop :=
  NameAllowed mem name n ∧ ∀ k, k < 128 → ¬ Hit (dirBlock s.disk (currentId s)) mem name n type k

/-- A name that is taken or not allowed is refused. -/
theorem makePath_taken (hc : Consistent s.disk) (hp : IsDir s.disk (currentId s))
    (hname : OneName mem name n) (hnot : ¬ Fresh s mem name n type) :
    ∃ s', makePath type name mem s = .ok (minusOne, mem, s') ∧ s'.disk = s.disk ∧
      Extends s s' := by
  obtain ⟨illegal, hill, hiff⟩ := isNameIllegal_name hname.ne hname.string hname.fit
  unfold makePath
  rw [walk_oneName hname]
  change ∃ s', (isNameIllegal mem name >>= _) = _ ∧ _
  rw [hill]
  cases illegal with
  | true => exact ⟨s, rfl, rfl, .refl s⟩
  | false =>
      obtain ⟨id, hsearch, hfinds⟩ := searchDentry_name type hp.1.1
        (hc.dir_used hp).1 (hc.count _ hp) hname.ne hname.string hname.fit
      change ∃ s', (searchDentry _ _ _ _ _ >>= _) = _ ∧ _
      rw [hsearch]
      change ∃ s', (if id ≠ minusOne then _ else _) = _ ∧ _
      rcases hfinds with ⟨k, hk, hit, _, hid⟩ | ⟨hnone, _⟩
      · have hused := hc.named_used hp ⟨hk, hit.live⟩
        have hne : id ≠ minusOne := by
          intro heq
          have hlt : id < 512 := hid ▸ hused.1
          rw [heq] at hlt
          exact absurd hlt (by decide)
        rw [if_pos hne]
        exact ⟨_, rfl, rfl, ((Extends.refl s).getInode _).readBlock _⟩
      · exact absurd ⟨hiff.mp rfl, hnone⟩ hnot

/-- With a fresh name the call comes to make an inode. -/
theorem makePath_fresh (hc : Consistent s.disk) (hp : IsDir s.disk (currentId s))
    (hname : OneName mem name n) (hfresh : Fresh s mem name n type) :
    makePath type name mem s =
      makeInode (currentId s) name type mem (searched (currentId s) s) >>= fun q =>
        if type = iDir then .ok (0, mem, createDirBlock q.2.1 (currentId s) q.1 q.2.2)
        else .ok (q.1, mem, createFileBlock q.2.1 q.2.2) := by
  obtain ⟨illegal, hill, hiff⟩ := isNameIllegal_name hname.ne hname.string hname.fit
  obtain rfl : illegal = false := hiff.mpr hfresh.1
  obtain ⟨id, hsearch, hfinds⟩ := searchDentry_name type hp.1.1
    (hc.dir_used hp).1 (hc.count _ hp) hname.ne hname.string hname.fit
  have hid : id = minusOne := by
    rcases hfinds with ⟨k, hk, hit, _⟩ | ⟨_, hid⟩
    · exact absurd hit (hfresh.2 k hk)
    · exact hid
  unfold makePath
  rw [walk_oneName hname]
  change (isNameIllegal mem name >>= _) = _
  rw [hill]
  change (searchDentry _ _ _ _ _ >>= _) = _
  rw [hsearch]
  change (if id ≠ minusOne then _ else _) = _
  rw [if_neg (not_not.mpr hid)]

/-- Where `alloc_block` sees a free block, one inode and one entry are made. -/
theorem makePath_created (hc : Consistent s.disk) (hv : Vacant s) (hs : BlockInSight s)
    (hname : OneName mem name n) (ht : type < 2 ^ 32) (hfresh : Fresh s mem name n type) :
    ∃ k i b s', makePath type name mem s = .ok (if type = iDir then 0 else i, mem, s') ∧
      Created s.disk s'.disk (currentId s) k i b type mem name n ∧ Extends s s' := by
  have hp := hv.cwd
  have hroom : Room s.disk (currentId s) mem name :=
    ⟨hv.inode, hs, hv.slot, n, strlen_name hname.ne hname.string hname.fit, hname.fit⟩
  have hmake : Holds (fun _ => ¬ Room s.disk (currentId s) mem name) _
      (makeInode (currentId s) name type mem (searched (currentId s) s)) :=
    makeInode_edit hp (hc.dir_used hp)
  obtain ⟨r, hr, hextr, ⟨hi, hfree⟩, ⟨hb, hb0⟩, k, m, hk, hdead, hfirst, hlen, hdisk⟩ :=
    hmake.exists_ok fun _ hno => absurd hroom hno
  obtain ⟨i, b, t⟩ := r
  rw [strlen_name hname.ne hname.string hname.fit] at hlen
  cases hlen
  have hcreated := created_edit mem name hc hp hi hfree hb hb0 hk hdead
    hfirst (le_of_lt hname.fit) ht
  have hext : Extends s t := (((Extends.refl s).getInode _).readBlock _).trans hextr
  have hb' : b < 131072 := lt_trans hb (by decide)
  rw [makePath_fresh hc hp hname hfresh, hr]
  by_cases hdir : type = iDir
  · refine ⟨k, i, b, createDirBlock b (currentId s) i t, ?_, ?_, hext.createDirBlock hb' _ i⟩
    · change (if type = iDir then _ else _) = _
      rw [if_pos hdir, if_pos hdir]
    · rw [createDirBlock_disk hb', hdisk]
      rw [if_pos hdir] at hcreated
      exact hcreated
  · refine ⟨k, i, b, createFileBlock b t, ?_, ?_, hext.createFileBlock hb'⟩
    · change (if type = iDir then _ else _) = _
      rw [if_neg hdir, if_neg hdir]
    · rw [createFileBlock_disk hb', hdisk]
      rw [if_neg hdir] at hcreated
      exact hcreated

/-- Where it sees none, the call stops, however many blocks are free behind. -/
theorem makePath_noBlock (hc : Consistent s.disk) (hv : Vacant s) (hs : ¬ BlockInSight s)
    (hname : OneName mem name n) (hfresh : Fresh s mem name n type) :
    makePath type name mem s = .error .noMoreBlocks := by
  have hp := hv.cwd
  have hcu := hc.dir_used hp
  obtain ⟨j, hj, hz⟩ := hv.inode
  obtain ⟨l, hl, hdead⟩ := hv.slot
  obtain ⟨⟨i, s₁⟩, halloc, hi, -, hdisk₁, -⟩ :=
    (allocInode_spec (searched (currentId s) s)).exists_ok fun _ hfull => absurd hz (hfull j hj)
  simp only at hi hdisk₁
  have hc₁ : ino s₁.disk (currentId s) inoDirectBlock = ino s.disk (currentId s) inoDirectBlock := by
    rw [hdisk₁, ino_setImap hi]
    rfl
  have hcreate : Holds _ _ (createDentry (currentId s) i name type mem s₁) :=
    createDentry_spec hp.1.1 hc₁ hcu.1
  obtain ⟨⟨i', s₂⟩, hentry, -, k, m, hk, -, -, -, -, hdisk₂, -⟩ := hcreate.exists_ok fun _ hno => by
    rcases hno with hlive | hlong
    · refine absurd ?_ (hlive l hl)
      rw [hdisk₁]
      exact (dentryType_congr (fun y _ => block_setImap hi) hl).trans hdead
    · have := hlong n (strlen_name hname.ne hname.string hname.fit)
      have := hname.fit
      omega
  simp only at hdisk₂
  have hbmap : ∀ b, b < 4096 → bmap s₂.disk b = bmap s.disk b := by
    intro b hb
    rw [hdisk₂, bmap_setBlk (by omega), bmap_bumpDir (by omega), hdisk₁, bmap_setImap hi]
    rfl
  have hblock : allocBlock s₂ = .error .noMoreBlocks := by
    rcases allocBlock_spec s₂ with ⟨b, hb, hb0, -⟩ | ⟨herr, -⟩
    · exact absurd ⟨b, hb, (hbmap b hb).symm.trans hb0⟩ hs
    · exact herr
  have hmake : makeInode (currentId s) name type mem (searched (currentId s) s) =
      .error .noMoreBlocks := by
    unfold makeInode
    rw [halloc]
    change (createDentry _ _ _ _ _ _ >>= _) = _
    rw [hentry]
    change (allocBlock s₂ >>= _) = _
    rw [hblock]
    rfl
  rw [makePath_fresh hc hp hname hfresh, hmake]
  rfl

end Calls

/-! ## A disk just formatted -/

theorem newDirBlock_far {p i x : Nat} (hx : 64 ≤ x) : newDirBlock p i x = 0 := by
  unfold newDirBlock dentryName
  rw [wr32_apply_of_ne _ (by omega), wr32_apply_of_ne _ (by omega), wr8_apply_of_ne _ _ (by omega),
    wr8_apply_of_ne _ _ (by omega), wr32_apply_of_ne _ (by omega), wr32_apply_of_ne _ (by omega),
    wr8_apply_of_ne _ _ (by omega)]
  rfl

/-- The names `.` and `..` differ. -/
theorem Dots.distinct {d : Store} {p : Nat} (h : Dots d p) (n : Nat) :
    ¬ SameName (dirBlock d p) (dentryName 0) (dirBlock d p) (dentryName 1) n := by
  rintro ⟨hsame, hend, hend'⟩
  rcases Nat.lt_trichotomy n 1 with hn | hn | hn
  · rw [show n = 0 by omega, Nat.add_zero, h.dotName.1] at hend
    exact absurd hend (by decide)
  · rw [hn, h.dotdotName.2.1] at hend'
    exact absurd hend' (by decide)
  · exact (hsame 1 hn).2 h.dotName.2

theorem SameName.symm {a b : Store} {i j n : Nat} (h : SameName a i b j n) :
    SameName b j a i n := by
  refine ⟨fun m hm => ?_, h.2.2, h.2.1⟩
  obtain ⟨heq, hne⟩ := h.1 m hm
  exact ⟨heq.symm, heq ▸ hne⟩

/-- A formatted disk is consistent. -/
theorem formatted_consistent (s : State) : Consistent (formatted s) := by
  have hroot : ∀ q, IsDir (formatted s) q → q = 0 := fun q hq => formatted_used hq.1
  have hlive : ∀ k, LiveEntry (formatted s) 0 k → k = 0 ∨ k = 1 := by
    intro k hk
    have hmem := mem_liveSlots.mpr hk
    rw [liveSlots_formatted, Finset.mem_insert, Finset.mem_singleton] at hmem
    exact hmem
  refine ⟨formatted_volume.owned, formatted_noLeak, fun i => ⟨?_, ?_⟩, ?_, ?_, formatted_tree.count,
    ?_⟩
  · intro hi
    exact Or.inl (formatted_used hi)
  · rintro (h0 | ⟨q, k, hq, hk, hid⟩)
    · rw [h0]
      exact formatted_root.1
    · obtain rfl := hroot q hq
      rw [entId_formatted hk.1] at hid
      rw [← hid]
      exact formatted_root.1
  · intro i hi hz f hf
    refine ino_formatted_other hi (fun h0 => ?_) hf
    rw [imap_formatted hi, if_pos h0] at hz
    exact absurd hz (by decide)
  · intro q hq k hk hdead m hm
    obtain rfl := hroot q hq
    have hk2 : 2 ≤ k := by
      by_contra hcon
      rw [entType_formatted hk, if_pos (by omega)] at hdead
      exact absurd hdead (by decide)
    unfold dName at hm
    rw [dirBlock_formatted (by unfold dentryName; omega)]
    exact newDirBlock_far (by unfold dentryName; omega)
  · rintro q hq k l hk hl hne ⟨n, hsame⟩
    obtain rfl := hroot q hq
    have hdots := formatted_tree.dots 0 hq
    rcases hlive k hk with rfl | rfl <;> rcases hlive l hl with rfl | rfl
    · exact absurd rfl hne
    · exact absurd hsame (hdots.distinct n)
    · exact absurd hsame.symm (hdots.distinct n)
    · exact absurd rfl hne

theorem freshState_formatted : ∃ t, Formatted t freshState := by
  obtain ⟨s', hs', hcase⟩ := doMkfs_spec true bootState
  rw [freshState_eq] at hs'
  have heq : freshState = s' := (Prod.mk.inj (Except.ok.inj hs')).2
  rw [← heq] at hcase
  rcases hcase with ⟨hno, _⟩ | ⟨t, _, hf⟩
  · cases hno
  · exact ⟨t, hf⟩

/-- The sample disk is consistent. -/
theorem freshState_consistent : Consistent freshState.disk := by
  obtain ⟨t, ht⟩ := freshState_formatted
  rw [ht.disk]
  exact formatted_consistent t

/-- It has room. -/
theorem freshState_vacant : Vacant freshState := by
  obtain ⟨t, ht⟩ := freshState_formatted
  refine ⟨?_, ⟨1, by decide, ?_⟩, ⟨1, by decide, ?_⟩, ⟨2, by decide, ?_⟩⟩
  · rw [ht.cwd, ht.disk]
    exact formatted_root
  · rw [ht.disk, imap_formatted (by decide)]
    rfl
  · rw [ht.disk, bmap_formatted (by decide)]
    rfl
  · rw [ht.cwd, ht.disk, entType_formatted (by decide)]
    rfl

theorem memA_oneName : OneName memA 100 1 where
  ne := by decide
  run m hm := by
    obtain rfl : m = 0 := by omega
    exact ⟨by decide, by decide⟩
  ends := rfl
  next := rfl
  fit := by decide

/-- No entry of a formatted disk is called `a`. -/
theorem freshState_fresh (type : Nat) : Fresh freshState memA 100 1 type := by
  obtain ⟨t, ht⟩ := freshState_formatted
  have hcwd : currentId freshState = 0 := ht.cwd
  refine ⟨fun m hm => ?_, fun k hk hit => ?_⟩
  · obtain rfl : m = 0 := by omega
    rfl
  · rw [hcwd] at hit
    have hlive : k ∈ liveSlots freshState.disk 0 := mem_liveSlots.mpr ⟨hk, hit.live⟩
    have hdots := formatted_tree (s := t) |>.dots 0 formatted_root
    have hname := hit.2 0 (by decide)
    rw [ht.disk] at hlive hname
    rw [liveSlots_formatted, Finset.mem_insert, Finset.mem_singleton] at hlive
    rcases hlive with rfl | rfl
    · rw [Nat.add_zero, hdots.dotName.1] at hname
      exact absurd hname (by decide)
    · rw [Nat.add_zero, hdots.dotdotName.1] at hname
      exact absurd hname (by decide)

/-- The map of a volume just formatted has room where it is looked for. -/
theorem freshState_blockInSight : BlockInSight freshState := by
  obtain ⟨t, ht⟩ := freshState_formatted
  refine ⟨1, by decide, ?_⟩
  rw [ht.disk, bmap_formatted (by decide)]
  rfl

/-- What making `a` in a volume just formatted gives. -/
theorem freshState_created {type : Nat} (ht : type < 2 ^ 32) : ∃ k i b s',
    makePath type 100 memA freshState = .ok (if type = iDir then 0 else i, memA, s') ∧
      Created freshState.disk s'.disk (currentId freshState) k i b type memA 100 1 ∧
      Extends freshState s' :=
  makePath_created freshState_consistent freshState_vacant freshState_blockInSight memA_oneName ht
    (freshState_fresh type)

end Fs
