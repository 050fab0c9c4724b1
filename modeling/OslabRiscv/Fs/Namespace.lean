import OslabRiscv.Fs.Accounting

/-!
# The directory tree

`TreeOk` is what a tree of directories should look like: every inode in use is
reachable from the root, live entries name inodes of their type, `.` and `..`
stand in the first two entries, and the entry counts are right.  `Tree` is the
invariant that carries it through a run; beyond `TreeOk` it says that following
`..` leads to the root.

An effect on the disk changes one entry of one directory (`SlotEdit`), and may
make or remove an inode.
-/

namespace Fs

open ByteStore Outcome

section Defs

variable (d : Store)

/-- Type and inode number of entry `k` of directory `p`. -/
def entType (p k : Nat) : Nat := dentryType (dirBlock d p) k
def entId (p k : Nat) : Nat := dentryInodeId (dirBlock d p) k

def LiveEntry (p k : Nat) : Prop := k < 128 ∧ entType d p k ≠ 0

instance (p k : Nat) : Decidable (LiveEntry d p k) := inferInstanceAs (Decidable (_ ∧ _))

def liveSlots (p : Nat) : Finset Nat := {k ∈ Finset.range 128 | entType d p k ≠ 0}

/-- Where `..` leads. -/
def up (p : Nat) : Nat := entId d p 1

/-- Inodes that live entries lead to from the root. -/
inductive Reach : Nat → Prop
  | root : Reach 0
  | entry {p k : Nat} : Reach p → IsDir d p → LiveEntry d p k → Reach (entId d p k)

/-- An entry names an inode in use, of the type the entry claims. -/
structure Typed (p k : Nat) : Prop where
  used : InodeUsed d (entId d p k)
  dir : entType d p k = iDir → IsDir d (entId d p k)
  file : entType d p k = iFile → IsFile d (entId d p k)

/-- The first two entries of a directory. -/
structure Dots (p : Nat) : Prop where
  dotType : entType d p 0 = iDir
  dotId : entId d p 0 = p
  dotName : dirBlock d p (dentryName 0) = 46 ∧ dirBlock d p (dentryName 0 + 1) = 0
  dotdotType : entType d p 1 = iDir
  dotdotName : dirBlock d p (dentryName 1) = 46 ∧ dirBlock d p (dentryName 1 + 1) = 46 ∧
    dirBlock d p (dentryName 1 + 2) = 0

/-- Directory `q` holds `p` under a name of its own. -/
def IsParent (q p : Nat) : Prop :=
  IsDir d q ∧ ∃ k, 2 ≤ k ∧ k < 128 ∧ entType d q k = iDir ∧ entId d q k = p

/-- What a directory tree is. -/
structure TreeOk : Prop where
  reach : ∀ i, InodeUsed d i → Reach d i
  typed : ∀ p k, Reach d p → IsDir d p → LiveEntry d p k → Typed d p k
  dots : ∀ p, IsDir d p → Dots d p
  rootUp : up d 0 = 0
  parent : ∀ p, IsDir d p → p ≠ 0 → ∀ q, IsParent d q p ↔ q = up d p
  count : ∀ p, IsDir d p → ino d p inoFileNum = (liveSlots d p).card
  root : IsDir d 0 ∧ ino d 0 inoDirectBlock = 0 ∧ bmap d 0 = 1

/-- The invariant. -/
structure Tree : Prop where
  volume : Volume d
  dots : ∀ p, IsDir d p → Dots d p
  rootUp : up d 0 = 0
  parent : ∀ p, IsDir d p → p ≠ 0 → IsParent d (up d p) p
  unique : ∀ q p, IsParent d q p → p ≠ 0 ∧ q = up d p
  typed : ∀ p k, IsDir d p → LiveEntry d p k → Typed d p k
  named : ∀ i, IsFile d i → ∃ q k, IsDir d q ∧ LiveEntry d q k ∧ entId d q k = i
  chain : ∀ p, IsDir d p → ∃ n, (up d)^[n] p = 0
  count : ∀ p, IsDir d p → ino d p inoFileNum = (liveSlots d p).card

end Defs

section Tree

variable {d : Store}

/-- The parent is named by an entry of the directory. -/
theorem IsParent.live {q p : Nat} (h : IsParent d q p) :
    ∃ k, LiveEntry d q k ∧ entId d q k = p := by
  obtain ⟨_, k, _, hk, hty, hid⟩ := h
  refine ⟨k, ⟨hk, ?_⟩, hid⟩
  rw [hty]
  decide

/-- A directory is reached through its parents. -/
theorem Tree.reach_dir (h : Tree d) {p : Nat} (hp : IsDir d p) : Reach d p := by
  obtain ⟨n, hn⟩ := h.chain p hp
  induction n generalizing p with
  | zero =>
      have h0 : p = 0 := hn
      rw [h0]
      exact .root
  | succ n ih =>
      by_cases h0 : p = 0
      · rw [h0]
        exact .root
      · have hpar := h.parent p hp h0
        obtain ⟨k, hlive, hid⟩ := hpar.live
        rw [← hid]
        exact .entry (ih hpar.1 hn) hpar.1 hlive

/-- The invariant contains what is to be shown of the tree. -/
theorem Tree.ok (h : Tree d) : TreeOk d where
  reach i hi := by
    rcases h.volume.kind i hi with hdir | hfile
    · exact h.reach_dir hdir
    · obtain ⟨q, k, hq, hlive, hid⟩ := h.named i hfile
      rw [← hid]
      exact .entry (h.reach_dir hq) hq hlive
  typed p k _ hp hlive := h.typed p k hp hlive
  dots := h.dots
  rootUp := h.rootUp
  parent p hp h0 q := by
    constructor
    · intro hq
      exact (h.unique q p hq).2
    · intro hq
      rw [hq]
      exact h.parent p hp h0
  count := h.count
  root := by
    refine ⟨h.volume.root, h.volume.rootBlock, ?_⟩
    rcases h.volume.low 0 (by decide) with h0 | h1
    · exact absurd h0 h.volume.owned.zero_used
    · exact h1.1

/-- The live slots of a directory. -/
theorem mem_liveSlots {p k : Nat} : k ∈ liveSlots d p ↔ LiveEntry d p k := by
  unfold liveSlots LiveEntry
  rw [Finset.mem_filter, Finset.mem_range]

/-- `.` and `..` are live entries. -/
theorem Dots.live {p : Nat} (h : Dots d p) : LiveEntry d p 0 ∧ LiveEntry d p 1 := by
  refine ⟨⟨by decide, ?_⟩, ⟨by decide, ?_⟩⟩
  · rw [h.dotType]
    decide
  · rw [h.dotdotType]
    decide

/-- A directory with two live entries has only `.` and `..`. -/
theorem Dots.only {p k : Nat} (h : Dots d p) (hc : (liveSlots d p).card = 2)
    (hk : LiveEntry d p k) : k < 2 := by
  have hsub : ({0, 1} : Finset Nat) ⊆ liveSlots d p := by
    intro j hj
    rw [mem_liveSlots]
    rcases Finset.mem_insert.mp hj with hj | hj
    · rw [hj]
      exact h.live.1
    · rw [Finset.mem_singleton.mp hj]
      exact h.live.2
  have heq := Finset.eq_of_subset_of_card_le hsub (by rw [hc]; decide)
  have hmem : k ∈ ({0, 1} : Finset Nat) := by
    rw [heq, mem_liveSlots]
    exact hk
  rcases Finset.mem_insert.mp hmem with hj | hj
  · omega
  · have := Finset.mem_singleton.mp hj
    omega

/-- A directory has 128 slots. -/
theorem card_liveSlots_le (p : Nat) : (liveSlots d p).card ≤ 128 := by
  have h := Finset.card_filter_le (Finset.range 128) (fun k => entType d p k ≠ 0)
  rw [Finset.card_range] at h
  exact h

end Tree

/-! ## One entry changes -/

/-- Of the directories in `D`, only entry `k` of `p` has changed, and the number
of entries of `p`. -/
structure SlotEdit (D : Nat → Prop) (d d' : Store) (p k : Nat) : Prop where
  slot : ∀ y, y < 4096 → y / 32 ≠ k → dirBlock d' p y = dirBlock d p y
  other : ∀ j, D j → j ≠ p → ∀ y, y < 4096 → dirBlock d' j y = dirBlock d j y
  num : ∀ j, D j → j ≠ p → ino d' j inoFileNum = ino d j inoFileNum

section SlotEdit

variable {D : Nat → Prop} {d d' : Store} {p k j l : Nat}

/-- The entries of all other slots are as they were. -/
theorem SlotEdit.ent (h : SlotEdit D d d' p k) (hj : D j) (hl : l < 128)
    (hne : j = p → l ≠ k) : entType d' j l = entType d j l ∧ entId d' j l = entId d j l := by
  by_cases hjp : j = p
  · subst hjp
    exact entries_of_other hl (hne rfl) h.slot
  · exact ⟨dentryType_congr (h.other j hj hjp) hl, dentryInodeId_congr (h.other j hj hjp) hl⟩

/-- The other slots are live as before. -/
theorem SlotEdit.live (h : SlotEdit D d d' p k) (hj : D j) (hne : j = p → l ≠ k) :
    LiveEntry d' j l ↔ LiveEntry d j l := by
  unfold LiveEntry
  constructor
  · intro hl
    exact ⟨hl.1, by rw [← (h.ent hj hl.1 hne).1]; exact hl.2⟩
  · intro hl
    exact ⟨hl.1, by rw [(h.ent hj hl.1 hne).1]; exact hl.2⟩

/-- The names of `.` and `..` are as they were. -/
theorem SlotEdit.byte (h : SlotEdit D d d' p k) (hk : 2 ≤ k) (hj : D j) {y : Nat}
    (hy : y < 64) : dirBlock d' j y = dirBlock d j y := by
  by_cases hjp : j = p
  · subst hjp
    exact h.slot y (by omega) (by omega)
  · exact h.other j hj hjp y (by omega)

/-- The first two entries are not touched. -/
theorem SlotEdit.dots (h : SlotEdit D d d' p k) (hk : 2 ≤ k) (hj : D j) (hd : Dots d j) :
    Dots d' j where
  dotType := by
    rw [(h.ent hj (by decide) (fun _ => by omega)).1]
    exact hd.dotType
  dotId := by
    rw [(h.ent hj (by decide) (fun _ => by omega)).2]
    exact hd.dotId
  dotName := by
    rw [h.byte hk hj (by decide), h.byte hk hj (by decide)]
    exact hd.dotName
  dotdotType := by
    rw [(h.ent hj (by decide) (fun _ => by omega)).1]
    exact hd.dotdotType
  dotdotName := by
    rw [h.byte hk hj (by decide), h.byte hk hj (by decide), h.byte hk hj (by decide)]
    exact hd.dotdotName

/-- Every directory keeps its parent. -/
theorem SlotEdit.up_eq (h : SlotEdit D d d' p k) (hk : 2 ≤ k) (hj : D j) :
    up d' j = up d j :=
  (h.ent hj (show 1 < 128 by decide) (fun _ => by omega)).2

theorem SlotEdit.liveSlots_other (h : SlotEdit D d d' p k) (hj : D j) (hjp : j ≠ p) :
    liveSlots d' j = liveSlots d j := by
  ext l
  rw [mem_liveSlots, mem_liveSlots]
  exact h.live hj fun heq => absurd heq hjp

/-- An entry made adds one live slot. -/
theorem SlotEdit.liveSlots_insert (h : SlotEdit D d d' p k) (hp : D p) (hk : LiveEntry d' p k) :
    liveSlots d' p = insert k (liveSlots d p) := by
  ext l
  rw [Finset.mem_insert, mem_liveSlots, mem_liveSlots]
  by_cases hlk : l = k
  · subst hlk
    exact ⟨fun _ => Or.inl rfl, fun _ => hk⟩
  · rw [h.live hp fun _ => hlk]
    exact ⟨Or.inr, fun hor => hor.resolve_left hlk⟩

/-- An entry removed takes one live slot. -/
theorem SlotEdit.liveSlots_erase (h : SlotEdit D d d' p k) (hp : D p)
    (hk : ¬ LiveEntry d' p k) : liveSlots d' p = (liveSlots d p).erase k := by
  ext l
  rw [Finset.mem_erase, mem_liveSlots, mem_liveSlots]
  by_cases hlk : l = k
  · subst hlk
    exact ⟨fun hl => absurd hl hk, fun hl => absurd rfl hl.1⟩
  · rw [h.live hp fun _ => hlk]
    exact ⟨fun hl => ⟨hlk, hl⟩, fun hl => hl.2⟩

/-- A new entry is counted. -/
theorem SlotEdit.count_new (h : SlotEdit D d d' p k) (hp : D p)
    (hc : ino d p inoFileNum = (liveSlots d p).card) (hdead : ¬ LiveEntry d p k)
    (hlive : LiveEntry d' p k)
    (hnum : ino d' p inoFileNum = (ino d p inoFileNum + 1) % 2 ^ 32) :
    ino d' p inoFileNum = (liveSlots d' p).card := by
  rw [h.liveSlots_insert hp hlive, Finset.card_insert_of_notMem (by rw [mem_liveSlots]; exact hdead),
    hnum, hc]
  have := card_liveSlots_le (d := d) p
  omega

/-- A removed entry is counted off. -/
theorem SlotEdit.count_old (h : SlotEdit D d d' p k) (hp : D p)
    (hc : ino d p inoFileNum = (liveSlots d p).card) (hlive : LiveEntry d p k)
    (hdead : ¬ LiveEntry d' p k)
    (hnum : ino d' p inoFileNum = (ino d p inoFileNum + (2 ^ 32 - 1)) % 2 ^ 32) :
    ino d' p inoFileNum = (liveSlots d' p).card := by
  have hmem : k ∈ liveSlots d p := mem_liveSlots.mpr hlive
  have hpos := Finset.card_pos.mpr ⟨k, hmem⟩
  have hle := card_liveSlots_le (d := d) p
  rw [h.liveSlots_erase hp hdead, Finset.card_erase_of_mem hmem, hnum, hc]
  omega

/-- Chains of `..` that stay among old directories are kept. -/
theorem chain_congr {P : Nat → Prop} (hP : ∀ j, P j → P (up d j)) (heq : ∀ j, P j → up d' j = up d j)
    (hj : P j) (n : Nat) : (up d')^[n] j = (up d)^[n] j := by
  induction n generalizing j with
  | zero => rfl
  | succ n ih =>
      rw [Function.iterate_succ_apply, Function.iterate_succ_apply, heq j hj]
      exact ih (hP j hj)

/-- The parent of a directory is a directory. -/
theorem Tree.up_dir (h : Tree d) (hj : IsDir d j) : IsDir d (up d j) := by
  by_cases h0 : j = 0
  · rw [h0, h.rootUp]
    exact h.volume.root
  · exact (h.parent j hj h0).1

end SlotEdit

/-! ## Links -/

section Links

variable {d d' : Store} {p k x : Nat}

/-- A dead entry is behind the first two. -/
theorem Tree.two_le (h : Tree d) (hp : IsDir d p) (hk : k < 128) (hdead : entType d p k = 0) :
    2 ≤ k := by
  obtain ⟨h0, h1⟩ := (h.dots p hp).live
  by_contra hlt
  have hcases : k = 0 ∨ k = 1 := by omega
  rcases hcases with hk | hk
  · subst hk
    exact h0.2 hdead
  · subst hk
    exact h1.2 hdead

/-- An entry that is not of type `D_DIR` is behind the first two. -/
theorem Tree.two_le_of_type (h : Tree d) (hp : IsDir d p) (hty : entType d p k ≠ iDir) :
    2 ≤ k := by
  by_contra hlt
  have hcases : k = 0 ∨ k = 1 := by omega
  rcases hcases with hk | hk
  · subst hk
    exact hty (h.dots p hp).dotType
  · subst hk
    exact hty (h.dots p hp).dotdotType

/-- A new link edits one slot. -/
theorem Linked.slotEdit (hV : Volume d) (hp : IsDir d p) (h : Linked d d' p k x) :
    SlotEdit (IsDir d) d d' p k where
  slot := h.entry.other
  other j hj hjp y hy :=
    hV.otherDir hp hj hjp (h.ino_eq j _ hj.1.1 (by decide) (Or.inl notCount_directBlock))
      (fun y hy hne => h.blk_eq _ y hne hy) hy
  num j hj hjp := h.fileNum j hj.1.1 hjp

/-- A removed link edits one slot. -/
theorem Unlinked.slotEdit (hV : Volume d) (hp : IsDir d p) (h : Unlinked d d' p k x) :
    SlotEdit (IsDir d) d d' p k where
  slot := h.entry.other
  other j hj hjp y hy :=
    hV.otherDir hp hj hjp (h.ino_eq j _ hj.1.1 (by decide) (Or.inl hjp))
      (fun y hy hne => h.blk_eq _ y hne hy) hy
  num j hj hjp := h.ino_eq j _ hj.1.1 (by decide) (Or.inl hjp)

/-- The same inodes are in use, with the same types. -/
structure SameInodes (d d' : Store) : Prop where
  used : ∀ j, InodeUsed d' j ↔ InodeUsed d j
  dir : ∀ j, IsDir d' j ↔ IsDir d j
  file : ∀ j, IsFile d' j ↔ IsFile d j

/-- What leaves all inodes in use leaves the directories and files. -/
theorem Quiet.sameInodes (h : Quiet d d') : SameInodes d d' :=
  ⟨fun _ => h.inodeUsed, fun _ => h.isDir, fun _ => h.isFile⟩

/-- What a change of one entry keeps when no inode comes or goes.  With `k`
beyond the last entry nothing changes. -/
theorem Tree.edit (h : Tree d) (hV' : Volume d') (hs : SameInodes d d')
    (he : SlotEdit (IsDir d) d d' p k)
    (hk : 2 ≤ k) (hold : k < 128 → entType d p k ≠ iDir) (hnew : k < 128 → entType d' p k ≠ iDir)
    (htyped : LiveEntry d' p k → Typed d' p k)
    (hnamed : ∀ i, IsFile d i → LiveEntry d p k → entId d p k = i →
      ∃ q l, IsDir d' q ∧ LiveEntry d' q l ∧ entId d' q l = i)
    (hcount : ino d' p inoFileNum = (liveSlots d' p).card) : Tree d' := by
  have hV := h.volume
  have hparent : ∀ q j, IsParent d q j ↔ IsParent d' q j := by
    intro q j
    unfold IsParent
    rw [hs.dir]
    refine and_congr_right fun hqd => exists_congr fun l => ?_
    by_cases hslot : q = p ∧ l = k
    · obtain ⟨hqp, hlk⟩ := hslot
      subst hqp hlk
      exact ⟨fun hl => absurd hl.2.2.1 (hold hl.2.1), fun hl => absurd hl.2.2.1 (hnew hl.2.1)⟩
    · refine and_congr_right fun _ => and_congr_right fun hl => ?_
      obtain ⟨hty, hid⟩ := he.ent hqd hl fun hqp hlk => hslot ⟨hqp, hlk⟩
      rw [hty, hid]
  have hup : ∀ j, IsDir d j → up d' j = up d j := fun j hj => he.up_eq hk hj
  refine ⟨hV', ?_, ?_, ?_, ?_, ?_, ?_, ?_, ?_⟩
  · intro j hj
    exact he.dots hk ((hs.dir _).mp hj) (h.dots j ((hs.dir _).mp hj))
  · rw [hup 0 hV.root]
    exact h.rootUp
  · intro j hj h0
    rw [hup j ((hs.dir _).mp hj), ← hparent]
    exact h.parent j ((hs.dir _).mp hj) h0
  · intro q j hqj
    have hqj' := (hparent q j).mpr hqj
    obtain ⟨l, hl, hid⟩ := hqj'.live
    obtain ⟨hj0, hqup⟩ := h.unique q j hqj'
    have hjd : IsDir d j := by
      obtain ⟨hqd, l, _, hl, hty, hid⟩ := hqj'
      rw [← hid]
      exact (h.typed q l hqd ⟨hl, by rw [hty]; decide⟩).dir hty
    exact ⟨hj0, by rw [hup j hjd]; exact hqup⟩
  · intro j l hj hl
    have hjd := (hs.dir _).mp hj
    by_cases hslot : j = p ∧ l = k
    · obtain ⟨hjp, hlk⟩ := hslot
      subst hjp hlk
      exact htyped hl
    · have hne : j = p → l ≠ k := fun hjp hlk => hslot ⟨hjp, hlk⟩
      obtain ⟨hty, hid⟩ := he.ent hjd hl.1 hne
      have ht := h.typed j l hjd ((he.live hjd hne).mp hl)
      refine ⟨?_, ?_, ?_⟩
      · rw [hid]
        exact (hs.used _).mpr ht.used
      · intro hdir
        rw [hid]
        exact (hs.dir _).mpr (ht.dir (hty ▸ hdir))
      · intro hfile
        rw [hid]
        exact (hs.file _).mpr (ht.file (hty ▸ hfile))
  · intro i hi
    have hid := (hs.file _).mp hi
    obtain ⟨q, l, hqd, hl, hqi⟩ := h.named i hid
    by_cases hslot : q = p ∧ l = k
    · obtain ⟨hqp, hlk⟩ := hslot
      subst hqp hlk
      exact hnamed i hid hl hqi
    · have hne : q = p → l ≠ k := fun hqp hlk => hslot ⟨hqp, hlk⟩
      refine ⟨q, l, (hs.dir _).mpr hqd, (he.live hqd hne).mpr hl, ?_⟩
      rw [(he.ent hqd hl.1 hne).2]
      exact hqi
  · intro j hj
    obtain ⟨n, hn⟩ := h.chain j ((hs.dir _).mp hj)
    refine ⟨n, ?_⟩
    rw [chain_congr (fun j hj => h.up_dir hj) hup ((hs.dir _).mp hj)]
    exact hn
  · intro j hj
    have hjd := (hs.dir _).mp hj
    by_cases hjp : j = p
    · rw [hjp]
      exact hcount
    · rw [he.num j hjd hjp, he.liveSlots_other hjd hjp]
      exact h.count j hjd

/-- The tree is kept when a link to an inode in use is made. -/
theorem Tree.linked (h : Tree d) (hp : IsDir d p) (hx : InodeUsed d x) (hl : Linked d d' p k x) :
    Tree d' := by
  have hV := h.volume
  have hq := hl.quiet hV hp hx.1
  have he := hl.slotEdit hV hp
  have hdead : entType d p k = 0 := hl.entry.dead
  have hty : entType d' p k = dLink := hl.entry.entryType
  have hlive : LiveEntry d' p k := ⟨hl.entry.slot, by rw [hty]; decide⟩
  refine h.edit (hV.quiet hq) hq.sameInodes he (h.two_le hp hl.entry.slot hdead) ?_ ?_ ?_ ?_ ?_
  · intro _
    rw [hdead]
    decide
  · intro _
    rw [hty]
    decide
  · intro _
    have hid : entId d' p k = x := hl.entry.entryId
    refine ⟨?_, ?_, ?_⟩
    · rw [hid]
      exact hq.inodeUsed.mpr hx
    · intro hdir
      rw [hty] at hdir
      exact absurd hdir (by decide)
    · intro hfile
      rw [hty] at hfile
      exact absurd hfile (by decide)
  · intro i _ hcon
    exact absurd hdead hcon.2
  · exact he.count_new hp (h.count p hp) (fun hcon => hcon.2 hdead) hlive hl.entry.fileNum

/-- The tree is kept when one of several links to a file is removed. -/
theorem Tree.unlinked (h : Tree d) (hp : IsDir d p) (hl : Unlinked d d' p k x)
    (hlive : LiveEntry d p k) (hty : entType d p k ≠ iDir)
    (hother : ∃ q l, IsDir d q ∧ LiveEntry d q l ∧ entId d q l = x ∧ (q = p → l ≠ k)) :
    Tree d' := by
  have hV := h.volume
  have hq := hl.quiet hV hp
  have he := hl.slotEdit hV hp
  have hdead : entType d' p k = 0 := hl.entry.entryType
  refine h.edit (hV.quiet hq) hq.sameInodes he (h.two_le_of_type hp hty) (fun _ => hty) ?_ ?_ ?_ ?_
  · intro _
    rw [hdead]
    decide
  · intro hcon
    exact absurd hdead hcon.2
  · intro i _ _ hid
    obtain ⟨q, l, hqd, hql, hqx, hne⟩ := hother
    have hix : i = x := hid.symm.trans hl.entry.entryId
    refine ⟨q, l, hq.isDir.mpr hqd, (he.live hqd hne).mpr hql, ?_⟩
    rw [(he.ent hqd hql.1 hne).2, hix]
    exact hqx
  · exact he.count_old hp (h.count p hp) hlive (fun hcon => hcon.2 hdead) hl.entry.fileNum

/-- Changes that leave the directories alone. -/
theorem Tree.frame (h : Tree d) (hV' : Volume d') (hs : SameInodes d d')
    (hblk : ∀ j, IsDir d j → ∀ y, y < 4096 → dirBlock d' j y = dirBlock d j y)
    (hnum : ∀ j, IsDir d j → ino d' j inoFileNum = ino d j inoFileNum) : Tree d' := by
  have hroot := h.volume.root
  have he : SlotEdit (IsDir d) d d' 0 128 :=
    ⟨fun y hy _ => hblk 0 hroot y hy, fun j hj _ => hblk j hj, fun j hj _ => hnum j hj⟩
  refine h.edit hV' hs he (by decide) (fun hcon => absurd hcon (by decide))
    (fun hcon => absurd hcon (by decide)) (fun hcon => absurd hcon.1 (by decide))
    (fun _ _ hcon => absurd hcon.1 (by decide)) ?_
  have hslots : liveSlots d' 0 = liveSlots d 0 := by
    ext l
    rw [mem_liveSlots, mem_liveSlots]
    constructor
    · intro hl
      exact (he.live hroot fun _ hlk => absurd hl.1 (by omega)).mp hl
    · intro hl
      exact (he.live hroot fun _ hlk => absurd hl.1 (by omega)).mpr hl
  rw [hnum 0 hroot, hslots]
  exact h.count 0 hroot

/-- The tree is kept when a file is opened. -/
theorem Tree.opened (h : Tree d) (ho : Opened d d' x) : Tree d' := by
  have hq := ho.quiet h.volume
  refine h.frame (h.volume.quiet hq) hq.sameInodes ?_ ?_
  · intro j hj y hy
    unfold dirBlock
    rw [ho.ino_eq j _ hj.1.1 (by decide) (Or.inr (Or.inr (by decide))), ho.blk_eq _ y hy]
  · intro j hj
    exact ho.ino_eq j _ hj.1.1 (by decide) (Or.inr (Or.inr (by decide)))

/-- The tree is kept when only the blocks and the size of a file have changed. -/
theorem Tree.touched {i : Nat} (h : Tree d) (hi : IsFile d i) (ho : Owned d')
    (ht : Touched i d d') : Tree d' := by
  refine h.frame (h.volume.touched hi ho ht) ⟨fun _ => ht.inodeUsed, fun _ => ht.isDir, ?_⟩
    (fun j hj y hy => ht.dirBlock_eq h.volume hi hj hy) ?_
  · intro j
    exact ht.isFile
  · intro j hj
    refine ht.ino j _ hj.1.1 (by decide) (Or.inl ?_)
    intro hji
    exact not_isDir_of_isFile hi (hji ▸ hj)

end Links

/-! ## New and removed inodes -/

section Made

variable {d d' : Store} {p k i b type x : Nat}

/-- Making an inode edits one slot. -/
theorem Made.slotEdit (hV : Volume d) (hp : IsDir d p) (h : Made d d' p k i b type) :
    SlotEdit (IsDir d) d d' p k where
  slot := h.entry.other
  other _ hj hjp _ hy := h.dirBlock_other hV hp hj hjp hy
  num j hj hjp := h.ino_eq j _ hj.1.1 (by decide) (h.ne_of_used hj.1) (Or.inl hjp)

/-- The block of a new directory. -/
theorem Made.dirBlock_new (h : Made d d' p k i b iDir) {y : Nat} (hy : y < 4096) :
    dirBlock d' i y = newDirBlock p i y := by
  unfold dirBlock
  rw [h.directBlock, h.newBlk y hy, if_pos rfl]

/-- A new directory block has the names `.` and `..`. -/
theorem newDirBlock_names (p i : Nat) :
    newDirBlock p i (dentryName 0) = 46 ∧ newDirBlock p i (dentryName 0 + 1) = 0 ∧
      newDirBlock p i (dentryName 1) = 46 ∧ newDirBlock p i (dentryName 1 + 1) = 46 ∧
      newDirBlock p i (dentryName 1 + 2) = 0 := by
  refine ⟨rfl, rfl, rfl, rfl, rfl⟩

/-- The types of the entries of a new directory. -/
theorem Made.entType_new (h : Made d d' p k i b iDir) {l : Nat} (hl : l < 128) :
    entType d' i l = if l < 2 then iDir else 0 := by
  unfold entType
  rw [dentryType_congr (fun y hy => h.dirBlock_new hy) hl, newDirBlock_type]

/-- The inodes that the entries of a new directory name. -/
theorem Made.entId_new (h : Made d d' p k i b iDir) (hp : p < 512) {l : Nat} (hl : l < 128) :
    entId d' i l = if l = 0 then i else if l = 1 then p else 0 := by
  unfold entId
  rw [dentryInodeId_congr (fun y hy => h.dirBlock_new hy) hl, newDirBlock_id hp h.free.1]

/-- A new directory has `.` and `..`. -/
theorem Made.dots_new (h : Made d d' p k i b iDir) (hp : p < 512) : Dots d' i := by
  obtain ⟨n0, n1, n2, n3, n4⟩ := newDirBlock_names p i
  refine ⟨?_, ?_, ⟨?_, ?_⟩, ?_, ⟨?_, ?_, ?_⟩⟩
  · rw [h.entType_new (by decide), if_pos (by decide)]
  · rw [h.entId_new hp (by decide), if_pos rfl]
  · rw [h.dirBlock_new (by decide), n0]
  · rw [h.dirBlock_new (by decide), n1]
  · rw [h.entType_new (by decide), if_pos (by decide)]
  · rw [h.dirBlock_new (by decide), n2]
  · rw [h.dirBlock_new (by decide), n3]
  · rw [h.dirBlock_new (by decide), n4]

/-- A new directory has no other entry. -/
theorem Made.liveSlots_new (h : Made d d' p k i b iDir) : liveSlots d' i = {0, 1} := by
  ext l
  rw [mem_liveSlots, Finset.mem_insert, Finset.mem_singleton]
  constructor
  · intro hl
    have hty := hl.2
    rw [h.entType_new hl.1] at hty
    by_contra hcon
    rw [if_neg (by omega)] at hty
    exact hty rfl
  · intro hl
    refine ⟨by omega, ?_⟩
    rw [h.entType_new (by omega), if_pos (by omega)]
    decide

/-- Directories afterwards: the old ones, and perhaps the new one. -/
theorem Made.dir_cases (h : Made d d' p k i b type) {j : Nat} (hj : IsDir d' j) :
    (j = i ∧ type = iDir) ∨ (j ≠ i ∧ IsDir d j) := by
  by_cases hji : j = i
  · refine Or.inl ⟨hji, ?_⟩
    rw [← h.newType, ← hji]
    exact hj.2
  · exact Or.inr ⟨hji, (h.isDir hji).mp hj⟩

/-- The directories there were are still there. -/
theorem Made.isDir_old (h : Made d d' p k i b type) {j : Nat} (hj : IsDir d j) : IsDir d' j :=
  (h.isDir (h.ne_of_used hj.1)).mpr hj

/-- Old parents stay parents. -/
theorem Made.isParent_old (h : Made d d' p k i b type) (he : SlotEdit (IsDir d) d d' p k)
    {q j : Nat} (hqj : IsParent d q j) : IsParent d' q j := by
  obtain ⟨hq, l, hl2, hl, hty, hid⟩ := hqj
  have hne : q = p → l ≠ k := by
    intro hqp hlk
    have hdead : entType d p k = 0 := h.entry.dead
    rw [hqp, hlk, hdead] at hty
    exact absurd hty (by decide)
  obtain ⟨hty', hid'⟩ := he.ent hq hl hne
  exact ⟨h.isDir_old hq, l, hl2, hl, hty'.trans hty, hid'.trans hid⟩

/-- The only new parent is `p`, of the new directory. -/
theorem Made.isParent_cases (h : Made d d' p k i b type) (he : SlotEdit (IsDir d) d d' p k)
    {q j : Nat} (hqj : IsParent d' q j) :
    IsParent d q j ∨ (q = p ∧ j = i ∧ type = iDir) := by
  obtain ⟨hq, l, hl2, hl, hty, hid⟩ := hqj
  rcases h.dir_cases hq with ⟨hqi, hdir⟩ | ⟨_, hqd⟩
  · subst hqi hdir
    rw [h.entType_new hl, if_neg (by omega)] at hty
    exact absurd hty (by decide)
  · by_cases hslot : q = p ∧ l = k
    · obtain ⟨hqp, hlk⟩ := hslot
      subst hqp hlk
      exact Or.inr ⟨rfl, hid.symm.trans h.entry.entryId, h.entry.entryType.symm.trans hty⟩
    · obtain ⟨hty', hid'⟩ := he.ent hqd hl fun hqp hlk => hslot ⟨hqp, hlk⟩
      exact Or.inl ⟨hqd, l, hl2, hl, hty'.symm.trans hty, hid'.symm.trans hid⟩

theorem Typed.mono {l j : Nat} (ht : Typed d j l) (hty : entType d' j l = entType d j l)
    (hid : entId d' j l = entId d j l)
    (hused : InodeUsed d (entId d j l) → InodeUsed d' (entId d j l))
    (hdir : IsDir d (entId d j l) → IsDir d' (entId d j l))
    (hfile : IsFile d (entId d j l) → IsFile d' (entId d j l)) : Typed d' j l := by
  refine ⟨?_, ?_, ?_⟩
  · rw [hid]
    exact hused ht.used
  · intro h
    rw [hid]
    exact hdir (ht.dir (hty ▸ h))
  · intro h
    rw [hid]
    exact hfile (ht.file (hty ▸ h))

/-- The entry of the new inode. -/
theorem Made.typed_new (h : Made d d' p k i b type) : Typed d' p k := by
  have hid : entId d' p k = i := h.entry.entryId
  have hty : entType d' p k = type := h.entry.entryType
  refine ⟨?_, ?_, ?_⟩
  · rw [hid]
    exact h.new_used
  · intro hdir
    rw [hid]
    exact ⟨h.new_used, by rw [h.newType, ← hty]; exact hdir⟩
  · intro hfile
    rw [hid]
    exact ⟨h.new_used, by rw [h.newType, ← hty]; exact hfile⟩

/-- Behind the making of an inode every entry names one of its type. -/
theorem Made.typed (h : Made d d' p k i b type) (hT : Tree d) (hp : IsDir d p)
    (he : SlotEdit (IsDir d) d d' p k) {j l : Nat} (hj : IsDir d' j) (hl : LiveEntry d' j l) :
    Typed d' j l := by
  rcases h.dir_cases hj with ⟨hji, hdir⟩ | ⟨_, hjd⟩
  · subst hji hdir
    have hty := hl.2
    rw [h.entType_new hl.1] at hty
    have hl2 : l < 2 := by
      by_contra hcon
      rw [if_neg hcon] at hty
      exact hty rfl
    have htgt : IsDir d' (entId d' j l) := by
      rw [h.entId_new hp.1.1 hl.1]
      by_cases h0 : l = 0
      · rw [if_pos h0]
        exact hj
      · rw [if_neg h0, if_pos (by omega)]
        exact h.isDir_old hp
    refine ⟨htgt.1, fun _ => htgt, ?_⟩
    intro hfile
    rw [h.entType_new hl.1, if_pos hl2] at hfile
    exact absurd hfile (by decide)
  · by_cases hslot : j = p ∧ l = k
    · obtain ⟨hjp, hlk⟩ := hslot
      subst hjp hlk
      exact h.typed_new
    · have hne : j = p → l ≠ k := fun hjp hlk => hslot ⟨hjp, hlk⟩
      obtain ⟨hty, hid⟩ := he.ent hjd hl.1 hne
      refine (hT.typed j l hjd ((he.live hjd hne).mp hl)).mono hty hid ?_ h.isDir_old ?_
      · intro hu
        exact (h.inodeUsed (h.ne_of_used hu)).mpr hu
      · intro hf
        exact (h.isFile (h.ne_of_used hf.1)).mpr hf

/-- The tree is kept when a file or a directory is made. -/
theorem Tree.made (h : Tree d) (hp : IsDir d p) (hm : Made d d' p k i b type)
    (ht : type = iDir ∨ type = iFile) : Tree d' := by
  have hV := h.volume
  have he := hm.slotEdit hV hp
  have hdead : entType d p k = 0 := hm.entry.dead
  have hk := h.two_le hp hm.entry.slot hdead
  have hlive : LiveEntry d' p k := by
    refine ⟨hm.entry.slot, ?_⟩
    have hty : entType d' p k = type := hm.entry.entryType
    rw [hty]
    rcases ht with ht | ht
    · rw [ht]
      decide
    · rw [ht]
      decide
  have hup : ∀ j, IsDir d j → up d' j = up d j := fun j hj => he.up_eq hk hj
  have hupnew : type = iDir → up d' i = p := by
    intro hty
    subst hty
    unfold up
    rw [hm.entId_new hp.1.1 (by decide), if_neg (by decide), if_pos rfl]
  refine ⟨hV.made hp hm ht, ?_, ?_, ?_, ?_, fun j l hj hl => hm.typed h hp he hj hl, ?_, ?_, ?_⟩
  · intro j hj
    rcases hm.dir_cases hj with ⟨hji, hty⟩ | ⟨_, hjd⟩
    · subst hji hty
      exact hm.dots_new hp.1.1
    · exact he.dots hk hjd (h.dots j hjd)
  · rw [hup 0 hV.root]
    exact h.rootUp
  · intro j hj h0
    rcases hm.dir_cases hj with ⟨hji, hty⟩ | ⟨_, hjd⟩
    · rw [hji, hupnew hty]
      exact ⟨hm.isDir_old hp, k, hk, hm.entry.slot, hm.entry.entryType.trans hty, hm.entry.entryId⟩
    · rw [hup j hjd]
      exact hm.isParent_old he (h.parent j hjd h0)
  · intro q j hqj
    rcases hm.isParent_cases he hqj with hold | ⟨hqp, hji, hty⟩
    · obtain ⟨hj0, hq⟩ := h.unique q j hold
      have hjd : IsDir d j := by
        obtain ⟨hqd, l, _, hl, hty, hid⟩ := hold
        rw [← hid]
        exact (h.typed q l hqd ⟨hl, by rw [hty]; decide⟩).dir hty
      exact ⟨hj0, by rw [hup j hjd]; exact hq⟩
    · rw [hji, hqp, hupnew hty]
      exact ⟨Ne.symm (hm.ne_of_used hV.root.1), rfl⟩
  · intro j hj
    by_cases hji : j = i
    · rw [hji]
      exact ⟨p, k, hm.isDir_old hp, hlive, hm.entry.entryId⟩
    · obtain ⟨q, l, hq, hl, hid⟩ := h.named j ((hm.isFile hji).mp hj)
      have hne : q = p → l ≠ k := by
        intro hqp hlk
        subst hqp hlk
        exact hl.2 hdead
      refine ⟨q, l, hm.isDir_old hq, (he.live hq hne).mpr hl, ?_⟩
      rw [(he.ent hq hl.1 hne).2]
      exact hid
  · have hchain : ∀ j, IsDir d j → ∃ n, (up d')^[n] j = 0 := by
      intro j hj
      obtain ⟨n, hn⟩ := h.chain j hj
      refine ⟨n, ?_⟩
      rw [chain_congr (fun j hj => h.up_dir hj) hup hj]
      exact hn
    intro j hj
    rcases hm.dir_cases hj with ⟨hji, hty⟩ | ⟨_, hjd⟩
    · obtain ⟨n, hn⟩ := hchain p hp
      refine ⟨n + 1, ?_⟩
      rw [Function.iterate_succ_apply, hji, hupnew hty]
      exact hn
    · exact hchain j hjd
  · intro j hj
    rcases hm.dir_cases hj with ⟨hji, hty⟩ | ⟨_, hjd⟩
    · subst hji hty
      rw [hm.liveSlots_new, hm.newFileNum, if_pos rfl]
      rfl
    · by_cases hjp : j = p
      · subst hjp
        exact he.count_new hjd (h.count j hjd) (fun hcon => hcon.2 hdead) hlive hm.entry.fileNum
      · rw [he.num j hjd hjp, he.liveSlots_other hjd hjp]
        exact h.count j hjd

end Made

section Removed

variable {d d' : Store} {p k x b : Nat}

/-- Entry `k` of `p`, the first that holds the number of `x`, is live, and apart
from entries of `x` itself no other live entry names `x`. -/
structure SoleEntry (d : Store) (p k x : Nat) : Prop where
  ne : p ≠ x
  live : LiveEntry d p k
  sole : ∀ q l, IsDir d q → q ≠ x → LiveEntry d q l → entId d q l = x → q = p ∧ l = k

/-- The inode that goes is a file or an empty directory. -/
def Childless (d : Store) (x : Nat) : Prop := IsDir d x → (liveSlots d x).card = 2

/-- An empty directory is no parent. -/
theorem Tree.not_parent (h : Tree d) (hc : Childless d x) {j : Nat} : ¬ IsParent d x j := by
  intro hpar
  obtain ⟨hx, l, hl2, hl, hty, _⟩ := hpar
  have := (h.dots x hx).only (hc hx) ⟨hl, by rw [hty]; decide⟩
  omega

/-- Directories other than the removed one and the one that lost an entry are untouched. -/
theorem Removed.other_dir (h : Removed d d' p k x (ino d x inoDirectBlock)) (hV : Volume d)
    (hp : IsDir d p) (hx : InodeUsed d x) {q y : Nat} (hq : IsDir d q) (hqx : q ≠ x) (hqp : q ≠ p)
    (hy : y < 4096) : dirBlock d' q y = dirBlock d q y := by
  have hptr : ino d' q (32 + 4 * 0) = ino d q (32 + 4 * 0) := h.ptr_eq hq.1.1 (by decide) hqx
  refine hV.otherDir hp hq hqp hptr ?_ hy
  intro y hy hne
  exact h.blk_eq _ y (hV.dir_first_ne hq hx hqx) hne hy

/-- Removing an inode edits one slot of the directories that stay. -/
theorem Removed.slotEdit (hV : Volume d) (hp : IsDir d p) (hx : InodeUsed d x) (hpx : p ≠ x)
    (h : Removed d d' p k x (ino d x inoDirectBlock)) :
    SlotEdit (fun j => IsDir d j ∧ j ≠ x) d d' p k where
  slot := (h.entry hpx).other
  other j hj hjp y hy := h.other_dir hV hp hx hj.1 hj.2 hjp hy
  num j hj hjp := h.ino_eq j _ hj.1.1.1 (by decide) hj.2 (Or.inl hjp)

/-- The tree is kept when a file or an empty directory is removed with its only entry. -/
theorem Tree.removed (h : Tree d) (hp : IsDir d p) (hx : InodeUsed d x) (hx0 : x ≠ 0)
    (hs : SoleEntry d p k x) (hc : Childless d x)
    (hr : Removed d d' p k x (ino d x inoDirectBlock)) : Tree d' := by
  have hV := h.volume
  have he := hr.slotEdit hV hp hx hs.ne
  have hentry := hr.entry hs.ne
  have hid : entId d p k = x := hr.entryId
  have hdead : entType d' p k = 0 := hentry.entryType
  have hkids : ∀ j, ¬ IsParent d x j := fun j => h.not_parent hc
  have hupx : ∀ j, IsDir d j → j ≠ 0 → up d j ≠ x := by
    intro j hj h0 hcon
    exact hkids j (hcon ▸ h.parent j hj h0)
  have hk : 2 ≤ k := by
    by_contra hlt
    have hcases : k = 0 ∨ k = 1 := by omega
    rcases hcases with hk0 | hk1
    · rw [hk0, (h.dots p hp).dotId] at hid
      exact hs.ne hid
    · have hup : up d p = x := by
        rw [hk1] at hid
        exact hid
      by_cases hp0 : p = 0
      · rw [hp0, h.rootUp] at hup
        exact hx0 hup.symm
      · exact hupx p hp hp0 hup
  have hup : ∀ j, IsDir d j ∧ j ≠ x → up d' j = up d j := fun j hj => he.up_eq hk hj
  -- an entry that is live afterwards was there before, and does not name `x`
  have hold : ∀ q l, IsDir d' q → LiveEntry d' q l →
      (IsDir d q ∧ q ≠ x) ∧ LiveEntry d q l ∧ entType d' q l = entType d q l ∧
        entId d' q l = entId d q l ∧ entId d q l ≠ x := by
    intro q l hq hl
    have hqd := hr.isDir.mp hq
    have hne : q = p → l ≠ k := by
      intro hqp hlk
      subst hqp hlk
      exact hl.2 hdead
    have hl' := (he.live hqd hne).mp hl
    obtain ⟨hty, hid'⟩ := he.ent hqd hl.1 hne
    refine ⟨hqd, hl', hty, hid', ?_⟩
    intro hcon
    obtain ⟨hqp, hlk⟩ := hs.sole q l hqd.1 hqd.2 hl' hcon
    exact hne hqp hlk
  have hused : ∀ j, InodeUsed d j → j ≠ x → InodeUsed d' j := fun j hj hne =>
    hr.inodeUsed.mpr ⟨hj, hne⟩
  refine ⟨hV.removed rfl hx hp hr hx0, ?_, ?_, ?_, ?_, ?_, ?_, ?_, ?_⟩
  · intro j hj
    exact he.dots hk (hr.isDir.mp hj) (h.dots j (hr.isDir.mp hj).1)
  · rw [hup 0 ⟨hV.root, Ne.symm hx0⟩]
    exact h.rootUp
  · intro j hj h0
    have hjd := hr.isDir.mp hj
    rw [hup j hjd]
    obtain ⟨hq, l, hl2, hl, hty, hlj⟩ := h.parent j hjd.1 h0
    have hqx := hupx j hjd.1 h0
    have hne : up d j = p → l ≠ k := by
      intro hqp hlk
      rw [hqp, hlk, hid] at hlj
      exact hjd.2 hlj.symm
    obtain ⟨hty', hid'⟩ := he.ent ⟨hq, hqx⟩ hl hne
    exact ⟨hr.isDir.mpr ⟨hq, hqx⟩, l, hl2, hl, hty'.trans hty, hid'.trans hlj⟩
  · intro q j hqj
    obtain ⟨hq, l, hl2, hl, hty, hlj⟩ := hqj
    obtain ⟨hqd, hl', hty', hid', hnx⟩ := hold q l hq ⟨hl, by rw [hty]; decide⟩
    have hpar : IsParent d q j := ⟨hqd.1, l, hl2, hl, hty'.symm.trans hty, hid'.symm.trans hlj⟩
    have hjx : j ≠ x := by
      rw [← hlj, hid']
      exact hnx
    have hjd : IsDir d j := by
      rw [← hlj, hid']
      exact (h.typed q l hqd.1 hl').dir (hty'.symm.trans hty)
    obtain ⟨hj0, hqup⟩ := h.unique q j hpar
    exact ⟨hj0, by rw [hup j ⟨hjd, hjx⟩]; exact hqup⟩
  · intro q l hq hl
    obtain ⟨hqd, hl', hty', hid', hnx⟩ := hold q l hq hl
    refine (h.typed q l hqd.1 hl').mono hty' hid' (fun hu => hused _ hu hnx) ?_ ?_
    · intro hdir
      exact hr.isDir.mpr ⟨hdir, hnx⟩
    · intro hfile
      exact hr.isFile.mpr ⟨hfile, hnx⟩
  · intro i hi
    obtain ⟨hid', hix⟩ := hr.isFile.mp hi
    obtain ⟨q, l, hq, hl, hqi⟩ := h.named i hid'
    -- a directory that goes holds directories only
    have hqx : q ≠ x := by
      intro hqx
      subst hqx
      have hl2 := (h.dots q hq).only (hc hq) hl
      have hty : entType d q l = iDir := by
        have hcases : l = 0 ∨ l = 1 := by omega
        rcases hcases with h0 | h1
        · rw [h0]
          exact (h.dots q hq).dotType
        · rw [h1]
          exact (h.dots q hq).dotdotType
      have hdir := (h.typed q l hq hl).dir hty
      rw [hqi] at hdir
      exact not_isDir_of_isFile hid' hdir
    have hne : q = p → l ≠ k := by
      intro hqp hlk
      rw [hqp, hlk, hid] at hqi
      exact hix hqi.symm
    refine ⟨q, l, hr.isDir.mpr ⟨hq, hqx⟩, (he.live ⟨hq, hqx⟩ hne).mpr hl, ?_⟩
    rw [(he.ent ⟨hq, hqx⟩ hl.1 hne).2]
    exact hqi
  · intro j hj
    have hjd := hr.isDir.mp hj
    obtain ⟨n, hn⟩ := h.chain j hjd.1
    refine ⟨n, ?_⟩
    have hclosed : ∀ j, IsDir d j ∧ j ≠ x → IsDir d (up d j) ∧ up d j ≠ x := by
      intro j hj
      refine ⟨h.up_dir hj.1, ?_⟩
      by_cases h0 : j = 0
      · rw [h0, h.rootUp]
        exact Ne.symm hx0
      · exact hupx j hj.1 h0
    rw [chain_congr hclosed hup hjd]
    exact hn
  · intro j hj
    have hjd := hr.isDir.mp hj
    by_cases hjp : j = p
    · subst hjp
      exact he.count_old hjd (h.count j hjd.1) hs.live (fun hcon => hcon.2 hdead) hentry.fileNum
    · rw [he.num j hjd hjp, he.liveSlots_other hjd hjp]
      exact h.count j hjd.1

end Removed

/-! ## Runs -/

section Formatted

variable {s : State}

/-- The types of the entries of a formatted root. -/
theorem entType_formatted {l : Nat} (hl : l < 128) :
    entType (formatted s) 0 l = if l < 2 then iDir else 0 := by
  unfold entType
  rw [dentryType_congr (fun y hy => dirBlock_formatted hy) hl, newDirBlock_type]

/-- All entries of a formatted root name the root. -/
theorem entId_formatted {l : Nat} (hl : l < 128) : entId (formatted s) 0 l = 0 := by
  unfold entId
  rw [dentryInodeId_congr (fun y hy => dirBlock_formatted hy) hl,
    newDirBlock_id (by decide) (by decide)]
  split_ifs <;> rfl

/-- A formatted root has no other entries than `.` and `..`. -/
theorem liveSlots_formatted : liveSlots (formatted s) 0 = {0, 1} := by
  ext l
  rw [mem_liveSlots, Finset.mem_insert, Finset.mem_singleton]
  constructor
  · intro hl
    have hty := hl.2
    rw [entType_formatted hl.1] at hty
    by_contra hcon
    rw [if_neg (by omega)] at hty
    exact hty rfl
  · intro hl
    refine ⟨by omega, ?_⟩
    rw [entType_formatted (by omega), if_pos (by omega)]
    decide

/-- **Formatting makes a tree.** -/
theorem formatted_tree : Tree (formatted s) := by
  obtain ⟨n0, n1, n2, n3, n4⟩ := newDirBlock_names 0 0
  have hdir : ∀ {j}, IsDir (formatted s) j → j = 0 := fun hj => formatted_used hj.1
  have hroot : IsDir (formatted s) 0 := formatted_root
  refine ⟨formatted_volume, ?_, entId_formatted (by decide), ?_, ?_, ?_, ?_, ?_, ?_⟩
  · intro j hj
    rw [hdir hj]
    refine ⟨?_, entId_formatted (by decide), ⟨?_, ?_⟩, ?_, ⟨?_, ?_, ?_⟩⟩
    · rw [entType_formatted (by decide), if_pos (by decide)]
    · rw [dirBlock_formatted (by decide), n0]
    · rw [dirBlock_formatted (by decide), n1]
    · rw [entType_formatted (by decide), if_pos (by decide)]
    · rw [dirBlock_formatted (by decide), n2]
    · rw [dirBlock_formatted (by decide), n3]
    · rw [dirBlock_formatted (by decide), n4]
  · intro j hj h0
    exact absurd (hdir hj) h0
  · intro q j hqj
    obtain ⟨hq, l, hl2, hl, hty, _⟩ := hqj
    rw [hdir hq, entType_formatted hl, if_neg (by omega)] at hty
    exact absurd hty (by decide)
  · intro j l hj hl
    rw [hdir hj] at hl ⊢
    have hid := entId_formatted (s := s) hl.1
    refine ⟨by rw [hid]; exact hroot.1, fun _ => by rw [hid]; exact hroot, ?_⟩
    intro hfile
    rw [entType_formatted hl.1] at hfile
    split_ifs at hfile <;> exact absurd hfile (by decide)
  · intro j hj
    rw [formatted_used hj.1] at hj
    exact absurd hroot (not_isDir_of_isFile hj)
  · intro j hj
    exact ⟨0, hdir hj⟩
  · intro j hj
    rw [hdir hj, liveSlots_formatted, ino_formatted_root (by decide), ino_initIno_fileNum]
    rfl

end Formatted

/-- Of the entries of `q`, only entry `k` of `p` names `x`. -/
def NamedOnlyAt (d : Store) (p k x q : Nat) : Prop :=
  ∀ l, l < 128 → entType d q l ≠ 0 → entId d q l = x → q = p ∧ l = k

instance (d : Store) (p k x q : Nat) : Decidable (NamedOnlyAt d p k x q) :=
  inferInstanceAs (Decidable (∀ l, l < 128 → _ → _ → _))

/-- The first entry of `p` that holds the number of `x` is live, `p` is not `x`,
and no other live entry outside of `x` names `x`. -/
def SoleName (d : Store) (p x : Nat) : Prop :=
  p ≠ x ∧ ∃ k, k < 128 ∧ entType d p k ≠ 0 ∧ entId d p k = x ∧ (∀ j, j < k → entId d p j ≠ x) ∧
    ∀ q, q < 512 → IsDir d q → q ≠ x → NamedOnlyAt d p k x q

/-- The first entry of `p` that holds the number of `x` is live and no
directory's own, and another live entry names `x`. -/
def SpareName (d : Store) (p x : Nat) : Prop :=
  ∃ k, k < 128 ∧ entType d p k ≠ 0 ∧ entType d p k ≠ iDir ∧ entId d p k = x ∧
    (∀ j, j < k → entId d p j ≠ x) ∧
    ∃ q, q < 512 ∧ IsDir d q ∧ ∃ l, l < 128 ∧ entType d q l ≠ 0 ∧ entId d q l = x ∧
      (q = p → l ≠ k)

instance (d : Store) (p x : Nat) : Decidable (SoleName d p x) :=
  inferInstanceAs (Decidable (_ ∧ ∃ k, k < 128 ∧ _))

instance (d : Store) (p x : Nat) : Decidable (SpareName d p x) :=
  inferInstanceAs (Decidable (∃ k, k < 128 ∧ _))

/-- What the tree asks of a removal: an inode that goes has one name, and a file
that stays has another. -/
def RemoveOk (type path : Nat) (mem : Store) (s : State) : Prop :=
  match removeTarget type path mem s with
  | some (p, _, _, x) =>
    (lastLink s.disk x type → ino s.disk x inoType = type → SoleName s.disk p x) ∧
      (¬ lastLink s.disk x type → type ≠ iDir → SpareName s.disk p x)
  | none => True

instance (type path : Nat) (mem : Store) (s : State) : Decidable (RemoveOk type path mem s) := by
  unfold RemoveOk
  split <;> infer_instance

/-- What the tree asks of a call. -/
def TreeCallOk (s : State) (c : Call) : Prop :=
  CallOk s c ∧
    match c with
    | .rmdir path mem => RemoveOk iDir path mem s
    | .rm path mem => RemoveOk iFile path mem s
    | _ => True

instance (s : State) (c : Call) : Decidable (TreeCallOk s c) :=
  @instDecidableAnd _ _ inferInstance
    (match c with
    | .rmdir path mem => (inferInstance : Decidable (RemoveOk iDir path mem s))
    | .rm path mem => (inferInstance : Decidable (RemoveOk iFile path mem s))
    | .mkfs _ | .statfs | .cd _ _ | .mkdir _ _ | .ls _ _ _ | .touch _ _ | .cat _ _
    | .fopen _ _ _ _ | .fread _ _ _ | .fwrite _ _ _ | .fclose _ | .ln _ _ _
    | .lseek _ _ _ _ => instDecidableTrue)

section Step

variable {s s' : State}

/-- `do_rmdir` and `do_rm` keep the tree. -/
theorem removePath_tree (hs : Tree s.disk) {type path : Nat} {mem : Store}
    (hv : ∀ j ∈ visits path mem s, IsDir s.disk j) (hok : RemoveOk type path mem s)
    (ht : type = iDir ∨ type = iFile)
    (h0 : ∀ x, removedInode type path mem s = some x → ino s.disk x inoType = type → x ≠ 0) :
    Holds AnyHalt (fun r => Tree r.2.2.disk) (removePath type path mem s) := by
  refine (removePath_spec hs.volume hv).mono fun r hr => ?_
  obtain ⟨_, ⟨hd, _⟩ | ⟨p, dir, mem', x, k, hend⟩⟩ := hr
  · rw [hd]
    exact hs
  · unfold RemoveOk at hok
    rw [hend.target] at hok
    rcases hend.effect with ⟨hlast, hne, hun⟩ | ⟨hlast, hused, hty, hrem⟩
    · obtain ⟨k', hk', hlive, hnd, hid, hfirst, q, _, hq, l, hl, hql, hqx, hother⟩ :=
        hok.2 hlast hne
      have hkk : k = k' := by
        rcases Nat.lt_trichotomy k k' with hlt | heq | hgt
        · exact absurd hun.entry.entryId (hfirst k hlt)
        · exact heq
        · exact absurd hid (hun.entry.first k' hgt)
      subst hkk
      exact hs.unlinked hend.parent hun ⟨hk', hlive⟩ hnd ⟨q, l, hq, ⟨hl, hql⟩, hqx, hother⟩
    · obtain ⟨hpx, k', hk', hlive, hid, hfirst, hsole⟩ := hok.1 hlast hty
      have hkk : k = k' := by
        rcases Nat.lt_trichotomy k k' with hlt | heq | hgt
        · exact absurd hrem.entryId (hfirst k hlt)
        · exact heq
        · exact absurd hid (hrem.first k' hgt)
      subst hkk
      have hx0 : x ≠ 0 :=
        h0 x (removedInode_eq_some.mpr ⟨p, dir, mem', hend.target, hlast⟩) hty
      refine hs.removed hend.parent hused hx0 ⟨hpx, ⟨hk', hlive⟩, ?_⟩ ?_ hrem
      · intro q l hq hqx hl hlx
        exact hsole q hq.1.1 hq hqx l hl.1 hl.2 hlx
      · intro hdir
        rcases ht with ht | ht
        · rw [← hs.count x hdir]
          exact hlast.2 ht
        · rw [ht] at hty
          exact absurd hdir (not_isDir_of_isFile ⟨hused, hty⟩)

/-- `do_mkdir` and `do_touch` keep the tree. -/
theorem makePath_tree (hs : Tree s.disk) {type path : Nat} {mem : Store}
    (hv : ∀ j ∈ visits path mem s, IsDir s.disk j) (ht : type = iDir ∨ type = iFile) :
    Holds AnyHalt (fun r => Tree r.2.2.disk) (makePath type path mem s) := by
  have hlt : type < 2 ^ 32 := by
    rcases ht with ht | ht
    · rw [ht]
      decide
    · rw [ht]
      decide
  refine (makePath_spec hs.volume hv hlt).mono fun r hr => ?_
  obtain ⟨_, ⟨hd, _⟩ | ⟨p, k, i, b, hp, hmade, _⟩⟩ := hr
  · rw [hd]
    exact hs
  · exact hs.made hp hmade ht

/-- `do_ln` keeps the tree. -/
theorem doLn_tree (hs : Tree s.disk) {srcPath dstPath : Nat} {mem : Store}
    (hv : ∀ j ∈ lnVisits srcPath dstPath mem s, IsDir s.disk j) :
    Holds AnyHalt (fun r => Tree r.2.2.disk) (doLn srcPath dstPath mem s) := by
  refine (doLn_spec hs.volume hv).mono fun r hr => ?_
  obtain ⟨_, ⟨hd, _⟩ | ⟨p, k, q, l, x, hp, hq, hl, hlive, hid, _, hlink, _⟩⟩ := hr
  · rw [hd]
    exact hs
  · have hx : InodeUsed s.disk x := by
      rw [← hid]
      exact (hs.typed q l hq ⟨hl, hlive⟩).used
    exact hs.linked hp hx hlink

/-- `do_fopen` keeps the tree. -/
theorem doFopen_tree (hs : Tree s.disk) {path mode pid : Nat} {mem : Store}
    (hv : ∀ j ∈ fopenVisits path mem s, IsDir s.disk j) (hr : fopenRefused path mem s = false) :
    Holds AnyHalt (fun r => Tree r.2.2.disk) (doFopen path mode pid mem s) := by
  refine (doFopen_spec hs.volume hv hr).mono fun r hr => ?_
  obtain ⟨d, hd, hopen⟩ := hr
  have hT : Tree d := by
    rcases hd with hd | ⟨p, k, i, b, hp, hmade⟩
    · rw [hd]
      exact hs
    · exact hs.made hp hmade (Or.inr rfl)
  rcases hopen with ⟨hsame, _⟩ | ⟨fd, x, m, _, _, _, hop, _⟩
  · rw [hsame]
    exact hT
  · exact hT.opened hop

/-- What a call does to one file keeps the tree. -/
theorem FileStep.tree (hs : Tree s.disk) (h : FileStep s s') : Tree s'.disk := by
  rcases h with h | ⟨fd, f, hfile, h⟩
  · rw [h.1]
    exact hs
  · exact hs.touched hfile h.owned h.touched

/-- Every call keeps the tree. -/
theorem exec_tree (hs : Sound s) (hT : Tree s.disk) {c : Call} (hok : TreeCallOk s c) :
    Holds AnyHalt (fun s' => Tree s'.disk) (exec c s) := by
  have same : ∀ {t : State}, t.disk = s.disk → Tree t.disk := by
    intro t ht
    rw [ht]
    exact hT
  obtain ⟨hcall, hrem⟩ := hok
  cases c with
  | mkfs reset =>
      obtain ⟨t, hrun, hcase⟩ := doMkfs_spec reset s
      refine ended'_holds ?_
      rw [hrun]
      rcases hcase with ⟨_, hd, _⟩ | ⟨u, _, hf⟩
      · exact same hd
      · change Tree t.disk
        rw [hf.disk]
        exact formatted_tree
  | statfs => exact same (doStatfs_reads s).1
  | cd path mem => exact ended_holds ((doCd_readOnly path mem s).mono fun _ h => same h.1)
  | mkdir path mem => exact ended_holds (makePath_tree hT hcall (Or.inl rfl))
  | rmdir path mem =>
      exact ended_holds (removePath_tree hT hcall.1 hrem (Or.inl rfl) fun _ hx _ =>
        hcall.2.ne_zero hx)
  | ls path option mem => exact ended_holds ((doLs_reads path option mem s).mono fun _ h => same h.1)
  | touch path mem => exact ended_holds (makePath_tree hT hcall (Or.inr rfl))
  | cat path mem => exact ended_holds ((doCat_reads path mem s).mono fun _ h => same h.1)
  | fopen path mode pid mem => exact ended_holds (doFopen_tree hT hcall.1 hcall.2)
  | fread fd buff length =>
      exact ended_holds ((doFread_fileStep hs hcall buff length).mono fun _ h => h.tree hT)
  | fwrite fd buff length =>
      exact ended'_holds ((doFwrite_fileStep hs hcall buff length).mono fun _ h => h.tree hT)
  | fclose fd =>
      refine ended'_holds ?_
      unfold doFclose
      cases hfd : fdescAt fd with
      | ok k => exact hT
      | error e => exact trivial
  | ln srcPath dstPath mem => exact ended_holds (doLn_tree hT hcall)
  | rm path mem =>
      refine ended_holds (removePath_tree hT hcall hrem (Or.inr rfl) ?_)
      intro x _ hty hx0
      rw [hx0, hT.volume.root.2] at hty
      exact absurd hty (by decide)
  | lseek fd offset whence junk =>
      exact ended'_holds ((doLseek_fileStep hs hcall offset whence junk).mono fun _ h => h.tree hT)

end Step

/-- Runs keep the tree. -/
theorem run_tree {s₀ s t : State} {cs : List Call} (hb : ∀ fd, (s₀.fdescArray fd).Bounded)
    (hfresh : doMkfs true s₀ = .ok (0, s)) (hok : AllSteps exec TreeCallOk cs s)
    (hrun : run exec cs s = .ok t) : Tree t.disk := by
  obtain ⟨hsound, t₀, hdisk⟩ := doMkfs_sound hb hfresh
  have hstep : ∀ u c u', (Sound u ∧ Tree u.disk) → TreeCallOk u c → exec c u = .ok u' →
      Sound u' ∧ Tree u'.disk := by
    intro u c u' hu hc hexec
    exact ⟨exec_sound hu.1 hc.1 hexec, (exec_tree hu.1 hu.2 hc).of_ok hexec⟩
  have hstart : Sound s ∧ Tree s.disk := ⟨hsound, by rw [hdisk]; exact formatted_tree⟩
  exact (run_invariant hstep cs s t hstart hok hrun).2

/-- **The directory tree.**  From a freshly formatted disk, as long as every call
meets its conditions, every state reached has a proper directory tree. -/
theorem tree_kept {s₀ s t : State} {cs : List Call} (hb : ∀ fd, (s₀.fdescArray fd).Bounded)
    (hfresh : doMkfs true s₀ = .ok (0, s)) (hok : AllSteps exec TreeCallOk cs s)
    (hrun : run exec cs s = .ok t) : TreeOk t.disk := (run_tree hb hfresh hok hrun).ok

/-- A process with the strings `a`, `b`, `a/b` and `.`. -/
def memPaths : Store := fun k =>
  if k = 100 then 97 else if k = 110 then 98 else if k = 120 then 97 else if k = 121 then 47
  else if k = 122 then 98 else if k = 130 then 46 else 0

/-- Make and remove things, with a link and a change of directory. -/
def treeCalls : List Call :=
  [.mkdir 100 memPaths, .touch 120 memPaths, .ln 120 110 memPaths, .rm 110 memPaths,
    .cd 100 memPaths]

/-- Directories and files are made, linked and removed again. -/
theorem tree_kept_treeCalls :
    AllSteps exec TreeCallOk treeCalls freshState ∧
      ∃ t, run exec treeCalls freshState = .ok t ∧ TreeOk t.disk := by
  have hok : AllSteps exec TreeCallOk treeCalls freshState := by decide +kernel
  have hrun : returns (fun _ => True) (run exec treeCalls freshState) = true := by decide +kernel
  obtain ⟨t, ht, _⟩ := exists_of_returns hrun
  exact ⟨hok, t, ht, tree_kept bootState_bounded freshState_eq hok ht⟩

/-- `rmdir .` removes the root directory of an empty volume. -/
theorem tree_lost_rmdir_dot :
    ∃ s t, doMkfs true bootState = .ok (0, s) ∧ run exec [.rmdir 130 memPaths] s = .ok t ∧
      ¬ TreeOk t.disk := by
  have hrun : returns (fun t => ¬ IsDir t.disk 0) (run exec [.rmdir 130 memPaths] freshState) =
      true := by decide +kernel
  obtain ⟨t, ht, hroot⟩ := exists_of_returns hrun
  exact ⟨freshState, t, freshState_eq, ht, fun hok => hroot hok.root.1⟩

end Fs
