import OslabRiscv.Fs.Namespace
import OslabRiscv.Fs.Cwd

/-!
# Link counts

`do_ln` counts a link, `delete_dentry` looks at the count, and nobody takes one
back.  As long as only files with a single name are removed, the count of a file
is the number of entries that name it.
-/

namespace Fs

open ByteStore Outcome

/-- The live entries, in all directories, that name inode `x`. -/
@[irreducible] def names (d : Store) (x : Nat) : Finset (Nat × Nat) :=
  {q ∈ Finset.range 512 ×ˢ Finset.range 128 |
    IsDir d q.1 ∧ LiveEntry d q.1 q.2 ∧ entId d q.1 q.2 = x}

section Names

variable {d d' : Store} {p k q l x : Nat}

/-- What a name of an inode is. -/
theorem mem_names : (q, l) ∈ names d x ↔ IsDir d q ∧ LiveEntry d q l ∧ entId d q l = x := by
  unfold names
  rw [Finset.mem_filter, Finset.mem_product, Finset.mem_range, Finset.mem_range]
  constructor
  · intro h
    exact h.2
  · intro h
    exact ⟨⟨h.1.1.1, h.2.1.1⟩, h⟩

/-- An inode has no more names than there are entries. -/
theorem card_names_le (d : Store) (x : Nat) : (names d x).card ≤ 65536 := by
  unfold names
  refine (Finset.card_filter_le _ _).trans ?_
  rw [Finset.card_product, Finset.card_range, Finset.card_range]

/-- Apart from entry `k` of `p` the same entries name `x`. -/
def SameBut (d d' : Store) (p k x : Nat) : Prop :=
  ∀ q l, (q, l) ≠ (p, k) → ((q, l) ∈ names d' x ↔ (q, l) ∈ names d x)

/-- An entry that names `x` as before changes no name. -/
theorem SameBut.eq (h : SameBut d d' p k x) (hiff : (p, k) ∈ names d' x ↔ (p, k) ∈ names d x) :
    names d' x = names d x := by
  ext r
  obtain ⟨q, l⟩ := r
  by_cases hr : (q, l) = (p, k)
  · rw [hr]
    exact hiff
  · exact h q l hr

/-- A new entry is one name more. -/
theorem SameBut.insert (h : SameBut d d' p k x) (hnew : (p, k) ∈ names d' x)
    (hold : (p, k) ∉ names d x) : (names d' x).card = (names d x).card + 1 := by
  have heq : names d' x = Insert.insert (p, k) (names d x) := by
    ext r
    obtain ⟨q, l⟩ := r
    rw [Finset.mem_insert]
    by_cases hr : (q, l) = (p, k)
    · rw [hr]
      exact ⟨fun _ => Or.inl rfl, fun _ => hnew⟩
    · rw [h q l hr]
      exact ⟨Or.inr, fun hor => hor.resolve_left hr⟩
  rw [heq, Finset.card_insert_of_notMem hold]

/-- An entry that is removed is one name less. -/
theorem SameBut.erase (h : SameBut d d' p k x) (hnew : (p, k) ∉ names d' x) :
    names d' x = (names d x).erase (p, k) := by
  ext r
  obtain ⟨q, l⟩ := r
  rw [Finset.mem_erase]
  by_cases hr : (q, l) = (p, k)
  · rw [hr]
    exact ⟨fun hmem => absurd hmem hnew, fun hmem => absurd rfl hmem.1⟩
  · rw [h q l hr]
    exact ⟨fun hmem => ⟨hr, hmem⟩, fun hmem => hmem.2⟩

/-- An edit of one entry between the same directories. -/
theorem SlotEdit.sameBut (h : SlotEdit (IsDir d) d d' p k) (hdir : ∀ j, IsDir d' j ↔ IsDir d j)
    (x : Nat) : SameBut d d' p k x := by
  intro q l hne
  have hne' : q = p → l ≠ k := fun hq hl => hne (by rw [hq, hl])
  rw [mem_names, mem_names, hdir]
  refine and_congr_right fun hq => ?_
  rw [h.live hq hne']
  refine and_congr_right fun hl => ?_
  rw [(h.ent hq hl.1 hne').2]

end Names

/-- Entries name inodes of the kind they say, links name files; of the entries of a
directory with the same inode number the live ones come first; and a file counts
its names. -/
structure Named (d : Store) : Prop where
  volume : Volume d
  dir : ∀ p k, IsDir d p → LiveEntry d p k → entType d p k = iDir → IsDir d (entId d p k)
  file : ∀ p k, IsDir d p → LiveEntry d p k → entType d p k ≠ iDir → IsFile d (entId d p k)
  early : ∀ p j k, IsDir d p → LiveEntry d p k → j < k → entId d p j = entId d p k →
    LiveEntry d p j
  count : ∀ x, IsFile d x → ino d x inoLinksCount = (names d x).card
  named : ∀ x, IsFile d x → (names d x).Nonempty

section Edits

variable {d d' : Store} {p k x i b type : Nat}

/-- The number in a live entry is in use. -/
theorem Named.used (h : Named d) {q l : Nat} (hq : IsDir d q) (hl : LiveEntry d q l) :
    InodeUsed d (entId d q l) := by
  by_cases hty : entType d q l = iDir
  · exact (h.dir q l hq hl hty).1
  · exact (h.file q l hq hl hty).1

/-- The first entry with the number of a live one is live. -/
theorem Named.first_live (h : Named d) {l : Nat} (hp : IsDir d p) (hl : LiveEntry d p l)
    (hid : entId d p l = x) (hk : entId d p k = x) (hfirst : ∀ j, j < k → entId d p j ≠ x) :
    LiveEntry d p k := by
  rcases Nat.lt_trichotomy k l with hlt | heq | hgt
  · exact h.early p k l hp hl hlt (hk.trans hid.symm)
  · rw [heq]
    exact hl
  · exact absurd hid (hfirst l hgt)

/-- An edit that leaves the entries alone. -/
theorem Named.frame (h : Named d) (hV : Volume d') (hs : SameInodes d d')
    (hblk : ∀ j, IsDir d j → ∀ y, y < 4096 → dirBlock d' j y = dirBlock d j y)
    (hlinks : ∀ j, IsFile d j → ino d' j inoLinksCount = ino d j inoLinksCount) : Named d' := by
  have hent : ∀ q l, IsDir d q → l < 128 →
      entType d' q l = entType d q l ∧ entId d' q l = entId d q l := by
    intro q l hq hl
    exact ⟨dentryType_congr (hblk q hq) hl, dentryInodeId_congr (hblk q hq) hl⟩
  have hlive : ∀ q l, IsDir d q → (LiveEntry d' q l ↔ LiveEntry d q l) := by
    intro q l hq
    unfold LiveEntry
    refine and_congr_right fun hl => ?_
    rw [(hent q l hq hl).1]
  have hnames : ∀ x, names d' x = names d x := by
    intro x
    ext r
    obtain ⟨q, l⟩ := r
    rw [mem_names, mem_names, hs.dir]
    refine and_congr_right fun hq => ?_
    rw [hlive q l hq]
    refine and_congr_right fun hl => ?_
    rw [(hent q l hq hl.1).2]
  refine ⟨hV, ?_, ?_, ?_, ?_, ?_⟩
  · intro q l hq hl hty
    have hq' := (hs.dir q).mp hq
    have hl' := (hlive q l hq').mp hl
    rw [(hent q l hq' hl.1).1] at hty
    rw [(hent q l hq' hl.1).2, hs.dir]
    exact h.dir q l hq' hl' hty
  · intro q l hq hl hty
    have hq' := (hs.dir q).mp hq
    have hl' := (hlive q l hq').mp hl
    rw [(hent q l hq' hl.1).1] at hty
    rw [(hent q l hq' hl.1).2, hs.file]
    exact h.file q l hq' hl' hty
  · intro q j l hq hl hjl hid
    have hq' := (hs.dir q).mp hq
    have hl' := (hlive q l hq').mp hl
    rw [(hent q j hq' (by have := hl.1; omega)).2, (hent q l hq' hl.1).2] at hid
    exact (hlive q j hq').mpr (h.early q j l hq' hl' hjl hid)
  · intro y hy
    have hy' := (hs.file y).mp hy
    rw [hnames, hlinks y hy']
    exact h.count y hy'
  · intro y hy
    rw [hnames]
    exact h.named y ((hs.file y).mp hy)

/-- Opening a file changes no name. -/
theorem Named.opened (h : Named d) (ho : Opened d d' x) : Named d' := by
  have hq := ho.quiet h.volume
  refine h.frame (h.volume.quiet hq) hq.sameInodes ?_ ?_
  · intro j hj y hy
    unfold dirBlock
    rw [ho.ino_eq j _ hj.1.1 (by decide) (Or.inr (Or.inr (by decide))), ho.blk_eq _ y hy]
  · intro j hj
    exact ho.ino_eq j _ hj.1.1 (by decide) (Or.inr (Or.inr (by decide)))

/-- Neither does work on a file. -/
theorem Named.touched (h : Named d) (hi : IsFile d i) (ho : Owned d') (ht : Touched i d d') :
    Named d' := by
  refine h.frame (h.volume.touched hi ho ht)
    ⟨fun _ => ht.inodeUsed, fun _ => ht.isDir, fun _ => ht.isFile⟩
    (fun j hj y hy => ht.dirBlock_eq h.volume hi hj hy) ?_
  intro j hj
  exact ht.ino j _ hj.1.1 (by decide) (Or.inr (Or.inr (Or.inl (by decide))))

/-- A new name for a file. -/
theorem Named.linked (h : Named d) (hp : IsDir d p) (hx : IsFile d x) (hl : Linked d d' p k x) :
    Named d' := by
  have hq := hl.quiet h.volume hp hx.1.1
  have he := hl.slotEdit h.volume hp
  have hdir : ∀ j, IsDir d' j ↔ IsDir d j := fun j => hq.isDir
  have hdead : ¬ LiveEntry d p k := fun hlive => hlive.2 hl.entry.dead
  have hnewlive : LiveEntry d' p k := ⟨hl.entry.slot, by
    change dentryType (dirBlock d' p) k ≠ 0
    rw [hl.entry.entryType]
    decide⟩
  have hne : ∀ {q l : Nat}, ¬(q = p ∧ l = k) → q = p → l ≠ k := by
    intro q l hnot hqp hlk
    exact hnot ⟨hqp, hlk⟩
  refine ⟨h.volume.quiet hq, ?_, ?_, ?_, ?_, ?_⟩
  · intro q l hqd hlive hty
    have hqd' := (hdir q).mp hqd
    by_cases hnew : q = p ∧ l = k
    · obtain ⟨hqp, hlk⟩ := hnew
      subst hqp hlk
      have := hl.entry.entryType.symm.trans hty
      exact absurd this (by decide)
    · have hent := he.ent hqd' hlive.1 (hne hnew)
      rw [hent.2, hdir]
      rw [hent.1] at hty
      exact h.dir q l hqd' ((he.live hqd' (hne hnew)).mp hlive) hty
  · intro q l hqd hlive hty
    have hqd' := (hdir q).mp hqd
    rw [hq.isFile]
    by_cases hnew : q = p ∧ l = k
    · obtain ⟨hqp, hlk⟩ := hnew
      subst hqp hlk
      have hid : entId d' q l = x := hl.entry.entryId
      rw [hid]
      exact hx
    · have hent := he.ent hqd' hlive.1 (hne hnew)
      rw [hent.2]
      rw [hent.1] at hty
      exact h.file q l hqd' ((he.live hqd' (hne hnew)).mp hlive) hty
  · intro q j l hqd hlive hjl hid
    have hqd' := (hdir q).mp hqd
    by_cases hj : q = p ∧ j = k
    · rw [hj.1, hj.2]
      exact hnewlive
    · rw [he.live hqd' (hne hj)]
      by_cases hnew : q = p ∧ l = k
      · refine ⟨by have := hlive.1; omega, ?_⟩
        rw [hnew.1]
        exact hl.entry.first j (by omega)
      · rw [(he.ent hqd' (by have := hlive.1; omega) (hne hj)).2,
          (he.ent hqd' hlive.1 (hne hnew)).2] at hid
        exact h.early q j l hqd' ((he.live hqd' (hne hnew)).mp hlive) hjl hid
  · intro y hy
    have hy' := hq.isFile.mp hy
    have hold : (p, k) ∉ names d y := fun hmem => hdead (mem_names.mp hmem).2.1
    by_cases hyx : y = x
    · have hins := (he.sameBut hdir y).insert
        (mem_names.mpr ⟨(hdir p).mpr hp, hnewlive, hl.entry.entryId.trans hyx.symm⟩) hold
      have hle := card_names_le d y
      have hcount := h.count y hy'
      rw [hins, hyx, hl.linksCount, ← hyx, hcount]
      omega
    · have hnew : (p, k) ∉ names d' y := by
        intro hmem
        exact hyx ((mem_names.mp hmem).2.2.symm.trans hl.entry.entryId)
      rw [(he.sameBut hdir y).eq ⟨fun hm => absurd hm hnew, fun hm => absurd hm hold⟩,
        hl.otherLinks y hy'.1.1 hyx]
      exact h.count y hy'
  · intro y hy
    obtain ⟨⟨q, l⟩, hmem⟩ := h.named y (hq.isFile.mp hy)
    refine ⟨(q, l), (he.sameBut hdir y q l ?_).mpr hmem⟩
    intro heq
    cases heq
    exact hdead (mem_names.mp hmem).2.1

/-- A new file or directory. -/
theorem Named.made (h : Named d) (hp : IsDir d p) (hm : Made d d' p k i b type)
    (ht : type = iDir ∨ type = iFile) : Named d' := by
  have he := hm.slotEdit h.volume hp
  have hpi : p ≠ i := hm.ne_of_used hp.1
  have hp' : IsDir d' p := (hm.isDir hpi).mpr hp
  have hdead : ¬ LiveEntry d p k := fun hlive => hlive.2 hm.entry.dead
  have hnewtype : entType d' p k = type := hm.entry.entryType
  have hnewid : entId d' p k = i := hm.entry.entryId
  have hnewlive : LiveEntry d' p k := ⟨hm.entry.slot, by
    rw [hnewtype]
    rcases ht with ht | ht <;> rw [ht] <;> decide⟩
  have hne : ∀ {q l : Nat}, ¬(q = p ∧ l = k) → q = p → l ≠ k := by
    intro q l hnot hqp hlk
    exact hnot ⟨hqp, hlk⟩
  -- the two entries of a new directory
  have hdots : ∀ l, type = iDir → LiveEntry d' i l →
      entType d' i l = iDir ∧ IsDir d' (entId d' i l) ∧ l < 2 := by
    intro l hty hl
    subst hty
    have hl2 : l < 2 := by
      by_contra hcon
      have := hl.2
      rw [hm.entType_new hl.1, if_neg hcon] at this
      exact this rfl
    refine ⟨by rw [hm.entType_new hl.1, if_pos hl2], ?_, hl2⟩
    rw [hm.entId_new hp.1.1 hl.1]
    have hi : IsDir d' i := ⟨hm.new_used, hm.newType⟩
    rcases (by omega : l = 0 ∨ l = 1) with h0 | h1
    · rw [if_pos h0]
      exact hi
    · rw [if_neg (by omega), if_pos h1]
      exact hp'
  have hsame : ∀ y, IsFile d' y → SameBut d d' p k y := by
    intro y hy q l hql
    have hql' : ¬(q = p ∧ l = k) := fun hcon => hql (by rw [hcon.1, hcon.2])
    rw [mem_names, mem_names]
    constructor
    · intro hmem
      obtain ⟨hq, hl, hid⟩ := hmem
      rcases hm.dir_cases hq with ⟨hqi, hty⟩ | ⟨_, hq'⟩
      · subst hqi
        have hd := (hdots l hty hl).2.1
        rw [hid] at hd
        exact absurd hd (not_isDir_of_isFile hy)
      · refine ⟨hq', (he.live hq' (hne hql')).mp hl, ?_⟩
        rw [← (he.ent hq' hl.1 (hne hql')).2]
        exact hid
    · intro hmem
      obtain ⟨hq, hl, hid⟩ := hmem
      refine ⟨(hm.isDir (hm.ne_of_used hq.1)).mpr hq, (he.live hq (hne hql')).mpr hl, ?_⟩
      rw [(he.ent hq hl.1 (hne hql')).2]
      exact hid
  have hold : ∀ y, (p, k) ∉ names d y := fun y hmem => hdead (mem_names.mp hmem).2.1
  refine ⟨h.volume.made hp hm ht, ?_, ?_, ?_, ?_, ?_⟩
  · intro q l hq hl hty
    rcases hm.dir_cases hq with ⟨hqi, htype⟩ | ⟨_, hq'⟩
    · subst hqi
      exact (hdots l htype hl).2.1
    · by_cases hnew : q = p ∧ l = k
      · rw [hnew.1, hnew.2, hnewid]
        rw [hnew.1, hnew.2, hnewtype] at hty
        exact ⟨hm.new_used, hm.newType.trans hty⟩
      · have hent := he.ent hq' hl.1 (hne hnew)
        rw [hent.1] at hty
        rw [hent.2]
        have hd := h.dir q l hq' ((he.live hq' (hne hnew)).mp hl) hty
        exact (hm.isDir (hm.ne_of_used hd.1)).mpr hd
  · intro q l hq hl hty
    rcases hm.dir_cases hq with ⟨hqi, htype⟩ | ⟨_, hq'⟩
    · subst hqi
      exact absurd (hdots l htype hl).1 hty
    · by_cases hnew : q = p ∧ l = k
      · rw [hnew.1, hnew.2, hnewid]
        rw [hnew.1, hnew.2, hnewtype] at hty
        exact ⟨hm.new_used, hm.newType.trans (ht.resolve_left hty)⟩
      · have hent := he.ent hq' hl.1 (hne hnew)
        rw [hent.1] at hty
        rw [hent.2]
        have hd := h.file q l hq' ((he.live hq' (hne hnew)).mp hl) hty
        exact (hm.isFile (hm.ne_of_used hd.1)).mpr hd
  · intro q j l hq hl hjl hid
    rcases hm.dir_cases hq with ⟨hqi, htype⟩ | ⟨_, hq'⟩
    · subst hqi
      have hl2 := (hdots l htype hl).2.2
      subst htype
      refine ⟨by omega, ?_⟩
      rw [hm.entType_new (by omega), if_pos (by omega)]
      decide
    · by_cases hj : q = p ∧ j = k
      · rw [hj.1, hj.2]
        exact hnewlive
      · rw [he.live hq' (hne hj)]
        by_cases hnew : q = p ∧ l = k
        · refine ⟨by have := hl.1; omega, ?_⟩
          rw [hnew.1]
          exact hm.entry.first j (by omega)
        · rw [(he.ent hq' (by have := hl.1; omega) (hne hj)).2, (he.ent hq' hl.1 (hne hnew)).2] at hid
          exact h.early q j l hq' ((he.live hq' (hne hnew)).mp hl) hjl hid
  · intro y hy
    by_cases hyi : y = i
    · have hins := (hsame y hy).insert (mem_names.mpr ⟨hp', hnewlive, hnewid.trans hyi.symm⟩) (hold y)
      have hnone : names d y = ∅ := by
        apply Finset.eq_empty_of_forall_notMem
        intro r hr
        obtain ⟨q, l⟩ := r
        obtain ⟨hq, hl, hid⟩ := mem_names.mp hr
        have hused := h.used hq hl
        rw [hid] at hused
        exact hm.ne_of_used hused hyi
      rw [hins, hnone, hyi, hm.linksCount]
      rfl
    · have hnew : (p, k) ∉ names d' y := by
        intro hmem
        exact hyi ((mem_names.mp hmem).2.2.symm.trans hnewid)
      rw [(hsame y hy).eq ⟨fun hx => absurd hx hnew, fun hx => absurd hx (hold y)⟩,
        hm.ino_eq y _ hy.1.1 (by decide) hyi (Or.inl ?_)]
      · exact h.count y ((hm.isFile hyi).mp hy)
      · intro hyp
        exact not_isDir_of_isFile hy (hyp ▸ hp')
  · intro y hy
    by_cases hyi : y = i
    · exact ⟨(p, k), mem_names.mpr ⟨hp', hnewlive, hnewid.trans hyi.symm⟩⟩
    · obtain ⟨⟨q, l⟩, hmem⟩ := h.named y ((hm.isFile hyi).mp hy)
      refine ⟨(q, l), (hsame y hy q l ?_).mpr hmem⟩
      intro heq
      rw [heq] at hmem
      exact hold y hmem

/-- A file with one name goes with it. -/
theorem Named.removed (h : Named d) (hp : IsDir d p) (hx : IsFile d x)
    (hone : ino d x inoLinksCount = 1) {l₀ : Nat} (hlive : LiveEntry d p l₀)
    (hid₀ : entId d p l₀ = x) (hr : Removed d d' p k x (ino d x inoDirectBlock)) :
    Named d' ∧ names d' x = ∅ := by
  have hpx : p ≠ x := fun heq => not_isDir_of_isFile hx (heq ▸ hp)
  have hkid : entId d p k = x := hr.entryId
  have hklive : LiveEntry d p k := h.first_live hp hlive hid₀ hkid hr.first
  have hx0 : x ≠ 0 := fun h0 => not_isDir_of_isFile hx (h0 ▸ h.volume.root)
  -- the entry that goes is the only name
  have hsole : names d x = {(p, k)} := by
    obtain ⟨r, hr1⟩ := Finset.card_eq_one.mp ((h.count x hx).symm.trans hone)
    have hmem : (p, k) ∈ names d x := mem_names.mpr ⟨hp, hklive, hkid⟩
    rw [hr1, Finset.mem_singleton] at hmem
    rw [hr1, hmem]
  have hnamed : ∀ q l, IsDir d q → LiveEntry d q l → entId d q l = x → q = p ∧ l = k := by
    intro q l hq hl hid
    have hmem : (q, l) ∈ names d x := mem_names.mpr ⟨hq, hl, hid⟩
    rw [hsole, Finset.mem_singleton] at hmem
    exact ⟨congrArg Prod.fst hmem, congrArg Prod.snd hmem⟩
  have he : SlotEdit (IsDir d) d d' p k := by
    have := hr.slotEdit h.volume hp hx.1 hpx
    have hne : ∀ j, IsDir d j → j ≠ x := fun j hj heq => not_isDir_of_isFile hx (heq ▸ hj)
    exact ⟨this.slot, fun j hj => this.other j ⟨hj, hne j hj⟩, fun j hj => this.num j ⟨hj, hne j hj⟩⟩
  have hdir : ∀ j, IsDir d' j ↔ IsDir d j := by
    intro j
    rw [hr.isDir]
    exact ⟨fun hj => hj.1, fun hj => ⟨hj, fun heq => not_isDir_of_isFile hx (heq ▸ hj)⟩⟩
  have hdead : ¬ LiveEntry d' p k := fun hl => hl.2 (hr.entry hpx).entryType
  have hgone : ∀ {q l : Nat}, LiveEntry d' q l → q = p → l ≠ k := by
    intro q l hl hqp hlk
    subst hqp hlk
    exact hdead hl
  refine ⟨⟨h.volume.removed rfl hx.1 hp hr hx0, ?_, ?_, ?_, ?_, ?_⟩, ?_⟩
  · intro q l hq hl hty
    have hq' := (hdir q).mp hq
    have hent := he.ent hq' hl.1 (hgone hl)
    rw [hent.1] at hty
    rw [hent.2, hdir]
    exact h.dir q l hq' ((he.live hq' (hgone hl)).mp hl) hty
  · intro q l hq hl hty
    have hq' := (hdir q).mp hq
    have hent := he.ent hq' hl.1 (hgone hl)
    have hl' := (he.live hq' (hgone hl)).mp hl
    rw [hent.1] at hty
    rw [hent.2, hr.isFile]
    refine ⟨h.file q l hq' hl' hty, fun heq => ?_⟩
    obtain ⟨hqp, hlk⟩ := hnamed q l hq' hl' heq
    exact hgone hl hqp hlk
  · intro q j l hq hl hjl hid
    have hq' := (hdir q).mp hq
    have hl' := (he.live hq' (hgone hl)).mp hl
    have hidl := (he.ent hq' hl.1 (hgone hl)).2
    by_cases hj : q = p ∧ j = k
    · obtain ⟨hqp, hjk⟩ := hj
      subst hqp hjk
      have hstale : entId d' q j = x := (hr.entry hpx).stale
      rw [hstale, hidl] at hid
      obtain ⟨_, hlk⟩ := hnamed q l hq' hl' hid.symm
      omega
    · have hj' : q = p → j ≠ k := fun hqp hjk => hj ⟨hqp, hjk⟩
      rw [(he.ent hq' (by have := hl.1; omega) hj').2, hidl] at hid
      exact (he.live hq' hj').mpr (h.early q j l hq' hl' hjl hid)
  · intro y hy
    obtain ⟨hy', hyx⟩ := hr.isFile.mp hy
    have hiff : (p, k) ∈ names d' y ↔ (p, k) ∈ names d y := by
      rw [mem_names, mem_names]
      refine ⟨fun hm => absurd hm.2.1 hdead, fun hm => absurd (hm.2.2.symm.trans hkid) hyx⟩
    rw [(he.sameBut hdir y).eq hiff, hr.ino_eq y _ hy.1.1 (by decide) hyx (Or.inl ?_)]
    · exact h.count y hy'
    · intro hyp
      exact not_isDir_of_isFile hy' (hyp ▸ hp)
  · intro y hy
    obtain ⟨hy', hyx⟩ := hr.isFile.mp hy
    obtain ⟨⟨q, l⟩, hmem⟩ := h.named y hy'
    refine ⟨(q, l), (he.sameBut hdir y q l ?_).mpr hmem⟩
    intro heq
    rw [heq] at hmem
    exact hyx ((mem_names.mp hmem).2.2.symm.trans hkid)
  · rw [(he.sameBut hdir x).erase fun hm => hdead (mem_names.mp hm).2.1, hsole,
      Finset.erase_singleton]

/-- Removing one of several names leaves the count as it was. -/
theorem Named.unlinked (h : Named d) (hp : IsDir d p) (hx : IsFile d x) {l₀ : Nat}
    (hlive : LiveEntry d p l₀) (hid₀ : entId d p l₀ = x) (hu : Unlinked d d' p k x) :
    IsFile d' x ∧ ino d' x inoLinksCount = (names d' x).card + 1 := by
  have he := hu.slotEdit h.volume hp
  have hq := hu.quiet h.volume hp
  have hkid : entId d p k = x := hu.entry.entryId
  have hklive : LiveEntry d p k := h.first_live hp hlive hid₀ hkid hu.entry.first
  have hdead : ¬ LiveEntry d' p k := fun hl => hl.2 hu.entry.entryType
  have hmem : (p, k) ∈ names d x := mem_names.mpr ⟨hp, hklive, hkid⟩
  refine ⟨hq.isFile.mpr hx, ?_⟩
  rw [(he.sameBut (fun j => hq.isDir) x).erase fun hm => hdead (mem_names.mp hm).2.1,
    Finset.card_erase_add_one hmem, hu.ino_eq x _ hx.1.1 (by decide) (Or.inl ?_)]
  · exact h.count x hx
  · intro heq
    exact not_isDir_of_isFile hx (heq ▸ hp)

end Edits

/-- A disk just formatted has no file. -/
theorem formatted_named (s : State) : Named (formatted s) := by
  have hroot : IsDir (formatted s) 0 := formatted_root
  have hnofile : ∀ x, ¬ IsFile (formatted s) x := by
    intro x hx
    have h0 := formatted_used hx.1
    rw [h0] at hx
    exact not_isDir_of_isFile hx hroot
  refine ⟨formatted_volume, ?_, ?_, ?_, fun x hx => absurd hx (hnofile x),
    fun x hx => absurd hx (hnofile x)⟩
  · intro q l hq hl _
    rw [formatted_used hq.1] at hl ⊢
    rw [entId_formatted hl.1]
    exact hroot
  · intro q l hq hl hty
    rw [formatted_used hq.1] at hl hty
    have hnz := hl.2
    rw [entType_formatted hl.1] at hty hnz
    split_ifs at hty hnz
    · exact absurd rfl hty
    · exact absurd rfl hnz
  · intro q j l hq hl hjl _
    rw [formatted_used hq.1] at hl ⊢
    have hnz := hl.2
    rw [entType_formatted hl.1] at hnz
    by_cases hl2 : l < 2
    · have := hl.1
      refine ⟨by omega, ?_⟩
      rw [entType_formatted (by omega), if_pos (by omega)]
      decide
    · rw [if_neg hl2] at hnz
      exact absurd rfl hnz

/-! ## Runs -/

/-- What keeps the counts: `do_ln` links files, `do_rm` removes files with one name,
and no directory is removed. -/
def LinkOk (s : State) (c : Call) : Prop :=
  CallOk s c ∧
    match c with
    | .ln srcPath dstPath mem => ∀ x ∈ lnSource srcPath dstPath mem s, IsFile s.disk x
    | .rm path mem => ∀ r ∈ removeTarget iFile path mem s, ino s.disk r.2.2.2 inoLinksCount = 1
    | .rmdir path mem => removedInode iDir path mem s = none
    | _ => True

instance (s : State) (c : Call) : Decidable (LinkOk s c) :=
  @instDecidableAnd _ _ inferInstance
    (match c with
    | .ln srcPath dstPath mem =>
      (inferInstance : Decidable (∀ x ∈ lnSource srcPath dstPath mem s, IsFile s.disk x))
    | .rm path mem =>
      (inferInstance : Decidable
        (∀ r ∈ removeTarget iFile path mem s, ino s.disk r.2.2.2 inoLinksCount = 1))
    | .rmdir path mem => (inferInstance : Decidable (removedInode iDir path mem s = none))
    | .mkfs _ | .statfs | .cd _ _ | .mkdir _ _ | .ls _ _ _ | .touch _ _ | .cat _ _
    | .fopen _ _ _ _ | .fread _ _ _ | .fwrite _ _ _ | .fclose _
    | .lseek _ _ _ _ => instDecidableTrue)

section Runs

variable {s s' : State}

/-- An entry that a search for a file finds is live and names a file. -/
theorem Named.hit (h : Named s.disk) {p dir l : Nat} {mem : Store} (hp : IsDir s.disk p)
    (hhit : EntryHit (dirBlock s.disk p) mem dir iFile l) :
    LiveEntry s.disk p l ∧ IsFile s.disk (entId s.disk p l) := by
  have hbits := hhit.bits
  have hlive : LiveEntry s.disk p l := by
    refine ⟨hhit.lt, fun hz => hbits ?_⟩
    change entType s.disk p l &&& iFile = 0
    rw [hz]
    exact Nat.zero_and _
  refine ⟨hlive, h.file p l hp hlive fun hty => hbits ?_⟩
  change entType s.disk p l &&& iFile = 0
  rw [hty]
  decide

/-- `do_mkdir` and `do_touch` name what they make. -/
theorem makePath_named (h : Named s.disk) {type path : Nat} {mem : Store}
    (ht : type = iDir ∨ type = iFile) (hv : ∀ j ∈ visits path mem s, IsDir s.disk j) :
    Holds AnyHalt (fun r => Named r.2.2.disk) (makePath type path mem s) := by
  have hlt : type < 2 ^ 32 := by
    rcases ht with ht | ht <;> rw [ht] <;> decide
  refine (makePath_spec h.volume hv hlt).mono fun r hr => ?_
  obtain ⟨_, ⟨hd, _⟩ | ⟨p, k, i, b, hp, hmade, _⟩⟩ := hr
  · rw [hd]
    exact h
  · exact h.made hp hmade ht

/-- `do_rm` of files with one name: the file goes with its name, the others stay. -/
theorem doRm_named (h : Named s.disk) {path : Nat} {mem : Store}
    (hv : ∀ j ∈ visits path mem s, IsDir s.disk j)
    (hone : ∀ r ∈ removeTarget iFile path mem s, ino s.disk r.2.2.2 inoLinksCount = 1) :
    Holds AnyHalt
      (fun r => Named r.2.2.disk ∧
        ∀ y, IsFile s.disk y → IsFile r.2.2.disk y ∨ names r.2.2.disk y = ∅)
      (removePath iFile path mem s) := by
  refine (removePath_spec h.volume hv).mono fun r hr => ?_
  obtain ⟨_, ⟨hd, _⟩ | ⟨p, dir, mem', x, k, hend⟩⟩ := hr
  · rw [hd]
    exact ⟨h, fun y hy => Or.inl hy⟩
  · have hcount := hone _ hend.target
    obtain ⟨l, hhit, hid⟩ := hend.hit
    obtain ⟨hlive, hfile⟩ := h.hit hend.parent hhit
    change entId s.disk p l = x at hid
    rw [hid] at hfile
    have hlast : lastLink s.disk x iFile := ⟨hcount, fun hcon => absurd hcon (by decide)⟩
    rcases hend.effect with ⟨hnot, _⟩ | ⟨_, _, _, hrem⟩
    · exact absurd hlast hnot
    · obtain ⟨hnamed, hnone⟩ := h.removed hend.parent hfile hcount hlive hid hrem
      refine ⟨hnamed, fun y hy => ?_⟩
      by_cases hyx : y = x
      · rw [hyx]
        exact Or.inr hnone
      · exact Or.inl (hrem.isFile.mpr ⟨hy, hyx⟩)

/-- Work through a descriptor changes no name. -/
theorem FileStep.named (h : Named s.disk) (hst : FileStep s s') : Named s'.disk := by
  rcases hst with hst | ⟨fd, f, hfile, hst⟩
  · rw [hst.1]
    exact h
  · exact h.touched hfile hst.owned hst.touched

/-- The step lemma of the names. -/
theorem exec_named {c : Call} (hs : Sound s) (h : Named s.disk) (hok : LinkOk s c) :
    Holds AnyHalt (fun s' => Named s'.disk) (exec c s) := by
  have hsame : ∀ {u : State}, u.disk = s.disk → Named u.disk := by
    intro u hu
    rw [hu]
    exact h
  cases c with
  | mkfs reset =>
      obtain ⟨u, hrun, hcase⟩ := doMkfs_spec reset s
      refine ended'_holds ?_
      rw [hrun]
      rcases hcase with ⟨_, hd, _⟩ | ⟨t, _, hf⟩
      · exact hsame hd
      · change Named u.disk
        rw [hf.disk]
        exact formatted_named t
  | statfs => exact hsame (doStatfs_reads s).1
  | cd path mem => exact ended_holds ((doCd_readOnly path mem s).mono fun _ hr => hsame hr.1)
  | mkdir path mem => exact ended_holds (makePath_named h (Or.inl rfl) hok.1)
  | rmdir path mem =>
      refine ended_holds ((removePath_spec h.volume hok.1.1).mono fun r hr => ?_)
      obtain ⟨_, ⟨hd, _⟩ | ⟨p, dir, mem', x, k, hend⟩⟩ := hr
      · exact hsame hd
      · rcases hend.effect with ⟨_, hcon, _⟩ | ⟨hlast, _⟩
        · exact absurd rfl hcon
        · have := removedInode_eq_some.mpr ⟨p, dir, mem', hend.target, hlast⟩
          rw [hok.2] at this
          cases this
  | ls path option mem => exact ended_holds ((doLs_reads path option mem s).mono fun _ hr => hsame hr.1)
  | touch path mem => exact ended_holds (makePath_named h (Or.inr rfl) hok.1)
  | cat path mem => exact ended_holds ((doCat_reads path mem s).mono fun _ hr => hsame hr.1)
  | fopen path mode pid mem =>
      refine ended_holds ((doFopen_spec h.volume hok.1.1 hok.1.2).mono fun r hr => ?_)
      obtain ⟨d, hd, hopen⟩ := hr
      have hfirst : Named d := by
        rcases hd with hd | ⟨p, k, i, b, hp, hmade⟩
        · rw [hd]
          exact h
        · exact h.made hp hmade (Or.inr rfl)
      rcases hopen with ⟨hd', _⟩ | ⟨fd, x, m, _, _, _, hop, _⟩
      · rw [hd']
        exact hfirst
      · exact hfirst.opened hop
  | fread fd buff length =>
      exact ended_holds ((doFread_fileStep hs hok.1 buff length).mono fun _ hr => hr.named h)
  | fwrite fd buff length =>
      exact ended'_holds ((doFwrite_fileStep hs hok.1 buff length).mono fun _ hr => hr.named h)
  | fclose fd =>
      refine ended'_holds ?_
      unfold doFclose
      rcases fdescAt_cases fd with ⟨k, hk, hfd⟩ | herr
      · subst hfd
        rw [fdescAt_ofNat hk]
        exact h
      · rw [herr]
        exact trivial
  | ln srcPath dstPath mem =>
      refine ended_holds ((doLn_spec h.volume hok.1).mono fun r hr => ?_)
      obtain ⟨_, ⟨hd, _⟩ | ⟨p, k, q, l, x, hp, _, _, _, _, _, hlink, hsrc, _⟩⟩ := hr
      · exact hsame hd
      · exact h.linked hp (hok.2 x hsrc) hlink
  | rm path mem => exact ended_holds ((doRm_named h hok.1 hok.2).mono fun _ hr => hr.1)
  | lseek fd offset whence junk =>
      exact ended'_holds ((doLseek_fileStep hs hok.1 offset whence junk).mono fun _ hr => hr.named h)

/-- The invariant over a run. -/
theorem run_named {s₀ s t : State} {cs : List Call} (hb : ∀ fd, (s₀.fdescArray fd).Bounded)
    (hfresh : doMkfs true s₀ = .ok (0, s)) (hok : AllSteps exec LinkOk cs s)
    (hrun : run exec cs s = .ok t) : Sound t ∧ Named t.disk := by
  obtain ⟨hsound, t₀, hdisk⟩ := doMkfs_sound hb hfresh
  have hstart : Sound s ∧ Named s.disk := ⟨hsound, by rw [hdisk]; exact formatted_named t₀⟩
  refine run_invariant (I := fun u => Sound u ∧ Named u.disk) ?_ cs s t hstart hok hrun
  intro u c u' hu hc hexec
  exact ⟨exec_sound hu.1 hc.1 hexec, (exec_named hu.1 hu.2 hc).of_ok hexec⟩

end Runs

/-- **Link counts.**  From a freshly formatted disk, as long as every call meets its
conditions, a file counts its names in every state reached; and a `do_rm` frees a
file exactly when it leaves it without a name. -/
theorem links_counted {s₀ s t : State} {cs : List Call} (hb : ∀ fd, (s₀.fdescArray fd).Bounded)
    (hfresh : doMkfs true s₀ = .ok (0, s)) (hok : AllSteps exec LinkOk cs s)
    (hrun : run exec cs s = .ok t) :
    (∀ x, IsFile t.disk x → ino t.disk x inoLinksCount = (names t.disk x).card) ∧
      ∀ path mem t', LinkOk t (.rm path mem) → exec (.rm path mem) t = .ok t' →
        ∀ y, IsFile t.disk y → (IsFile t'.disk y ↔ (names t'.disk y).Nonempty) := by
  obtain ⟨_, hnamed⟩ := run_named hb hfresh hok hrun
  refine ⟨hnamed.count, fun path mem t' hrm hexec y hy => ?_⟩
  obtain ⟨hnamed', hcases⟩ := (ended_holds (P := fun u => Named u.disk ∧
    ∀ y, IsFile t.disk y → IsFile u.disk y ∨ names u.disk y = ∅)
    (doRm_named hnamed hrm.1 hrm.2)).of_ok hexec
  refine ⟨hnamed'.named y, fun hne => (hcases y hy).resolve_right fun hnone => ?_⟩
  rw [hnone] at hne
  exact Finset.not_nonempty_empty hne

/-- Make a file and remove it, make another and link it. -/
def linkCalls : List Call :=
  [.touch 100 memPaths, .rm 100 memPaths, .touch 110 memPaths, .ln 110 100 memPaths]

/-- A file is removed, another one linked. -/
theorem links_counted_linkCalls :
    AllSteps exec LinkOk linkCalls freshState ∧
      ∃ t, run exec linkCalls freshState = .ok t ∧
        ∀ x, IsFile t.disk x → ino t.disk x inoLinksCount = (names t.disk x).card := by
  have hok : AllSteps exec LinkOk linkCalls freshState := by decide +kernel
  have hrun : returns (fun _ => True) (run exec linkCalls freshState) = true := by decide +kernel
  obtain ⟨t, ht, _⟩ := exists_of_returns hrun
  exact ⟨hok, t, ht, (links_counted bootState_bounded freshState_eq hok ht).1⟩

/-- Make a file `a` and link it as `b`. -/
def twoNames : List Call := [.touch 100 memPaths, .ln 100 110 memPaths]

/-- `rm b` leaves `a` with one name and a count of two. -/
theorem links_not_counted_twoNames :
    ∃ s t, doMkfs true bootState = .ok (0, s) ∧
      run exec (twoNames ++ [.rm 110 memPaths]) s = .ok t ∧
      ¬ ∀ x, IsFile t.disk x → ino t.disk x inoLinksCount = (names t.disk x).card := by
  have hok : AllSteps exec LinkOk twoNames freshState := by decide +kernel
  have hrun : returns (fun t => CallOk t (.rm 110 memPaths) ∧
      ∃ r ∈ removeTarget iFile 110 memPaths t, ino t.disk r.2.2.2 inoLinksCount ≠ 1)
      (run exec twoNames freshState) = true := by decide +kernel
  have hall : returns (fun _ => True) (run exec (twoNames ++ [.rm 110 memPaths]) freshState) =
      true := by decide +kernel
  obtain ⟨t, ht, hcall, ⟨p, dir, mem', x⟩, htarget, hcount⟩ := exists_of_returns hrun
  obtain ⟨u, hu, _⟩ := exists_of_returns hall
  have hstep : exec (.rm 110 memPaths) t = .ok u := by
    rw [run_append, ht] at hu
    obtain ⟨v, hv, hend⟩ := run_cons hu
    cases hend
    exact hv
  have hnamed := (run_named bootState_bounded freshState_eq hok ht).2
  obtain ⟨k, hend⟩ := rm_removes hnamed.volume hcall hstep htarget
  obtain ⟨l, hhit, hid⟩ := hend.hit
  obtain ⟨hlive, hfile⟩ := hnamed.hit hend.parent hhit
  change entId t.disk p l = x at hid
  rw [hid] at hfile
  refine ⟨freshState, u, freshState_eq, hu, fun hcon => ?_⟩
  rcases hend.effect with ⟨_, _, hun⟩ | ⟨hlast, _⟩
  · obtain ⟨hfile', hplus⟩ := hnamed.unlinked hend.parent hfile hlive hid hun
    have := hcon x hfile'
    omega
  · exact hcount hlast.1

end Fs
