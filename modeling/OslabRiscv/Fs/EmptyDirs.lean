import OslabRiscv.Fs.Removal

/-!
# Removing a directory

`do_rmdir` erases the entry in the directory in which the path ended.  For a path that ends in
`.` this is the directory that goes, and the entry its parent has for it stays.  On a tree
without links every path leads through directories (`LinkFree.visits_dirs`), and
`rmdir_right` says when a removal leaves nothing behind.
-/

namespace Fs

open ByteStore Outcome

/-- A directory tree without hard links: every entry is one of a directory or a file, and
apart from `.` and `..` every inode has one. -/
structure LinkFree (d : Store) : Prop where
  tree : Tree d
  kinds : ∀ q k, IsDir d q → LiveEntry d q k → entType d q k = iDir ∨ entType d q k = iFile
  once : ∀ q k r l, IsDir d q → IsDir d r → LiveEntry d q k → LiveEntry d r l → 2 ≤ k → 2 ≤ l →
    entId d q k = entId d r l → q = r ∧ k = l

/-- Directory `x` has been removed, an empty one and not the root; its parent has lost the one
entry for it, and nothing else has changed. -/
structure RmdirRight (d d' : Store) (x : Nat) : Prop where
  dir : IsDir d x
  notRoot : x ≠ 0
  empty : liveSlots d x = {0, 1}
  freed : ¬InodeUsed d' x
  nameless : ∀ q m, IsDir d' q → LiveEntry d' q m → entId d' q m ≠ x
  parent : (liveSlots d' (up d x)).card + 1 = (liveSlots d (up d x)).card
  siblings : ∀ m, LiveEntry d' (up d x) m → LiveEntry d (up d x) m ∧
    ∀ y, y < 4096 → y / 32 = m → dirBlock d' (up d x) y = dirBlock d (up d x) y
  dirs : ∀ q, IsDir d q → q ≠ x → IsDir d' q ∧ (q ≠ up d x →
    (∀ f, f + 4 ≤ 128 → ino d' q f = ino d q f) ∧
      ∀ y, y < 4096 → dirBlock d' q y = dirBlock d q y)
  files : ∀ j, IsFile d j → IsFile d' j ∧ (∀ f, f + 4 ≤ 128 → ino d' j f = ino d j f) ∧
    fileByte d' j = fileByte d j

/-- The first slot of directory `p` with number `x` is live. -/
def FirstLive (d : Store) (p x : Nat) : Prop :=
  ∃ k, LiveEntry d p k ∧ entId d p k = x ∧ ∀ j, j < k → entId d p j ≠ x

section Paths

variable {s : State} {mem : Store}

/-- The entry of a directory leads to a directory. -/
theorem LinkFree.entry_dir {d : Store} (h : LinkFree d) {p l name : Nat} (hp : IsDir d p)
    (hit : EntryHit (dirBlock d p) mem name iDir l) :
    LiveEntry d p l ∧ entType d p l = iDir ∧ IsDir d (entId d p l) := by
  have hbits : entType d p l &&& iDir ≠ 0 := hit.bits
  have hlive : LiveEntry d p l := by
    refine ⟨hit.lt, fun hz => hbits ?_⟩
    rw [hz, Nat.zero_and]
  have htype : entType d p l = iDir := by
    rcases h.kinds p l hp hlive with hdir | hfile
    · exact hdir
    · rw [hfile] at hbits
      exact absurd rfl hbits
  exact ⟨hlive, htype, (h.tree.typed p l hp hlive).dir htype⟩

theorem LinkFree.walkVisits_dirs (h : LinkFree s.disk) (fuel dirId dir subdir : Nat)
    (hd : IsDir s.disk dirId) : ∀ j ∈ walkVisits fuel dirId dir subdir mem s, IsDir s.disk j := by
  induction fuel generalizing dirId dir subdir mem s with
  | zero =>
      intro j hj
      cases hj
  | succ fuel ih =>
      intro j hj
      unfold walkVisits at hj
      rcases List.mem_cons.mp hj with rfl | hj
      · exact hd
      · by_cases hmore : subdir ≠ 0 ∧ mem subdir ≠ 0
        · rw [if_pos hmore] at hj
          cases hsearch : searchDentry dirId dir iDir mem s with
          | error e =>
              rw [hsearch] at hj
              cases hj
          | ok r =>
              obtain ⟨id, t⟩ := r
              cases hget : getDir mem subdir with
              | error e =>
                  rw [hsearch, hget] at hj
                  cases hj
              | ok q =>
                  obtain ⟨dir', mem'⟩ := q
                  rw [hsearch, hget] at hj
                  simp only at hj
                  obtain ⟨hfound, hdisk, _⟩ := (searchDentry_spec hd.1.1
                    (h.tree.volume.dirsInRange dirId hd)).of_ok hsearch
                  simp only at hfound hdisk
                  by_cases hid : id = minusOne
                  · rw [if_pos hid] at hj
                    cases hj
                  · rw [if_neg hid] at hj
                    obtain ⟨l, hit, hl⟩ := hfound.resolve_left hid
                    have hdir := (h.entry_dir hd hit).2.2
                    rw [show entId s.disk dirId l = id from hl] at hdir
                    rw [← hdisk]
                    exact ih (by rw [hdisk]; exact h) id dir' _ (by rw [hdisk]; exact hdir) j hj
        · rw [if_neg hmore] at hj
          cases hj

/-- Every path leads through directories. -/
theorem LinkFree.visits_dirs (h : LinkFree s.disk) (hcwd : IsDir s.disk (currentId s))
    (path : Nat) : ∀ j ∈ visits path mem s, IsDir s.disk j := by
  intro j hj
  unfold visits at hj
  cases hget : getDir mem path with
  | error e =>
      rw [hget] at hj
      cases hj
  | ok q =>
      rw [hget] at hj
      simp only at hj
      by_cases hz : q.1 = 0
      · rw [if_pos hz] at hj
        cases hj
      · rw [if_neg hz] at hj
        exact h.walkVisits_dirs _ _ _ _ hcwd j hj

end Paths

/-! ## What goes with the directory -/

section Effect

variable {d d' : Store} {p k x : Nat}

/-- An empty directory has the entries `.` and `..`. -/
theorem LinkFree.empty_slots (h : LinkFree d) (hx : IsDir d x)
    (hc : (liveSlots d x).card = 2) : liveSlots d x = {0, 1} := by
  have hdots := h.tree.dots x hx
  ext j
  rw [Finset.mem_insert, Finset.mem_singleton, mem_liveSlots]
  constructor
  · intro hj
    have hlt := hdots.only hc hj
    omega
  · rintro (rfl | rfl)
    · exact hdots.live.1
    · exact hdots.live.2

/-- Entries other than `.` that name an empty directory are in its parent, and are not
`..`. -/
theorem LinkFree.named_in_parent (h : LinkFree d) (hx : IsDir d x)
    (hc : (liveSlots d x).card = 2) (hp : IsDir d p) (hpx : p ≠ x) (hk : LiveEntry d p k)
    (hid : entId d p k = x) : 2 ≤ k ∧ x ≠ 0 ∧ p = up d x := by
  have htype : entType d p k = iDir := by
    rcases h.kinds p k hp hk with hdir | hfile
    · exact hdir
    · have hcon := (h.tree.typed p k hp hk).file hfile
      rw [hid] at hcon
      exact absurd hx (not_isDir_of_isFile hcon)
  have hk2 : 2 ≤ k := by
    by_contra hlt
    have hcases : k = 0 ∨ k = 1 := by omega
    rcases hcases with rfl | rfl
    · exact hpx ((h.tree.dots p hp).dotId.symm.trans hid)
    · -- `..` of `p` would make `p` a child of the empty directory
      have hup : up d p = x := hid
      by_cases hp0 : p = 0
      · rw [hp0, h.tree.rootUp] at hup
        exact hpx (hp0.trans hup)
      · have hpar := h.tree.parent p hp hp0
        rw [hup] at hpar
        exact h.tree.not_parent (fun _ => hc) hpar
  have hpar : IsParent d p x := ⟨hp, k, hk2, hk.1, htype, hid⟩
  obtain ⟨hx0, hup⟩ := h.tree.unique p x hpar
  exact ⟨hk2, hx0, hup⟩

/-- Files keep their inode and their bytes. -/
theorem Removed.file_kept (h : Removed d d' p k x (ino d x inoDirectBlock)) (hV : Volume d)
    (hp : IsDir d p) (hx : IsDir d x) {j : Nat} (hj : IsFile d j) :
    IsFile d' j ∧ (∀ f, f + 4 ≤ 128 → ino d' j f = ino d j f) ∧
      fileByte d' j = fileByte d j := by
  have hjx : j ≠ x := fun heq => not_isDir_of_isFile hj (heq ▸ hx)
  have hjp : j ≠ p := fun heq => not_isDir_of_isFile hj (heq ▸ hp)
  refine ⟨h.isFile.mpr ⟨hj, hjx⟩, fun f hf => h.ino_eq j f hj.1.1 hf hjx (Or.inl hjp), ?_⟩
  funext y
  unfold fileByte
  by_cases hpage : y / 4096 < pageLimit
  · rw [if_pos hpage, if_pos hpage]
    have hlive := pagePos_live hj.1 hpage
    have hin : (pagePos j (y / 4096)).inode = j := pagePos_inode j _
    unfold dataByte
    rw [h.ref_old rfl hx.1 hV hp hlive (by rw [hin]; exact hjx)]
    by_cases hz : ref d (pagePos j (y / 4096)) = 0
    · rw [if_pos hz, if_pos hz]
    · rw [if_neg hz, if_neg hz]
      refine h.blk_eq _ _ ?_ ?_ (Nat.mod_lt _ (by decide))
      · exact Removed.ref_ne rfl hx.1 hV hlive hz (by rw [hin]; exact hjx)
      · intro heq
        have hpos := hV.owned.inj _ (firstPos p) hlive (firstPos_live hp.1) hz heq
        exact hjp (hin.symm.trans (congrArg Pos.inode hpos))
  · rw [if_neg hpage, if_neg hpage]

/-- When the path ended in the directory that went, the entry of its parent stays. -/
theorem LinkFree.dangling (h : LinkFree d) (hx : IsDir d x) (hc : (liveSlots d x).card = 2)
    (hx0 : x ≠ 0) (hr : Removed d d' x k x (ino d x inoDirectBlock)) :
    ∃ q m, IsDir d' q ∧ LiveEntry d' q m ∧ entId d' q m = x := by
  have hpar := h.tree.parent x hx hx0
  have hne : up d x ≠ x := by
    intro heq
    rw [heq] at hpar
    exact h.tree.not_parent (fun _ => hc) hpar
  obtain ⟨m, hm, hid⟩ := hpar.live
  have hsame : ∀ y, y < 4096 → dirBlock d' (up d x) y = dirBlock d (up d x) y := fun y hy =>
    hr.other_dir h.tree.volume hx hx.1 hpar.1 hne hne hy
  refine ⟨up d x, m, hr.isDir.mpr ⟨hpar.1, hne⟩, ⟨hm.1, ?_⟩, ?_⟩
  · exact (dentryType_congr hsame hm.1).trans_ne hm.2
  · exact (dentryInodeId_congr hsame hm.1).trans hid

/-- When a dead entry was taken for it, the entry of the directory that went stays. -/
theorem LinkFree.left_live (h : LinkFree d) (hp : IsDir d p) (hx : IsDir d x) (hpx : p ≠ x)
    (hr : Removed d d' p k x (ino d x inoDirectBlock)) {l : Nat} (hl : LiveEntry d p l)
    (hid : entId d p l = x) (hdead : ¬LiveEntry d p k) :
    IsDir d' p ∧ LiveEntry d' p l ∧ entId d' p l = x := by
  have he := hr.slotEdit h.tree.volume hp hx.1 hpx
  have hlk : p = p → l ≠ k := by
    rintro - rfl
    exact hdead hl
  refine ⟨hr.isDir.mpr ⟨hp, hpx⟩, (he.live ⟨hp, hpx⟩ hlk).mpr hl, ?_⟩
  exact (he.ent ⟨hp, hpx⟩ hl.1 hlk).2.trans hid

/-- The removal is right when the entry that goes is the live entry of another directory. -/
theorem LinkFree.removed_right (h : LinkFree d) (hp : IsDir d p) (hx : IsDir d x)
    (hc : (liveSlots d x).card = 2) (hpx : p ≠ x) (hk : LiveEntry d p k)
    (hr : Removed d d' p k x (ino d x inoDirectBlock)) : RmdirRight d d' x := by
  have hV := h.tree.volume
  have he := hr.slotEdit hV hp hx.1 hpx
  have hentry := hr.entry hpx
  obtain ⟨hk2, hx0, hup⟩ := h.named_in_parent hx hc hp hpx hk hr.entryId
  have hdead : ¬LiveEntry d' p k := fun hl => hl.2 hentry.entryType
  -- an entry that is live afterwards is another one, and was live before
  have hold : ∀ m, LiveEntry d' p m → m ≠ k := by
    rintro m hm rfl
    exact hdead hm
  refine ⟨hx, hx0, h.empty_slots hx hc, fun hu => (hr.inodeUsed.mp hu).2 rfl, ?_, ?_, ?_, ?_, ?_⟩
  · intro q m hq hm hid
    have hqd := hr.isDir.mp hq
    have hne : q = p → m ≠ k := by
      rintro rfl
      exact hold m hm
    have hlive := (he.live hqd hne).mp hm
    have hname : entId d q m = x := (he.ent hqd hm.1 hne).2.symm.trans hid
    obtain ⟨hm2, -, -⟩ := h.named_in_parent hx hc hqd.1 hqd.2 hlive hname
    obtain ⟨hqp, hmk⟩ := h.once q m p k hqd.1 hp hlive hk hm2 hk2 (hname.trans hr.entryId.symm)
    exact hne hqp hmk
  · rw [← hup, he.liveSlots_erase ⟨hp, hpx⟩ hdead]
    exact Finset.card_erase_add_one (mem_liveSlots.mpr hk)
  · rw [← hup]
    intro m hm
    refine ⟨(he.live ⟨hp, hpx⟩ fun _ => hold m hm).mp hm, fun y hy hslot => ?_⟩
    exact hentry.other y hy (hslot ▸ hold m hm)
  · rw [← hup]
    intro q hq hqx
    refine ⟨hr.isDir.mpr ⟨hq, hqx⟩, fun hqp => ⟨fun f hf => ?_, fun y hy => ?_⟩⟩
    · exact hr.ino_eq q f hq.1.1 hf hqx (Or.inl hqp)
    · exact hr.other_dir hV hp hx.1 hq hqx hqp hy
  · intro j hj
    exact hr.file_kept hV hp hx hj

end Effect

section Calls

variable {s s' : State} {mem mem' : Store} {path : Nat}

/-- **Removing a directory is right** exactly when the path did not end in the directory that
goes and the first slot with its number there is live. -/
theorem rmdir_right (h : LinkFree s.disk) (hcwd : IsDir s.disk (currentId s))
    (hret : doRmdir path mem s = .ok (0, mem', s')) (hch : s'.disk ≠ s.disk) :
    ∃ p dir m x, removeTarget iDir path mem s = some (p, dir, m, x) ∧
      InodeUsed s.disk x ∧ ¬InodeUsed s'.disk x ∧
      (RmdirRight s.disk s'.disk x ↔ p ≠ x ∧ FirstLive s.disk p x) := by
  obtain ⟨_, heff⟩ := (removePath_spec h.tree.volume (h.visits_dirs hcwd path)).of_ok hret
  rcases heff with ⟨hsame, -⟩ | ⟨p, dir, m, x, k, htarget, hp, ⟨l, hhit, hid⟩, hlt, heffect⟩
  · exact absurd hsame hch
  obtain ⟨_, hne, -⟩ | ⟨hlast, hused, htype, hr⟩ := heffect
  · exact absurd rfl hne
  have hx : IsDir s.disk x := ⟨hused, htype⟩
  have hc : (liveSlots s.disk x).card = 2 := (h.tree.count x hx).symm.trans (hlast.2 rfl)
  refine ⟨p, dir, m, x, htarget, hused, fun hu => (hr.inodeUsed.mp hu).2 rfl, ?_, ?_⟩
  · intro hright
    have hpx : p ≠ x := by
      rintro rfl
      obtain ⟨q, m', hq, hm, hname⟩ := h.dangling hx hc hright.notRoot hr
      exact hright.nameless q m' hq hm hname
    refine ⟨hpx, k, ?_, hr.entryId, hr.first⟩
    by_contra hdead
    obtain ⟨hq, hm, hname⟩ :=
      h.left_live hp hx hpx hr (h.entry_dir hp hhit).1 hid hdead
    exact hright.nameless p l hq hm hname
  · rintro ⟨hpx, j, hj, hjid, hfirst⟩
    have hjk : j = k := by
      rcases Nat.lt_trichotomy j k with hlt | heq | hlt
      · exact absurd hjid (hr.first j hlt)
      · exact heq
      · exact absurd hr.entryId (hfirst k hlt)
    exact h.removed_right hp hx hc hpx (hjk ▸ hj) hr

end Calls

/-! ## Runs without links -/

section Made

variable {d d' : Store} {p k i b type : Nat}

/-- An entry after an inode was made is the new one, an entry of the new directory, or an
old one. -/
theorem Made.entry_cases (h : Made d d' p k i b type) (hV : Volume d) (hp : IsDir d p)
    {q l : Nat} (hq : IsDir d' q) (hl : LiveEntry d' q l) :
    (q = p ∧ l = k) ∨ (q = i ∧ l < 2 ∧ entType d' q l = iDir) ∨
      (IsDir d q ∧ LiveEntry d q l ∧ entType d' q l = entType d q l ∧
        entId d' q l = entId d q l) := by
  rcases h.dir_cases hq with ⟨rfl, rfl⟩ | ⟨_, hqd⟩
  · have hty := hl.2
    rw [h.entType_new hl.1] at hty
    by_cases hl2 : l < 2
    · exact Or.inr (Or.inl ⟨rfl, hl2, by rw [h.entType_new hl.1, if_pos hl2]⟩)
    · rw [if_neg hl2] at hty
      exact absurd rfl hty
  · by_cases hslot : q = p ∧ l = k
    · exact Or.inl hslot
    · have hne : q = p → l ≠ k := fun hqp hlk => hslot ⟨hqp, hlk⟩
      have he := h.slotEdit hV hp
      obtain ⟨hty, hid⟩ := he.ent hqd hl.1 hne
      exact Or.inr (Or.inr ⟨hqd, (he.live hqd hne).mp hl, hty, hid⟩)

/-- Making an inode makes no link. -/
theorem LinkFree.made (h : LinkFree d) (hp : IsDir d p) (hm : Made d d' p k i b type)
    (ht : type = iDir ∨ type = iFile) : LinkFree d' := by
  have hV := h.tree.volume
  have hold : ∀ q l, IsDir d q → LiveEntry d q l → entId d q l ≠ i := fun q l hq hl =>
    hm.ne_of_used (h.tree.typed q l hq hl).used
  have hid : entId d' p k = i := hm.entry.entryId
  refine ⟨h.tree.made hp hm ht, fun q l hq hl => ?_, fun q l r m hq hr hl hlm hl2 hm2 heq => ?_⟩
  · rcases hm.entry_cases hV hp hq hl with ⟨rfl, rfl⟩ | ⟨_, _, hty⟩ | ⟨hqd, hld, hty, _⟩
    · rw [show entType d' q l = type from hm.entry.entryType]
      exact ht
    · exact Or.inl hty
    · rw [hty]
      exact h.kinds q l hqd hld
  · rcases hm.entry_cases hV hp hq hl with ⟨rfl, rfl⟩ | ⟨_, hlt, _⟩ | ⟨hqd, hld, _, hlid⟩
    · rcases hm.entry_cases hV hp hr hlm with ⟨rfl, rfl⟩ | ⟨_, hlt, _⟩ | ⟨hrd, hmd, _, hmid⟩
      · exact ⟨rfl, rfl⟩
      · omega
      · exact absurd (hmid.symm.trans (heq.symm.trans hid)) (hold r m hrd hmd)
    · omega
    · rcases hm.entry_cases hV hp hr hlm with ⟨rfl, rfl⟩ | ⟨_, hlt, _⟩ | ⟨hrd, hmd, _, hmid⟩
      · exact absurd (hlid.symm.trans (heq.trans hid)) (hold q l hqd hld)
      · omega
      · exact h.once q l r m hqd hrd hld hmd hl2 hm2 (hlid.symm.trans (heq.trans hmid))

end Made

theorem freshState_linkFree : LinkFree freshState.disk := by
  obtain ⟨t, ht⟩ := freshState_formatted
  have hlow : ∀ q l, IsDir freshState.disk q → LiveEntry freshState.disk q l →
      l < 2 ∧ entType freshState.disk q l = iDir := by
    intro q l hq hl
    rw [ht.disk] at hq hl ⊢
    obtain rfl : q = 0 := formatted_used hq.1
    have hty := hl.2
    rw [entType_formatted hl.1] at hty ⊢
    by_cases hl2 : l < 2
    · exact ⟨hl2, if_pos hl2⟩
    · rw [if_neg hl2] at hty
      exact absurd rfl hty
  refine ⟨freshState_filed.tree, fun q l hq hl => Or.inl (hlow q l hq hl).2, ?_⟩
  intro q l r m hq _ hl _ hl2 _ _
  have := (hlow q l hq hl).1
  omega

/-- A directory just made. -/
theorem rmdir_right_made : ∃ s m s', LinkFree s.disk ∧ doRmdir 100 memA s = .ok (0, m, s') ∧
    ∃ p dir m' x, removeTarget iDir 100 memA s = some (p, dir, m', x) ∧
      InodeUsed s.disk x ∧ ¬InodeUsed s'.disk x ∧
      (RmdirRight s.disk s'.disk x ↔ p ≠ x ∧ FirstLive s.disk p x) := by
  obtain ⟨k, i, b, s, -, hmade, hext⟩ := freshState_created (show iDir < 2 ^ 32 by decide)
  have hcwd := freshState_vacant.cwd
  have hcur : currentId s = currentId freshState := by
    unfold currentId
    rw [hext.cwd]
  obtain ⟨s', hrmdir, herased, -⟩ := removePath_created freshState_consistent hcwd hcur memA_oneName
    (Or.inl rfl) (freshState_fresh iDir).2 hmade
  have hrest := hmade.restored freshState_consistent hcwd herased
  have hfree : LinkFree s.disk := freshState_linkFree.made hcwd hmade.toMade (Or.inl rfl)
  have hch : s'.disk ≠ s.disk := by
    intro heq
    have hused : imap s.disk i = 1 := by rw [hmade.imap_eq i hmade.free.1, if_pos rfl]
    have hback : imap s'.disk i = imap freshState.disk i := hrest.imap_eq i hmade.free.1
    rw [heq, hused, hmade.free.2] at hback
    exact absurd hback (by decide)
  have hcwd' : IsDir s.disk (currentId s) := by
    rw [hcur]
    exact hmade.isDir_old hcwd
  exact ⟨s, memA, s', hfree, hrmdir, rmdir_right hfree hcwd' hrmdir hch⟩

/-- `rmdir .` in the root removes the root. -/
theorem rmdir_wrong_dot : ∃ m t, LinkFree freshState.disk ∧
    doRmdir 130 memPaths freshState = .ok (0, m, t) ∧ t.disk ≠ freshState.disk ∧
    ∀ x, ¬RmdirRight freshState.disk t.disk x := by
  have hrun : returns (fun r => r.1 = 0 ∧ ¬IsDir r.2.2.disk 0)
      (doRmdir 130 memPaths freshState) = true := by decide +kernel
  obtain ⟨⟨r, m, t⟩, hret, hzero, hroot⟩ := exists_of_returns hrun
  obtain rfl : r = 0 := hzero
  obtain ⟨u, hu⟩ := freshState_formatted
  refine ⟨m, t, freshState_linkFree, hret, fun heq => hroot ?_, fun x hright => ?_⟩
  · rw [heq]
    exact freshState_linkFree.tree.volume.root
  · have hx := hright.dir.1
    rw [hu.disk] at hx
    exact hright.notRoot (formatted_used hx)

end Fs
