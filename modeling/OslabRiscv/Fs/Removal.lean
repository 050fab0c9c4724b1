import OslabRiscv.Fs.Undo
import OslabRiscv.Fs.Links

/-!
# Removing the entry of a name

`do_rm` looks an entry up by its name and erases by inode number: the first slot of the
directory that holds the number, whether live or dead.  On a directory tree with links the
call is taken apart once (`doRm_erases`), and `rm_exact` says when the two slots are one.
-/

namespace Fs

open ByteStore Outcome

/-- A directory tree, with links, in which live entries of one name have types that share no
bit, and an inode map of zeros and ones. -/
structure Filed (d : Store) : Prop where
  tree : Tree d
  mapped : ∀ i, i < 512 → imap d i = 0 ∨ imap d i = 1
  distinct : ∀ q, IsDir d q → ∀ k l, LiveEntry d q k → LiveEntry d q l → k ≠ l →
    (∃ n, SameName (dirBlock d q) (dentryName k) (dirBlock d q) (dentryName l) n) →
    entType d q k &&& entType d q l = 0

/-- A string that the calls take for a path of one component. -/
structure Component (mem : Store) (name n : Nat) : Prop where
  ne : name ≠ 0
  string : NameEnds mem name n
  fit : n < dName
  walk : ∀ s, walk name mem s = .ok (some (currentId s, name), mem, s)

theorem OneName.component {mem : Store} {name n : Nat} (h : OneName mem name n) :
    Component mem name n := ⟨h.ne, h.string, h.fit, walk_oneName h⟩

/-- Directory `p` has lost entry `k`, the first with inode number `x`, and nothing else has
changed in a directory. -/
structure Dropped (d d' : Store) (p k x : Nat) : Prop where
  old : OldEntry d d' p k x
  edit : SlotEdit (IsDir d) d d' p k
  dirs : ∀ q, IsDir d' q ↔ IsDir d q
  block : ino d' p inoDirectBlock = ino d p inoDirectBlock

section Drop

variable {d d' : Store} {p k x : Nat}

theorem Unlinked.dropped (h : Unlinked d d' p k x) (hV : Volume d) (hp : IsDir d p) :
    Dropped d d' p k x :=
  ⟨h.entry, h.slotEdit hV hp, fun _ => (h.quiet hV hp).isDir,
    h.ino_eq p _ hp.1.1 (by decide) (Or.inr notCount_directBlock)⟩

theorem Removed.dropped (h : Removed d d' p k x (ino d x inoDirectBlock)) (hV : Volume d)
    (hp : IsDir d p) (hx : IsFile d x) : Dropped d d' p k x := by
  have hne : ∀ q, IsDir d q → q ≠ x := by
    intro q hq heq
    exact not_isDir_of_isFile hx (heq ▸ hq)
  have hedit := h.slotEdit hV hp hx.1 (hne p hp)
  refine ⟨h.entry (hne p hp), ⟨hedit.slot, ?_, ?_⟩, fun q => ?_, ?_⟩
  · exact fun j hj => hedit.other j ⟨hj, hne j hj⟩
  · exact fun j hj => hedit.num j ⟨hj, hne j hj⟩
  · rw [h.isDir]
    exact ⟨fun hq => hq.1, fun hq => ⟨hq, hne q hq⟩⟩
  · exact h.ino_eq p _ hp.1.1 (by decide) (hne p hp) (Or.inr notCount_directBlock)

end Drop

/-! ## The call taken apart -/

section Rm

variable {s : State} {mem : Store} {name n l : Nat}

/-- Two types that have the bit of a file share one. -/
theorem file_bits {a b : Nat} (ha : a &&& iFile ≠ 0) (hb : b &&& iFile ≠ 0) : a &&& b ≠ 0 := by
  have hbit : ∀ c : Nat, c &&& iFile ≠ 0 → c.testBit 1 = true := by
    intro c hc
    by_contra hcon
    apply hc
    refine Nat.eq_of_testBit_eq fun i => ?_
    rw [Nat.testBit_and, Nat.zero_testBit]
    by_cases hi : i = 1
    · subst hi
      rw [Bool.eq_false_iff.mpr hcon, Bool.false_and]
    · have h2 : iFile.testBit i = false := by
        change (2 : Nat).testBit i = false
        rw [show (2 : Nat) = 2 ^ 1 from rfl, Nat.testBit_two_pow_of_ne (Ne.symm hi)]
      rw [h2, Bool.and_false]
  intro hz
  have h1 : (a &&& b).testBit 1 = true := by
    rw [Nat.testBit_and, hbit a ha, hbit b hb]
    rfl
  rw [hz, Nat.zero_testBit] at h1
  cases h1

/-- Entries that a search for one name and a file would take are the same entry. -/
theorem Filed.hit_unique (h : Filed s.disk) {p k : Nat} (hp : IsDir s.disk p)
    (hn : NameEnds mem name n) (hk : k < 128) (hl : l < 128)
    (hitk : Hit (dirBlock s.disk p) mem name n iFile k)
    (hitl : Hit (dirBlock s.disk p) mem name n iFile l) : k = l := by
  by_contra hne
  have hsame : SameName (dirBlock s.disk p) (dentryName k) (dirBlock s.disk p) (dentryName l) n := by
    refine ⟨fun m hm => ?_, ?_, ?_⟩
    · rw [hitk.2 m (le_of_lt hm), hitl.2 m (le_of_lt hm)]
      exact ⟨rfl, hn.2 m hm⟩
    · rw [hitk.2 n (le_refl n)]
      exact hn.1
    · rw [hitl.2 n (le_refl n)]
      exact hn.1
  exact file_bits hitk.1 hitl.1
    (h.distinct p hp k l ⟨hk, hitk.live⟩ ⟨hl, hitl.live⟩ hne ⟨n, hsame⟩)

/-- The search of `do_rm` finds the inode of the matching entry. -/
theorem Filed.search_hit (h : Filed s.disk) {p : Nat} (hp : IsDir s.disk p)
    (hc : Component mem name n) (hl : l < 128)
    (hit : Hit (dirBlock s.disk p) mem name n iFile l) :
    searchDentry p name iFile mem s = .ok (entId s.disk p l, searched p s) := by
  obtain ⟨id, hsearch, hfinds⟩ := searchDentry_name iFile hp.1.1 (h.tree.volume.dir_used hp).1
    (h.tree.count p hp) hc.ne hc.string hc.fit
  rcases hfinds with ⟨k, hk, hitk, _, hid⟩ | ⟨hnone, _⟩
  · rw [hsearch, hid, h.hit_unique hp hc.string hk hl hitk hit]
    rfl
  · exact absurd hit (hnone l hl)

/-- The entry found is one of a link to a directory whose link count has come down to one:
`do_rm` then takes the directory for a file and stops in its `assert`. -/
def WrongKind (d : Store) (x : Nat) : Prop := ino d x inoLinksCount = 1 ∧ ino d x inoType ≠ iFile

instance (d : Store) (x : Nat) : Decidable (WrongKind d x) := inferInstanceAs (Decidable (_ ∧ _))

/-- **What `do_rm` does** once the name has led to entry `l` with inode `x`: the first slot
that holds `x` is dropped. -/
theorem doRm_erases (h : Filed s.disk) (hcwd : IsDir s.disk (currentId s))
    (hc : Component mem name n) (hl : l < 128)
    (hit : Hit (dirBlock s.disk (currentId s)) mem name n iFile l) :
    Holds (fun _ => WrongKind s.disk (entId s.disk (currentId s) l))
      (fun r => r.2.1 = mem ∧ Extends s r.2.2 ∧ ¬WrongKind s.disk (entId s.disk (currentId s) l) ∧
        ∃ k, Dropped s.disk r.2.2.disk (currentId s) k (entId s.disk (currentId s) l))
      (doRm name mem s) := by
  have hV := h.tree.volume
  have hused := (h.tree.typed _ l hcwd ⟨hl, hit.live⟩).used
  obtain ⟨x, hx⟩ : ∃ x, x = entId s.disk (currentId s) l := ⟨_, rfl⟩
  obtain ⟨p, hpdef⟩ : ∃ p, p = currentId s := ⟨_, rfl⟩
  have hcu := hV.dir_used hcwd
  unfold doRm removePath
  rw [hc.walk s]
  change Holds _ _ (searchDentry (currentId s) name iFile mem s >>= _)
  rw [h.search_hit hcwd hc hl hit]
  rw [← hx] at hused ⊢
  rw [← hpdef] at hcwd hcu hit hx ⊢
  have hextq : Extends s (searched p s) := ((Extends.refl s).getInode _).readBlock _
  change Holds _ _ (if x = minusOne then _ else _)
  have hxne : x ≠ minusOne := by
    intro heq
    have hlt := hused.1
    rw [heq] at hlt
    exact absurd hlt (by decide)
  rw [if_neg hxne]
  have hdel : Holds _ _ (deleteDentry p x iFile (searched p s)) :=
    deleteDentry_spec (s := searched p s) hcwd.1.1 hused.1 rfl hcu.1
  refine (hdel.attempt fun e hnone => ?_).bind fun r hr => ?_
  · exact absurd hx.symm (hnone l hl)
  obtain ⟨goOn, v⟩ := r
  simp only at hr ⊢
  rcases hr with ⟨_, hdir, _⟩ | ⟨hgo, _, k, hk, hid, hfirst, hdiskv, hextv⟩
  · exact absurd hdir (by decide)
  have hunl : Unlinked s.disk v.disk p k x := by
    rw [hdiskv]
    exact unlinked_edit hcwd.1.1 rfl hk hid hfirst
  have hall := hextq.trans hextv
  by_cases hlast : ino s.disk x inoLinksCount = 1
  · rw [hgo, decide_eq_true (show lastLink (searched p s).disk x iFile from
      ⟨hlast, fun hcon => absurd hcon (by decide)⟩)]
    have hkeep : ∀ f, f + 4 ≤ 128 → NotCount f → ino v.disk x f = ino s.disk x f :=
      fun f hf hn => hunl.ino_eq x f hused.1 hf (Or.inr hn)
    have hty : ino v.disk x inoType = ino s.disk x inoType :=
      hkeep _ (by decide) (Or.inl (by decide))
    have hblt := hV.first_lt hused.1
    have hbmap : bmap v.disk (ino s.disk x inoDirectBlock) =
        bmap s.disk (ino s.disk x inoDirectBlock) := hunl.bmap_eq _ (by omega)
    have himap : imap v.disk x = imap s.disk x := hunl.imap_eq x hused.1
    have hrem : Holds _ _ (removeInode x iFile v) :=
      removeInode_spec hused.1 (hkeep _ (by decide) notCount_directBlock) hblt
    rw [hty, hbmap, himap] at hrem
    by_cases hfile : IsFile s.disk x
    · -- a file in use has its block and its map entry
      have hblk := hV.owned.used _ (firstPos_live hused) (hV.fileBlock_ne x hfile)
      have hone : bmap s.disk (ino s.disk x inoDirectBlock) = 1 :=
        ((hV.low _ hblk.1).resolve_left hblk.2).1
      have hmap : imap s.disk x = 1 := (h.mapped x hused.1).resolve_left hused.2
      have hrem' : Holds (fun _ => WrongKind s.disk x) _ (removeInode x iFile v) :=
        hrem.attempt fun e hbad =>
          absurd hbad (by rw [hfile.2, hone, hmap]; decide)
      refine hrem'.bind fun w hw => ?_
      refine ⟨rfl, hall.trans hw.2.2.2.2, fun hwrong => hwrong.2 hfile.2, k, ?_⟩
      have hpx : p ≠ x := fun heq => not_isDir_of_isFile hfile (heq ▸ hcwd)
      have hremoved : Removed s.disk w.disk p k x (ino s.disk x inoDirectBlock) := by
        rw [hw.2.2.2.1]
        exact removed_edit hunl hcwd.1.1 hused.1 (Or.inl (hV.dir_first_ne hcwd hused hpx))
          (by omega) hmap hone
      exact hremoved.dropped hV hcwd hfile
    · have hwrong : WrongKind s.disk x := ⟨hlast, fun hcon => hfile ⟨hused, hcon⟩⟩
      have hrem' : Holds (fun _ => WrongKind s.disk x) _ (removeInode x iFile v) :=
        hrem.attempt fun e _ => hwrong
      exact hrem'.bind fun w hw => absurd hw.1 hwrong.2
  · rw [hgo, decide_eq_false (show ¬lastLink (searched p s).disk x iFile from
      fun hcon => hlast hcon.1)]
    exact ⟨rfl, hall, fun hwrong => hlast hwrong.1, k, hunl.dropped hV hcwd⟩

/-- The call has taken out entry `l` of the current directory: it is no longer live, every
other live entry is byte for byte what it was, the directory counts one entry less, and the
same call again finds nothing. -/
structure EntryRemoved (s : State) (name : Nat) (mem : Store) (l : Nat) (s' : State) : Prop where
  gone : ¬LiveEntry s'.disk (currentId s) l
  others : ∀ q m, IsDir s.disk q → LiveEntry s.disk q m → (q = currentId s → m ≠ l) →
    IsDir s'.disk q ∧ ∀ y, y < 4096 → y / 32 = m → dirBlock s'.disk q y = dirBlock s.disk q y
  count : ino s'.disk (currentId s) inoFileNum + 1 = ino s.disk (currentId s) inoFileNum
  again : ∃ t, doRm name mem s' = .ok (minusOne, mem, t) ∧ t.disk = s'.disk

/-- `do_rm` returns and has removed entry `l` exactly. -/
def RmExact (s : State) (name : Nat) (mem : Store) (l : Nat) : Prop :=
  ∃ r, doRm name mem s = .ok r ∧ EntryRemoved s name mem l r.2.2

/-- Entry `l` is the first slot of its directory, live or dead, with its inode number. -/
def FirstSlot (d : Store) (p l : Nat) : Prop := ∀ k, k < l → entId d p k ≠ entId d p l

instance (d : Store) (p l : Nat) : Decidable (FirstSlot d p l) :=
  inferInstanceAs (Decidable (∀ k, k < l → _))

/-- With its entry gone, the name is not found any more. -/
theorem rm_again {s' : State} (h : Filed s.disk) (hcwd : IsDir s.disk (currentId s))
    (hc : Component mem name n) (hl : l < 128)
    (hit : Hit (dirBlock s.disk (currentId s)) mem name n iFile l) (hext : Extends s s')
    (hd : Dropped s.disk s'.disk (currentId s) l (entId s.disk (currentId s) l)) :
    ∃ t, doRm name mem s' = .ok (minusOne, mem, t) ∧ t.disk = s'.disk := by
  have hcur : currentId s' = currentId s := by
    unfold currentId
    rw [hext.cwd]
  have hdead : ¬LiveEntry s'.disk (currentId s) l := fun hlive => hlive.2 hd.old.entryType
  have hcwd' := (hd.dirs _).mpr hcwd
  have hcount := hd.edit.count_old hcwd (h.tree.count _ hcwd) ⟨hl, hit.live⟩ hdead hd.old.fileNum
  obtain ⟨id, hsearch, hfinds⟩ := searchDentry_name iFile hcwd'.1.1
    (by rw [hd.block]; exact (h.tree.volume.dir_used hcwd).1) hcount hc.ne hc.string hc.fit
  have hnone : id = minusOne := by
    rcases hfinds with ⟨m, hm, hitm, _, _⟩ | ⟨_, hid⟩
    · have hml : m ≠ l := by
        rintro rfl
        exact hitm.live hd.old.entryType
      have hold : Hit (dirBlock s.disk (currentId s)) mem name n iFile m := by
        refine ⟨?_, fun i hi => ?_⟩
        · rw [← (entries_of_other hm hml hd.old.other).1]
          exact hitm.1
        · have hfit := hc.fit
          unfold dName at hfit
          rw [← hd.old.other _ (by unfold dentryName; omega) (by unfold dentryName; omega)]
          exact hitm.2 i hi
      exact absurd (h.hit_unique hcwd hc.string hm hl hold hit) hml
    · exact hid
  refine ⟨searched (currentId s) s', ?_, rfl⟩
  unfold doRm removePath
  rw [hc.walk s', hcur]
  change (searchDentry (currentId s) name iFile mem s' >>= _) = _
  rw [hsearch, hnone]
  rfl

/-- **Removal is exact** exactly when the entry found by its name is also the first slot with
its inode number, and the inode is not a directory that `do_rm` takes for a file. -/
theorem rm_exact (h : Filed s.disk) (hcwd : IsDir s.disk (currentId s))
    (hc : Component mem name n) (hl : l < 128)
    (hit : Hit (dirBlock s.disk (currentId s)) mem name n iFile l) :
    RmExact s name mem l ↔
      FirstSlot s.disk (currentId s) l ∧ ¬WrongKind s.disk (entId s.disk (currentId s) l) := by
  have herases := doRm_erases h hcwd hc hl hit
  constructor
  · rintro ⟨r, hret, hrem⟩
    obtain ⟨_, _, hkind, k, hd⟩ := herases.of_ok hret
    have hkl : k = l := by
      by_contra hne
      have hlive := (hd.edit.live hcwd (fun _ => Ne.symm hne)).mpr ⟨hl, hit.live⟩
      exact hrem.gone hlive
    refine ⟨fun j hj => ?_, hkind⟩
    exact hd.old.first j (by omega)
  · rintro ⟨hfirst, hkind⟩
    obtain ⟨r, hret, _, hext, _, k, hd⟩ := herases.exists_ok fun _ he => absurd he hkind
    have hkl : k = l := by
      rcases Nat.lt_trichotomy k l with hlt | heq | hlt
      · exact absurd hd.old.entryId (hfirst k hlt)
      · exact heq
      · exact absurd rfl (hd.old.first l hlt)
    subst hkl
    have hnum := hd.old.fileNum
    have hpos : 0 < ino s.disk (currentId s) inoFileNum := by
      rw [h.tree.count _ hcwd]
      exact Finset.card_pos.mpr ⟨k, mem_liveSlots.mpr ⟨hl, hit.live⟩⟩
    have hlt : ino s.disk (currentId s) inoFileNum < 2 ^ 32 := rd32_lt _ _
    refine ⟨r, hret, fun hlive => hlive.2 hd.old.entryType, ?_, by omega,
      rm_again h hcwd hc hl hit hext hd⟩
    intro q m hq _ hne
    refine ⟨(hd.dirs q).mpr hq, fun y hy hym => ?_⟩
    by_cases hqp : q = currentId s
    · subst hqp
      exact hd.edit.slot y hy (by rw [hym]; exact hne rfl)
    · exact hd.edit.other q hq hqp y hy

end Rm

/-! ## A file with one name, and one with two -/

theorem freshState_filed : Filed freshState.disk := by
  obtain ⟨t, ht⟩ := freshState_formatted
  refine ⟨?_, fun i hi => ?_, freshState_consistent.distinct⟩
  · rw [ht.disk]
    exact formatted_tree
  · rw [ht.disk, imap_formatted hi]
    by_cases h0 : i = 0
    · rw [if_pos h0]
      exact Or.inr rfl
    · rw [if_neg h0]
      exact Or.inl rfl

/-- A file made in a fresh volume. -/
theorem freshState_touched : ∃ k i b t, doTouch 100 memA freshState = .ok (i, memA, t) ∧
    Created freshState.disk t.disk 0 k i b iFile memA 100 1 ∧ currentId t = 0 ∧
    Filed t.disk := by
  obtain ⟨t₀, ht₀⟩ := freshState_formatted
  have hcwd : currentId freshState = 0 := ht₀.cwd
  obtain ⟨k, i, b, t, hrun, hmade, hext⟩ := freshState_created (show iFile < 2 ^ 32 by decide)
  have hcur := hext.cwd
  rw [hcwd] at hmade
  have hroot : IsDir freshState.disk 0 := by
    rw [← hcwd]
    exact freshState_vacant.cwd
  have htree : Tree t.disk := freshState_filed.tree.made hroot hmade.toMade (Or.inr rfl)
  refine ⟨k, i, b, t, hrun, hmade, ?_, htree, fun j hj => ?_, ?_⟩
  · unfold currentId at hcwd ⊢
    rw [hcur]
    exact hcwd
  · rw [hmade.imap_eq j hj]
    by_cases hji : j = i
    · rw [if_pos hji]
      exact Or.inr rfl
    · rw [if_neg hji]
      exact freshState_filed.mapped j hj
  · intro q hq l m hl hm hne hsame
    have hold : q = 0 := by
      rcases hmade.dir_cases hq with ⟨_, hcon⟩ | ⟨_, hq'⟩
      · exact absurd hcon (by decide)
      · rw [ht₀.disk] at hq'
        exact formatted_used hq'.1
    subst hold
    have hslots : ∀ j, LiveEntry t.disk 0 j → j = k ∨ ((j = 0 ∨ j = 1) ∧ entType t.disk 0 j = iDir) := by
      intro j hj
      have hins := (hmade.slotEdit freshState_filed.tree.volume hroot).liveSlots_insert hroot
        (k := k) ⟨hmade.entry.slot, by
          change dentryType (dirBlock t.disk 0) k ≠ 0
          rw [hmade.entry.entryType]
          decide⟩
      have hmem := mem_liveSlots.mpr hj
      rw [hins, ht₀.disk, liveSlots_formatted, Finset.mem_insert, Finset.mem_insert,
        Finset.mem_singleton] at hmem
      rcases hmem with heq | rfl | rfl
      · exact Or.inl heq
      · exact Or.inr ⟨Or.inl rfl, (htree.dots 0 hq).dotType⟩
      · exact Or.inr ⟨Or.inr rfl, (htree.dots 0 hq).dotdotType⟩
    have hnew : entType t.disk 0 k = iFile := hmade.entry.entryType
    obtain ⟨r, hr⟩ := hsame
    rcases hslots l hl with rfl | ⟨hl, hlt⟩ <;> rcases hslots m hm with rfl | ⟨hm, hmt⟩
    · exact absurd rfl hne
    · rw [hnew, hmt]
      rfl
    · rw [hlt, hnew]
      rfl
    · have hdots := htree.dots 0 hq
      rcases hl with rfl | rfl <;> rcases hm with rfl | rfl
      · exact absurd rfl hne
      · exact absurd hr (hdots.distinct r)
      · exact absurd hr.symm (hdots.distinct r)
      · exact absurd rfl hne

/-- Its entry is removed exactly. -/
theorem rm_exact_touched :
    ∃ t k, Filed t.disk ∧ Hit (dirBlock t.disk (currentId t)) memA 100 1 iFile k ∧
      RmExact t 100 memA k := by
  obtain ⟨k, i, b, t, _, hmade, hcwd, hfiled⟩ := freshState_touched
  have hp : IsDir t.disk (currentId t) := by
    rw [hcwd]
    exact hfiled.tree.volume.root
  have hit : Hit (dirBlock t.disk (currentId t)) memA 100 1 iFile k := by
    rw [hcwd]
    refine ⟨by rw [hmade.entry.entryType]; decide, fun m hm => ?_⟩
    rw [hmade.name_eq m (by unfold dName; omega)]
    have hcases : m = 0 ∨ m = 1 := by omega
    rcases hcases with rfl | rfl <;> rfl
  refine ⟨t, k, hfiled, hit, (rm_exact hfiled hp memA_oneName.component hmade.entry.slot hit).mpr
    ⟨fun j hj => ?_, fun hwrong => ?_⟩⟩
  · rw [hcwd]
    have hroot : IsDir freshState.disk 0 := by
      have hcur := freshState_vacant.cwd
      obtain ⟨t₀, ht₀⟩ := freshState_formatted
      rw [show currentId freshState = 0 from ht₀.cwd] at hcur
      exact hcur
    rw [show entId t.disk 0 k = i from hmade.entry.entryId]
    exact Created.first freshState_consistent hroot hmade hj
  · rw [hcwd, show entId t.disk 0 k = i from hmade.entry.entryId] at hwrong
    exact hwrong.2 hmade.newType

/-- What a sequence of calls makes of a fresh volume. -/
def afterCalls (cs : List Call) : State := ((run exec cs freshState).toOption).getD freshState

theorem run_afterCalls {cs : List Call} (h : (run exec cs freshState).isOk = true) :
    run exec cs freshState = .ok (afterCalls cs) := by
  unfold afterCalls
  cases hrun : run exec cs freshState with
  | ok t => rfl
  | error e =>
      rw [hrun] at h
      cases h

/-- With a second name `b` for the file, removing `b` removes `a`. -/
theorem rm_takes_other_name :
    run exec twoNames freshState = .ok (afterCalls twoNames) ∧
      (∀ m ≤ 1, dirBlock (afterCalls twoNames).disk 0 (dentryName 3 + m) = memPaths (110 + m)) ∧
      ¬RmExact (afterCalls twoNames) 110 memPaths 3 := by
  have hrm : returns (fun r => LiveEntry r.2.2.disk 0 3) (doRm 110 memPaths (afterCalls twoNames)) =
      true := by decide +kernel
  have hcwd : currentId (afterCalls twoNames) = 0 := by decide +kernel
  refine ⟨run_afterCalls (by decide +kernel), by decide +kernel, ?_⟩
  rintro ⟨r, hret, hrem⟩
  obtain ⟨r', hret', hlive⟩ := exists_of_returns hrm
  rw [hret] at hret'
  cases hret'
  have hgone := hrem.gone
  rw [hcwd] at hgone
  exact hgone hlive

end Fs
