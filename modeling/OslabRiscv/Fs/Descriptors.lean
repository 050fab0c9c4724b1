import OslabRiscv.Fs.Links

/-!
# Open descriptors

The removing calls do not look at the descriptors, and the calls on descriptors
do not look at the inode map.  A descriptor names a file as long as no file is
removed that is open, and the disk is not formatted over open files.

The runs here are of the calls on files of one directory: without `do_mkdir` and
`do_ln` the root is the only directory, and every file has one name.
-/

namespace Fs

open ByteStore Outcome

/-- The root is the only directory, its entries are of directories and files, and
every file has one name. -/
structure Plain (d : Store) : Prop where
  onlyRoot : ∀ j, IsDir d j → j = 0
  noLink : ∀ k, LiveEntry d 0 k → entType d 0 k = iDir ∨ entType d 0 k = iFile
  single : ∀ x, IsFile d x → ino d x inoLinksCount = 1

section Plain

variable {d d' : Store} {p k x i b : Nat}

/-- A plain volume stays plain while directories and link counts stay. -/
theorem Plain.frame (h : Plain d) (hV : Volume d) (hs : SameInodes d d')
    (hblk : ∀ j, IsDir d j → ∀ y, y < 4096 → dirBlock d' j y = dirBlock d j y)
    (hlinks : ∀ j, IsFile d j → ino d' j inoLinksCount = ino d j inoLinksCount) : Plain d' where
  onlyRoot j hj := h.onlyRoot j ((hs.dir j).mp hj)
  noLink l hl := by
    have hty : entType d' 0 l = entType d 0 l := dentryType_congr (hblk 0 hV.root) hl.1
    rw [hty]
    exact h.noLink l ⟨hl.1, by rw [← hty]; exact hl.2⟩
  single y hy := by
    have hy' := (hs.file y).mp hy
    rw [hlinks y hy']
    exact h.single y hy'

/-- Opening a file keeps the volume plain. -/
theorem Plain.opened (h : Plain d) (hV : Volume d) (ho : Opened d d' x) : Plain d' := by
  refine h.frame hV (ho.quiet hV).sameInodes ?_ ?_
  · intro j hj y hy
    unfold dirBlock
    rw [ho.ino_eq j _ hj.1.1 (by decide) (Or.inr (Or.inr (by decide))), ho.blk_eq _ y hy]
  · intro j hj
    exact ho.ino_eq j _ hj.1.1 (by decide) (Or.inr (Or.inr (by decide)))

/-- So does work on a file. -/
theorem Plain.touched (h : Plain d) (hV : Volume d) (hi : IsFile d i) (ht : Touched i d d') :
    Plain d' := by
  refine h.frame hV ⟨fun _ => ht.inodeUsed, fun _ => ht.isDir, fun _ => ht.isFile⟩
    (fun j hj y hy => ht.dirBlock_eq hV hi hj hy) ?_
  intro j hj
  exact ht.ino j _ hj.1.1 (by decide) (Or.inr (Or.inr (Or.inl (by decide))))

/-- So does making a file in the root. -/
theorem Plain.made (h : Plain d) (hV : Volume d) (hp : IsDir d p)
    (hm : Made d d' p k i b iFile) : Plain d' := by
  have hp0 := h.onlyRoot p hp
  subst hp0
  have he := hm.slotEdit hV hp
  refine ⟨fun j hj => ?_, fun l hl => ?_, fun y hy => ?_⟩
  · rcases hm.dir_cases hj with ⟨_, hcon⟩ | ⟨_, hj'⟩
    · exact absurd hcon (by decide)
    · exact h.onlyRoot j hj'
  · by_cases hlk : l = k
    · rw [hlk]
      exact Or.inr hm.entry.entryType
    · rw [(he.ent hp hl.1 fun _ => hlk).1]
      exact h.noLink l ((he.live hp fun _ => hlk).mp hl)
  · by_cases hyi : y = i
    · rw [hyi]
      exact hm.linksCount
    · have hy' := (hm.isFile hyi).mp hy
      rw [hm.ino_eq y _ hy.1.1 (by decide) hyi (Or.inl ?_)]
      · exact h.single y hy'
      · intro hy0
        exact not_isDir_of_isFile hy' (hy0 ▸ hp)

/-- So does removing one. -/
theorem Plain.removed (h : Plain d) (hV : Volume d) (hp : IsDir d p) (hx : IsFile d x)
    (hr : Removed d d' p k x (ino d x inoDirectBlock)) : Plain d' := by
  have hp0 := h.onlyRoot p hp
  subst hp0
  have hpx : 0 ≠ x := fun heq => not_isDir_of_isFile hx (heq ▸ hp)
  have he := hr.slotEdit hV hp hx.1 hpx
  refine ⟨fun j hj => h.onlyRoot j (hr.isDir.mp hj).1, fun l hl => ?_, fun y hy => ?_⟩
  · have hlk : l ≠ k := by
      intro heq
      rw [heq] at hl
      exact hl.2 (hr.entry hpx).entryType
    rw [(he.ent ⟨hp, hpx⟩ hl.1 fun _ => hlk).1]
    exact h.noLink l ((he.live ⟨hp, hpx⟩ fun _ => hlk).mp hl)
  · obtain ⟨hy', hyx⟩ := hr.isFile.mp hy
    rw [hr.ino_eq y _ hy.1.1 (by decide) hyx (Or.inl ?_)]
    · exact h.single y hy'
    · intro hy0
      exact not_isDir_of_isFile hy' (hy0 ▸ hp)

/-- A formatted volume is plain. -/
theorem formatted_plain (s : State) : Plain (formatted s) where
  onlyRoot _ hj := formatted_used hj.1
  noLink l hl := by
    have hnz := hl.2
    rw [entType_formatted hl.1] at hnz ⊢
    split_ifs at hnz ⊢
    · exact Or.inl rfl
    · exact absurd rfl hnz
  single y hy := by
    have h0 := formatted_used hy.1
    rw [h0] at hy
    exact absurd formatted_root (not_isDir_of_isFile hy)

/-- A search for a directory in the root finds the root. -/
theorem Plain.search {s : State} (h : Plain s.disk) (hN : Named s.disk) {name id : Nat}
    {mem : Store} {t : State} (hrun : searchDentry 0 name iDir mem s = .ok (id, t)) :
    (id = minusOne ∨ id = 0) ∧ t.disk = s.disk ∧ t.currentInode = s.currentInode := by
  have hroot := hN.volume.root
  obtain ⟨hhit, hdisk, hext⟩ :=
    (searchDentry_spec hroot.1.1 (hN.volume.dirsInRange 0 hroot)).of_ok hrun
  refine ⟨?_, hdisk, hext.cwd⟩
  rcases hhit with hnone | ⟨l, hit, hid⟩
  · exact Or.inl hnone
  · right
    have hbits := hit.bits
    change entType s.disk 0 l &&& iDir ≠ 0 at hbits
    have hlive : LiveEntry s.disk 0 l := by
      refine ⟨hit.lt, fun hz => hbits ?_⟩
      rw [hz]
      exact Nat.zero_and _
    have hty : entType s.disk 0 l = iDir := by
      rcases h.noLink l hlive with hty | hty
      · exact hty
      · rw [hty] at hbits
        exact absurd (by decide) hbits
    exact hid.symm.trans (h.onlyRoot _ (hN.dir 0 l hroot hlive hty))

/-- On a plain volume every path stays in the root, by induction on the rounds. -/
theorem Plain.walkVisits {s : State} (h : Plain s.disk) (hN : Named s.disk)
    (fuel dir subdir : Nat) (mem : Store) :
    ∀ j ∈ walkVisits fuel 0 dir subdir mem s, j = 0 := by
  induction fuel generalizing dir subdir mem s with
  | zero =>
      intro j hj
      cases hj
  | succ fuel ih =>
      intro j hj
      unfold Fs.walkVisits at hj
      rcases List.mem_cons.mp hj with hj | hj
      · exact hj
      by_cases hmore : subdir ≠ 0 ∧ mem subdir ≠ 0
      · rw [if_pos hmore] at hj
        cases hs : searchDentry 0 dir iDir mem s with
        | error e =>
            simp only [hs] at hj
            cases hj
        | ok r =>
            obtain ⟨id, t⟩ := r
            obtain ⟨hid, hdisk, _⟩ := h.search hN hs
            cases hg : getDir mem subdir with
            | error e =>
                simp only [hs, hg] at hj
                cases hj
            | ok q =>
                simp only [hs, hg] at hj
                by_cases hnone : id = minusOne
                · rw [if_pos hnone] at hj
                  cases hj
                · rw [if_neg hnone, hid.resolve_left hnone] at hj
                  exact ih (by rw [hdisk]; exact h) (by rw [hdisk]; exact hN) _ _ _ j hj
      · rw [if_neg hmore] at hj
        cases hj

/-- Every path stays in the root. -/
theorem Plain.visits {s : State} (h : Plain s.disk) (hN : Named s.disk) (hcwd : currentId s = 0)
    (path : Nat) (mem : Store) : ∀ j ∈ visits path mem s, IsDir s.disk j := by
  intro j hj
  unfold Fs.visits at hj
  cases hg : getDir mem path with
  | error e =>
      simp only [hg] at hj
      cases hj
  | ok q =>
      simp only [hg, hcwd] at hj
      split_ifs at hj
      · cases hj
      · rw [h.walkVisits hN _ _ _ _ j hj]
        exact hN.volume.root

/-- What a search for a file leads to is a file. -/
theorem Named.removeTarget_file {s : State} (h : Named s.disk) {path p dir x : Nat}
    {mem mem' : Store} (hv : ∀ j ∈ Fs.visits path mem s, IsDir s.disk j)
    (ht : removeTarget iFile path mem s = some (p, dir, mem', x)) : IsFile s.disk x := by
  unfold removeTarget at ht
  cases hw : walk path mem s with
  | error e =>
      rw [hw] at ht
      cases ht
  | ok r =>
      obtain ⟨target, mem₁, t⟩ := r
      obtain ⟨hdisk, _, htarget⟩ := (walk_spec h.volume.dirsInRange hv).of_ok hw
      cases target with
      | none =>
          rw [hw] at ht
          cases ht
      | some q =>
          obtain ⟨p₁, dir₁⟩ := q
          obtain ⟨hp, _⟩ := htarget p₁ dir₁ rfl
          simp only at hdisk
          have hpt : IsDir t.disk p₁ := by
            rw [hdisk]
            exact hp
          rw [hw] at ht
          simp only at ht
          cases hsearch : searchDentry p₁ dir₁ iFile mem₁ t with
          | error e =>
              rw [hsearch] at ht
              cases ht
          | ok w =>
              obtain ⟨y, u⟩ := w
              obtain ⟨hhit, _⟩ := (searchDentry_spec hp.1.1
                (h.volume.dirsInRange.mono hdisk p₁ hpt)).of_ok hsearch
              rw [hsearch] at ht
              simp only at ht hhit
              by_cases hnone : y = minusOne
              · rw [if_pos hnone] at ht
                cases ht
              · rw [if_neg hnone] at ht
                cases ht
                obtain ⟨l, hit, hid⟩ := hhit.resolve_left hnone
                rw [hdisk] at hit hid
                rw [← hid]
                exact (h.hit hp hit).2

/-- `do_rmdir` can only find the root. -/
theorem Plain.removedInode {s : State} (h : Plain s.disk) (hN : Named s.disk)
    (hcwd : currentId s = 0) {path x : Nat} {mem : Store}
    (hx : Fs.removedInode iDir path mem s = some x) : x = 0 := by
  obtain ⟨p, dir, mem', ht, _⟩ := removedInode_eq_some.mp hx
  have hv := h.visits hN hcwd path mem
  unfold removeTarget at ht
  cases hw : walk path mem s with
  | error e =>
      rw [hw] at ht
      cases ht
  | ok r =>
      obtain ⟨target, mem₁, t⟩ := r
      obtain ⟨hdisk, _, htarget⟩ := (walk_spec hN.volume.dirsInRange hv).of_ok hw
      cases target with
      | none =>
          rw [hw] at ht
          cases ht
      | some q =>
          obtain ⟨p₁, dir₁⟩ := q
          obtain ⟨hp, _⟩ := htarget p₁ dir₁ rfl
          simp only at hdisk
          have hp0 := h.onlyRoot p₁ hp
          subst hp0
          rw [hw] at ht
          simp only at ht
          cases hsearch : searchDentry 0 dir₁ iDir mem₁ t with
          | error e =>
              rw [hsearch] at ht
              cases ht
          | ok w =>
              obtain ⟨y, u⟩ := w
              obtain ⟨hy, _⟩ := Plain.search (s := t) (by rw [hdisk]; exact h)
                (by rw [hdisk]; exact hN) hsearch
              rw [hsearch] at ht
              simp only at ht
              by_cases hnone : y = minusOne
              · rw [if_pos hnone] at ht
                cases ht
              · rw [if_neg hnone] at ht
                cases ht
                exact hy.resolve_left hnone

end Plain

/-! ## Runs -/

/-- What keeps the descriptors: a new file is made under a legal name, no open file
is removed, the root is kept, and the disk is formatted with no file open. -/
def DescCallOk (s : State) : Call → Prop
  | .fopen path _ _ mem => fopenRefused path mem s = false ∧ fopenLost path mem s = false
  | .fread _ _ _ | .fwrite _ _ _ | .lseek _ _ _ _ | .fclose _ => True
  | .rm path mem => ∀ x ∈ removedInode iFile path mem s, ∀ fd, fd < numFdescs →
      (s.fdescArray fd).status ≠ fAvailable → (s.fdescArray fd).inodeId ≠ x
  | .rmdir path mem => KeepsRoot iDir path mem s
  | .mkfs _ => ∀ fd, fd < numFdescs → (s.fdescArray fd).status = fAvailable
  | .statfs | .cd _ _ | .mkdir _ _ | .ls _ _ _ | .touch _ _ | .cat _ _ | .ln _ _ _ => False

instance (s : State) (c : Call) : Decidable (DescCallOk s c) :=
  match c with
  | .fopen path _ _ mem =>
    (inferInstance : Decidable (fopenRefused path mem s = false ∧ fopenLost path mem s = false))
  | .fread _ _ _ | .fwrite _ _ _ | .lseek _ _ _ _ | .fclose _ => instDecidableTrue
  | .rm path mem =>
    (inferInstance : Decidable (∀ x ∈ removedInode iFile path mem s, ∀ fd, fd < numFdescs →
      (s.fdescArray fd).status ≠ fAvailable → (s.fdescArray fd).inodeId ≠ x))
  | .rmdir path mem => (inferInstance : Decidable (KeepsRoot iDir path mem s))
  | .mkfs _ =>
    (inferInstance : Decidable (∀ fd, fd < numFdescs → (s.fdescArray fd).status = fAvailable))
  | .statfs | .cd _ _ | .mkdir _ _ | .ls _ _ _ | .touch _ _ | .cat _ _ | .ln _ _ _ =>
    instDecidableFalse

/-- Every descriptor in use names a file. -/
def FilesOpen (s : State) : Prop :=
  ∀ fd, fd < numFdescs → (s.fdescArray fd).status ≠ fAvailable →
    IsFile s.disk (s.fdescArray fd).inodeId

/-- The invariant of a run. -/
structure Tied (s : State) : Prop where
  sound : Sound s
  named : Named s.disk
  plain : Plain s.disk
  cwd : currentId s = 0
  files : FilesOpen s

section Runs

variable {s s' : State}

/-- The file of a descriptor in use is there. -/
theorem Tied.descOk (hs : Tied s) (fd : Int) : DescOk s fd := by
  intro h0 hlt hst
  exact hs.files fd.toNat (by omega) hst

/-- Under the invariant the calls meet what the link counts ask of them. -/
theorem Tied.linkOk (hs : Tied s) {c : Call} (hok : DescCallOk s c) : LinkOk s c := by
  have hv := hs.plain.visits hs.named hs.cwd
  have hroot := hs.named.volume.root
  cases c with
  | mkfs reset => exact ⟨trivial, trivial⟩
  | fopen path mode pid mem =>
      refine ⟨⟨fun j hj => ?_, hok.1⟩, trivial⟩
      unfold fopenVisits at hj
      rw [hs.cwd] at hj
      rcases List.mem_cons.mp hj with hj | hj
      · rw [hj]
        exact hroot
      · cases hsearch : searchDentry 0 path iFile mem s with
        | error e =>
            simp only [hsearch] at hj
            cases hj
        | ok r =>
            obtain ⟨x, t⟩ := r
            obtain ⟨_, hdisk, hext⟩ := (searchDentry_spec hroot.1.1
              (hs.named.volume.dirsInRange 0 hroot)).of_ok hsearch
            simp only at hdisk hext
            simp only [hsearch] at hj
            split_ifs at hj
            · have hcwd : currentId t = 0 := by
                unfold currentId
                rw [hext.cwd]
                exact hs.cwd
              have := Plain.visits (s := t) (by rw [hdisk]; exact hs.plain)
                (by rw [hdisk]; exact hs.named) hcwd path mem j hj
              rw [hdisk] at this
              exact this
            · cases hj
  | fread fd buff length => exact ⟨hs.descOk fd, trivial⟩
  | fwrite fd buff length => exact ⟨hs.descOk fd, trivial⟩
  | lseek fd offset whence junk => exact ⟨hs.descOk fd, trivial⟩
  | fclose fd => exact ⟨trivial, trivial⟩
  | rm path mem =>
      refine ⟨hv path mem, fun r hr => ?_⟩
      obtain ⟨p, dir, mem', x⟩ := r
      exact hs.plain.single x (hs.named.removeTarget_file (hv path mem) hr)
  | rmdir path mem =>
      refine ⟨⟨hv path mem, hok⟩, ?_⟩
      change Fs.removedInode iDir path mem s = none
      cases hx : Fs.removedInode iDir path mem s with
      | none => rfl
      | some x =>
          rw [hs.plain.removedInode hs.named hs.cwd hx] at hx
          exact absurd hx hok
  | _ => exact hok.elim

/-- Work through a descriptor keeps the volume plain. -/
theorem FileStep.plain (h : Plain s.disk) (hV : Volume s.disk) (hst : FileStep s s') :
    Plain s'.disk := by
  rcases hst with hst | ⟨fd, f, hfile, hst⟩
  · rw [hst.1]
    exact h
  · exact h.touched hV hfile hst.touched

/-- The root stays alone, with one name for each file. -/
theorem exec_plain (hs : Tied s) {c : Call} (hok : DescCallOk s c) :
    Holds AnyHalt (fun s' => Plain s'.disk) (exec c s) := by
  have hV := hs.named.volume
  have hlink := hs.linkOk hok
  cases c with
  | mkfs reset =>
      obtain ⟨u, hrun, hcase⟩ := doMkfs_spec reset s
      refine ended'_holds ?_
      rw [hrun]
      change Plain u.disk
      rcases hcase with ⟨_, hd, _⟩ | ⟨t, _, hf⟩
      · rw [hd]
        exact hs.plain
      · rw [hf.disk]
        exact formatted_plain t
  | fopen path mode pid mem =>
      refine ended_holds ((doFopen_opens hV hlink.1.1 hlink.1.2).mono fun r hr => ?_)
      obtain ⟨d, x, hsource, hopen⟩ := hr
      have hfirst : Plain d ∧ Volume d := by
        cases hsource with
        | found hd _ _ => exact ⟨by rw [hd]; exact hs.plain, by rw [hd]; exact hV⟩
        | made hp hm => exact ⟨hs.plain.made hV hp hm, hV.made hp hm (Or.inr rfl)⟩
        | lost hd _ => exact ⟨by rw [hd]; exact hs.plain, by rw [hd]; exact hV⟩
      rcases hopen with ⟨hd, _⟩ | ⟨fd, m, _, _, _, hop, _⟩
      · rw [hd]
        exact hfirst.1
      · exact hfirst.1.opened hfirst.2 hop
  | fread fd buff length =>
      exact ended_holds ((doFread_fileStep hs.sound hlink.1 buff length).mono fun _ h =>
        h.plain hs.plain hV)
  | fwrite fd buff length =>
      exact ended'_holds ((doFwrite_fileStep hs.sound hlink.1 buff length).mono fun _ h =>
        h.plain hs.plain hV)
  | lseek fd offset whence junk =>
      exact ended'_holds ((doLseek_fileStep hs.sound hlink.1 offset whence junk).mono fun _ h =>
        h.plain hs.plain hV)
  | fclose fd =>
      refine ended'_holds ?_
      unfold doFclose
      rcases fdescAt_cases fd with ⟨k, hk, hfd⟩ | herr
      · subst hfd
        rw [fdescAt_ofNat hk]
        exact hs.plain
      · rw [herr]
        exact trivial
  | rm path mem =>
      refine ended_holds ((removePath_spec hV hlink.1).mono fun r hr => ?_)
      obtain ⟨_, ⟨hd, _⟩ | ⟨p, dir, mem', x, k, hend⟩⟩ := hr
      · rw [hd]
        exact hs.plain
      · rcases hend.effect with ⟨hnot, _⟩ | ⟨_, hused, hty, hrem⟩
        · have hone := hlink.2 _ hend.target
          exact absurd ⟨hone, fun hcon => absurd hcon (by decide)⟩ hnot
        · exact hs.plain.removed hV hend.parent ⟨hused, hty⟩ hrem
  | rmdir path mem =>
      refine ended_holds ((removePath_spec hV hlink.1.1).mono fun r hr => ?_)
      obtain ⟨_, ⟨hd, _⟩ | ⟨p, dir, mem', x, k, hend⟩⟩ := hr
      · rw [hd]
        exact hs.plain
      · rcases hend.effect with ⟨_, hcon, _⟩ | ⟨hlast, _⟩
        · exact absurd rfl hcon
        · have := removedInode_eq_some.mpr ⟨p, dir, mem', hend.target, hlast⟩
          rw [hlink.2] at this
          cases this
  | _ => exact hok.elim

/-- Descriptors that stay as they are keep their files. -/
theorem FilesOpen.keep (hfd : s'.fdescArray = s.fdescArray)
    (hfile : ∀ fd, fd < numFdescs → (s.fdescArray fd).status ≠ fAvailable →
      IsFile s'.disk (s.fdescArray fd).inodeId) : FilesOpen s' := by
  intro fd hlt hst
  rw [hfd] at hst ⊢
  exact hfile fd hlt hst

/-- One descriptor is set, the others keep their files. -/
theorem FilesOpen.set {t : State} {k : Nat} {f : Fdesc} (hext : Extends (setFdesc k f t) s')
    (hf : f.status ≠ fAvailable → IsFile s'.disk f.inodeId)
    (hfile : ∀ fd, fd < numFdescs → fd ≠ k → (t.fdescArray fd).status ≠ fAvailable →
      IsFile s'.disk (t.fdescArray fd).inodeId) : FilesOpen s' := by
  intro fd hlt hst
  rw [hext.fdesc] at hst ⊢
  by_cases hk : fd = k
  · subst hk
    rw [setFdesc_fdescArray_self] at hst ⊢
    exact hf hst
  · rw [setFdesc_fdescArray_of_ne _ _ hk] at hst ⊢
    exact hfile fd hlt hk hst

/-- Work through a descriptor keeps the files open. -/
theorem DescStep.filesOpen {fd : Int} (h : FilesOpen s) (hst : DescStep s fd s') :
    FilesOpen s' := by
  rcases hst with hst | ⟨k, _, _, hav, hfile, hst⟩
  · refine FilesOpen.keep hst.2.fdesc fun i hi hs => ?_
    rw [hst.1]
    exact h i hi hs
  · obtain ⟨g, hid, hstat, _, hext⟩ := hst.fdesc
    refine FilesOpen.set hext (fun _ => ?_) fun i hi _ hs => ?_
    · rw [hid]
      exact hst.touched.isFile.mpr hfile
    · exact hst.touched.isFile.mpr (h i hi hs)

/-- `do_fopen` takes a descriptor for a file. -/
theorem doFopen_filesOpen (hs : Tied s) {path mode pid : Nat} {mem : Store}
    (hok : DescCallOk s (.fopen path mode pid mem)) :
    Holds AnyHalt (fun r => FilesOpen r.2.2) (doFopen path mode pid mem s) := by
  have hV := hs.named.volume
  have hlink := hs.linkOk hok
  refine (doFopen_opens hV hlink.1.1 hlink.1.2).mono fun r hr => ?_
  obtain ⟨d, x, hsource, hopen⟩ := hr
  have hfile : IsFile d x ∧ (∀ y, IsFile s.disk y → IsFile d y) ∧ Volume d := by
    cases hsource with
    | found hd hit hid =>
        rw [hs.cwd] at hit hid
        have := (hs.named.hit hV.root hit).2
        change entId s.disk 0 _ = x at hid
        rw [hid] at this
        rw [hd]
        exact ⟨this, fun _ hy => hy, hV⟩
    | made hp hm =>
        refine ⟨⟨hm.new_used, hm.newType⟩, fun y hy => ?_, hV.made hp hm (Or.inr rfl)⟩
        exact (hm.isFile (hm.ne_of_used hy.1)).mpr hy
    | lost _ hlost =>
        rw [hok.2] at hlost
        cases hlost
  obtain ⟨hx, hold, hVd⟩ := hfile
  rcases hopen with ⟨hd, hext⟩ | ⟨fd, m, _, _, _, hop, hext⟩
  · refine FilesOpen.keep hext.fdesc fun i hi hst => ?_
    rw [hd]
    exact hold _ (hs.files i hi hst)
  · have hq := hop.quiet hVd
    refine FilesOpen.set hext (fun _ => hq.isFile.mpr hx) fun i hi _ hst => ?_
    exact hq.isFile.mpr (hold _ (hs.files i hi hst))

/-- A removal leaves open files alone. -/
theorem removePath_filesOpen (hs : Tied s) {type path : Nat} {mem : Store} {c : Call}
    (hv : ∀ j ∈ visits path mem s, IsDir s.disk j)
    (hc : removes s c = removedInode type path mem s)
    (hrm : ∀ path mem, c = .rm path mem → type = iFile)
    (hopen : ∀ x ∈ removedInode type path mem s, ∀ fd, fd < numFdescs →
      (s.fdescArray fd).status ≠ fAvailable → (s.fdescArray fd).inodeId ≠ x) :
    Holds AnyHalt (fun r => FilesOpen r.2.2) (removePath type path mem s) := by
  have hcar := removePath_carried (c := c) hs.sound hv hc hrm
  have hext : Holds AnyHalt (fun r => Extends s r.2.2 ∧
      ((r.2.2.disk = s.disk ∧ (type ≠ iDir → removeTarget type path mem s = none)) ∨
        ∃ p dir mem' x k, RemoveEnd type path mem s r.2.2.disk p dir mem' x k))
      (removePath type path mem s) := removePath_spec hs.sound.volume hv
  revert hcar hext
  cases removePath type path mem s with
  | error e => exact fun _ _ => trivial
  | ok r =>
      intro hcar hext
      refine FilesOpen.keep hext.1.fdesc fun i hi hst => ?_
      refine hcar.steady.file _ (hs.files i hi hst) fun htakes => ?_
      have hrem := htakes.1
      rw [hc] at hrem
      exact hopen _ hrem i hi hst rfl

/-- So does every call that is fit for it. -/
theorem exec_filesOpen (hs : Tied s) {c : Call} (hok : DescCallOk s c) :
    Holds AnyHalt FilesOpen (exec c s) := by
  have hlink := hs.linkOk hok
  cases c with
  | mkfs reset =>
      obtain ⟨u, hrun, hcase⟩ := doMkfs_spec reset s
      refine ended'_holds ?_
      rw [hrun]
      have hfd : u.fdescArray = s.fdescArray := by
        rcases hcase with ⟨_, _, hext⟩ | ⟨t, hext, hf⟩
        · exact hext.fdesc
        · obtain ⟨c, hext'⟩ := hf.ext
          exact hext'.fdesc.trans hext.fdesc
      refine FilesOpen.keep (s := s) hfd fun i hi hst => ?_
      exact absurd (hok i hi) hst
  | fopen path mode pid mem => exact ended_holds (doFopen_filesOpen hs hok)
  | fread fd buff length =>
      exact ended_holds ((doFread_descStep hs.sound hlink.1 buff length).mono fun _ h =>
        h.filesOpen hs.files)
  | fwrite fd buff length =>
      exact ended'_holds ((doFwrite_descStep hs.sound hlink.1 buff length).mono fun _ h =>
        h.filesOpen hs.files)
  | lseek fd offset whence junk =>
      exact ended'_holds ((doLseek_descStep hs.sound hlink.1 offset whence junk).mono fun _ h =>
        h.filesOpen hs.files)
  | fclose fd =>
      refine ended'_holds ?_
      unfold doFclose
      rcases fdescAt_cases fd with ⟨k, hk, hfd⟩ | herr
      · subst hfd
        rw [fdescAt_ofNat hk]
        refine FilesOpen.set (.refl _) (fun hst => absurd rfl hst) fun i hi _ hst => ?_
        exact hs.files i hi hst
      · rw [herr]
        exact trivial
  | rm path mem =>
      exact ended_holds (removePath_filesOpen (c := .rm path mem) hs hlink.1 rfl (by simp) hok)
  | rmdir path mem =>
      refine ended_holds (removePath_filesOpen (c := .rmdir path mem) hs hlink.1.1 rfl (by simp) ?_)
      intro x hx
      have hnone : removedInode iDir path mem s = none := hlink.2
      rw [hnone] at hx
      cases hx
  | _ => exact hok.elim

/-- The step lemma of the invariant. -/
theorem exec_tied {c : Call} (hs : Tied s) (hok : DescCallOk s c) (h : exec c s = .ok s') :
    Tied s' := by
  have hlink := hs.linkOk hok
  refine ⟨exec_sound hs.sound hlink.1 h, (exec_named hs.sound hs.named hlink).of_ok h,
    (exec_plain hs hok).of_ok h, ?_, (exec_filesOpen hs hok).of_ok h⟩
  by_cases hmkfs : ∃ reset, c = .mkfs reset
  · obtain ⟨reset, hc⟩ := hmkfs
    subst hc
    obtain ⟨u, hrun, hcase⟩ := doMkfs_spec reset s
    change ended' (doMkfs reset s) = _ at h
    rw [hrun] at h
    cases h
    rcases hcase with ⟨_, _, hext⟩ | ⟨t, _, hf⟩
    · unfold currentId
      rw [hext.cwd]
      exact hs.cwd
    · exact hf.cwd
  · have hcar := (exec_carried hs.sound hlink.1 fun reset hc => hmkfs ⟨reset, hc⟩).of_ok h
    unfold currentId
    rw [hcar.cwd]
    · exact hs.cwd
    · intro path mem hc
      subst hc
      exact hok

/-- The call works on a file through a descriptor. -/
def Call.descriptor : Call → Option Int
  | .fread fd _ _ => some fd
  | .fwrite fd _ _ => some fd
  | .lseek fd _ _ _ => some fd
  | _ => none

/-- A call through a descriptor works on the file that it names. -/
theorem exec_descStep {c : Call} {fd : Int} (hs : Tied s) (hc : c.descriptor = some fd) :
    Holds AnyHalt (DescStep s fd) (exec c s) := by
  cases c with
  | fread fd' buff length =>
      cases hc
      exact ended_holds (doFread_descStep hs.sound (hs.descOk fd) buff length)
  | fwrite fd' buff length =>
      cases hc
      exact ended'_holds (doFwrite_descStep hs.sound (hs.descOk fd) buff length)
  | lseek fd' offset whence junk =>
      cases hc
      exact ended'_holds (doLseek_descStep hs.sound (hs.descOk fd) offset whence junk)
  | _ => cases hc

/-- A file that is worked on leaves the sectors of other inodes alone. -/
theorem Touched.inodeSectors {i : Nat} {d d' : Store} (h : Touched i d d') {a : Nat}
    (hlo : inoAddr 0 ≤ a) (hhi : a < inoAddr 512) (hne : a / 512 ≠ inodeSector (i / 4))
    (hi : i < 512) : d' a = d a := by
  have hsector : inodeSector (i / 4) = 16642 + i / 4 := by
    unfold inodeSector fsStart inodeBlockOffset
    omega
  unfold inoAddr at hlo hhi
  -- byte `o` of inode `j`, read as part of a word inside the inode
  obtain ⟨j, o, hj, ho, ha⟩ : ∃ j o, j < 512 ∧ o < 128 ∧ a = inoAddr j + o :=
    ⟨(a - 8520704) / 128, (a - 8520704) % 128, by omega, by omega, by unfold inoAddr; omega⟩
  have hji : j ≠ i := by
    intro heq
    rw [hsector] at hne
    unfold inoAddr at ha
    omega
  obtain ⟨f, m, hf, hm, hfm⟩ : ∃ f m, f + 4 ≤ 128 ∧ m < 4 ∧ o = f + m := by
    by_cases h124 : o < 124
    · exact ⟨o, 0, by omega, by omega, by omega⟩
    · exact ⟨124, o - 124, by omega, by omega, by omega⟩
  have hword : rd32 d' (inoAddr j + f) = rd32 d (inoAddr j + f) := h.ino j f hj hf (Or.inl hji)
  have hbyte := byte_eq_of_rd32 hword hm
  rw [ha, hfm, ← Nat.add_assoc]
  exact hbyte

end Runs

/-- **Open descriptors name files.**  From a freshly formatted disk with all
descriptors closed, as long as every call meets its conditions, every descriptor in
use names a file in use in every state reached; and a call on a descriptor changes
no inode sector but that of its own file. -/
theorem descriptors_name_files {s₀ s t : State} {cs : List Call}
    (hb : ∀ fd, (s₀.fdescArray fd).Bounded)
    (hclosed : ∀ fd, fd < numFdescs → (s₀.fdescArray fd).status = fAvailable)
    (hfresh : doMkfs true s₀ = .ok (0, s)) (hok : AllSteps exec DescCallOk cs s)
    (hrun : run exec cs s = .ok t) :
    (∀ fd, fd < numFdescs → (t.fdescArray fd).status ≠ fAvailable →
      IsFile t.disk (t.fdescArray fd).inodeId) ∧
    ∀ c fd t', c.descriptor = some fd → exec c t = .ok t' →
      ∀ a, inoAddr 0 ≤ a → a < inoAddr 512 →
        a / 512 ≠ inodeSector ((t.fdescArray fd.toNat).inodeId / 4) → t'.disk a = t.disk a := by
  have hsound := (doMkfs_sound hb hfresh).1
  have hstart : Tied s := by
    obtain ⟨u, hmkfs, hcase⟩ := doMkfs_spec true s₀
    rw [hfresh] at hmkfs
    cases hmkfs
    rcases hcase with ⟨hcon, _⟩ | ⟨t₀, hext, hf⟩
    · cases hcon
    · obtain ⟨c, hext'⟩ := hf.ext
      refine ⟨hsound, ?_, ?_, hf.cwd, fun fd hfd hst => ?_⟩
      · rw [hf.disk]
        exact formatted_named t₀
      · rw [hf.disk]
        exact formatted_plain t₀
      · have hfd' : s.fdescArray = s₀.fdescArray := hext'.fdesc.trans hext.fdesc
        rw [hfd'] at hst
        exact absurd (hclosed fd hfd) hst
  have hend : Tied t := run_invariant (fun _ _ _ => exec_tied) cs s t hstart hok hrun
  refine ⟨hend.files, fun c fd t' hc hexec a hlo hhi hne => ?_⟩
  rcases (exec_descStep hend hc).of_ok hexec with hreads | ⟨k, hk, _, _, hfile, hmoved⟩
  · rw [hreads.1]
  · rw [hk, Int.toNat_natCast] at hne
    exact hmoved.touched.inodeSectors hlo hhi hne hfile.1.1

/-- Open a file, write it, close it, remove it, and open it again. -/
def reopened : List Call :=
  [.fopen 100 oRdwr 1 memA, .fwrite 0 memA 4, .fclose 0, .rm 100 memA, .fopen 100 oRdwr 1 memA]

/-- A file that is removed and opened again. -/
theorem descriptors_name_files_reopened :
    AllSteps exec DescCallOk reopened freshState ∧
      ∃ t, run exec reopened freshState = .ok t ∧ (t.fdescArray 0).status ≠ fAvailable ∧
        IsFile t.disk (t.fdescArray 0).inodeId := by
  have hok : AllSteps exec DescCallOk reopened freshState := by decide +kernel
  have hrun : returns (fun t => (t.fdescArray 0).status ≠ fAvailable)
      (run exec reopened freshState) = true := by decide +kernel
  obtain ⟨t, ht, hst⟩ := exists_of_returns hrun
  refine ⟨hok, t, ht, hst, ?_⟩
  exact (descriptors_name_files bootState_bounded (fun _ _ => rfl) freshState_eq hok ht).1 0
    (by decide) hst

/-- A file removed while it is open leaves its descriptor with a free inode. -/
theorem descriptor_outlives_file :
    ∃ s t, doMkfs true bootState = .ok (0, s) ∧
      run exec [.fopen 100 oRdwr 1 memA, .rm 100 memA] s = .ok t ∧
      (t.fdescArray 0).status = fOccupied ∧ ¬ IsFile t.disk (t.fdescArray 0).inodeId := by
  have hrun : returns (fun t => (t.fdescArray 0).status = fOccupied ∧
      ¬ IsFile t.disk (t.fdescArray 0).inodeId)
      (run exec [.fopen 100 oRdwr 1 memA, .rm 100 memA] freshState) = true := by decide +kernel
  obtain ⟨t, ht, hlost⟩ := exists_of_returns hrun
  exact ⟨freshState, t, freshState_eq, ht, hlost⟩

end Fs
