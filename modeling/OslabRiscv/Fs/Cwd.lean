import OslabRiscv.Fs.Accounting

/-!
# The current directory

`current_inode` is a copy that only `do_cd` and a formatting `do_mkfs` replace,
and nobody asks for it when a directory is removed.  It names a directory in use
as long as `do_cd` is given the path of one and `do_rmdir` that of another.
-/

namespace Fs

open ByteStore Outcome

/-- The inode `do_cd` finds at the end of its path. -/
def cdTarget (path : Nat) (mem : Store) (s : State) : Option Nat :=
  match cdLoop addressSpace (currentId s) path mem s with
  | .ok (target, _, _) => target
  | .error _ => none

section

variable {s s' : State} {path : Nat} {mem : Store}

/-- `do_cd` loads the inode it finds, or stays where it is. -/
theorem doCd_cases (path : Nat) (mem : Store) (s : State) :
    Holds AnyHalt
      (fun r => (cdTarget path mem s = none ∧ r.2.2.currentInode = s.currentInode) ∨
        ∃ x, cdTarget path mem s = some x ∧
          (x < 512 → currentId r.2.2 = ino s.disk x inoInodeId))
      (doCd path mem s) := by
  unfold doCd
  refine (cdLoop_reads _ _ _ _ _).bind_eq fun r hr hreads => ?_
  obtain ⟨target, mem', t⟩ := r
  obtain ⟨hd, hext⟩ := hreads
  have htarget : cdTarget path mem s = target := by
    unfold cdTarget
    rw [hr]
  cases target with
  | none => exact Or.inl ⟨htarget, hext.cwd⟩
  | some x =>
      refine Or.inr ⟨x, htarget, fun hx => ?_⟩
      change rd32 (blit _ 0 (getInode x t).sctBuffer (inodePtr x) 128) inoInodeId = _
      have hcopy := rd32_blit_add t.currentInode (getInode x t).sctBuffer (a := 0)
        (b := inodePtr x) (n := 128) (k := inoInodeId) (by decide)
      rw [Nat.zero_add] at hcopy
      refine hcopy.trans ?_
      have hget := inodeGet_eq x (getInode x t) (f := inoInodeId) (by decide)
      rw [flushed_getInode hx, hd] at hget
      exact hget

end

/-! ## What a call carries over -/

/-- Directories and files stay what they are, unless `R` lets them be removed. -/
structure Steady (R : Nat → Prop) (d d' : Store) : Prop where
  dir : ∀ j, IsDir d j → ¬ R j → IsDir d' j
  file : ∀ j, IsFile d j → ¬ R j → IsFile d' j

section

variable {R : Nat → Prop} {d d' d'' : Store}

/-- A disk that is the same is steady. -/
theorem Steady.of_eq (h : d' = d) : Steady R d d' := by
  rw [h]
  exact ⟨fun _ hj _ => hj, fun _ hj _ => hj⟩

/-- A quiet disk is steady. -/
theorem Quiet.steady (h : Quiet d d') : Steady R d d' :=
  ⟨fun _ hj _ => h.isDir.mpr hj, fun _ hj _ => h.isFile.mpr hj⟩

/-- Making an inode leaves the others what they are. -/
theorem Made.steady {p k i b type : Nat} (h : Made d d' p k i b type) : Steady R d d' :=
  ⟨fun _ hj _ => (h.isDir (h.ne_of_used hj.1)).mpr hj,
    fun _ hj _ => (h.isFile (h.ne_of_used hj.1)).mpr hj⟩

/-- So does removing one, but for the inode that is removed. -/
theorem Removed.steady {p k x b : Nat} (h : Removed d d' p k x b) (hx : R x) :
    Steady R d d' where
  dir _ hj hR := h.isDir.mpr ⟨hj, fun heq => hR (heq ▸ hx)⟩
  file _ hj hR := h.isFile.mpr ⟨hj, fun heq => hR (heq ▸ hx)⟩

/-- So does work on a file. -/
theorem Touched.steady {i : Nat} (h : Touched i d d') : Steady R d d' :=
  ⟨fun _ hj _ => h.isDir.mpr hj, fun _ hj _ => h.isFile.mpr hj⟩

/-- A second change that removes nothing. -/
theorem Steady.trans (h : Steady R d d') (h' : Steady (fun _ => False) d' d'') :
    Steady R d d'' :=
  ⟨fun j hj hR => h'.dir j (h.dir j hj hR) id, fun j hj hR => h'.file j (h.file j hj hR) id⟩

end

section

variable {s s' : State}

/-- The inode a call removes; that of `do_rm` is a file. -/
def Takes (s : State) (c : Call) (x : Nat) : Prop :=
  removes s c = some x ∧ ∀ path mem, c = .rm path mem → IsFile s.disk x

/-- What a call other than `do_mkfs` carries over: the current directory, unless it
is `do_cd`, and the inodes it does not remove. -/
structure Carried (s : State) (c : Call) (s' : State) : Prop where
  cwd : (∀ path mem, c ≠ .cd path mem) → s'.currentInode = s.currentInode
  steady : Steady (Takes s c) s.disk s'.disk

/-- Reading carries the current directory over. -/
theorem Reads.carried {c : Call} (h : Reads s s') : Carried s c s' :=
  ⟨fun _ => h.2.cwd, .of_eq h.1⟩

/-- So does work on a file. -/
theorem FileStep.carried {c : Call} (h : FileStep s s') : Carried s c s' := by
  rcases h with h | ⟨fd, f, _, h⟩
  · exact h.carried
  · obtain ⟨g, _, _, _, hext⟩ := h.fdesc
    exact ⟨fun _ => hext.cwd, h.touched.steady⟩

/-- So do `do_mkdir` and `do_touch`. -/
theorem makePath_carried (hs : Sound s) {type path : Nat} {mem : Store} {c : Call}
    (ht : type = iDir ∨ type = iFile) (hv : ∀ j ∈ visits path mem s, IsDir s.disk j) :
    Holds AnyHalt (fun r => Carried s c r.2.2) (makePath type path mem s) := by
  have hlt : type < 2 ^ 32 := by
    rcases ht with ht | ht <;> rw [ht] <;> decide
  refine (makePath_spec hs.volume hv hlt).mono fun r hr => ?_
  obtain ⟨hext, ⟨hd, _⟩ | ⟨p, k, i, b, _, hmade, _⟩⟩ := hr
  · exact Reads.carried ⟨hd, hext⟩
  · exact ⟨fun _ => hext.cwd, hmade.steady⟩

/-- So do `do_rmdir` and `do_rm`, but for the inode they remove. -/
theorem removePath_carried (hs : Sound s) {type path : Nat} {mem : Store} {c : Call}
    (hv : ∀ j ∈ visits path mem s, IsDir s.disk j)
    (hc : removes s c = removedInode type path mem s)
    (hrm : ∀ path mem, c = .rm path mem → type = iFile) :
    Holds AnyHalt (fun r => Carried s c r.2.2) (removePath type path mem s) := by
  refine (removePath_spec hs.volume hv).mono fun r hr => ?_
  obtain ⟨hext, ⟨hd, _⟩ | ⟨p, dir, mem', x, k, hend⟩⟩ := hr
  · exact Reads.carried ⟨hd, hext⟩
  · refine ⟨fun _ => hext.cwd, ?_⟩
    rcases hend.effect with ⟨_, _, hun⟩ | ⟨hlast, hused, hty, hrem⟩
    · exact (hun.quiet hs.volume hend.parent).steady
    · refine hrem.steady ⟨?_, fun path mem heq => ⟨hused, hty.trans (hrm path mem heq)⟩⟩
      rw [hc]
      exact removedInode_eq_some.mpr ⟨p, dir, mem', hend.target, hlast⟩

/-- So does every call but `do_mkfs`. -/
theorem exec_carried {c : Call} (hs : Sound s) (hok : CallOk s c)
    (hmkfs : ∀ reset, c ≠ .mkfs reset) : Holds AnyHalt (Carried s c) (exec c s) := by
  cases c with
  | mkfs reset => exact absurd rfl (hmkfs reset)
  | statfs => exact (doStatfs_reads s).carried
  | cd path mem =>
      refine ended_holds ((doCd_readOnly path mem s).mono fun r hr => ⟨fun h => ?_, .of_eq hr.1⟩)
      exact absurd rfl (h path mem)
  | mkdir path mem => exact ended_holds (makePath_carried hs (Or.inl rfl) hok)
  | rmdir path mem => exact ended_holds (removePath_carried hs hok.1 rfl (by simp))
  | ls path option mem => exact ended_holds ((doLs_reads path option mem s).mono fun _ h => h.carried)
  | touch path mem => exact ended_holds (makePath_carried hs (Or.inr rfl) hok)
  | cat path mem => exact ended_holds ((doCat_reads path mem s).mono fun _ h => h.carried)
  | fopen path mode pid mem =>
      refine ended_holds ((doFopen_spec hs.volume hok.1 hok.2).mono fun r hr => ?_)
      obtain ⟨d, hd, hopen⟩ := hr
      have hfirst : Steady (Takes s (.fopen path mode pid mem)) s.disk d ∧
          Volume d := by
        rcases hd with hd | ⟨p, k, i, b, hp, hmade⟩
        · exact ⟨.of_eq hd, by rw [hd]; exact hs.volume⟩
        · exact ⟨hmade.steady, hs.volume.made hp hmade (Or.inr rfl)⟩
      rcases hopen with ⟨hsame, hext⟩ | ⟨fd, x, m, _, _, _, hop, hext⟩
      · exact ⟨fun _ => hext.cwd, hfirst.1.trans (.of_eq hsame)⟩
      · exact ⟨fun _ => hext.cwd, hfirst.1.trans (hop.quiet hfirst.2).steady⟩
  | fread fd buff length =>
      exact ended_holds ((doFread_fileStep hs hok buff length).mono fun _ h => h.carried)
  | fwrite fd buff length =>
      exact ended'_holds ((doFwrite_fileStep hs hok buff length).mono fun _ h => h.carried)
  | fclose fd =>
      refine ended'_holds ?_
      unfold doFclose
      rcases fdescAt_cases fd with ⟨k, hk, hfd⟩ | herr
      · subst hfd
        rw [fdescAt_ofNat hk]
        exact ⟨fun _ => rfl, .of_eq rfl⟩
      · rw [herr]
        exact trivial
  | ln srcPath dstPath mem =>
      refine ended_holds ((doLn_spec hs.volume hok).mono fun r hr => ?_)
      obtain ⟨hext, ⟨hd, _⟩ | ⟨p, k, q, l, x, hp, _, _, _, _, hx, hlink, _⟩⟩ := hr
      · exact Reads.carried ⟨hd, hext⟩
      · exact ⟨fun _ => hext.cwd, (hlink.quiet hs.volume hp hx).steady⟩
  | rm path mem => exact ended_holds (removePath_carried hs hok rfl (by simp))
  | lseek fd offset whence junk =>
      exact ended'_holds ((doLseek_fileStep hs hok offset whence junk).mono fun _ h => h.carried)

end

/-! ## Directories know their number -/

/-- The inode of a directory carries its own number. -/
def DirIds (d : Store) : Prop := ∀ j, IsDir d j → ino d j inoInodeId = j

section

variable {R : Nat → Prop} {d d' : Store}

/-- The numbers in the directories' inodes stay. -/
theorem DirIds.change (h : DirIds d) (hc : Change R d d') : DirIds d' := by
  intro j hj
  cases hc with
  | quiet hq =>
      rw [hq.id_eq j hj.1.1]
      exact h j (hq.isDir.mp hj)
  | @made _ p k i b type hp hm ht =>
      by_cases hji : j = i
      · rw [hji]
        exact hm.newId
      · rw [hm.ino_eq j _ hj.1.1 (by decide) hji (Or.inr (Or.inl (by decide)))]
        exact h j ((hm.isDir hji).mp hj)
  | removed hp hx hRx hr =>
      obtain ⟨hold, hne⟩ := hr.isDir.mp hj
      rw [hr.ino_eq j _ hj.1.1 (by decide) hne (Or.inr (Or.inl (by decide)))]
      exact h j hold
  | touched hi ho ht =>
      rw [ht.ino j _ hj.1.1 (by decide) (Or.inr (Or.inl (by decide)))]
      exact h j (ht.isDir.mp hj)
  | format s =>
      rw [formatted_used hj.1, ino_formatted_root (by decide), ino_initIno_inodeId (by decide)]

end

/-! ## Runs -/

/-- What keeps the current directory: the path of `do_cd` leads to a directory, and
that of `do_rmdir` to another than the current one. -/
def CwdOk (s : State) (c : Call) : Prop :=
  CallOk s c ∧
    match c with
    | .cd path mem => ∀ x ∈ cdTarget path mem s, IsDir s.disk x
    | .rmdir path mem => removedInode iDir path mem s ≠ some (currentId s)
    | _ => True

instance (s : State) (c : Call) : Decidable (CwdOk s c) :=
  @instDecidableAnd _ _ inferInstance
    (match c with
    | .cd path mem => (inferInstance : Decidable (∀ x ∈ cdTarget path mem s, IsDir s.disk x))
    | .rmdir path mem =>
      (inferInstance : Decidable (removedInode iDir path mem s ≠ some (currentId s)))
    | .mkfs _ | .statfs | .mkdir _ _ | .ls _ _ _ | .touch _ _ | .cat _ _
    | .fopen _ _ _ _ | .fread _ _ _ | .fwrite _ _ _ | .fclose _ | .ln _ _ _ | .rm _ _
    | .lseek _ _ _ _ => instDecidableTrue)

/-- The invariant of a run. -/
structure Placed (s : State) : Prop where
  sound : Sound s
  ids : DirIds s.disk
  cwd : IsDir s.disk (currentId s)

/-- A formatted disk begins with its root. -/
theorem Formatted.placed {t s : State} (h : Formatted t s) (hs : Sound s) : Placed s := by
  refine ⟨hs, ?_, ?_⟩
  · rw [h.disk]
    intro j hj
    rw [formatted_used hj.1, ino_formatted_root (by decide), ino_initIno_inodeId (by decide)]
  · rw [h.cwd, h.disk]
    exact formatted_root

/-- The step lemma of the current directory. -/
theorem exec_placed {s s' : State} {c : Call} (hs : Placed s) (hok : CwdOk s c)
    (h : exec c s = .ok s') : Placed s' := by
  have hsound := exec_sound hs.sound hok.1 h
  by_cases hmkfs : ∃ reset, c = .mkfs reset
  · obtain ⟨reset, hc⟩ := hmkfs
    subst hc
    obtain ⟨u, hrun, hcase⟩ := doMkfs_spec reset s
    change ended' (doMkfs reset s) = _ at h
    rw [hrun] at h
    cases h
    rcases hcase with ⟨_, hd, hext⟩ | ⟨t, _, hf⟩
    · refine ⟨hsound, ?_, ?_⟩
      · rw [hd]
        exact hs.ids
      · unfold currentId
        rw [hd, hext.cwd]
        exact hs.cwd
    · exact hf.placed hsound
  · have hne : ∀ reset, c ≠ .mkfs reset := fun reset hc => hmkfs ⟨reset, hc⟩
    have hcar := (exec_carried hs.sound hok.1 hne).of_ok h
    obtain ⟨d, h1, h2⟩ := ((exec_effect hs.sound hok.1).of_ok h).change
    refine ⟨hsound, (hs.ids.change h1).change h2, ?_⟩
    by_cases hcd : ∃ path mem, c = .cd path mem
    · obtain ⟨path, mem, hc⟩ := hcd
      subst hc
      have hcases := (ended_holds (P := fun u =>
        (cdTarget path mem s = none ∧ u.currentInode = s.currentInode) ∨
          ∃ x, cdTarget path mem s = some x ∧ (x < 512 → currentId u = ino s.disk x inoInodeId))
        (doCd_cases path mem s)).of_ok h
      have hdisk : s'.disk = s.disk :=
        ((ended_holds (P := ReadOnly s) (doCd_readOnly path mem s)).of_ok h).1
      rcases hcases with ⟨_, hsame⟩ | ⟨x, hx, hid⟩
      · unfold currentId
        rw [hsame, hdisk]
        exact hs.cwd
      · have hdir : IsDir s.disk x := hok.2 x hx
        rw [hid hdir.1.1, hs.ids x hdir, hdisk]
        exact hdir
    · have hcwd := hcar.cwd fun path mem hc => hcd ⟨path, mem, hc⟩
      unfold currentId
      rw [hcwd]
      refine hcar.steady.dir _ hs.cwd fun hrem => ?_
      cases c with
      | rmdir path mem => exact hok.2 hrem.1
      | rm path mem => exact not_isDir_of_isFile (hrem.2 path mem rfl) hs.cwd
      | _ => cases hrem.1

/-- **The current directory is a directory.**  From a freshly formatted disk, as long
as every call meets its conditions, the current directory is one in use in every
state reached; and a `do_cd` that does not find its path stays where it is. -/
theorem cwd_live {s₀ s t : State} {cs : List Call} (hb : ∀ fd, (s₀.fdescArray fd).Bounded)
    (hfresh : doMkfs true s₀ = .ok (0, s)) (hok : AllSteps exec CwdOk cs s)
    (hrun : run exec cs s = .ok t) :
    IsDir t.disk (currentId t) ∧
      ∀ path mem t', exec (.cd path mem) t = .ok t' → cdTarget path mem t = none →
        t'.currentInode = t.currentInode := by
  have hsound := (doMkfs_sound hb hfresh).1
  have hstart : Placed s := by
    obtain ⟨u, hrun, hcase⟩ := doMkfs_spec true s₀
    rw [hfresh] at hrun
    cases hrun
    rcases hcase with ⟨hcon, _⟩ | ⟨t, _, hf⟩
    · cases hcon
    · exact hf.placed hsound
  have hend : Placed t := run_invariant (fun _ _ _ => exec_placed) cs s t hstart hok hrun
  refine ⟨hend.cwd, fun path mem t' hcd hnone => ?_⟩
  have hcases := (ended_holds (P := fun u =>
    (cdTarget path mem t = none ∧ u.currentInode = t.currentInode) ∨
      ∃ x, cdTarget path mem t = some x ∧ (x < 512 → currentId u = ino t.disk x inoInodeId))
    (doCd_cases path mem t)).of_ok hcd
  rcases hcases with ⟨_, hsame⟩ | ⟨x, hx, _⟩
  · exact hsame
  · rw [hnone] at hx
    cases hx

/-- A process with the strings `a`, `.` and `..`. -/
def memDots : Store := fun k =>
  if k = 100 then 97 else if k = 110 then 46 else if k = 120 then 46 else if k = 121 then 46 else 0

/-- Go down, come back and remove what was left. -/
def roundTrip : List Call :=
  [.mkdir 100 memDots, .cd 100 memDots, .cd 120 memDots, .rmdir 100 memDots]

/-- Down into a directory, back up, and the directory removed. -/
theorem cwd_live_roundTrip :
    AllSteps exec CwdOk roundTrip freshState ∧
      ∃ t, run exec roundTrip freshState = .ok t ∧ IsDir t.disk (currentId t) := by
  have hok : AllSteps exec CwdOk roundTrip freshState := by decide +kernel
  have hrun : returns (fun _ => True) (run exec roundTrip freshState) = true := by decide +kernel
  obtain ⟨t, ht, _⟩ := exists_of_returns hrun
  exact ⟨hok, t, ht, (cwd_live bootState_bounded freshState_eq hok ht).1⟩

/-- `rmdir .` in a new directory removes it, and it stays the current one. -/
theorem cwd_lost_rmdir_dot :
    ∃ s t, doMkfs true bootState = .ok (0, s) ∧
      run exec [.mkdir 100 memDots, .cd 100 memDots, .rmdir 110 memDots] s = .ok t ∧
      ¬ IsDir t.disk (currentId t) := by
  have hrun : returns (fun t => ¬ IsDir t.disk (currentId t))
      (run exec [.mkdir 100 memDots, .cd 100 memDots, .rmdir 110 memDots] freshState) = true := by
    decide +kernel
  obtain ⟨t, ht, hlost⟩ := exists_of_returns hrun
  exact ⟨freshState, t, freshState_eq, ht, hlost⟩

end Fs
