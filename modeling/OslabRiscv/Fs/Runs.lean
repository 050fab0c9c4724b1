import OslabRiscv.Fs.FileFrame
import OslabRiscv.Fs.Format

/-!
# Runs of file system calls

`exec` performs any of the fifteen calls.  A call comes with the memory of the
process that makes it; what it prints or returns is dropped here, and only the
state of the file system goes on to the next call.

`CallOk` collects what the calls take for granted and do not check: that a path
leads through directories, that a descriptor names a file, that the file
`do_fopen` wants can be made, and that nobody removes the root.  Under it each
call is one or two changes of the kinds in `Change`, and the disk stays a
volume.
-/

namespace Fs

open ByteStore Outcome

/-- A system call of the file system with its arguments. -/
inductive Call
  | mkfs (reset : Bool)
  | statfs
  | cd (path : Nat) (mem : Store)
  | mkdir (path : Nat) (mem : Store)
  | rmdir (path : Nat) (mem : Store)
  | ls (path option : Nat) (mem : Store)
  | touch (path : Nat) (mem : Store)
  | cat (path : Nat) (mem : Store)
  | fopen (path mode pid : Nat) (mem : Store)
  | fread (fd : Int) (buff : Store) (length : Int)
  | fwrite (fd : Int) (buff : Store) (length : Int)
  | fclose (fd : Int)
  | ln (srcPath dstPath : Nat) (mem : Store)
  | rm (path : Nat) (mem : Store)
  | lseek (fd : Int) (offset : Int) (whence : Nat) (junk : UInt32)

/-- The state a call with a result and user memory ends in. -/
def ended (x : Except Halt (Nat × Store × State)) : Except Halt State := x.map fun r => r.2.2

/-- The state a call with a result ends in. -/
def ended' (x : Except Halt (Nat × State)) : Except Halt State := x.map fun r => r.2

/-- Perform a call. -/
def exec : Call → State → Except Halt State
  | .mkfs reset, s => ended' (doMkfs reset s)
  | .statfs, s => .ok (doStatfs s).2
  | .cd path mem, s => ended (doCd path mem s)
  | .mkdir path mem, s => ended (doMkdir path mem s)
  | .rmdir path mem, s => ended (doRmdir path mem s)
  | .ls path option mem, s => ended (doLs path option mem s)
  | .touch path mem, s => ended (doTouch path mem s)
  | .cat path mem, s => ended (doCat path mem s)
  | .fopen path mode pid mem, s => ended (doFopen path mode pid mem s)
  | .fread fd buff length, s => ended (doFread fd buff length s)
  | .fwrite fd buff length, s => ended' (doFwrite fd buff length s)
  | .fclose fd, s => ended' (doFclose fd s)
  | .ln srcPath dstPath mem, s => ended (doLn srcPath dstPath mem s)
  | .rm path mem, s => ended (doRm path mem s)
  | .lseek fd offset whence junk, s => ended' (doLseek fd offset whence junk.toNat s)

/-- What is true of the state that a call returns is true of where it ends. -/
theorem ended_holds {P : State → Prop} {x : Except Halt (Nat × Store × State)}
    (h : Holds AnyHalt (fun r => P r.2.2) x) : Holds AnyHalt P (ended x) := by
  cases x with
  | ok a => exact h
  | error e => exact trivial

/-- The same, for calls that return no memory. -/
theorem ended'_holds {P : State → Prop} {x : Except Halt (Nat × State)}
    (h : Holds AnyHalt (fun r => P r.2) x) : Holds AnyHalt P (ended' x) := by
  cases x with
  | ok a => exact h
  | error e => exact trivial

/-! ## What the calls take for granted -/

/-- A descriptor that is taken names a file in use. -/
def DescOk (s : State) (fd : Int) : Prop :=
  0 ≤ fd → fd < numFdescs → (s.fdescArray fd.toNat).status ≠ fAvailable →
    IsFile s.disk (s.fdescArray fd.toNat).inodeId

instance (d : Store) (i : Nat) : Decidable (IsFile d i) :=
  inferInstanceAs (Decidable (InodeUsed d i ∧ ino d i inoType = iFile))

instance (s : State) (fd : Int) : Decidable (DescOk s fd) :=
  inferInstanceAs (Decidable (_ → _ → _ → _))

/-- The inode a removal takes away, if any. -/
def removedInode (type path : Nat) (mem : Store) (s : State) : Option Nat :=
  match removeTarget type path mem s with
  | some (_, _, _, x) => if lastLink s.disk x type then some x else none
  | none => none

/-- The inode that a call removes is the one its path leads to, at its last link. -/
theorem removedInode_eq_some {type path x : Nat} {mem : Store} {s : State} :
    removedInode type path mem s = some x ↔
      ∃ p dir mem', removeTarget type path mem s = some (p, dir, mem', x) ∧
        lastLink s.disk x type := by
  unfold removedInode
  cases ht : removeTarget type path mem s with
  | none =>
      constructor
      · intro h
        cases h
      · intro h
        obtain ⟨_, _, _, h, _⟩ := h
        cases h
  | some t =>
      obtain ⟨p, dir, mem', y⟩ := t
      simp only
      constructor
      · intro h
        split_ifs at h with hlast
        cases h
        exact ⟨p, dir, mem', rfl, hlast⟩
      · intro h
        obtain ⟨_, _, _, heq, hlast⟩ := h
        cases heq
        rw [if_pos hlast]

/-- A removal that goes through does not remove the root. -/
def KeepsRoot (type path : Nat) (mem : Store) (s : State) : Prop :=
  removedInode type path mem s ≠ some 0

instance (type path : Nat) (mem : Store) (s : State) : Decidable (KeepsRoot type path mem s) :=
  inferInstanceAs (Decidable (¬ _))

/-- What the calls take for granted. -/
def CallOk (s : State) : Call → Prop
  | .mkfs _ | .statfs | .cd _ _ | .ls _ _ _ | .cat _ _ | .fclose _ => True
  | .mkdir path mem | .touch path mem | .rm path mem => ∀ j ∈ visits path mem s, IsDir s.disk j
  | .rmdir path mem => (∀ j ∈ visits path mem s, IsDir s.disk j) ∧ KeepsRoot iDir path mem s
  | .ln srcPath dstPath mem => ∀ j ∈ lnVisits srcPath dstPath mem s, IsDir s.disk j
  | .fopen path _ _ mem =>
    (∀ j ∈ fopenVisits path mem s, IsDir s.disk j) ∧ fopenRefused path mem s = false
  | .fread fd _ _ | .fwrite fd _ _ | .lseek fd _ _ _ => DescOk s fd

instance (s : State) (c : Call) : Decidable (CallOk s c) := by
  cases c <;> unfold CallOk <;> infer_instance

/-! ## Calls that only read -/

/-- Nothing on the disk has changed, though the current directory may have. -/
def ReadOnly (s s' : State) : Prop :=
  s'.disk = s.disk ∧ ∃ c, Extends { s with currentInode := c } s'

/-- A state that has read only. -/
theorem ReadOnly.of_extends {s s' : State} (hd : s'.disk = s.disk) (h : Extends s s') :
    ReadOnly s s' := ⟨hd, s.currentInode, h⟩

section ReadOnly

variable {s : State} {mem : Store}

/-- The two facts about a call that reads only and stays where it is. -/
def Reads (s s' : State) : Prop := s'.disk = s.disk ∧ Extends s s'

theorem Reads.refl (s : State) : Reads s s := ⟨rfl, .refl s⟩

theorem Reads.trans {s s' s'' : State} (h : Reads s s') (h' : Reads s' s'') : Reads s s'' :=
  ⟨h'.1.trans h.1, h.2.trans h'.2⟩

/-- An inode is read. -/
theorem Reads.getInode (i : Nat) (s : State) : Reads s (getInode i s) :=
  ⟨rfl, (Extends.refl s).getInode i⟩

/-- A block is read. -/
theorem Reads.readBlock (b : Nat) (s : State) : Reads s (readBlock b s) :=
  ⟨rfl, (Extends.refl s).readBlock b⟩

/-- A search in a directory only reads. -/
theorem searchDentry_reads (j name type : Nat) (mem : Store) (s : State) :
    Holds AnyHalt (fun r => Reads s r.2) (searchDentry j name type mem s) := by
  unfold searchDentry
  refine (anyHalt (searchLoop_spec _ mem 128 0 0 rfl)).bind fun id _ => ?_
  exact (Reads.getInode j s).trans (Reads.readBlock _ _)

/-- The loop over a path only reads, by induction on its rounds. -/
theorem walkLoop_reads (fuel dirId dir subdir : Nat) (mem : Store) (s : State) :
    Holds AnyHalt (fun r => Reads s r.2.2) (walkLoop fuel dirId dir subdir mem s) := by
  induction fuel generalizing dirId dir subdir mem s with
  | zero => exact trivial
  | succ fuel ih =>
      unfold walkLoop
      by_cases hmore : subdir ≠ 0 ∧ mem subdir ≠ 0
      · rw [if_pos hmore]
        refine (searchDentry_reads dirId dir iDir mem s).bind fun r hr => ?_
        obtain ⟨id, t⟩ := r
        simp only at hr ⊢
        by_cases hid : id = minusOne
        · rw [if_pos hid]
          exact hr
        · rw [if_neg hid]
          refine (anyHalt (getDir_spec mem subdir)).bind fun q _ => ?_
          exact (ih _ _ _ _ t).mono fun w hw => hr.trans hw
      · rw [if_neg hmore]
        exact Reads.refl s

/-- Resolving a path only reads. -/
theorem walk_reads (path : Nat) (mem : Store) (s : State) :
    Holds AnyHalt (fun r => Reads s r.2.2) (walk path mem s) := by
  unfold walk
  refine (anyHalt (getDir_spec mem path)).bind fun q _ => ?_
  obtain ⟨dir, mem'⟩ := q
  simp only
  by_cases hz : dir = 0
  · rw [if_pos hz]
    exact Reads.refl s
  · rw [if_neg hz]
    exact walkLoop_reads _ _ _ _ _ _

/-- The loop of `do_cd` only reads, by induction on its rounds. -/
theorem cdLoop_reads (fuel dirId subdir : Nat) (mem : Store) (s : State) :
    Holds AnyHalt (fun r => Reads s r.2.2) (cdLoop fuel dirId subdir mem s) := by
  induction fuel generalizing dirId subdir mem s with
  | zero => exact trivial
  | succ fuel ih =>
      unfold cdLoop
      refine (anyHalt (getDir_spec mem subdir)).bind fun q _ => ?_
      obtain ⟨dir, mem'⟩ := q
      refine (searchDentry_reads dirId dir iDir mem' s).bind fun r hr => ?_
      obtain ⟨id, t⟩ := r
      simp only at hr ⊢
      by_cases hid : id = minusOne
      · rw [if_pos hid]
        exact hr
      · rw [if_neg hid]
        by_cases hmore : getSubdir mem' subdir ≠ 0 ∧ mem' (getSubdir mem' subdir) ≠ 0
        · rw [if_pos hmore]
          exact (ih _ _ _ t).mono fun w hw => hr.trans hw
        · rw [if_neg hmore]
          exact hr

/-- The loop over the entries of a directory only reads. -/
theorem lsLoop_reads (left i dentryNum : Nat) (s : State) :
    Reads s (lsLoop left i dentryNum s) := by
  induction left generalizing i dentryNum s with
  | zero => exact Reads.refl s
  | succ left ih =>
      unfold lsLoop
      split_ifs
      · exact Reads.refl s
      · exact (Reads.getInode _ s).trans (ih _ _ _)
      · exact ih _ _ _

/-- Listing a directory only reads. -/
theorem listDir_reads (dirId : Nat) (all : Bool) (s : State) : Reads s (listDir dirId all s) := by
  have h := (Reads.getInode dirId s).trans
    (Reads.readBlock (inodeGet (getInode dirId s) (inodePtr dirId) inoDirectBlock) _)
  unfold listDir
  simp only
  cases all with
  | true => exact h.trans (lsLoop_reads _ _ _ _)
  | false => exact h

/-- `do_ls` only reads. -/
theorem doLs_reads (path option : Nat) (mem : Store) (s : State) :
    Holds AnyHalt (fun r => Reads s r.2.2) (doLs path option mem s) := by
  unfold doLs
  simp only
  by_cases hopt : option &&& 1 ≠ 0
  · rw [if_pos hopt]
    refine (cdLoop_reads _ _ _ _ _).bind fun r hr => ?_
    obtain ⟨target, mem', t⟩ := r
    cases target with
    | none => exact hr
    | some dirId => exact Reads.trans hr (listDir_reads _ _ _)
  · rw [if_neg hopt]
    exact listDir_reads _ _ _

/-- `do_statfs` only reads. -/
theorem doStatfs_reads (s : State) : Reads s (doStatfs s).2 := by
  have hread : Reads s (readSuperblock s) := ⟨rfl, rfl, rfl, [], by simp [readSuperblock], by simp⟩
  unfold doStatfs
  simp only
  by_cases h : rd32 (readSuperblock s).superblock 0 = superblockMagic
  · rw [if_pos h]
    exact ⟨rfl, hread.2.getInodeMap.getBlockMap⟩
  · rw [if_neg h]
    exact hread

/-- `do_cat` only reads. -/
theorem doCat_reads (path : Nat) (mem : Store) (s : State) :
    Holds AnyHalt (fun r => Reads s r.2.2) (doCat path mem s) := by
  unfold doCat
  refine (walk_reads path mem s).bind fun r hr => ?_
  obtain ⟨target, mem', t⟩ := r
  simp only at hr ⊢
  cases target with
  | none => exact hr
  | some q =>
      obtain ⟨dirId, dir⟩ := q
      refine (searchDentry_reads dirId dir iFile mem' t).bind fun r' hr' => ?_
      obtain ⟨id, u⟩ := r'
      simp only at hr' ⊢
      by_cases hid : id = minusOne
      · rw [if_pos hid]
        exact hr.trans hr'
      · rw [if_neg hid]
        exact (hr.trans hr').trans ((Reads.getInode _ _).trans (Reads.readBlock _ _))

/-- `do_cd` reads, and moves to another directory. -/
theorem doCd_readOnly (path : Nat) (mem : Store) (s : State) :
    Holds AnyHalt (fun r => ReadOnly s r.2.2) (doCd path mem s) := by
  unfold doCd
  refine (cdLoop_reads _ _ _ _ _).bind fun r hr => ?_
  obtain ⟨target, mem', t⟩ := r
  obtain ⟨hd, hext⟩ := hr
  cases target with
  | none => exact .of_extends hd hext
  | some dirId =>
      exact ⟨hd, (updateInode (inodePtr dirId) (getInode dirId t)).currentInode, hext.fdesc, rfl,
        hext.writes⟩

end ReadOnly

/-! ## What one call changes -/

/-- The ways a call changes the disk.  `R` says which inodes may be removed. -/
inductive Change (R : Nat → Prop) (d : Store) : Store → Prop
  | quiet {d' : Store} : Quiet d d' → Change R d d'
  | made {d' : Store} {p k i b type : Nat} : IsDir d p → Made d d' p k i b type →
      type = iDir ∨ type = iFile → Change R d d'
  | removed {d' : Store} {p k x : Nat} : IsDir d p → InodeUsed d x → R x →
      Removed d d' p k x (ino d x inoDirectBlock) → Change R d d'
  | touched {d' : Store} {i : Nat} : IsFile d i → Owned d' → Touched i d d' → Change R d d'
  | format (s : State) : Change R d (formatted s)

theorem Quiet.refl {d : Store} (hV : Volume d) : Quiet d d :=
  ⟨fun _ _ => rfl, fun _ _ => rfl, fun _ _ => rfl, fun _ _ => rfl, fun _ _ _ _ => rfl,
    fun _ _ _ _ => rfl, hV.entries⟩

/-- A disk that is as it was. -/
theorem Change.same {R : Nat → Prop} {d d' : Store} (hV : Volume d) (h : d' = d) :
    Change R d d' := by
  rw [h]
  exact .quiet (.refl hV)

/-- A volume stays one through every change. -/
theorem Volume.change {R : Nat → Prop} {d d' : Store} (hV : Volume d) (hR : ∀ x, R x → x ≠ 0)
    (h : Change R d d') : Volume d' := by
  cases h with
  | quiet h => exact hV.quiet h
  | made hp h ht => exact hV.made hp h ht
  | removed hp hx hRx h => exact hV.removed rfl hx hp h (hR _ hRx)
  | touched hi ho h => exact hV.touched hi ho h
  | format s => exact formatted_volume

/-- The inode a call removes, if any. -/
def removes (s : State) : Call → Option Nat
  | .rmdir path mem => removedInode iDir path mem s
  | .rm path mem => removedInode iFile path mem s
  | _ => none

/-- Descriptors hold 32-bit offsets, and the disk is a volume. -/
structure Sound (s : State) : Prop where
  volume : Volume s.disk
  bounded : ∀ fd, (s.fdescArray fd).Bounded

/-- The sector writes of a call lie in their areas. -/
def WritesOk (s s' : State) : Prop := ∃ ws, s'.writes = s.writes ++ ws ∧ ∀ w ∈ ws, w.InArea

/-- What a call does: at most two changes, sector writes in their areas, and
descriptors that stay in range. -/
structure Effect (R : Nat → Prop) (s s' : State) : Prop where
  change : ∃ d, Change R s.disk d ∧ Change (fun _ => False) d s'.disk
  writes : WritesOk s s'
  bounded : ∀ fd, (s'.fdescArray fd).Bounded

/-- A sound state stays sound under every effect. -/
theorem Effect.sound {R : Nat → Prop} {s s' : State} (hs : Sound s) (hR : ∀ x, R x → x ≠ 0)
    (h : Effect R s s') : Sound s' := by
  obtain ⟨d, h1, h2⟩ := h.change
  exact ⟨(hs.volume.change hR h1).change (fun _ hx => hx.elim) h2, h.bounded⟩

section Effects

variable {R : Nat → Prop} {s s' : State}

/-- One change, while the descriptors stay. -/
theorem Effect.of_change (hs : Sound s) (hV : Volume s'.disk) (h : Change R s.disk s'.disk)
    (hext : Extends s s') : Effect R s s' :=
  ⟨⟨s'.disk, h, .same hV rfl⟩, hext.writes, fun fd => by rw [hext.fdesc]; exact hs.bounded fd⟩

/-- Calls that only read. -/
theorem Effect.of_readOnly (hs : Sound s) (h : ReadOnly s s') : Effect R s s' := by
  obtain ⟨hd, c, hext⟩ := h
  refine ⟨⟨s.disk, .same hs.volume rfl, .same hs.volume hd⟩, hext.writes, fun fd => ?_⟩
  rw [hext.fdesc]
  exact hs.bounded fd

/-- Calls that only read and stay where they are. -/
theorem Effect.of_reads (hs : Sound s) (h : Reads s s') : Effect R s s' :=
  .of_readOnly hs (.of_extends h.1 h.2)

/-- Descriptors stay within their bounds when one of them is set. -/
theorem bounded_setFdesc {fd : Nat} {f : Fdesc} (hs : ∀ k, (s.fdescArray k).Bounded)
    (hf : f.Bounded) (k : Nat) : ((setFdesc fd f s).fdescArray k).Bounded := by
  unfold setFdesc
  by_cases hk : k = fd
  · simp only [if_pos hk]
    exact hf
  · simp only [if_neg hk]
    exact hs k

/-- A call that worked on one file. -/
theorem Effect.of_moved {fd : Nat} {f : Fdesc} (hs : Sound s) (hfile : IsFile s.disk f.inodeId)
    (h : Moved s fd f s') : Effect R s s' := by
  obtain ⟨g, _, _, hg, hext⟩ := h.fdesc
  have hV := hs.volume.touched hfile h.owned h.touched
  refine ⟨⟨s'.disk, .touched hfile h.owned h.touched, .same hV rfl⟩, hext.writes, fun k => ?_⟩
  rw [hext.fdesc]
  exact bounded_setFdesc hs.bounded hg k

/-- A descriptor is one of the table, or the access is undefined. -/
theorem fdescAt_cases (fd : Int) :
    (∃ k : Nat, k < numFdescs ∧ fd = k) ∨ fdescAt fd = .error .undefined := by
  by_cases h : 0 ≤ fd ∧ fd < numFdescs
  · refine Or.inl ⟨fd.toNat, ?_, ?_⟩
    · omega
    · omega
  · right
    unfold fdescAt
    rw [if_neg h]

/-- The descriptor is taken and names a file. -/
theorem Sound.openOn (hs : Sound s) {fd : Nat} (hfd : fd < numFdescs) (hok : DescOk s fd)
    (hopen : (s.fdescArray fd).status ≠ fAvailable) :
    IsFile s.disk (s.fdescArray fd).inodeId ∧ OpenOn s fd (s.fdescArray fd) := by
  have hfile := hok (by omega) (by omega) (by rw [Int.toNat_natCast]; exact hopen)
  rw [Int.toNat_natCast] at hfile
  exact ⟨hfile, hfd, rfl, hopen, hs.volume.owned, hfile.1, hs.volume.id _ hfile⟩

/-- A call on a descriptor reads only, or works on the file it names. -/
def FileStep (s s' : State) : Prop :=
  Reads s s' ∨ ∃ fd f, IsFile s.disk f.inodeId ∧ Moved s fd f s'

/-- The same, with the descriptor: the file is the one it names. -/
def DescStep (s : State) (fd : Int) (s' : State) : Prop :=
  Reads s s' ∨ ∃ k : Nat, fd = k ∧ k < numFdescs ∧ (s.fdescArray k).status ≠ fAvailable ∧
    IsFile s.disk (s.fdescArray k).inodeId ∧ Moved s k (s.fdescArray k) s'

/-- A step on one descriptor is a step on its file. -/
theorem DescStep.fileStep {fd : Int} (h : DescStep s fd s') : FileStep s s' := by
  rcases h with h | ⟨k, _, _, _, hfile, h⟩
  · exact Or.inl h
  · exact Or.inr ⟨k, _, hfile, h⟩

/-- A step on one file is an effect. -/
theorem Effect.of_fileStep (hs : Sound s) (h : FileStep s s') : Effect R s s' := by
  rcases h with h | ⟨fd, f, hfile, h⟩
  · exact .of_reads hs h
  · exact .of_moved hs hfile h

/-- A read changes its descriptor and, at most, blocks of its file. -/
theorem doFread_descStep (hs : Sound s) {fd : Int} (hok : DescOk s fd) (buff : Store)
    (length : Int) : Holds AnyHalt (fun r => DescStep s fd r.2.2) (doFread fd buff length s) := by
  rcases fdescAt_cases fd with ⟨k, hk, hfd⟩ | herr
  · subst hfd
    by_cases hav : (s.fdescArray k).status = fAvailable
    · have hsame : DescStep s k s := Or.inl (.refl s)
      unfold doFread
      rw [fdescAt_ofNat hk]
      change Holds _ _ (if (s.fdescArray k).mode = oWronly then _ else _)
      rw [if_pos hav]
      split_ifs
      · exact hsame
      · exact hsame
    · obtain ⟨hfile, hon⟩ := hs.openOn hk hok hav
      exact (anyHalt (doFread_moved hon (hs.bounded k) buff length)).mono fun r hr =>
        Or.inr ⟨k, rfl, hk, hav, hfile, hr⟩
  · unfold doFread
    rw [herr]
    exact trivial

/-- A read changes at most blocks of one file. -/
theorem doFread_fileStep (hs : Sound s) {fd : Int} (hok : DescOk s fd) (buff : Store)
    (length : Int) : Holds AnyHalt (fun r => FileStep s r.2.2) (doFread fd buff length s) :=
  (doFread_descStep hs hok buff length).mono fun _ h => h.fileStep

/-- A write changes its descriptor, and the blocks and the size of its file. -/
theorem doFwrite_descStep (hs : Sound s) {fd : Int} (hok : DescOk s fd) (buff : Store)
    (length : Int) : Holds AnyHalt (fun r => DescStep s fd r.2) (doFwrite fd buff length s) := by
  rcases fdescAt_cases fd with ⟨k, hk, hfd⟩ | herr
  · subst hfd
    by_cases hav : (s.fdescArray k).status = fAvailable
    · have hsame : DescStep s k s := Or.inl (.refl s)
      unfold doFwrite
      rw [fdescAt_ofNat hk]
      change Holds _ _ (if (s.fdescArray k).mode = oRdonly then _ else _)
      rw [if_pos hav]
      split_ifs
      · exact hsame
      · exact hsame
    · obtain ⟨hfile, hon⟩ := hs.openOn hk hok hav
      exact (anyHalt (doFwrite_moved hon (hs.bounded k) buff length)).mono fun r hr =>
        Or.inr ⟨k, rfl, hk, hav, hfile, hr⟩
  · unfold doFwrite
    rw [herr]
    exact trivial

/-- A write changes the blocks and the size of one file. -/
theorem doFwrite_fileStep (hs : Sound s) {fd : Int} (hok : DescOk s fd) (buff : Store)
    (length : Int) : Holds AnyHalt (fun r => FileStep s r.2) (doFwrite fd buff length s) :=
  (doFwrite_descStep hs hok buff length).mono fun _ h => h.fileStep

/-- A seek changes its descriptor and, at most, the blocks and the size of its file. -/
theorem doLseek_descStep (hs : Sound s) {fd : Int} (hok : DescOk s fd) (offset : Int)
    (whence : Nat) (junk : UInt32) :
    Holds AnyHalt (fun r => DescStep s fd r.2) (doLseek fd offset whence junk.toNat s) := by
  rcases fdescAt_cases fd with ⟨k, hk, hfd⟩ | herr
  · subst hfd
    by_cases hav : (s.fdescArray k).status = fAvailable
    · unfold doLseek
      rw [fdescAt_ofNat hk]
      change Holds _ _ (if (s.fdescArray k).status = fAvailable then _ else _)
      rw [if_pos hav]
      exact Or.inl (.refl s)
    · obtain ⟨hfile, hon⟩ := hs.openOn hk hok hav
      exact (anyHalt (doLseek_moved hon (hs.bounded k) offset whence junk.toNat_lt)).mono
        fun r hr => Or.inr ⟨k, rfl, hk, hav, hfile, hr⟩
  · unfold doLseek
    rw [herr]
    exact trivial

/-- A seek changes at most the blocks and the size of one file. -/
theorem doLseek_fileStep (hs : Sound s) {fd : Int} (hok : DescOk s fd) (offset : Int)
    (whence : Nat) (junk : UInt32) :
    Holds AnyHalt (fun r => FileStep s r.2) (doLseek fd offset whence junk.toNat s) :=
  (doLseek_descStep hs hok offset whence junk).mono fun _ h => h.fileStep

/-- Closing changes the descriptor only. -/
theorem doFclose_effect (hs : Sound s) (fd : Int) :
    Holds AnyHalt (fun r => Effect R s r.2) (doFclose fd s) := by
  rcases fdescAt_cases fd with ⟨k, hk, hfd⟩ | herr
  · subst hfd
    unfold doFclose
    rw [fdescAt_ofNat hk]
    refine ⟨⟨s.disk, .same hs.volume rfl, .same hs.volume rfl⟩, ⟨[], by simp [setFdesc], by simp⟩, ?_⟩
    exact bounded_setFdesc hs.bounded ⟨by decide, by decide⟩
  · unfold doFclose
    rw [herr]
    exact trivial

/-- `do_mkdir` and `do_touch` make one inode, or change nothing. -/
theorem makePath_effect (hs : Sound s) {type path : Nat} {mem : Store}
    (ht : type = iDir ∨ type = iFile) (hv : ∀ j ∈ visits path mem s, IsDir s.disk j) :
    Holds AnyHalt (fun r => Effect R s r.2.2) (makePath type path mem s) := by
  have hlt : type < 2 ^ 32 := by
    rcases ht with ht | ht
    · rw [ht]
      decide
    · rw [ht]
      decide
  refine (makePath_spec hs.volume hv hlt).mono fun r hr => ?_
  obtain ⟨hext, ⟨hd, _⟩ | ⟨p, k, i, b, hp, hmade, _⟩⟩ := hr
  · exact .of_reads hs ⟨hd, hext⟩
  · exact .of_change hs (hs.volume.made hp hmade ht) (.made hp hmade ht) hext

/-- `do_rmdir` and `do_rm` remove one inode or one link, or change nothing. -/
theorem removePath_effect (hs : Sound s) {type path : Nat} {mem : Store}
    (hv : ∀ j ∈ visits path mem s, IsDir s.disk j) (hR0 : ∀ x, R x → x ≠ 0)
    (hR : ∀ p dir mem' x, removeTarget type path mem s = some (p, dir, mem', x) →
      lastLink s.disk x type → InodeUsed s.disk x → ino s.disk x inoType = type → R x) :
    Holds AnyHalt (fun r => Effect R s r.2.2) (removePath type path mem s) := by
  refine (removePath_spec hs.volume hv).mono fun r hr => ?_
  obtain ⟨hext, ⟨hd, _⟩ | ⟨p, dir, mem', x, k, hend⟩⟩ := hr
  · exact .of_reads hs ⟨hd, hext⟩
  · rcases hend.effect with ⟨_, _, hun⟩ | ⟨hlast, hused, hty, hrem⟩
    · have hq := hun.quiet hs.volume hend.parent
      exact .of_change hs (hs.volume.quiet hq) (.quiet hq) hext
    · have hRx := hR p dir mem' x hend.target hlast hused hty
      have hch : Change R s.disk r.2.2.disk := .removed hend.parent hused hRx hrem
      exact .of_change hs (hs.volume.change hR0 hch) hch hext

/-- `do_fopen` opens a file that is there or makes one. -/
theorem doFopen_effect (hs : Sound s) {path mode pid : Nat} {mem : Store}
    (hv : ∀ j ∈ fopenVisits path mem s, IsDir s.disk j) (hr : fopenRefused path mem s = false) :
    Holds AnyHalt (fun r => Effect R s r.2.2) (doFopen path mode pid mem s) := by
  refine (doFopen_spec hs.volume hv hr).mono fun r hr => ?_
  obtain ⟨d, hd, hopen⟩ := hr
  have hfirst : Change R s.disk d ∧ Volume d := by
    rcases hd with hd | ⟨p, k, i, b, hp, hmade⟩
    · exact ⟨.same hs.volume hd, by rw [hd]; exact hs.volume⟩
    · exact ⟨.made hp hmade (Or.inr rfl), hs.volume.made hp hmade (Or.inr rfl)⟩
  rcases hopen with ⟨hsame, hext⟩ | ⟨fd, x, m, _, _, _, hop, hext⟩
  · refine ⟨⟨d, hfirst.1, .same hfirst.2 hsame⟩, hext.writes, fun k => ?_⟩
    rw [hext.fdesc]
    exact hs.bounded k
  · refine ⟨⟨d, hfirst.1, .quiet (hop.quiet hfirst.2)⟩, hext.writes, fun k => ?_⟩
    rw [hext.fdesc]
    exact bounded_setFdesc hs.bounded ⟨by simp, by simp⟩ k

/-- `do_ln` makes one link, or changes nothing. -/
theorem doLn_effect (hs : Sound s) {srcPath dstPath : Nat} {mem : Store}
    (hv : ∀ j ∈ lnVisits srcPath dstPath mem s, IsDir s.disk j) :
    Holds AnyHalt (fun r => Effect R s r.2.2) (doLn srcPath dstPath mem s) := by
  refine (doLn_spec hs.volume hv).mono fun r hr => ?_
  obtain ⟨hext, ⟨hd, _⟩ | ⟨p, k, q, l, x, hp, _, _, _, _, hx, hlink, _⟩⟩ := hr
  · exact .of_reads hs ⟨hd, hext⟩
  · have hq := hlink.quiet hs.volume hp hx
    exact .of_change hs (hs.volume.quiet hq) (.quiet hq) hext

/-- `do_mkfs` formats the disk, or keeps it. -/
theorem doMkfs_effect (hs : Sound s) (reset : Bool) :
    Holds AnyHalt (fun r => Effect R s r.2) (doMkfs reset s) := by
  obtain ⟨s', hrun, hcase⟩ := doMkfs_spec reset s
  rw [hrun]
  rcases hcase with ⟨_, hd, hext⟩ | ⟨t, hext, hf⟩
  · exact .of_reads hs ⟨hd, hext⟩
  · obtain ⟨c, hext'⟩ := hf.ext
    obtain ⟨ws, hws, harea⟩ := hext.writes
    obtain ⟨ws', hws', harea'⟩ := hext'.writes
    refine ⟨⟨s'.disk, ?_, .same ?_ rfl⟩, ⟨ws ++ ws', ?_, ?_⟩, fun k => ?_⟩
    · rw [hf.disk]
      exact .format t
    · rw [hf.disk]
      exact formatted_volume
    · change s'.writes = _
      rw [hws', ← List.append_assoc, ← hws]
    · intro w hw
      rcases List.mem_append.mp hw with hw | hw
      · exact harea w hw
      · exact harea' w hw
    · change (s'.fdescArray k).Bounded
      rw [hext'.fdesc]
      change (t.fdescArray k).Bounded
      rw [hext.fdesc]
      exact hs.bounded k

end Effects

theorem KeepsRoot.ne_zero {s : State} {type path x : Nat} {mem : Store}
    (h : KeepsRoot type path mem s) (hx : removedInode type path mem s = some x) : x ≠ 0 := by
  intro h0
  rw [h0] at hx
  exact h hx

/-- The inodes a call may remove: a directory other than the root, or a file. -/
def Removable (s : State) (c : Call) (x : Nat) : Prop :=
  removes s c = some x ∧ x ≠ 0 ∧ (IsDir s.disk x ∨ ∃ path mem, c = .rm path mem ∧ IsFile s.disk x)

/-- **What a call does.** -/
theorem exec_effect {s : State} (hs : Sound s) {c : Call} (hok : CallOk s c) :
    Holds AnyHalt (Effect (Removable s c) s) (exec c s) := by
  have hR0 : ∀ x, Removable s c x → x ≠ 0 := fun x hx => hx.2.1
  cases c with
  | mkfs reset => exact ended'_holds (doMkfs_effect hs reset)
  | statfs => exact Effect.of_reads hs (doStatfs_reads s)
  | cd path mem => exact ended_holds ((doCd_readOnly path mem s).mono fun _ h => .of_readOnly hs h)
  | mkdir path mem => exact ended_holds (makePath_effect hs (Or.inl rfl) hok)
  | rmdir path mem =>
      refine ended_holds (removePath_effect hs hok.1 hR0 ?_)
      intro p dir mem' x ht hlast hused hty
      have hrem := removedInode_eq_some.mpr ⟨p, dir, mem', ht, hlast⟩
      exact ⟨hrem, hok.2.ne_zero hrem, Or.inl ⟨hused, hty⟩⟩
  | ls path option mem =>
      exact ended_holds ((doLs_reads path option mem s).mono fun _ h => .of_reads hs h)
  | touch path mem => exact ended_holds (makePath_effect hs (Or.inr rfl) hok)
  | cat path mem => exact ended_holds ((doCat_reads path mem s).mono fun _ h => .of_reads hs h)
  | fopen path mode pid mem => exact ended_holds (doFopen_effect hs hok.1 hok.2)
  | fread fd buff length =>
      exact ended_holds ((doFread_fileStep hs hok buff length).mono fun _ h => .of_fileStep hs h)
  | fwrite fd buff length =>
      exact ended'_holds ((doFwrite_fileStep hs hok buff length).mono fun _ h => .of_fileStep hs h)
  | fclose fd => exact ended'_holds (doFclose_effect hs fd)
  | ln srcPath dstPath mem => exact ended_holds (doLn_effect hs hok)
  | rm path mem =>
      refine ended_holds (removePath_effect hs hok hR0 ?_)
      intro p dir mem' x ht hlast hused hty
      refine ⟨removedInode_eq_some.mpr ⟨p, dir, mem', ht, hlast⟩, ?_,
        Or.inr ⟨path, mem, rfl, hused, hty⟩⟩
      -- the root is no file
      intro h0
      rw [h0, hs.volume.root.2] at hty
      exact absurd hty (by decide)
  | lseek fd offset whence junk =>
      exact ended'_holds ((doLseek_fileStep hs hok offset whence junk).mono fun _ h =>
        .of_fileStep hs h)

/-- Every call keeps a sound state. -/
theorem exec_sound {s s' : State} {c : Call} (hs : Sound s) (hok : CallOk s c)
    (h : exec c s = .ok s') : Sound s' :=
  ((exec_effect hs hok).of_ok h).sound hs fun _ hx => hx.2.1

/-- A disk just formatted is sound. -/
theorem doMkfs_sound {s s' : State} (hb : ∀ fd, (s.fdescArray fd).Bounded)
    (h : doMkfs true s = .ok (0, s')) : Sound s' ∧ ∃ t, s'.disk = formatted t := by
  obtain ⟨t', hrun, hcase⟩ := doMkfs_spec true s
  rw [h] at hrun
  cases hrun
  rcases hcase with ⟨hcon, _⟩ | ⟨t, hext, hf⟩
  · cases hcon
  · obtain ⟨c, hext'⟩ := hf.ext
    refine ⟨⟨?_, fun fd => ?_⟩, t, hf.disk⟩
    · rw [hf.disk]
      exact formatted_volume
    · rw [hext'.fdesc]
      change (t.fdescArray fd).Bounded
      rw [hext.fdesc]
      exact hb fd

end Fs
