import OslabRiscv.Fs.FileSemantics

/-!
# Where a seek may go

The targets of `do_lseek` are computed in 32 bits, so a negative position is a
huge one.  Its read half refuses every target beyond the end and thereby most
negative ones; its write half refuses nothing and extends the file.
`doLseek_refuses` and `doLseek_accepts` are the two ways the call ends.
-/

namespace Fs

open Outcome

/-- The position an offset is to move to, over the integers, lies before the
start of the file, for the read or the write offset that the mode makes
`do_lseek` update. -/
def SeeksBelow (f : Fdesc) (size : Nat) (offset : Int) (whence : Nat) : Prop :=
  (f.mode &&& 1 ≠ 0 ∧ seekTo offset whence f.rdOffset size < 0) ∨
    (f.mode &&& 2 ≠ 0 ∧ seekTo offset whence f.wrOffset size < 0)

/-- The read half refuses: the 32-bit target lies beyond the end. -/
def SeekRefused (f : Fdesc) (size : Nat) (offset : Int) (whence : Nat) : Prop :=
  f.mode &&& 1 ≠ 0 ∧ (size : Int) < seekTo offset whence f.rdOffset size % 2 ^ 32

instance (f : Fdesc) (size : Nat) (offset : Int) (whence : Nat) :
    Decidable (SeekRefused f size offset whence) := inferInstanceAs (Decidable (_ ∧ _))

instance (f : Fdesc) (size : Nat) (offset : Int) (whence : Nat) :
    Decidable (SeeksBelow f size offset whence) := inferInstanceAs (Decidable (_ ∨ _))

/-- The disk (with the size of every file and the block map) and all
descriptors are as before. -/
def Untouched (s t : State) : Prop := t.disk = s.disk ∧ t.fdescArray = s.fdescArray

/-- What `do_lseek` owes a position below zero: `-1`, and whenever `-1` is
returned nothing has changed. -/
def SeekGuarded (s : State) (fd : Nat) (offset : Int) (whence junk : Nat) : Prop :=
  (SeeksBelow (s.fdescArray fd) (ino s.disk (s.fdescArray fd).inodeId inoSize) offset whence →
    ∃ t, doLseek fd offset whence junk s = .ok (minusOne, t)) ∧
  ∀ t, doLseek fd offset whence junk s = .ok (minusOne, t) → Untouched s t

section Seek

variable {s : State} {fd : Nat} {offset : Int} {whence : Nat}

/-- A descriptor in use that names an inode of the table. -/
structure OpenDesc (s : State) (fd : Nat) : Prop where
  lt : fd < numFdescs
  occupied : (s.fdescArray fd).status ≠ fAvailable
  inode : (s.fdescArray fd).inodeId < 512

/-- The 32-bit target is the position modulo `2 ^ 32`. -/
theorem seekTarget_mod (offset : Int) {whence : Nat} (base size junk : Nat) (hw : whence < 3) :
    (seekTarget offset whence base size junk : Int) = seekTo offset whence base size % 2 ^ 32 := by
  have hmod : ∀ x : Int, ((toU32 x : Nat) : Int) = x % 2 ^ 32 := by
    intro x
    unfold toU32
    omega
  unfold seekTarget seekTo
  split_ifs
  · exact hmod _
  · exact hmod _
  · exact hmod _
  · omega

theorem OpenDesc.size (h : OpenDesc s fd) :
    inodeGet (getInode (s.fdescArray fd).inodeId s) (inodePtr (s.fdescArray fd).inodeId) inoSize =
      ino s.disk (s.fdescArray fd).inodeId inoSize := by
  rw [inodeGet_eq _ _ (by decide), flushed_getInode h.inode]

theorem seekRefused_iff {f : Fdesc} {size junk : Nat} (hw : whence < 3) :
    SeekRefused f size offset whence ↔
      f.mode &&& 1 ≠ 0 ∧ size < seekTarget offset whence f.rdOffset size junk := by
  unfold SeekRefused
  rw [← seekTarget_mod offset f.rdOffset size junk hw]
  constructor
  · intro h
    exact ⟨h.1, by exact_mod_cast h.2⟩
  · intro h
    exact ⟨h.1, by exact_mod_cast h.2⟩

/-- A refused seek has only loaded the inode. -/
theorem doLseek_refuses (h : OpenDesc s fd) (hw : whence < 3) (junk : Nat)
    (hr : SeekRefused (s.fdescArray fd) (ino s.disk (s.fdescArray fd).inodeId inoSize)
      offset whence) :
    doLseek fd offset whence junk s =
      .ok (minusOne, getInode (s.fdescArray fd).inodeId s) := by
  unfold doLseek
  rw [fdescAt_ofNat h.lt]
  change (if (s.fdescArray fd).status = fAvailable then _ else _) = _
  rw [if_neg h.occupied]
  simp only [h.size]
  rw [if_pos ((seekRefused_iff hw).mp hr)]

/-- A seek that is not refused returns 0, if it returns. -/
theorem doLseek_accepts (h : OpenDesc s fd) (hw : whence < 3) (junk : Nat)
    (hr : ¬SeekRefused (s.fdescArray fd) (ino s.disk (s.fdescArray fd).inodeId inoSize)
      offset whence) :
    Holds (fun _ => True) (fun r => r.1 = 0) (doLseek fd offset whence junk s) := by
  unfold doLseek
  rw [fdescAt_ofNat h.lt]
  change Holds _ _ (if (s.fdescArray fd).status = fAvailable then _ else _)
  rw [if_neg h.occupied]
  simp only [h.size]
  rw [if_neg (fun hc => hr ((seekRefused_iff hw).mpr hc))]
  by_cases hwr : (if (s.fdescArray fd).mode &&& 1 ≠ 0 then
      { s.fdescArray fd with
        rdOffset := seekTarget offset whence (s.fdescArray fd).rdOffset
          (ino s.disk (s.fdescArray fd).inodeId inoSize) junk }
      else s.fdescArray fd).mode &&& 2 ≠ 0
  · rw [if_pos hwr]
    generalize seekExtend _ _ _ _ = x
    cases x with
    | ok t => exact rfl
    | error e => exact True.intro
  · rw [if_neg hwr]
    rfl

theorem not_minusOne_of_accepted (h : OpenDesc s fd) (hw : whence < 3) {junk : Nat}
    (hr : ¬SeekRefused (s.fdescArray fd) (ino s.disk (s.fdescArray fd).inodeId inoSize)
      offset whence) (t : State) :
    doLseek fd offset whence junk s ≠ .ok (minusOne, t) := by
  intro hret
  have hzero := (doLseek_accepts h hw junk hr).of_ok hret
  exact absurd (show (0 : Nat) = minusOne from hzero.symm) (by decide)

/-- **Seeks below zero.**  `do_lseek` refuses them, changing nothing, exactly
when its read half does. -/
theorem lseek_guarded (h : OpenDesc s fd) (hw : whence < 3) (junk : Nat) :
    SeekGuarded s fd offset whence junk ↔
      (SeeksBelow (s.fdescArray fd) (ino s.disk (s.fdescArray fd).inodeId inoSize) offset whence →
        SeekRefused (s.fdescArray fd) (ino s.disk (s.fdescArray fd).inodeId inoSize)
          offset whence) := by
  constructor
  · intro hg hbelow
    obtain ⟨t, ht⟩ := hg.1 hbelow
    by_contra hr
    exact not_minusOne_of_accepted h hw hr t ht
  · intro hcond
    refine ⟨fun hbelow => ⟨_, doLseek_refuses h hw junk (hcond hbelow)⟩, fun t ht => ?_⟩
    by_cases hr : SeekRefused (s.fdescArray fd)
        (ino s.disk (s.fdescArray fd).inodeId inoSize) offset whence
    · rw [doLseek_refuses h hw junk hr] at ht
      injection ht with ht
      obtain rfl := congrArg Prod.snd ht
      exact ⟨rfl, rfl⟩
    · exact absurd ht (not_minusOne_of_accepted h hw hr t)

/-- The descriptor that may only read refuses to go to -1. -/
theorem lseek_guarded_sample :
    OpenDesc sampleState 1 ∧ SeekGuarded sampleState 1 (-1) 0 0 := by
  have hopen : OpenDesc sampleState 1 := ⟨by decide, by decide, by decide⟩
  refine ⟨hopen, (lseek_guarded hopen (by decide) 0).mpr ?_⟩
  decide

/-- The descriptor that may only write goes to the end of 4GB instead. -/
theorem lseek_unguarded_write : ¬SeekGuarded sampleState 0 (-1) 0 0 := by
  have hopen : OpenDesc sampleState 0 := ⟨by decide, by decide, by decide⟩
  intro hg
  obtain ⟨t, ht⟩ := hg.1 (by decide)
  exact not_minusOne_of_accepted hopen (by decide) (by decide) t ht

end Seek

end Fs
