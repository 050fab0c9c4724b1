import OslabRiscv.Fs.Transfer

/-!
# Files as byte arrays

Above the block trees a file is a size and an array of bytes, and a descriptor
is a pair of offsets into it.  `View` is that model: `View.step` says what
`do_fwrite`, `do_fread` and `do_lseek` are for, without blocks, buffers or
maps.  `view` reads the model off a disk.

A `WellFormed` volume with its descriptor table refines the model call by call
(`fileOp_refines`) and hence over every interleaved sequence of calls on any
descriptors (`fileOps_refine`), as long as the volume does not fill up.
-/

namespace Fs

open ByteStore Outcome

/-! ## The model -/

/-- A file as its users see it. -/
structure FileView where
  size : Nat
  bytes : Store

/-- All files, by inode number, and the descriptor table. -/
structure View where
  file : Nat → Option FileView
  fdesc : Nat → Fdesc

/-- A call on a descriptor.  `junk` is the value of the uninitialised local
variable of `do_lseek`. -/
inductive FileOp
  | fwrite (fd : Nat) (buff : Store) (length : Int)
  | fread (fd : Nat) (buff : Store) (length : Int)
  | lseek (fd : Nat) (offset : Int) (whence junk : Nat)

namespace View

/-- The file a descriptor is open on. -/
def fileOf (v : View) (f : Fdesc) : FileView := (v.file f.inodeId).getD ⟨0, zeros⟩

/-- Replace the file and the descriptor behind `fd`. -/
def update (v : View) (fd : Nat) (f : Fdesc) (g : FileView) : View where
  file j := if j = f.inodeId then some g else v.file j
  fdesc k := if k = fd then f else v.fdesc k

/-- What a call returns, the user's buffer after it, and what it does to the
files.  Offsets and sizes are plain numbers here. -/
def step (v : View) : FileOp → (Nat × Store) × View
  | .fwrite fd buff length =>
    let f := v.fdesc fd
    let g := v.fileOf f
    let n := length.toNat
    if f.mode = oRdonly ∨ f.status = fAvailable then ((0, buff), v)
    else ((n, buff), v.update fd { f with wrOffset := f.wrOffset + n }
      ⟨max g.size (f.wrOffset + n), blit g.bytes f.wrOffset buff 0 n⟩)
  | .fread fd buff length =>
    let f := v.fdesc fd
    let g := v.fileOf f
    let n := length.toNat
    if f.mode = oWronly ∨ f.status = fAvailable ∨ g.size < f.rdOffset + n then ((0, buff), v)
    else ((n, blit buff 0 g.bytes f.rdOffset n),
      v.update fd { f with rdOffset := f.rdOffset + n } g)
  | .lseek fd offset whence _ =>
    let f := v.fdesc fd
    let g := v.fileOf f
    let rt := (seekTo offset whence f.rdOffset g.size).toNat
    let wt := (seekTo offset whence f.wrOffset g.size).toNat
    if f.status = fAvailable ∨ (f.mode &&& 1 ≠ 0 ∧ g.size < rt) then ((minusOne, zeros), v)
    else ((0, zeros), v.update fd (seekFdesc f rt wt) ⟨seekSize f g.size wt, g.bytes⟩)

/-- A whole sequence of calls, with the results in order. -/
def run (v : View) : List FileOp → List (Nat × Store) × View
  | [] => ([], v)
  | op :: ops =>
    let (r, v) := v.step op
    let (rs, v) := v.run ops
    (r :: rs, v)

/-- The calls the model is about: one of the sixteen descriptors, a length that
is not negative, a known `whence`, and every offset the call aims at representable
in 32 bits. -/
def Admissible (v : View) : FileOp → Prop
  | .fwrite fd _ length =>
    fd < numFdescs ∧ 0 ≤ length ∧ ((v.fdesc fd).wrOffset + length < 2 ^ 32)
  | .fread fd _ length =>
    fd < numFdescs ∧ 0 ≤ length ∧ ((v.fdesc fd).rdOffset + length < 2 ^ 32)
  | .lseek fd offset whence _ =>
    let f := v.fdesc fd
    let size := (v.fileOf f).size
    fd < numFdescs ∧ whence < 3 ∧
      (f.mode &&& 1 ≠ 0 → 0 ≤ seekTo offset whence f.rdOffset size ∧
        seekTo offset whence f.rdOffset size < 2 ^ 32) ∧
      (f.mode &&& 2 ≠ 0 → 0 ≤ seekTo offset whence f.wrOffset size ∧
        seekTo offset whence f.wrOffset size < 2 ^ 32)

/-- Every call of the sequence is admissible when its turn comes. -/
def AdmissibleRun (v : View) : List FileOp → Prop
  | [] => True
  | op :: ops => v.Admissible op ∧ (v.step op).2.AdmissibleRun ops

end View

/-! ## Reading the model off a disk -/

/-- Inode `i` is in use and is a file. -/
def IsFile (d : Store) (i : Nat) : Prop := InodeUsed d i ∧ ino d i inoType = iFile

instance (d : Store) (i : Nat) : Decidable (IsFile d i) :=
  inferInstanceAs (Decidable ((i < 512 ∧ imap d i ≠ 0) ∧ ino d i inoType = iFile))

/-- The files on the disk and the descriptors. -/
def view (s : State) : View where
  file i := if IsFile s.disk i then some ⟨ino s.disk i inoSize, fileByte s.disk i⟩ else none
  fdesc := s.fdescArray

/-- The volume and the descriptor table are well formed. -/
structure WellFormed (s : State) : Prop where
  /-- Block 0 is in use; every block in the tree of an inode in use is marked
  used and referenced once. -/
  owned : Owned s.disk
  /-- A directory whose block is block 0 is the root. -/
  zero_root : ∀ j, InodeUsed s.disk j → ino s.disk j inoType = iDir →
    ino s.disk j inoDirectBlock = 0 → j = 0
  /-- An inode in use stores its own number. -/
  id : ∀ j, InodeUsed s.disk j → ino s.disk j inoInodeId = j
  /-- A free inode is all zero. -/
  free_zero : ∀ j, j < 512 → imap s.disk j = 0 → ∀ k, k < 128 → s.disk (inoAddr j + k) = 0
  /-- Beyond its size a file holds zeros. -/
  beyond : ∀ j, IsFile s.disk j → ∀ x, ino s.disk j inoSize ≤ x → fileByte s.disk j x = 0
  /-- An occupied descriptor names a file. -/
  fdesc : ∀ fd, fd < numFdescs → (s.fdescArray fd).status ≠ fAvailable →
    IsFile s.disk (s.fdescArray fd).inodeId

/-- The code's side of a call: the value returned, the user's buffer and the
state after it. -/
def runOp (s : State) : FileOp → Except Halt ((Nat × Store) × State)
  | .fwrite fd buff length => do
    let (n, s) ← doFwrite fd buff length s
    .ok ((n, buff), s)
  | .fread fd buff length => do
    let (n, buff, s) ← doFread fd buff length s
    .ok ((n, buff), s)
  | .lseek fd offset whence junk => do
    let (n, s) ← doLseek fd offset whence junk s
    .ok ((n, zeros), s)

/-- The code's side of a sequence of calls. -/
def runOps (s : State) : List FileOp → Except Halt (List (Nat × Store) × State)
  | [] => .ok ([], s)
  | op :: ops => do
    let (r, s) ← runOp s op
    let (rs, s) ← runOps s ops
    .ok (r :: rs, s)

/-! ## One call refines the model -/

section Step

variable {s : State}

/-- A descriptor in use is open on its inode. -/
theorem WellFormed.openOn (h : WellFormed s) {fd : Nat} (hfd : fd < numFdescs)
    (hopen : (s.fdescArray fd).status ≠ fAvailable) : OpenOn s fd (s.fdescArray fd) :=
  ⟨hfd, rfl, hopen, h.owned, (h.fdesc fd hfd hopen).1, h.id _ (h.fdesc fd hfd hopen).1⟩

/-- The file that a descriptor shows. -/
theorem view_fileOf {f : Fdesc} (h : IsFile s.disk f.inodeId) :
    (view s).fileOf f = ⟨ino s.disk f.inodeId inoSize, fileByte s.disk f.inodeId⟩ := by
  unfold View.fileOf view
  simp only [if_pos h, Option.getD_some]

/-- Work on a file uses no other inode. -/
theorem Touched.inodeUsed {i j : Nat} {d d' : Store} (h : Touched i d d') :
    InodeUsed d' j ↔ InodeUsed d j :=
  inodeUsed_congr (h.imap j)

/-- No type changes. -/
theorem Touched.type_eq {i j : Nat} {d d' : Store} (h : Touched i d d') (hj : j < 512) :
    Fs.ino d' j inoType = Fs.ino d j inoType :=
  h.ino j inoType hj (by decide) (Or.inr (Or.inl (by decide)))

/-- Files stay files. -/
theorem Touched.isFile {i j : Nat} {d d' : Store} (h : Touched i d d') :
    IsFile d' j ↔ IsFile d j :=
  typed_congr h.inodeUsed h.type_eq iFile

section Update

variable {s' : State} {fd v : Nat} {bytes : Store} {g : Fdesc}

/-- A call that updates one file and its descriptor does so in the model. -/
theorem view_update (h : WellFormed s) (hext : Extends (setFdesc fd g s) s')
    (hf : IsFile s.disk g.inodeId) (hu : Updated g.inodeId v bytes s s') :
    view s' = (view s).update fd g ⟨v, bytes⟩ := by
  unfold view View.update
  congr 1
  · funext j
    simp only
    by_cases hj : j = g.inodeId
    · rw [if_pos hj, hj, if_pos (hu.touched.isFile.mpr hf), hu.size, hu.bytes]
    · rw [if_neg hj]
      by_cases hfj : IsFile s.disk j
      · rw [if_pos (hu.touched.isFile.mpr hfj), if_pos hfj, hu.touched.fileByte h.owned hfj.1 hj,
          hu.touched.ino j inoSize hfj.1.1 (by decide) (Or.inl hj)]
      · rw [if_neg (fun hcon => hfj (hu.touched.isFile.mp hcon)), if_neg hfj]
  · exact hext.fdesc

/-- Such a call keeps the volume well formed, if the new bytes are zero beyond
the new size and the descriptor stays open on its file. -/
theorem WellFormed.update (h : WellFormed s) (hext : Extends (setFdesc fd g s) s')
    (hf : IsFile s.disk g.inodeId) (hu : Updated g.inodeId v bytes s s')
    (hbeyond : ∀ x, v ≤ x → bytes x = 0) : WellFormed s' where
  owned := hu.owned
  zero_root j hj htype hz := by
    have hj' := hu.touched.inodeUsed.mp hj
    rw [hu.touched.ino j inoType hj'.1 (by decide) (Or.inr (Or.inl (by decide)))] at htype
    have hne : j ≠ g.inodeId := by
      intro heq
      have htype' := hf.2
      rw [← heq, htype] at htype'
      exact absurd htype' (by decide)
    rw [hu.touched.ino j inoDirectBlock hj'.1 (by decide) (Or.inl hne)] at hz
    exact h.zero_root j hj' htype hz
  id j hj := by
    have hj' := hu.touched.inodeUsed.mp hj
    rw [hu.touched.ino j inoInodeId hj'.1 (by decide) (Or.inr (Or.inl (by decide)))]
    exact h.id j hj'
  free_zero j hj hfree k hk := by
    rw [hu.touched.imap j hj] at hfree
    have hne : j ≠ g.inodeId := fun heq => hf.1.2 (heq ▸ hfree)
    have hword : ino s'.disk j (4 * (k / 4)) = 0 := by
      rw [hu.touched.ino j _ hj (by omega) (Or.inl hne)]
      refine rd32_eq_zero fun m hm => ?_
      rw [Nat.add_assoc]
      exact h.free_zero j hj hfree _ (by omega)
    have hbyte := eq_zero_of_rd32_eq_zero hword (show k % 4 < 4 by omega)
    rwa [Nat.add_assoc, Nat.div_add_mod] at hbyte
  beyond j hj x hx := by
    have hj' := hu.touched.isFile.mp hj
    by_cases hjg : j = g.inodeId
    · subst hjg
      rw [hu.size] at hx
      rw [hu.bytes]
      exact hbeyond x hx
    · rw [hu.touched.ino j inoSize hj'.1.1 (by decide) (Or.inl hjg)] at hx
      rw [hu.touched.fileByte h.owned hj'.1 hjg]
      exact h.beyond j hj' x hx
  fdesc k hk hopen := by
    rw [hu.touched.isFile]
    rw [hext.fdesc] at hopen ⊢
    by_cases hkf : k = fd
    · subst hkf
      rw [setFdesc_fdescArray_self]
      exact hf
    · rw [setFdesc_fdescArray_of_ne _ _ hkf] at hopen ⊢
      exact h.fdesc k hk hopen

end Update

/-- What one call of the code owes to the model. -/
def Refines (s : State) (op : FileOp) (r : (Nat × Store) × State) : Prop :=
  r.1 = ((view s).step op).1 ∧ view r.2 = ((view s).step op).2 ∧ WellFormed r.2

/-- Loading an inode into the sector buffer is invisible. -/
theorem WellFormed.getInode (h : WellFormed s) (i : Nat) : WellFormed (getInode i s) :=
  ⟨h.owned, h.zero_root, h.id, h.free_zero, h.beyond, h.fdesc⟩

/-- `do_fwrite` does to the files what the model says. -/
theorem fwrite_refines (h : WellFormed s) {fd : Nat} {buff : Store} {length : Int}
    (ha : (view s).Admissible (.fwrite fd buff length)) :
    Holds (· = Halt.noMoreBlocks) (Refines s (.fwrite fd buff length))
      (runOp s (.fwrite fd buff length)) := by
  obtain ⟨hfd, hlen, hlt⟩ := ha
  obtain ⟨n, rfl⟩ := Int.eq_ofNat_of_zero_le hlen
  simp only [view] at hlt
  have hd : (view s).fdesc fd = s.fdescArray fd := rfl
  unfold runOp
  by_cases hno : (s.fdescArray fd).mode = oRdonly ∨ (s.fdescArray fd).status = fAvailable
  · have hcall : doFwrite fd buff n s = .ok (0, s) := by
      unfold doFwrite
      rw [fdescAt_ofNat hfd]
      change (if (s.fdescArray fd).mode = oRdonly then _ else _) = _
      rcases hno with hm | hs
      · rw [if_pos hm]
      · by_cases hm : (s.fdescArray fd).mode = oRdonly
        · rw [if_pos hm]
        · rw [if_neg hm, if_pos hs]
    simp only [hcall]
    refine ⟨?_, ?_, h⟩
    · simp only [View.step, hd, if_pos hno]
    · simp only [View.step, hd, if_pos hno]
  · have hm : (s.fdescArray fd).mode ≠ oRdonly := fun hc => hno (Or.inl hc)
    have hs : (s.fdescArray fd).status ≠ fAvailable := fun hc => hno (Or.inr hc)
    have hopen := h.openOn hfd hs
    have hfile := h.fdesc fd hfd hs
    refine (doFwrite_spec hopen hm buff (n := n) (by omega)).bind fun r hr => ?_
    obtain ⟨m, t⟩ := r
    obtain ⟨hm, hupd, hext⟩ := hr
    simp only at hm hupd hext
    subst hm
    refine ⟨?_, ?_, ?_⟩
    · simp only [View.step, hd, if_neg hno, Int.toNat_natCast]
    · simp only [View.step, hd, if_neg hno, Int.toNat_natCast, view_fileOf hfile]
      exact view_update h hext hfile hupd
    · refine h.update hext hfile hupd fun x hx => ?_
      rw [blit_apply_of_ne _ _ (by omega)]
      exact h.beyond _ hfile x (by omega)

/-- So does `do_fread`. -/
theorem fread_refines (h : WellFormed s) {fd : Nat} {buff : Store} {length : Int}
    (ha : (view s).Admissible (.fread fd buff length)) :
    Holds (· = Halt.noMoreBlocks) (Refines s (.fread fd buff length))
      (runOp s (.fread fd buff length)) := by
  obtain ⟨hfd, hlen, hlt⟩ := ha
  obtain ⟨n, rfl⟩ := Int.eq_ofNat_of_zero_le hlen
  simp only [view] at hlt
  have hd : (view s).fdesc fd = s.fdescArray fd := rfl
  unfold runOp
  by_cases hno : (s.fdescArray fd).mode = oWronly ∨ (s.fdescArray fd).status = fAvailable
  · have hcall : doFread fd buff n s = .ok (0, buff, s) := by
      unfold doFread
      rw [fdescAt_ofNat hfd]
      change (if (s.fdescArray fd).mode = oWronly then _ else _) = _
      rcases hno with hm | hs
      · rw [if_pos hm]
      · by_cases hm : (s.fdescArray fd).mode = oWronly
        · rw [if_pos hm]
        · rw [if_neg hm, if_pos hs]
    have hmodel : (view s).step (.fread fd buff n) = ((0, buff), view s) := by
      simp only [View.step, hd, ← or_assoc]
      rw [if_pos (Or.inl hno)]
    simp only [hcall]
    exact ⟨by rw [hmodel], by rw [hmodel], h⟩
  · have hm : (s.fdescArray fd).mode ≠ oWronly := fun hc => hno (Or.inl hc)
    have hs : (s.fdescArray fd).status ≠ fAvailable := fun hc => hno (Or.inr hc)
    have hopen := h.openOn hfd hs
    have hfile := h.fdesc fd hfd hs
    have hoff : (s.fdescArray fd).rdOffset + n < 2 ^ 32 := by omega
    by_cases hshort : ino s.disk (s.fdescArray fd).inodeId inoSize < (s.fdescArray fd).rdOffset + n
    · have hcall : doFread fd buff n s =
          .ok (0, buff, getInode (s.fdescArray fd).inodeId s) := by
        unfold doFread
        rw [fdescAt_ofNat hfd]
        change (if (s.fdescArray fd).mode = oWronly then _ else _) = _
        rw [if_neg hm, if_neg hs, toU32_ofNat (by omega)]
        simp only [hopen.inodeGet_size]
        rw [Nat.mod_eq_of_lt hoff, if_pos hshort]
      have hmodel : (view s).step (.fread fd buff n) = ((0, buff), view s) := by
        simp only [View.step, hd, view_fileOf hfile, Int.toNat_natCast]
        rw [if_pos (Or.inr (Or.inr hshort))]
      simp only [hcall]
      exact ⟨by rw [hmodel], by rw [hmodel]; rfl, h.getInode _⟩
    · have hmodel : (view s).step (.fread fd buff n) =
          ((n, blit buff 0 (fileByte s.disk (s.fdescArray fd).inodeId)
            (s.fdescArray fd).rdOffset n),
          (view s).update fd { s.fdescArray fd with
              rdOffset := (s.fdescArray fd).rdOffset + n }
            ⟨ino s.disk (s.fdescArray fd).inodeId inoSize,
              fileByte s.disk (s.fdescArray fd).inodeId⟩) := by
        simp only [View.step, hd, view_fileOf hfile, Int.toNat_natCast]
        rw [if_neg]
        intro hcon
        rcases hcon with hc | hc | hc
        · exact hm hc
        · exact hs hc
        · exact hshort hc
      refine (doFread_spec hopen hm buff hoff (by omega)).bind fun r hr => ?_
      obtain ⟨m, out, t⟩ := r
      obtain ⟨hm, hout, hupd, hext⟩ := hr
      simp only at hm hout hupd hext
      subst hm hout
      refine ⟨by rw [hmodel], ?_, ?_⟩
      · rw [hmodel]
        exact view_update h hext hfile hupd
      · exact h.update hext hfile hupd fun x hx => h.beyond _ hfile x hx

/-- So does `do_lseek`. -/
theorem lseek_refines (h : WellFormed s) {fd : Nat} {offset : Int} {whence junk : Nat}
    (ha : (view s).Admissible (.lseek fd offset whence junk)) :
    Holds (· = Halt.noMoreBlocks) (Refines s (.lseek fd offset whence junk))
      (runOp s (.lseek fd offset whence junk)) := by
  obtain ⟨hfd, hwh, hrd, hwr⟩ := ha
  have hd : (view s).fdesc fd = s.fdescArray fd := rfl
  unfold runOp
  by_cases hs : (s.fdescArray fd).status = fAvailable
  · have hcall : doLseek fd offset whence junk s = .ok (minusOne, s) := by
      unfold doLseek
      rw [fdescAt_ofNat hfd]
      change (if (s.fdescArray fd).status = fAvailable then _ else _) = _
      rw [if_pos hs]
    have hmodel : (view s).step (.lseek fd offset whence junk) =
        ((minusOne, zeros), view s) := by
      simp only [View.step, hd]
      rw [if_pos (Or.inl hs)]
    simp only [hcall]
    exact ⟨by rw [hmodel], by rw [hmodel], h⟩
  · have hopen := h.openOn hfd hs
    have hfile := h.fdesc fd hfd hs
    rw [hd, view_fileOf hfile] at hrd hwr
    simp only at hrd hwr
    obtain ⟨rt, hrt⟩ : ∃ rt, rt = (seekTo offset whence (s.fdescArray fd).rdOffset
      (ino s.disk (s.fdescArray fd).inodeId inoSize)).toNat := ⟨_, rfl⟩
    obtain ⟨wt, hwt⟩ : ∃ wt, wt = (seekTo offset whence (s.fdescArray fd).wrOffset
      (ino s.disk (s.fdescArray fd).inodeId inoSize)).toNat := ⟨_, rfl⟩
    have hrt' : (s.fdescArray fd).mode &&& 1 ≠ 0 →
        seekTo offset whence (s.fdescArray fd).rdOffset
          (ino s.disk (s.fdescArray fd).inodeId inoSize) = rt ∧ rt < 2 ^ 32 := by
      intro hm
      have := hrd hm
      omega
    have hwt' : (s.fdescArray fd).mode &&& 2 ≠ 0 →
        seekTo offset whence (s.fdescArray fd).wrOffset
          (ino s.disk (s.fdescArray fd).inodeId inoSize) = wt ∧ wt < 2 ^ 32 := by
      intro hm
      have := hwr hm
      omega
    by_cases hpast : (s.fdescArray fd).mode &&& 1 ≠ 0 ∧
        ino s.disk (s.fdescArray fd).inodeId inoSize < rt
    · have hcall : doLseek fd offset whence junk s =
          .ok (minusOne, getInode (s.fdescArray fd).inodeId s) := by
        unfold doLseek
        rw [fdescAt_ofNat hfd]
        change (if (s.fdescArray fd).status = fAvailable then _ else _) = _
        rw [if_neg hs]
        simp only [hopen.inodeGet_size]
        rw [seekTarget_eq junk hwh (hrt' hpast.1).1 (hrt' hpast.1).2, if_pos hpast]
      have hmodel : (view s).step (.lseek fd offset whence junk) =
          ((minusOne, zeros), view s) := by
        simp only [View.step, hd, view_fileOf hfile, ← hrt, ← hwt]
        rw [if_pos (Or.inr hpast)]
      simp only [hcall]
      exact ⟨by rw [hmodel], by rw [hmodel]; rfl, h.getInode _⟩
    · have hmodel : (view s).step (.lseek fd offset whence junk) =
          ((0, zeros), (view s).update fd (seekFdesc (s.fdescArray fd) rt wt)
            ⟨seekSize (s.fdescArray fd) (ino s.disk (s.fdescArray fd).inodeId inoSize) wt,
              fileByte s.disk (s.fdescArray fd).inodeId⟩) := by
        simp only [View.step, hd, view_fileOf hfile, ← hrt, ← hwt]
        rw [if_neg]
        intro hcon
        rcases hcon with hc | hc
        · exact hs hc
        · exact hpast hc
      have hspec := doLseek_spec hopen junk hwh (fun hm => ⟨(hrt' hm).1, by
        by_contra hlt
        exact hpast ⟨hm, by omega⟩⟩) hwt'
      refine hspec.bind fun r hr => ?_
      obtain ⟨m, t⟩ := r
      obtain ⟨hm, hupd, hext⟩ := hr
      simp only at hm hupd hext
      subst hm
      refine ⟨by rw [hmodel], ?_, ?_⟩
      · rw [hmodel]
        exact view_update h hext hfile hupd
      · refine h.update hext hfile hupd fun x hx => h.beyond _ hfile x ?_
        -- a seek never shrinks the file
        unfold seekSize at hx
        split_ifs at hx <;> omega

/-- **One call refines the model**, whichever call and descriptor it is. -/
theorem fileOp_refines (h : WellFormed s) {op : FileOp} (ha : (view s).Admissible op) :
    Holds (· = Halt.noMoreBlocks) (Refines s op) (runOp s op) := by
  cases op with
  | fwrite fd buff length => exact fwrite_refines h ha
  | fread fd buff length => exact fread_refines h ha
  | lseek fd offset whence junk => exact lseek_refines h ha

/-- A whole sequence of calls refines the model, or the volume fills up. -/
theorem runOps_refines (ops : List FileOp) (s : State) (h : WellFormed s)
    (ha : (view s).AdmissibleRun ops) :
    Holds (· = Halt.noMoreBlocks)
      (fun r => r.1 = ((view s).run ops).1 ∧ view r.2 = ((view s).run ops).2 ∧ WellFormed r.2)
      (runOps s ops) := by
  induction ops generalizing s with
  | nil => exact ⟨rfl, rfl, h⟩
  | cons op ops ih =>
      obtain ⟨hop, hrest⟩ := ha
      unfold runOps
      refine (fileOp_refines h hop).bind fun r hr => ?_
      obtain ⟨res, t⟩ := r
      obtain ⟨hres, hview, hwf⟩ := hr
      simp only at hres hview hwf
      rw [← hview] at hrest
      refine (ih t hwf hrest).bind fun q hq => ?_
      obtain ⟨hout, hviewq, hwfq⟩ := hq
      rw [hview] at hout hviewq
      refine ⟨?_, hviewq, hwfq⟩
      change res :: q.1 = _
      rw [hres, hout]
      rfl

/-- **Files are byte arrays.**  From a well-formed volume, every interleaving of
writes, reads and seeks on any descriptors that does not exhaust the blocks
returns what the model returns, ends in the state the model ends in, and leaves
the volume well formed. -/
theorem fileOps_refine (h : WellFormed s) {ops : List FileOp}
    (ha : (view s).AdmissibleRun ops) (hroom : runOps s ops ≠ .error .noMoreBlocks) :
    ∃ s', runOps s ops = .ok (((view s).run ops).1, s') ∧
      view s' = ((view s).run ops).2 ∧ WellFormed s' := by
  obtain ⟨r, hr, hout, hview, hwf⟩ := (runOps_refines ops s h ha).exists_ok
    (fun e he => he ▸ hroom)
  exact ⟨r.2, by rw [hr, ← hout], hview, hwf⟩

end Step

/-- A volume with the root directory and one empty file. -/
def sampleDisk : Store :=
  wr32 (wr32 (wr32 (wr8 (wr8 (wr8 zeros 8389120 1) 8389121 1) 8389632 1)
    (inoAddr 0 + inoType) iDir) (inoAddr 1 + inoType) iFile) (inoAddr 1 + inoInodeId) 1

/-- The file is open twice, once for writing and once for reading. -/
def sampleState : State where
  disk := sampleDisk
  superblock := zeros
  currentInode := zeros
  fdescArray k :=
    if k = 0 then ⟨1, fOccupied, oWronly, 0, 0⟩
    else if k = 1 then ⟨1, fOccupied, oRdonly, 0, 0⟩
    else ⟨0, fAvailable, 0, 0, 0⟩
  inodeMap := zeros
  blockMap := zeros
  sctBuffer := zeros
  blkBuffer := zeros
  writes := []

/-- Three bytes at the start, a hole up to 4100, one more byte; then read. -/
def sampleOps : List FileOp :=
  [.fwrite 0 (fun _ => 7) 3, .lseek 0 4100 0 0, .fwrite 0 (fun _ => 9) 1, .fread 1 zeros 5]

theorem sampleDisk_zero {k : Nat} (hk : 8389121 < k) (hb : k ≠ 8389632)
    (hi : k < inoAddr 0 ∨ inoAddr 0 + 16 ≤ k ∧ k < inoAddr 1 ∨ inoAddr 1 + 16 ≤ k) :
    sampleDisk k = 0 := by
  simp only [inoAddr] at hi
  unfold sampleDisk
  rw [wr32_apply_of_ne _ (by simp only [inoAddr, inoInodeId]; omega),
    wr32_apply_of_ne _ (by simp only [inoAddr, inoType]; omega),
    wr32_apply_of_ne _ (by simp only [inoAddr, inoType]; omega), wr8_apply_of_ne _ _ hb,
    wr8_apply_of_ne _ _ (by omega), wr8_apply_of_ne _ _ (by omega), zeros_apply]

/-- Its two inodes. -/
theorem sampleDisk_used {j : Nat} (h : InodeUsed sampleDisk j) : j = 0 ∨ j = 1 := by
  by_contra hne
  have hlt := h.1
  refine h.2 (sampleDisk_zero (by omega) (by omega) (Or.inl ?_))
  simp only [inoAddr]
  omega

/-- No position of them has a block. -/
theorem sampleDisk_ref {p : Pos} (hp : p.Live sampleDisk) : ref sampleDisk p = 0 := by
  obtain ⟨i, slot, path⟩ := p
  have hs : slot < 19 := hp.1.1
  have hroot : ref sampleDisk ⟨i, slot, []⟩ = 0 := by
    refine rd32_eq_zero fun k hk => ?_
    apply sampleDisk_zero <;> simp only [inoAddr] <;> omega
  induction path with
  | nil => exact hroot
  | cons o path ih =>
      rw [ref_cons, ih ⟨hp.1.tail, hp.2⟩]
      rfl

/-- The sample state is well formed. -/
theorem sampleState_wellFormed : WellFormed sampleState where
  owned := by
    refine ⟨by decide, ?_, ?_⟩
    · intro p hp hne
      exact absurd (sampleDisk_ref hp) hne
    · intro p q hp _ hne _
      exact absurd (sampleDisk_ref hp) hne
  zero_root j hj htype _ := by
    rcases sampleDisk_used hj with h | h <;> subst h
    · rfl
    · exact absurd htype (by decide)
  id j hj := by
    rcases sampleDisk_used hj with h | h <;> subst h <;> decide
  free_zero j hj hfree k hk := by
    have hj1 : 1 < j := by
      by_contra hle
      have : j = 0 ∨ j = 1 := by omega
      rcases this with h | h <;> subst h <;> exact absurd hfree (by decide)
    change sampleDisk (inoAddr j + k) = 0
    apply sampleDisk_zero <;> simp only [inoAddr] <;> omega
  beyond j hj x _ := by
    change fileByte sampleDisk j x = 0
    unfold fileByte dataByte
    split_ifs with hp hz
    · rfl
    · exact absurd (sampleDisk_ref (pagePos_live hj.1 hp)) hz
    · rfl
  fdesc k hk hopen := by
    have : k = 0 ∨ k = 1 ∨ 1 < k := by omega
    rcases this with h | h | h
    · subst h
      decide
    · subst h
      decide
    · refine absurd ?_ hopen
      simp only [sampleState]
      rw [if_neg (by omega), if_neg (by omega)]

/-- A hole is written and read through two descriptors. -/
theorem fileOps_refine_sample :
    WellFormed sampleState ∧ (view sampleState).AdmissibleRun sampleOps ∧
      ∃ s', runOps sampleState sampleOps = .ok (((view sampleState).run sampleOps).1, s') ∧
        view s' = ((view sampleState).run sampleOps).2 ∧ WellFormed s' := by
  have hadm : (view sampleState).AdmissibleRun sampleOps := by
    unfold sampleOps
    refine ⟨?_, ?_, ?_, ?_, trivial⟩
    · exact ⟨by decide, by decide, by decide⟩
    · exact ⟨by decide, by decide, by decide, by decide⟩
    · exact ⟨by decide, by decide, by decide⟩
    · exact ⟨by decide, by decide, by decide⟩
  have hok : (runOps sampleState sampleOps).isOk = true := by decide +kernel
  refine ⟨sampleState_wellFormed, hadm, fileOps_refine sampleState_wellFormed hadm ?_⟩
  intro hcon
  rw [hcon] at hok
  exact absurd hok (by decide)

end Fs
