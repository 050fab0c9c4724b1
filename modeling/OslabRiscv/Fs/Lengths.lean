import OslabRiscv.Fs.Reads

/-!
# Lengths of reads and writes

The length of a transfer is an `int` and the offsets are 32-bit numbers, and the guards of
`do_fread` and `do_fwrite` add the two modulo `2 ^ 32`.  `ReadChecked` and `WriteChecked` say
what the guards are for; `lengths_checked` says for which arguments they do it.  The transfer
loops themselves end after one round for each page they touch (`freadLoop_rounds`).
-/

namespace Fs

open ByteStore Outcome

/-! ## How often the loops go round -/

/-- `n` rounds are enough for `L` bytes from offset `o` on: one for each byte, or one for each
page that the range touches. -/
def Enough (o L n : Nat) : Prop := L ≤ n ∨ o % 4096 + L ≤ 4096 * n

/-- After the first round one less is enough. -/
theorem Enough.next {o L n k o' : Nat} (h : Enough o L (n + 1))
    (hk : k = min L (4096 - o % 4096)) (ho : o' = (o + k) % 2 ^ 32) : Enough o' (L - k) n := by
  have hlt : o % 4096 < 4096 := Nat.mod_lt _ (by decide)
  rcases h with h | h
  · exact Or.inl (by omega)
  · by_cases hall : L ≤ 4096 - o % 4096
    · exact Or.inl (by omega)
    · -- the round ended at the end of a page
      have hpage : o' % 4096 = 0 := by omega
      exact Or.inr (by omega)

/-- Where something is left there is a round. -/
theorem Enough.pos {o L n : Nat} (h : Enough o L n) (hL : L ≠ 0) : ∃ m, n = m + 1 := by
  have hn : n ≠ 0 := by
    rintro rfl
    rcases h with h | h <;> omega
  exact ⟨n - 1, by omega⟩

/-- A round for each page and two more are enough. -/
theorem enough_pages (o L : Nat) : Enough o L (L / 4096 + 2) := by
  have hlt : o % 4096 < 4096 := Nat.mod_lt _ (by decide)
  exact Or.inr (by omega)

section Rounds

variable {i fd : Nat}

/-- Any two counts that are enough give the same read. -/
theorem freadLoop_rounds (n m L B : Nat) (buff : Store) (s : State) (hs : Loaded i s)
    (ho : (s.fdescArray fd).rdOffset < 2 ^ 32) (hn : Enough (s.fdescArray fd).rdOffset L n)
    (hm : Enough (s.fdescArray fd).rdOffset L m) :
    freadLoop (inodePtr i) fd n L B buff s = freadLoop (inodePtr i) fd m L B buff s := by
  induction n generalizing m L B buff s with
  | zero =>
      by_cases hz : L = 0
      · subst hz
        cases m with
        | zero => rfl
        | succ m => exact (if_pos rfl).symm
      · obtain ⟨k, hk⟩ := hn.pos hz
        exact absurd hk (by omega)
  | succ n ih =>
      by_cases hz : L = 0
      · subst hz
        cases m with
        | zero => exact if_pos rfl
        | succ m => exact (if_pos rfl).trans (if_pos rfl).symm
      · obtain ⟨m, rfl⟩ := hm.pos hz
        unfold freadLoop
        rw [if_neg hz, if_neg hz]
        refine (hs.byteLocate ho).bind_congr fun r hr => ?_
        obtain ⟨loc, t⟩ := r
        obtain ⟨b, hb, _, _, hst, hext⟩ := hr
        simp only at hb hst hext ⊢
        subst hb
        have hfd : (readBlock b t).fdescArray fd = s.fdescArray fd := by
          rw [← hext.fdesc]
          rfl
        obtain ⟨k, hk⟩ : ∃ k, k = min L (4096 - (s.fdescArray fd).rdOffset % 4096) := ⟨_, rfl⟩
        simp only [hfd, ← hk]
        have hround := (hst.readBlock b).setFdesc fd { s.fdescArray fd with
          rdOffset := ((s.fdescArray fd).rdOffset + k) % 2 ^ 32 }
        refine ih _ _ _ _ _ hround.loaded ?_ ?_ ?_
        · rw [setFdesc_fdescArray_self]
          exact Nat.mod_lt _ (by decide)
        · rw [setFdesc_fdescArray_self]
          exact hn.next hk rfl
        · rw [setFdesc_fdescArray_self]
          exact hm.next hk rfl

/-- Any two counts that are enough give the same write. -/
theorem fwriteLoop_rounds (buff : Store) (n m L B : Nat) (s : State) (hs : Loaded i s)
    (ho : (s.fdescArray fd).wrOffset < 2 ^ 32) (hn : Enough (s.fdescArray fd).wrOffset L n)
    (hm : Enough (s.fdescArray fd).wrOffset L m) :
    fwriteLoop (inodePtr i) fd buff n L B s = fwriteLoop (inodePtr i) fd buff m L B s := by
  induction n generalizing m L B s with
  | zero =>
      by_cases hz : L = 0
      · subst hz
        cases m with
        | zero => rfl
        | succ m => exact (if_pos rfl).symm
      · obtain ⟨k, hk⟩ := hn.pos hz
        exact absurd hk (by omega)
  | succ n ih =>
      by_cases hz : L = 0
      · subst hz
        cases m with
        | zero => exact if_pos rfl
        | succ m => exact (if_pos rfl).trans (if_pos rfl).symm
      · obtain ⟨m, rfl⟩ := hm.pos hz
        unfold fwriteLoop
        rw [if_neg hz, if_neg hz]
        refine (hs.byteLocate ho).bind_congr fun r hr => ?_
        obtain ⟨loc, t⟩ := r
        obtain ⟨b, hb, href, hne, hst, hext⟩ := hr
        simp only at hb href hst hext ⊢
        subst hb
        obtain ⟨k, hk⟩ : ∃ k, k = min L (4096 - (s.fdescArray fd).wrOffset % 4096) := ⟨_, rfl⟩
        obtain ⟨u, hu⟩ : ∃ u, u = writeBlock b { readBlock b t with
          blkBuffer := blit (readBlock b t).blkBuffer ((s.fdescArray fd).wrOffset % 4096)
            buff B k } := ⟨_, rfl⟩
        have hfd : u.fdescArray fd = s.fdescArray fd := by
          rw [hu, ← hext.fdesc]
          rfl
        have hwrite : Stored i (s.fdescArray fd).wrOffset k buff B t u := by
          have hpage : (s.fdescArray fd).wrOffset / 4096 < pageLimit := by
            unfold pageLimit
            omega
          exact hu ▸ stored_writeBlock hst.loaded hpage href hne (by omega)
        simp only [← hk, ← hu, hfd]
        have hround := hwrite.setFdesc fd { s.fdescArray fd with
          wrOffset := ((s.fdescArray fd).wrOffset + k) % 2 ^ 32 }
        refine ih _ _ _ _ hround.loaded ?_ ?_ ?_
        · rw [setFdesc_fdescArray_self]
          exact Nat.mod_lt _ (by decide)
        · rw [setFdesc_fdescArray_self]
          exact hn.next hk rfl
        · rw [setFdesc_fdescArray_self]
          exact hm.next hk rfl

end Rounds

/-! ## What the guards are for -/

/-- The bytes asked for lie in a file of `size` bytes. -/
def InFile (f : Fdesc) (size : Nat) (length : Int) : Prop :=
  0 ≤ length ∧ f.rdOffset + length ≤ size

/-- The bytes to be written lie below 4GB. -/
def InRange (f : Fdesc) (length : Int) : Prop := 0 ≤ length ∧ f.wrOffset + length ≤ 2 ^ 32

/-- `N` rounds of the read loop are enough: any larger count, and the count of the model,
give the same. -/
def ReadEndsIn (s : State) (fd : Nat) (buff : Store) (length : Int) (N : Nat) : Prop :=
  let i := (s.fdescArray fd).inodeId
  ∀ rounds, N ≤ rounds ∨ toU32 length ≤ rounds →
    freadLoop (inodePtr i) fd rounds (toU32 length) 0 buff (getInode i s) =
      freadLoop (inodePtr i) fd N (toU32 length) 0 buff (getInode i s)

/-- The same for the write loop. -/
def WriteEndsIn (s : State) (fd : Nat) (buff : Store) (length : Int) (N : Nat) : Prop :=
  let i := (s.fdescArray fd).inodeId
  ∀ rounds, N ≤ rounds ∨ toU32 length ≤ rounds →
    fwriteLoop (inodePtr i) fd buff rounds (toU32 length) 0 (getInode i s) =
      fwriteLoop (inodePtr i) fd buff N (toU32 length) 0 (getInode i s)

/-- `do_fread` returns 0 and leaves the descriptor, or the bytes asked for are bytes of the
file and it delivers exactly those, in at most `length / 4096 + 2` rounds; only on a full
volume it may not return. -/
def ReadChecked (s : State) (fd : Nat) (buff : Store) (length : Int) : Prop :=
  let f := s.fdescArray fd
  let size := ino s.disk f.inodeId inoSize
  Holds (fun e => e = Halt.noMoreBlocks ∧ InFile f size length)
    (fun r => (r.1 = 0 ∧ r.2.2.fdescArray fd = f) ∨
      (InFile f size length ∧ (r.1 : Int) = length ∧
        r.2.1 = blit buff 0 (fileByte s.disk f.inodeId) f.rdOffset r.1))
    (doFread fd buff length s) ∧
  (f.mode ≠ oWronly → ¬ReadRefused s.disk f length →
    ReadEndsIn s fd buff length (length.toNat / 4096 + 2))

/-- `do_fwrite` returns 0 and leaves the file and the descriptor, or the bytes lie below 4GB
and it writes exactly those, none below the old offset, in at most `length / 4096 + 2` rounds;
only on a full volume it may not return. -/
def WriteChecked (s : State) (fd : Nat) (buff : Store) (length : Int) : Prop :=
  let f := s.fdescArray fd
  Holds (fun e => e = Halt.noMoreBlocks ∧ InRange f length)
    (fun r => (r.1 = 0 ∧ r.2.disk = s.disk ∧ r.2.fdescArray fd = f) ∨
      (InRange f length ∧ (r.1 : Int) = length ∧
        fileByte r.2.disk f.inodeId = blit (fileByte s.disk f.inodeId) f.wrOffset buff 0 r.1 ∧
        ∀ x < f.wrOffset, fileByte r.2.disk f.inodeId x = fileByte s.disk f.inodeId x))
    (doFwrite fd buff length s) ∧
  (f.mode ≠ oRdonly → WriteEndsIn s fd buff length (length.toNat / 4096 + 2))

/-- The guard of `do_fread` does what it is for: it refuses, or nothing wraps around. -/
def ReadFits (d : Store) (f : Fdesc) (length : Int) : Prop :=
  f.mode = oWronly ∨ ReadRefused d f length ∨ (0 ≤ length ∧ f.rdOffset + length < 2 ^ 32)

/-- `do_fwrite` has no guard: the arguments are right or the mode forbids the write. -/
def WriteFits (f : Fdesc) (length : Int) : Prop := f.mode = oRdonly ∨ InRange f length

instance (d : Store) (f : Fdesc) (length : Int) : Decidable (ReadFits d f length) :=
  inferInstanceAs (Decidable (_ ∨ _ ∨ _))

instance (f : Fdesc) (length : Int) : Decidable (WriteFits f length) :=
  inferInstanceAs (Decidable (_ ∨ _ ∧ _))

section Call

variable {s : State} {fd : Nat} {f : Fdesc} {length : Int}

/-- An `int` that is 0 modulo `2 ^ 32` is 0. -/
theorem eq_zero_of_toU32 (hlen : -2 ^ 31 ≤ length ∧ length < 2 ^ 31) (h : toU32 length = 0) :
    length = 0 := by
  unfold toU32 at h
  omega

/-- A length that is not negative. -/
theorem toU32_toNat (h : 0 ≤ length) (hlt : length < 2 ^ 32) : toU32 length = length.toNat := by
  unfold toU32
  omega

/-- A read that is not refused and does not wrap around lies in the file. -/
theorem inFile_of_fits (hr : ¬ReadRefused s.disk f length) (h0 : 0 ≤ length)
    (hlt : f.rdOffset + length < 2 ^ 32) : InFile f (ino s.disk f.inodeId inoSize) length := by
  refine ⟨h0, ?_⟩
  unfold ReadRefused at hr
  rw [toU32_toNat h0 (by omega), Nat.mod_eq_of_lt (by omega)] at hr
  omega

/-- How many rounds the loop of `do_fread` takes at most. -/
theorem readEndsIn (h : OpenOn s fd f) (hb : f.Bounded) (buff : Store) (h0 : 0 ≤ length)
    (hlt : length < 2 ^ 32) : ReadEndsIn s fd buff length (length.toNat / 4096 + 2) := by
  unfold ReadEndsIn
  rw [h.desc]
  intro i rounds hrounds
  have hgd : (getInode f.inodeId s).fdescArray fd = f := h.desc
  have hpages := enough_pages f.rdOffset (toU32 length)
  rw [← toU32_toNat h0 hlt] at hrounds ⊢
  refine freadLoop_rounds _ _ _ _ _ _ h.loaded (by rw [hgd]; exact hb.1) ?_
    (by rw [hgd]; exact hpages)
  rw [hgd]
  rcases hrounds with hge | hge
  · rcases hpages with hp | hp
    · exact Or.inl (le_trans hp hge)
    · exact Or.inr (by omega)
  · exact Or.inl hge

/-- How many rounds the loop of `do_fwrite` takes at most. -/
theorem writeEndsIn (h : OpenOn s fd f) (hb : f.Bounded) (buff : Store) (h0 : 0 ≤ length)
    (hlt : length < 2 ^ 32) : WriteEndsIn s fd buff length (length.toNat / 4096 + 2) := by
  unfold WriteEndsIn
  rw [h.desc]
  intro i rounds hrounds
  have hgd : (getInode f.inodeId s).fdescArray fd = f := h.desc
  have hpages := enough_pages f.wrOffset (toU32 length)
  rw [← toU32_toNat h0 hlt] at hrounds ⊢
  refine fwriteLoop_rounds _ _ _ _ _ _ h.loaded (by rw [hgd]; exact hb.2) ?_
    (by rw [hgd]; exact hpages)
  rw [hgd]
  rcases hrounds with hge | hge
  · rcases hpages with hp | hp
    · exact Or.inl (le_trans hp hge)
    · exact Or.inr (by omega)
  · exact Or.inl hge

/-- Where the guard fits, the length is checked. -/
theorem readChecked_of_fits (h : OpenOn s fd f) (hb : f.Bounded) (buff : Store)
    (hlen : length < 2 ^ 31) (hfits : ReadFits s.disk f length) :
    ReadChecked s fd buff length := by
  have hdesc := h.desc
  unfold ReadChecked
  simp only [hdesc]
  by_cases hmode : f.mode = oWronly
  · refine ⟨?_, fun hm => absurd hmode hm⟩
    have hcall : doFread fd buff length s = .ok (0, buff, s) := by
      unfold doFread
      rw [fdescAt_ofNat h.lt]
      change (if (s.fdescArray fd).mode = oWronly then _ else _) = _
      rw [hdesc, if_pos hmode]
    rw [hcall]
    exact Or.inl ⟨rfl, hdesc⟩
  · by_cases hr : ReadRefused s.disk f length
    · refine ⟨?_, fun _ hn => absurd hr hn⟩
      rw [doFread_refused h hmode buff hr]
      exact Or.inl ⟨rfl, hdesc⟩
    · obtain ⟨h0, hlt⟩ := (hfits.resolve_left hmode).resolve_left hr
      have hin := inFile_of_fits hr h0 hlt
      refine ⟨?_, fun _ _ => readEndsIn h hb buff h0 (by omega)⟩
      obtain ⟨n, rfl⟩ := Int.eq_ofNat_of_zero_le h0
      have hspec := doFread_spec h hmode buff (n := n) (by omega) (by
        have := hin.2
        omega)
      refine (hspec.attempt fun e he => ⟨he, hin⟩).mono fun r hret => Or.inr ⟨hin, ?_, ?_⟩
      · rw [hret.1]
      · rw [hret.2.1, hret.1]

/-- Where the length is checked, the guard fits. -/
theorem fits_of_readChecked (h : OpenOn s fd f) (hb : f.Bounded) {buff : Store}
    (hlen : -2 ^ 31 ≤ length ∧ length < 2 ^ 31) (hc : ReadChecked s fd buff length) :
    ReadFits s.disk f length := by
  have hdesc := h.desc
  unfold ReadChecked at hc
  simp only [hdesc] at hc
  have hsize : ino s.disk f.inodeId inoSize < 2 ^ 32 := rd32_lt _ _
  by_contra hfits
  have hmode : f.mode ≠ oWronly := fun hcon => hfits (Or.inl hcon)
  have hr : ¬ReadRefused s.disk f length := fun hcon => hfits (Or.inr (Or.inl hcon))
  have hout : ¬InFile f (ino s.disk f.inodeId inoSize) length := by
    intro hin
    have hle := hin.2
    exact hfits (Or.inr (Or.inr ⟨hin.1, by omega⟩))
  have hfill := doFread_fills h hmode hb.1 buff hr
  have hgood := hc.1
  cases hret : doFread fd buff length s with
  | error e =>
      rw [hret] at hgood
      exact hout hgood.2
  | ok r =>
      rw [hret] at hgood hfill
      rcases hgood with hzero | hin
      · -- the loop has moved all bytes, so there were none
        have hnone := eq_zero_of_toU32 hlen (hfill.1.symm.trans hzero.1)
        refine hfits (Or.inr (Or.inr ⟨by omega, ?_⟩))
        have := hb.1
        omega
      · exact hout hin.1

/-- `do_fwrite` returns the length it was given. -/
theorem doFwrite_writes (h : OpenOn s fd f) (hmode : f.mode ≠ oRdonly) (hb : f.wrOffset < 2 ^ 32)
    (buff : Store) (length : Int) :
    Holds (· = Halt.noMoreBlocks) (fun r => r.1 = toU32 length) (doFwrite fd buff length s) := by
  have hdesc := h.desc
  have hgd : (getInode f.inodeId s).fdescArray fd = f := hdesc
  unfold doFwrite
  rw [fdescAt_ofNat h.lt]
  change Holds _ _ (if (s.fdescArray fd).mode = oRdonly then _ else _)
  rw [hdesc, if_neg hmode, if_neg h.occupied]
  have hlt := Nat.mod_lt (f.wrOffset + toU32 length) (show 0 < 2 ^ 32 by decide)
  rw [if_neg (by omega)]
  have hloop := fwriteLoop_kept buff (toU32 length) (toU32 length) 0 (getInode f.inodeId s)
    h.loaded (by rw [hgd]; exact hb)
  refine hloop.bind fun r hr => ?_
  obtain ⟨done, t⟩ := r
  obtain ⟨_, hdone⟩ := hr
  rw [Nat.zero_add] at hdone
  have hdone := hdone (le_refl _)
  simp only at hdone
  subst hdone
  rfl

/-- The bytes after a write that ends at or below 4GB. -/
theorem doFwrite_bytes (h : OpenOn s fd f) (hmode : f.mode ≠ oRdonly) (hb : f.wrOffset < 2 ^ 32)
    (buff : Store) {n : Nat} (hlt : n < 2 ^ 32) (hn : f.wrOffset + n ≤ 2 ^ 32) :
    Holds (· = Halt.noMoreBlocks)
      (fun r => r.1 = n ∧
        fileByte r.2.disk f.inodeId = blit (fileByte s.disk f.inodeId) f.wrOffset buff 0 n)
      (doFwrite fd buff n s) := by
  have hdesc := h.desc
  have hgd : (getInode f.inodeId s).fdescArray fd = f := hdesc
  unfold doFwrite
  rw [fdescAt_ofNat h.lt]
  change Holds _ _ (if (s.fdescArray fd).mode = oRdonly then _ else _)
  rw [hdesc, if_neg hmode, if_neg h.occupied, toU32_ofNat hlt]
  have hmod := Nat.mod_lt (f.wrOffset + n) (show 0 < 2 ^ 32 by decide)
  rw [if_neg (by omega)]
  have hloop := fwriteLoop_spec buff n n 0 (getInode f.inodeId s) h.loaded (le_refl n)
    (by rw [hgd]; exact hb) (by rw [hgd]; exact hn)
  refine hloop.bind fun r hr => ?_
  obtain ⟨done, t⟩ := r
  obtain ⟨hdone, hst, hext⟩ := hr
  simp only at hdone hst hext
  rw [hgd] at hst hext
  subst hdone
  have hwr : (t.fdescArray fd).wrOffset = (f.wrOffset + n) % 2 ^ 32 := by
    rw [hext.fdesc, setFdesc_fdescArray_self]
  simp only [hst.loaded.inodeGet_setSize, Nat.zero_add]
  have hsize : inodeGet t (inodePtr f.inodeId) inoSize < 2 ^ 32 := rd32_lt _ _
  exact ⟨rfl, (hst.of_getInode.finish (max_lt hsize (hwr ▸ hmod))).bytes⟩

/-- Where the bytes fit, the length is checked. -/
theorem writeChecked_of_fits (h : OpenOn s fd f) (hb : f.Bounded) (buff : Store)
    (hlen : length < 2 ^ 31) (hfits : WriteFits f length) : WriteChecked s fd buff length := by
  have hdesc := h.desc
  unfold WriteChecked
  simp only [hdesc]
  by_cases hmode : f.mode = oRdonly
  · refine ⟨?_, fun hm => absurd hmode hm⟩
    have hcall : doFwrite fd buff length s = .ok (0, s) := by
      unfold doFwrite
      rw [fdescAt_ofNat h.lt]
      change (if (s.fdescArray fd).mode = oRdonly then _ else _) = _
      rw [hdesc, if_pos hmode]
    rw [hcall]
    exact Or.inl ⟨rfl, rfl, hdesc⟩
  · have hin := hfits.resolve_left hmode
    refine ⟨?_, fun _ => writeEndsIn h hb buff hin.1 (by omega)⟩
    obtain ⟨n, rfl⟩ := Int.eq_ofNat_of_zero_le hin.1
    have hend := hin.2
    have hspec := doFwrite_bytes h hmode hb.2 buff (n := n) (by omega) (by omega)
    refine (hspec.attempt fun e he => ⟨he, hin⟩).mono fun r hret => Or.inr ⟨hin, ?_, ?_, ?_⟩
    · rw [hret.1]
    · rw [hret.2, hret.1]
    · intro x hx
      rw [hret.2]
      exact blit_apply_of_ne _ _ (Or.inl hx)

/-- Where the length is checked, the bytes fit. -/
theorem fits_of_writeChecked (h : OpenOn s fd f) (hb : f.Bounded) {buff : Store}
    (hlen : -2 ^ 31 ≤ length ∧ length < 2 ^ 31) (hc : WriteChecked s fd buff length) :
    WriteFits f length := by
  have hdesc := h.desc
  unfold WriteChecked at hc
  simp only [hdesc] at hc
  by_contra hfits
  have hmode : f.mode ≠ oRdonly := fun hcon => hfits (Or.inl hcon)
  have hout : ¬InRange f length := fun hcon => hfits (Or.inr hcon)
  have hall := doFwrite_writes h hmode hb.2 buff length
  have hgood := hc.1
  cases hret : doFwrite fd buff length s with
  | error e =>
      rw [hret] at hgood
      exact hout hgood.2
  | ok r =>
      rw [hret] at hgood hall
      rcases hgood with hzero | hin
      · have hnone := eq_zero_of_toU32 hlen (hall.symm.trans hzero.1)
        refine hout ⟨by omega, ?_⟩
        have := hb.2
        omega
      · exact hout hin.1

/-- **Lengths are checked.**  For a descriptor with any offsets and every `int` length: a read
does what its guard is for exactly when nothing wraps around that the guard lets pass, and a
write does exactly when the length is not negative and the write ends at or below 4GB. -/
theorem lengths_checked (h : WellFormed s) (hfd : fd < numFdescs)
    (hopen : (s.fdescArray fd).status ≠ fAvailable) (hb : (s.fdescArray fd).Bounded)
    (hlen : -2 ^ 31 ≤ length ∧ length < 2 ^ 31) (buff : Store) :
    (ReadChecked s fd buff length ↔ ReadFits s.disk (s.fdescArray fd) length) ∧
      (WriteChecked s fd buff length ↔ WriteFits (s.fdescArray fd) length) := by
  have hon := h.openOn hfd hopen
  refine ⟨⟨?_, ?_⟩, ?_, ?_⟩
  · exact fits_of_readChecked hon hb hlen
  · exact readChecked_of_fits hon hb buff hlen.2
  · exact fits_of_writeChecked hon hb hlen
  · exact writeChecked_of_fits hon hb buff hlen.2

/-- Five bytes are read and written. -/
theorem lengths_checked_sample :
    ReadChecked sampleState 1 zeros 5 ∧ WriteChecked sampleState 0 zeros 5 := by
  have hw := sampleState_wellFormed
  have hread : ReadChecked sampleState 1 zeros 5 ↔ _ :=
    (lengths_checked hw (by decide) (by decide) ⟨by decide, by decide⟩ (by decide) zeros).1
  have hwrite : WriteChecked sampleState 0 zeros 5 ↔ _ :=
    (lengths_checked hw (by decide) (by decide) ⟨by decide, by decide⟩ (by decide) zeros).2
  exact ⟨hread.mpr (by decide), hwrite.mpr (by decide)⟩

/-- A write of -1 bytes sets out to write four gigabytes. -/
theorem length_unchecked_negative : ¬WriteChecked sampleState 0 zeros (-1) := by
  intro hc
  have hon := sampleState_wellFormed.openOn (show 0 < numFdescs by decide) (by decide)
  have hfits := fits_of_writeChecked hon ⟨by decide, by decide⟩ ⟨by decide, by decide⟩ hc
  exact absurd hfits (by decide)

end Call

end Fs
