import OslabRiscv.Fs.Lookup

/-!
# The early exit of `search_dentry`

`search_dentry` stops as soon as it has counted `file_num` live slots.  Where that is the
number of the live slots and each of them holds a name that ends inside its field, the
result is that of the scan through all 128 slots, for every name and every type mask.
Nothing is asked of the name searched for: a longer one, or one that does not end, is no
name of a slot.
-/

namespace Fs

open ByteStore Outcome

variable {blk mem : Store} {name type i p e : Nat}

/-! ## Comparing two strings -/

theorem SameName.tail {n : Nat} (h : SameName blk i mem p (n + 1)) :
    SameName blk (i + 1) mem (p + 1) n := by
  obtain ⟨hsame, hblk, hmem⟩ := h
  refine ⟨fun m hm => ?_, ?_, ?_⟩
  · rw [show i + 1 + m = i + (m + 1) by omega, show p + 1 + m = p + (m + 1) by omega]
    exact hsame (m + 1) (by omega)
  · rw [show i + 1 + n = i + (n + 1) by omega]
    exact hblk
  · rw [show p + 1 + n = p + (n + 1) by omega]
    exact hmem

/-- Where the string in the block ends in what is left of the buffer, `strcmp` returns,
and says whether the two strings are the same. -/
theorem strcmpLoop_ends (mem : Store) (left : Nat) {i p e : Nat} (he : NameEnds blk i e)
    (hlt : e < left) :
    ∃ r, strcmpLoop blk mem left i p = .ok r ∧ (r = true ↔ ∃ n, SameName blk i mem p n) := by
  induction left generalizing i p e with
  | zero => omega
  | succ left ih =>
      have hsound := strcmpLoop_spec blk mem (left + 1) i p
      suffices hret : ∃ r, strcmpLoop blk mem (left + 1) i p = .ok r ∧
          ((∃ n, SameName blk i mem p n) → r = true) by
        obtain ⟨r, hr, hcomplete⟩ := hret
        refine ⟨r, hr, fun htrue => ?_, hcomplete⟩
        obtain ⟨n, -, hsame⟩ := hsound.of_ok hr htrue
        exact ⟨n, hsame⟩
      unfold strcmpLoop
      by_cases hboth : blk i ≠ 0 ∧ mem p ≠ 0
      · rw [if_pos hboth]
        obtain ⟨e, rfl⟩ : ∃ e', e = e' + 1 := by
          refine ⟨e - 1, ?_⟩
          have hne : e ≠ 0 := by
            rintro rfl
            exact hboth.1 he.1
          omega
        -- the same first character, unless both strings are empty
        have hpos : ∀ n, SameName blk i mem p n →
            blk i = mem p ∧ SameName blk (i + 1) mem (p + 1) (n - 1) := by
          intro n hsame
          cases n with
          | zero => exact absurd hsame.2.1 hboth.1
          | succ n => exact ⟨(hsame.1 0 (by omega)).1, hsame.tail⟩
        by_cases hne : blk i ≠ mem p
        · rw [if_pos hne]
          refine ⟨false, rfl, ?_⟩
          rintro ⟨n, hsame⟩
          exact absurd (hpos n hsame).1 hne
        · rw [if_neg hne]
          obtain ⟨r, hr, hiff⟩ := ih (p := p + 1) he.tail (by omega)
          refine ⟨r, hr, ?_⟩
          rintro ⟨n, hsame⟩
          exact hiff.mpr ⟨n - 1, (hpos n hsame).2⟩
      · rw [if_neg hboth]
        refine ⟨_, rfl, ?_⟩
        rintro ⟨n, hsame, hblk, hmem⟩
        rw [decide_eq_true_iff]
        cases n with
        | zero => exact hblk.trans hmem.symm
        | succ n => exact (hsame 0 (by omega)).1

/-! ## The scan -/

/-- Slot `k` has one of the types and the name. -/
def SlotMatches (blk mem : Store) (name type k : Nat) : Prop :=
  dentryType blk k &&& type ≠ 0 ∧ ∃ n, SameName blk (dentryName k) mem name n

theorem SlotMatches.live {k : Nat} (h : SlotMatches blk mem name type k) :
    dentryType blk k ≠ 0 := by
  intro hz
  apply h.1
  rw [hz, Nat.zero_and]

/-- The names of the live slots end inside their fields. -/
def NamesFit (blk : Store) : Prop :=
  ∀ k, k < 128 → dentryType blk k ≠ 0 → ∃ e, e < dName ∧ NameEnds blk (dentryName k) e

/-- What the scan through all slots returns: the inode number of the first match, or `-1`. -/
def Scanned (blk mem : Store) (name type id : Nat) : Prop :=
  (∃ k, k < 128 ∧ SlotMatches blk mem name type k ∧
      (∀ l, l < k → ¬ SlotMatches blk mem name type l) ∧ id = dentryInodeId blk k) ∨
    (∀ k, k < 128 → ¬ SlotMatches blk mem name type k) ∧ id = minusOne

theorem dentryMatches_slot (hfit : NamesFit blk) (mem : Store) (type : Nat) (hi : i < 128)
    (hname : name ≠ 0) : ∃ r, dentryMatches blk i mem name type = .ok r ∧
      (r = true ↔ SlotMatches blk mem name type i) := by
  unfold dentryMatches strcmpZero SlotMatches
  by_cases hbits : dentryType blk i &&& type ≠ 0
  · rw [if_pos hbits, if_neg hname]
    obtain ⟨e, he, hends⟩ := hfit i hi (fun hz => hbits (by rw [hz, Nat.zero_and]))
    obtain ⟨r, hr, hiff⟩ := strcmpLoop_ends (p := name) mem (4096 - dentryName i) hends
      (by unfold dentryName; unfold dName at he; omega)
    exact ⟨r, hr, hiff.trans ⟨fun h => ⟨hbits, h⟩, fun h => h.2⟩⟩
  · rw [if_neg hbits]
    exact ⟨false, rfl, by simp [hbits]⟩

/-- The loop from slot `i` on, with the live slots below `i` counted. -/
theorem searchLoop_scans (hfit : NamesFit blk) (mem : Store) (type : Nat) (hname : name ≠ 0)
    (left i : Nat) (hi : i + left = 128)
    (hbefore : ∀ l, l < i → ¬ SlotMatches blk mem name type l) :
    ∃ id, searchLoop blk mem (liveBelow blk 128) name type left i (liveBelow blk i) = .ok id ∧
      Scanned blk mem name type id := by
  induction left generalizing i with
  | zero => exact ⟨minusOne, rfl, Or.inr ⟨fun k hk => hbefore k (by omega), rfl⟩⟩
  | succ left ih =>
      obtain ⟨r, hr, hiff⟩ := dentryMatches_slot hfit mem type (show i < 128 by omega) hname
      unfold searchLoop
      rw [← liveBelow_succ, hr]
      cases r with
      | true => exact ⟨_, rfl, Or.inl ⟨i, by omega, hiff.mp rfl, hbefore, rfl⟩⟩
      | false =>
          have hmiss : ¬ SlotMatches blk mem name type i := fun hcon => by
            cases hiff.mpr hcon
          have hbelow : ∀ l, l < i + 1 → ¬ SlotMatches blk mem name type l := by
            intro l hl
            rcases Nat.lt_succ_iff_lt_or_eq.mp hl with hlt | rfl
            · exact hbefore l hlt
            · exact hmiss
          by_cases hall : liveBelow blk (i + 1) = liveBelow blk 128
          · -- all live slots have been seen: the rest cannot match
            refine ⟨minusOne, by simp [hall, bind, Except.bind], Or.inr ⟨fun k hk hcon => ?_, rfl⟩⟩
            by_cases hki : k < i + 1
            · exact hbelow k hki hcon
            · exact hcon.live (dead_of_liveBelow hall (by omega) hk)
          · obtain ⟨id, hid, hscan⟩ := ih (i + 1) (by omega) hbelow
            refine ⟨id, ?_, hscan⟩
            simp only [bind, Except.bind, Bool.false_eq_true, if_false, if_neg hall]
            exact hid

/-- The block buffer after `search_dentry` has read the directory. -/
def directoryBlock (j : Nat) (s : State) : Store :=
  (readBlock (inodeGet (getInode j s) (inodePtr j) inoDirectBlock) (getInode j s)).blkBuffer

/-- **An early exit loses nothing.**  The search returns the inode number of the first slot
that matches, and `-1` if and only if none of the 128 does. -/
theorem search_full_scan {s : State} {j name : Nat} (mem : Store) (type : Nat)
    (hcount : inodeGet (getInode j s) (inodePtr j) inoFileNum = liveBelow (directoryBlock j s) 128)
    (hfit : NamesFit (directoryBlock j s))
    (hids : ∀ k, k < 128 → dentryType (directoryBlock j s) k ≠ 0 →
      dentryInodeId (directoryBlock j s) k < 512)
    (hname : name ≠ 0) :
    ∃ id s', searchDentry j name type mem s = .ok (id, s') ∧
      (∀ k, k < 128 → SlotMatches (directoryBlock j s) mem name type k →
        (∀ l, l < k → ¬ SlotMatches (directoryBlock j s) mem name type l) →
          id = dentryInodeId (directoryBlock j s) k) ∧
      (id = minusOne ↔ ∀ k, k < 128 → ¬ SlotMatches (directoryBlock j s) mem name type k) := by
  obtain ⟨id, hid, hscan⟩ := searchLoop_scans hfit mem type hname 128 0 rfl fun l hl => by omega
  refine ⟨id, readBlock (inodeGet (getInode j s) (inodePtr j) inoDirectBlock) (getInode j s),
    ?_, ?_, ?_⟩
  · have hrun : searchLoop (directoryBlock j s) mem
        (inodeGet (getInode j s) (inodePtr j) inoFileNum) name type 128 0 0 = .ok id := by
      rw [hcount]
      exact hid
    unfold searchDentry
    change (searchLoop (directoryBlock j s) mem (inodeGet (getInode j s) (inodePtr j) inoFileNum)
      name type 128 0 0 >>= fun id => .ok (id, _)) = _
    rw [hrun]
    rfl
  · intro k hk hmatch hfirst
    rcases hscan with ⟨k', -, hmatch', hfirst', hid'⟩ | ⟨hnone, -⟩
    · rcases Nat.lt_trichotomy k k' with h | h | h
      · exact absurd hmatch (hfirst' k h)
      · rw [h]
        exact hid'
      · exact absurd hmatch' (hfirst k' h)
    · exact absurd hmatch (hnone k hk)
  · constructor
    · intro hminus
      rcases hscan with ⟨k, hk, hmatch, -, hid'⟩ | ⟨hnone, -⟩
      · have hlt := hids k hk hmatch.live
        rw [← hid', hminus] at hlt
        exact absurd hlt (by decide)
      · exact hnone
    · intro hnone
      rcases hscan with ⟨k, hk, hmatch, -⟩ | ⟨-, hid'⟩
      · exact absurd hmatch (hnone k hk)
      · exact hid'

instance (mem : Store) (name n : Nat) : Decidable (NameEnds mem name n) :=
  inferInstanceAs (Decidable (_ ∧ _))

instance (blk : Store) : Decidable (NamesFit blk) := inferInstanceAs (Decidable (∀ _, _))

/-- The root directory with one live slot, behind three dead ones: the file `a`, inode 5. -/
def gapState : State :=
  let disk := wr32 zeros (8520704 + inoFileNum) 1
  let disk := wr32 disk (8782848 + 32 * 3) iFile
  let disk := wr32 disk (8782848 + 32 * 3 + 4) 5
  { bootState with disk := wr8 disk (8782848 + dentryName 3) 97 }

/-- The search passes the dead slots and stops at the first live one. -/
theorem search_full_scan_hole : ∃ s', searchDentry 0 100 iFile memA gapState = .ok (5, s') := by
  have hdead : ∀ l, l < 3 → dentryType (directoryBlock 0 gapState) l = 0 := by decide +kernel
  have hmatch : SlotMatches (directoryBlock 0 gapState) memA 100 iFile 3 := by
    refine ⟨by decide +kernel, 1, fun m hm => ?_, by decide +kernel, by decide⟩
    obtain rfl : m = 0 := by omega
    decide +kernel
  obtain ⟨id, s', hrun, hfirst, -⟩ := search_full_scan (s := gapState) (j := 0)
    memA iFile (by decide +kernel) (by decide +kernel) (by decide +kernel) (by decide : 100 ≠ 0)
  have hid := hfirst 3 (by decide) hmatch fun l hl hcon => hcon.live (hdead l hl)
  have hfive : dentryInodeId (directoryBlock 0 gapState) 3 = 5 := by decide +kernel
  rw [hid, hfive] at hrun
  exact ⟨s', hrun⟩

end Fs
