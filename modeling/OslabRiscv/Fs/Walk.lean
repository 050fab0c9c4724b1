import OslabRiscv.Fs.Edit

/-!
# Searching directories and resolving paths

Path resolution reads directories and cuts the path in memory; it writes no
sector.  `searchDentry_spec` says what a successful search has found, and
`walk_spec` that a walk whose directories are all directories ends in one, with
a component that fits a name field.  `walkVisits` lists the directories a path
takes the code through.
-/

namespace Fs

open ByteStore Outcome

/-! ## Names -/

/-- The strings at `a + i` and `b + j` are the same string of length `n`. -/
def SameName (a : Store) (i : Nat) (b : Store) (j n : Nat) : Prop :=
  (∀ m, m < n → a (i + m) = b (j + m) ∧ a (i + m) ≠ 0) ∧ a (i + n) = 0 ∧ b (j + n) = 0

/-- The string at `name` has length `n`. -/
def NameEnds (mem : Store) (name n : Nat) : Prop :=
  mem (name + n) = 0 ∧ ∀ m, m < n → mem (name + m) ≠ 0

/-- A string ends once. -/
theorem NameEnds.unique {mem : Store} {name n m : Nat} (hn : NameEnds mem name n)
    (hm : NameEnds mem name m) : n = m := by
  rcases Nat.lt_trichotomy n m with h | h | h
  · exact absurd hn.1 (hm.2 n h)
  · exact h
  · exact absurd hm.1 (hn.2 m h)

/-- The loop of `strcmp`, by induction on what is left: it finds equal names only. -/
theorem strcmpLoop_spec (blk mem : Store) (left i p : Nat) :
    Holds (· = Halt.undefined)
      (fun r => r = true → ∃ n, n < left ∧ SameName blk i mem p n)
      (strcmpLoop blk mem left i p) := by
  induction left generalizing i p with
  | zero => rfl
  | succ left ih =>
      unfold strcmpLoop
      by_cases hboth : blk i ≠ 0 ∧ mem p ≠ 0
      · rw [if_pos hboth]
        by_cases hne : blk i ≠ mem p
        · rw [if_pos hne]
          intro hcon
          cases hcon
        · rw [if_neg hne]
          refine (ih (i + 1) (p + 1)).mono fun r hr htrue => ?_
          obtain ⟨n, hn, hsame, hend⟩ := hr htrue
          refine ⟨n + 1, by omega, ?_, ?_⟩
          · intro m hm
            cases m with
            | zero => exact ⟨not_not.mp hne, hboth.1⟩
            | succ m =>
                have h := hsame m (by omega)
                rwa [Nat.add_assoc, Nat.add_assoc, Nat.add_comm 1 m] at h
          · rwa [Nat.add_assoc, Nat.add_assoc, Nat.add_comm 1 n] at hend
      · rw [if_neg hboth]
        intro htrue
        have heq : blk i = mem p := of_decide_eq_true htrue
        refine ⟨0, by omega, fun m hm => by omega, ?_⟩
        by_cases hz : blk i = 0
        · exact ⟨hz, by rw [Nat.add_zero, ← heq]; exact hz⟩
        · have hmz : mem p = 0 := by
            by_contra hm
            exact hboth ⟨hz, hm⟩
          exact absurd (heq.trans hmz) hz

/-- The loop of `strlen`, by induction on what is left. -/
theorem strlenLoop_spec (mem : Store) (src left i : Nat)
    (hbefore : ∀ m, m < i → mem (src + m) ≠ 0) :
    Holds (· = Halt.undefined) (NameEnds mem src) (strlenLoop mem left src i) := by
  induction left generalizing i with
  | zero => rfl
  | succ left ih =>
      unfold strlenLoop
      by_cases hz : mem (src + i) = 0
      · rw [if_pos hz]
        exact ⟨hz, hbefore⟩
      · rw [if_neg hz]
        refine ih (i + 1) fun m hm => ?_
        by_cases hmi : m = i
        · rw [hmi]
          exact hz
        · exact hbefore m (by omega)

/-- `strlen` returns the length. -/
theorem strlen_ok {mem : Store} {src n : Nat} (h : strlen mem src = .ok n) :
    NameEnds mem src n := by
  unfold strlen at h
  split_ifs at h
  exact (strlenLoop_spec mem src addressSpace 0 (fun m hm => by omega)).of_ok h

/-! ## Splitting a path -/

/-- A component as `getDir` returns it: the null pointer, or a string that fits
a name field. -/
def ShortName (mem : Store) (dir : Nat) : Prop := dir = 0 ∨ ∃ n, n < dName ∧ NameEnds mem dir n

/-- The loop of `getDir`, by induction on what is left. -/
theorem getDirLoop_spec (mem : Store) (path left i : Nat) (hi : i + left ≤ dName)
    (hbefore : ∀ m, m < i → mem (path + m) ≠ 0) :
    ShortName (getDirLoop mem path left i).2 (getDirLoop mem path left i).1 := by
  induction left generalizing i with
  | zero => exact Or.inl rfl
  | succ left ih =>
      unfold getDirLoop
      by_cases hz : mem (path + i) = 0
      · rw [if_pos hz]
        exact Or.inr ⟨i, by omega, hz, hbefore⟩
      · rw [if_neg hz]
        by_cases hslash : mem (path + i) = 47
        · rw [if_pos hslash]
          refine Or.inr ⟨i, by omega, wr8_apply _ _ _, ?_⟩
          intro m hm
          change wr8 mem (path + i) 0 (path + m) ≠ 0
          rw [wr8_apply_of_ne _ _ (by omega)]
          exact hbefore m hm
        · rw [if_neg hslash]
          refine ih (i + 1) (by omega) fun m hm => ?_
          by_cases hmi : m = i
          · rw [hmi]
            exact hz
          · exact hbefore m (by omega)

/-- `getDir` returns a name that fits, or null. -/
theorem getDir_spec (mem : Store) (path : Nat) :
    Holds (· = Halt.undefined) (fun r => ShortName r.2 r.1) (getDir mem path) := by
  unfold getDir
  by_cases hp : path = 0
  · rw [if_pos hp]
    rfl
  · rw [if_neg hp]
    exact getDirLoop_spec mem path dName 0 (by omega) (fun m hm => by omega)

/-! ## Searching a directory -/

/-- Inode `i` is in use and is a directory. -/
def IsDir (d : Store) (i : Nat) : Prop := InodeUsed d i ∧ ino d i inoType = iDir

instance (d : Store) (i : Nat) : Decidable (IsDir d i) :=
  inferInstanceAs (Decidable ((i < 512 ∧ imap d i ≠ 0) ∧ ino d i inoType = iDir))

/-- The block of a directory. -/
def dirBlock (d : Store) (i : Nat) : Store := block d (ino d i inoDirectBlock)

/-- Entry `k` has one of the types and the name. -/
structure EntryHit (blk mem : Store) (name type k : Nat) : Prop where
  lt : k < 128
  bits : dentryType blk k &&& type ≠ 0
  same : ∃ n, dentryName k + n < 4096 ∧ SameName blk (dentryName k) mem name n

/-- An entry that matches is a hit. -/
theorem dentryMatches_spec (blk mem : Store) {name type i : Nat} (hi : i < 128) :
    Holds (· = Halt.undefined) (fun r => r = true → EntryHit blk mem name type i)
      (dentryMatches blk i mem name type) := by
  unfold dentryMatches
  by_cases hbits : dentryType blk i &&& type ≠ 0
  · rw [if_pos hbits]
    unfold strcmpZero
    by_cases hname : name = 0
    · rw [if_pos hname]
      rfl
    · rw [if_neg hname]
      refine (strcmpLoop_spec blk mem _ (dentryName i) name).mono fun r hr htrue => ?_
      obtain ⟨n, hn, hsame⟩ := hr htrue
      exact ⟨hi, hbits, n, by omega, hsame⟩
  · rw [if_neg hbits]
    intro hcon
    cases hcon

/-- What the loop over the entries finds, by induction on what is left. -/
theorem searchLoop_spec (blk mem : Store) {fileNum name type : Nat} (left i find : Nat)
    (hi : i + left = 128) :
    Holds (· = Halt.undefined)
      (fun id => id = minusOne ∨ ∃ k, EntryHit blk mem name type k ∧ dentryInodeId blk k = id)
      (searchLoop blk mem fileNum name type left i find) := by
  induction left generalizing i find with
  | zero => exact Or.inl rfl
  | succ left ih =>
      unfold searchLoop
      refine (dentryMatches_spec blk mem (show i < 128 by omega)).bind fun hit hhit => ?_
      cases hit with
      | true => exact Or.inr ⟨i, hhit rfl, rfl⟩
      | false =>
          simp only [Bool.false_eq_true, if_false]
          by_cases hall : (if dentryType blk i ≠ 0 then find + 1 else find) = fileNum
          · rw [if_pos hall]
            exact Or.inl rfl
          · rw [if_neg hall]
            exact ih (i + 1) _ (by omega)

theorem EntryHit.congr {blk blk' mem : Store} {name type k : Nat}
    (h : ∀ x, x < 4096 → blk x = blk' x) (hit : EntryHit blk mem name type k) :
    EntryHit blk' mem name type k := by
  obtain ⟨n, hn, hsame, hend⟩ := hit.same
  refine ⟨hit.lt, ?_, n, hn, ?_, ?_⟩
  · rw [← dentryType_congr h hit.lt]
    exact hit.bits
  · intro m hm
    rw [← h _ (by omega)]
    exact hsame m hm
  · rw [← h _ hn]
    exact hend

/-- **What a search finds.**  It reads the directory's block and leaves the
disk alone. -/
theorem searchDentry_spec {s : State} {j name type : Nat} {mem : Store} (hj : j < 512)
    (hlt : ino s.disk j inoDirectBlock < 131072) :
    Holds (· = Halt.undefined)
      (fun r => (r.1 = minusOne ∨ ∃ k, EntryHit (dirBlock s.disk j) mem name type k ∧
          dentryInodeId (dirBlock s.disk j) k = r.1) ∧
        r.2.disk = s.disk ∧ Extends s r.2)
      (searchDentry j name type mem s) := by
  have hfield : inodeGet (getInode j s) (inodePtr j) inoDirectBlock =
      ino s.disk j inoDirectBlock := by
    rw [inodeGet_eq j _ (by decide), flushed_getInode hj]
  unfold searchDentry
  simp only [hfield]
  have hbuf : ∀ x, x < 4096 →
      (readBlock (ino s.disk j inoDirectBlock) (getInode j s)).blkBuffer x =
        dirBlock s.disk j x := by
    intro x hx
    rw [readBlock_block hj hlt _ hx, flushed_getInode hj]
    rfl
  refine (searchLoop_spec _ mem 128 0 0 rfl).bind fun id hid => ?_
  refine ⟨?_, rfl, ((Extends.refl s).getInode j).readBlock _⟩
  rcases hid with hid | ⟨k, hit, hid⟩
  · exact Or.inl hid
  · exact Or.inr ⟨k, hit.congr hbuf, by rw [← dentryInodeId_congr hbuf hit.lt]; exact hid⟩

/-! ## Walking -/

/-- The directories `walkLoop` searches or ends in. -/
def walkVisits : Nat → Nat → Nat → Nat → Store → State → List Nat
  | 0, _, _, _, _, _ => []
  | fuel + 1, dirId, dir, subdir, mem, s =>
    dirId ::
      if subdir ≠ 0 ∧ mem subdir ≠ 0 then
        match searchDentry dirId dir iDir mem s, getDir mem subdir with
        | .ok (id, t), .ok (dir', mem') =>
          if id = minusOne then [] else walkVisits fuel id dir' (getSubdir mem' subdir) mem' t
        | _, _ => []
      else []

/-- The directories the path takes `walk` through. -/
def visits (path : Nat) (mem : Store) (s : State) : List Nat :=
  match getDir mem path with
  | .ok (dir, mem') =>
    if dir = 0 then [] else walkVisits addressSpace (currentId s) dir (getSubdir mem' path) mem' s
  | .error _ => []

section Walk

variable {d : Store}

/-- All directories of the volume have their block inside the data area. -/
def DirsInRange (d : Store) : Prop := ∀ j, IsDir d j → ino d j inoDirectBlock < 131072

theorem DirsInRange.mono {d d' : Store} (h : DirsInRange d) (heq : d' = d) : DirsInRange d' :=
  heq ▸ h

/-- What a walk leaves behind: an unchanged disk and, when it succeeds, a
directory and a component. -/
def WalkEnd (s : State) (r : Option (Nat × Nat) × Store × State) : Prop :=
  r.2.2.disk = s.disk ∧ Extends s r.2.2 ∧
    ∀ p dir, r.1 = some (p, dir) → IsDir s.disk p ∧ ShortName r.2.1 dir

/-- The loop over a path, by induction on its rounds. -/
theorem walkLoop_spec (fuel dirId dir subdir : Nat) (mem : Store) (s : State)
    (hd : DirsInRange s.disk) (hname : ShortName mem dir)
    (hv : ∀ j ∈ walkVisits fuel dirId dir subdir mem s, IsDir s.disk j) :
    Holds (· = Halt.undefined) (WalkEnd s) (walkLoop fuel dirId dir subdir mem s) := by
  induction fuel generalizing dirId dir subdir mem s with
  | zero => rfl
  | succ fuel ih =>
      have hdir : IsDir s.disk dirId := hv dirId (by simp [walkVisits])
      unfold walkLoop
      by_cases hmore : subdir ≠ 0 ∧ mem subdir ≠ 0
      · rw [if_pos hmore]
        refine (searchDentry_spec hdir.1.1 (hd dirId hdir)).bind_eq fun r hr hfound => ?_
        obtain ⟨id, t⟩ := r
        obtain ⟨_, hdisk, hext⟩ := hfound
        simp only at hdisk hext ⊢
        by_cases hid : id = minusOne
        · rw [if_pos hid]
          exact ⟨hdisk, hext, fun p dir' heq => by cases heq⟩
        · rw [if_neg hid]
          refine (getDir_spec mem subdir).bind_eq fun q hq hshort => ?_
          obtain ⟨dir', mem'⟩ := q
          simp only at hshort ⊢
          have hrest : ∀ j ∈ walkVisits fuel id dir' (getSubdir mem' subdir) mem' t,
              IsDir t.disk j := by
            intro j hj
            rw [hdisk]
            apply hv
            simp only [walkVisits, if_pos hmore, hr, hq, if_neg hid]
            exact List.mem_cons_of_mem _ hj
          refine (ih id dir' _ mem' t (by rw [hdisk]; exact hd) hshort hrest).mono fun w hw => ?_
          obtain ⟨hw1, hw2, hw3⟩ := hw
          rw [hdisk] at hw1 hw3
          exact ⟨hw1, hext.trans hw2, hw3⟩
      · rw [if_neg hmore]
        refine ⟨rfl, .refl s, ?_⟩
        intro p dir' heq
        cases heq
        exact ⟨hdir, hname⟩

/-- **A walk through directories ends in one.** -/
theorem walk_spec {path : Nat} {mem : Store} {s : State} (hd : DirsInRange s.disk)
    (hv : ∀ j ∈ visits path mem s, IsDir s.disk j) :
    Holds (· = Halt.undefined) (WalkEnd s) (walk path mem s) := by
  unfold walk
  refine (getDir_spec mem path).bind_eq fun q hq hshort => ?_
  obtain ⟨dir, mem'⟩ := q
  simp only at hshort ⊢
  by_cases hz : dir = 0
  · rw [if_pos hz]
    exact ⟨rfl, .refl s, fun p dir' heq => by cases heq⟩
  · rw [if_neg hz]
    refine walkLoop_spec _ _ _ _ _ _ hd hshort ?_
    intro j hj
    apply hv
    simp only [visits, hq, if_neg hz]
    exact hj

end Walk

end Fs
