import OslabRiscv.Fs.Namespace
import OslabRiscv.Fs.Paths

/-!
# Looking a name up

Where the entry count of a directory is right, `search_dentry` with a name that
fits a name field always returns: the inode of the first live entry of the name
and a type that shares a bit with the one asked for, or `-1` when there is none.
-/

namespace Fs

open ByteStore Outcome

/-! ## Comparing -/

section Compare

variable {blk blk' mem mem' : Store}

theorem NameEnds.tail {p n : Nat} (h : NameEnds mem p (n + 1)) : NameEnds mem (p + 1) n := by
  refine ⟨?_, fun m hm => ?_⟩
  · rw [show p + 1 + n = p + (n + 1) by omega]
    exact h.1
  · rw [show p + 1 + m = p + (m + 1) by omega]
    exact h.2 (m + 1) (by omega)

/-- Only what is left of the buffer is read. -/
theorem strcmpLoop_congr (left i p : Nat) (h : ∀ x, i ≤ x → x < i + left → blk x = blk' x) :
    strcmpLoop blk mem left i p = strcmpLoop blk' mem left i p := by
  induction left generalizing i p with
  | zero => rfl
  | succ left ih =>
      unfold strcmpLoop
      rw [h i (Nat.le_refl i) (by omega), ih (i + 1) (p + 1) fun x hx hlt => h x (by omega) (by omega)]

/-- The comparison ends with the shorter string, so a name that fits is compared
to its end. -/
theorem strcmpLoop_name (blk : Store) (left i : Nat) {p n : Nat} (hn : NameEnds mem p n) (hlt : n < left) :
    ∃ r, strcmpLoop blk mem left i p = .ok r ∧
      (r = true ↔ ∀ m, m ≤ n → blk (i + m) = mem (p + m)) := by
  induction left generalizing i p n with
  | zero => omega
  | succ left ih =>
      unfold strcmpLoop
      cases n with
      | zero =>
          have hz : mem p = 0 := hn.1
          rw [if_neg fun hcon => hcon.2 hz]
          refine ⟨_, rfl, ?_⟩
          rw [decide_eq_true_iff]
          constructor
          · intro heq m hm
            rw [Nat.le_zero.mp hm]
            exact heq
          · intro hall
            exact hall 0 (Nat.le_refl 0)
      | succ n =>
          have hp : mem p ≠ 0 := hn.2 0 (by omega)
          have hshift : (∀ m, m ≤ n + 1 → blk (i + m) = mem (p + m)) ↔
              blk i = mem p ∧ ∀ m, m ≤ n → blk (i + 1 + m) = mem (p + 1 + m) := by
            constructor
            · intro hall
              refine ⟨hall 0 (by omega), fun m hm => ?_⟩
              have := hall (m + 1) (by omega)
              rwa [show i + 1 + m = i + (m + 1) by omega, show p + 1 + m = p + (m + 1) by omega]
            · rintro ⟨h0, hall⟩ m hm
              cases m with
              | zero => exact h0
              | succ m =>
                  have := hall m (by omega)
                  rwa [show i + (m + 1) = i + 1 + m by omega,
                    show p + (m + 1) = p + 1 + m by omega]
          rw [hshift]
          by_cases hboth : blk i ≠ 0 ∧ mem p ≠ 0
          · rw [if_pos hboth]
            by_cases hne : blk i ≠ mem p
            · rw [if_pos hne]
              exact ⟨false, rfl, by simp [hne]⟩
            · rw [if_neg hne]
              obtain ⟨r, hr, hiff⟩ := ih (i + 1) hn.tail (by omega)
              refine ⟨r, hr, ?_⟩
              rw [hiff]
              exact ⟨fun hall => ⟨not_not.mp hne, hall⟩, fun hall => hall.2⟩
          · rw [if_neg hboth]
            have hz : blk i = 0 := by
              by_contra hcon
              exact hboth ⟨hcon, hp⟩
            refine ⟨_, rfl, ?_⟩
            rw [decide_eq_true_iff]
            constructor
            · intro heq
              exact absurd (heq.symm.trans hz) hp
            · rintro ⟨heq, _⟩
              exact heq

/-- What lies behind the end of the string does not matter, nor does where the
string stands. -/
theorem strcmpLoop_string (left i : Nat) {p q n : Nat} (hn : NameEnds mem p n)
    (h : ∀ m, m ≤ n → mem (p + m) = mem' (q + m)) :
    strcmpLoop blk mem left i p = strcmpLoop blk mem' left i q := by
  induction left generalizing i p q n with
  | zero => rfl
  | succ left ih =>
      have h0 : mem p = mem' q := h 0 (Nat.zero_le n)
      unfold strcmpLoop
      cases n with
      | zero =>
          have hz : mem p = 0 := hn.1
          rw [if_neg fun hcon => hcon.2 hz, if_neg fun hcon => hcon.2 (h0 ▸ hz), h0]
      | succ n =>
          have htail : ∀ m, m ≤ n → mem (p + 1 + m) = mem' (q + 1 + m) := by
            intro m hm
            rw [show p + 1 + m = p + (m + 1) by omega, show q + 1 + m = q + (m + 1) by omega]
            exact h (m + 1) (by omega)
          rw [h0, ih (i + 1) hn.tail htail]

end Compare

/-! ## The string functions return -/

section Strings

variable {mem : Store} {name n : Nat}

/-- The address space is larger than a block. -/
theorem addressSpace_succ : ∃ k, addressSpace = k + 1 ∧ 4096 ≤ k :=
  ⟨addressSpace - 1, by unfold addressSpace; omega, by unfold addressSpace; omega⟩

/-- The loop of `strlen` finds the end of a string, by induction on what is left. -/
theorem strlenLoop_name (left i : Nat) (hn : NameEnds mem name n) (hi : i ≤ n)
    (hlt : n < i + left) : strlenLoop mem left name i = .ok n := by
  induction left generalizing i with
  | zero => omega
  | succ left ih =>
      unfold strlenLoop
      by_cases hin : i = n
      · rw [hin, if_pos hn.1]
      · rw [if_neg (hn.2 i (by omega)), ih (i + 1) (by omega) (by omega)]

/-- `strlen` of a string that fits. -/
theorem strlen_name (hname : name ≠ 0) (hn : NameEnds mem name n) (hlt : n < dName) :
    strlen mem name = .ok n := by
  obtain ⟨k, hk, hbig⟩ := addressSpace_succ
  unfold dName at hlt
  unfold strlen
  rw [if_neg hname, strlenLoop_name _ 0 hn (Nat.zero_le n) (by omega)]

/-- All characters are ones `is_name_illegal` lets pass. -/
def NameAllowed (mem : Store) (name n : Nat) : Prop :=
  ∀ m, m < n → nameCharOk (mem (name + m)) = true

/-- The loop over the characters, by induction on what is left. -/
theorem isNameIllegalLoop_name (left i : Nat) (hn : NameEnds mem name n) (hi : i ≤ n)
    (hlt : n < i + left) : ∃ r, isNameIllegalLoop mem left name i = .ok r ∧
      (r = false ↔ ∀ m, i ≤ m → m < n → nameCharOk (mem (name + m)) = true) := by
  induction left generalizing i with
  | zero => omega
  | succ left ih =>
      unfold isNameIllegalLoop
      by_cases hin : i = n
      · subst hin
        rw [if_pos hn.1]
        exact ⟨false, rfl, by simp only [true_iff]; intro m hm hcon; omega⟩
      · rw [if_neg (hn.2 i (by omega))]
        by_cases hok : nameCharOk (mem (name + i)) = true
        · rw [if_pos hok]
          obtain ⟨r, hr, hiff⟩ := ih (i + 1) (by omega) (by omega)
          refine ⟨r, hr, hiff.trans ⟨fun hall m hm hlt => ?_, fun hall m hm hlt =>
            hall m (by omega) hlt⟩⟩
          by_cases hmi : m = i
          · rw [hmi]
            exact hok
          · exact hall m (by omega) hlt
        · rw [if_neg hok]
          refine ⟨true, rfl, by simp, fun hall => ?_⟩
          exact absurd (hall i (Nat.le_refl i) (by omega)) hok

/-- `is_name_illegal` of a string that fits. -/
theorem isNameIllegal_name (hname : name ≠ 0) (hn : NameEnds mem name n) (hlt : n < dName) :
    ∃ r, isNameIllegal mem name = .ok r ∧ (r = false ↔ NameAllowed mem name n) := by
  obtain ⟨k, hk, hbig⟩ := addressSpace_succ
  unfold dName at hlt
  unfold isNameIllegal
  rw [if_neg hname]
  obtain ⟨r, hr, hiff⟩ := isNameIllegalLoop_name addressSpace 0 hn (Nat.zero_le n) (by omega)
  exact ⟨r, hr, hiff.trans ⟨fun h m hm => h m (Nat.zero_le m) hm, fun h m _ hm => h m hm⟩⟩

end Strings

/-! ## Searching -/

section Search

variable {blk blk' mem mem' : Store} {name type n : Nat}

/-- Live entries among the first `i`. -/
def liveBelow (blk : Store) (i : Nat) : Nat :=
  ((Finset.range i).filter fun k => dentryType blk k ≠ 0).card

/-- One entry more. -/
theorem liveBelow_succ (blk : Store) (i : Nat) :
    liveBelow blk (i + 1) =
      if dentryType blk i ≠ 0 then liveBelow blk i + 1 else liveBelow blk i := by
  unfold liveBelow
  rw [Finset.range_add_one, Finset.filter_insert]
  by_cases h : dentryType blk i ≠ 0
  · rw [if_pos h, if_pos h, Finset.card_insert_of_notMem (by simp)]
  · rw [if_neg h, if_neg h]

/-- When all live entries have been counted, none follows. -/
theorem dead_of_liveBelow {blk : Store} {i k n : Nat} (h : liveBelow blk i = liveBelow blk n)
    (hik : i ≤ k) (hk : k < n) : dentryType blk k = 0 := by
  by_contra hlive
  have hsub : (Finset.range i).filter (fun k => dentryType blk k ≠ 0) ⊆
      (Finset.range n).filter fun k => dentryType blk k ≠ 0 := by
    intro x hx
    rw [Finset.mem_filter, Finset.mem_range] at hx ⊢
    exact ⟨by omega, hx.2⟩
  have heq := Finset.eq_of_subset_of_card_le hsub (le_of_eq h.symm)
  have hmem : k ∈ (Finset.range i).filter fun k => dentryType blk k ≠ 0 := by
    rw [heq, Finset.mem_filter, Finset.mem_range]
    exact ⟨hk, hlive⟩
  rw [Finset.mem_filter, Finset.mem_range] at hmem
  omega

/-- Whether an entry matches depends on the block only. -/
theorem dentryMatches_congr {i : Nat} (h : ∀ x, x < 4096 → blk x = blk' x) (hi : i < 128) :
    dentryMatches blk i mem name type = dentryMatches blk' i mem name type := by
  unfold dentryMatches strcmpZero
  rw [dentryType_congr h hi,
    strcmpLoop_congr _ _ _ fun x hx hlt => h x (by unfold dentryName at hx hlt; omega)]

/-- So does the search. -/
theorem searchLoop_congr {fileNum : Nat} (h : ∀ x, x < 4096 → blk x = blk' x) (left i find : Nat)
    (hi : i + left = 128) :
    searchLoop blk mem fileNum name type left i find =
      searchLoop blk' mem fileNum name type left i find := by
  induction left generalizing i find with
  | zero => rfl
  | succ left ih =>
      unfold searchLoop
      simp only [dentryMatches_congr h (show i < 128 by omega),
        dentryType_congr h (show i < 128 by omega), dentryInodeId_congr h (show i < 128 by omega),
        ih (i + 1) _ (by omega)]

/-- The state a search leaves behind. -/
def searched (j : Nat) (s : State) : State :=
  readBlock (ino s.disk j inoDirectBlock) (getInode j s)

/-- A search is the loop over the directory's block. -/
theorem searchDentry_eq {s : State} {j : Nat} (hj : j < 512)
    (hlt : ino s.disk j inoDirectBlock < 131072) (name type : Nat) (mem : Store) :
    searchDentry j name type mem s =
      (searchLoop (dirBlock s.disk j) mem (ino s.disk j inoFileNum) name type 128 0 0).map
        fun id => (id, searched j s) := by
  have hfield : ∀ f, f + 4 ≤ 128 → inodeGet (getInode j s) (inodePtr j) f = ino s.disk j f := by
    intro f hf
    rw [inodeGet_eq j _ hf, flushed_getInode hj]
  have hnum : inodeGet (searched j s) (inodePtr j) inoFileNum = ino s.disk j inoFileNum :=
    hfield inoFileNum (by decide)
  have hbuf : ∀ x, x < 4096 → (searched j s).blkBuffer x = dirBlock s.disk j x := by
    intro x hx
    unfold searched
    rw [readBlock_block hj hlt _ hx, flushed_getInode hj]
    rfl
  unfold searchDentry
  simp only [hfield inoDirectBlock (by decide)]
  change (searchLoop (searched j s).blkBuffer mem (inodeGet (searched j s) (inodePtr j) inoFileNum)
    name type 128 0 0 >>= fun id => .ok (id, searched j s)) = _
  rw [hnum, searchLoop_congr hbuf 128 0 0 rfl]
  cases searchLoop (dirBlock s.disk j) mem (ino s.disk j inoFileNum) name type 128 0 0 <;> rfl

/-- Entry `k` has one of the types and the name. -/
def Hit (blk mem : Store) (name n type k : Nat) : Prop :=
  dentryType blk k &&& type ≠ 0 ∧ ∀ m, m ≤ n → blk (dentryName k + m) = mem (name + m)

/-- What a search returns: the inode number of the first hit, or `-1`. -/
def Finds (blk mem : Store) (name n type id : Nat) : Prop :=
  (∃ k, k < 128 ∧ Hit blk mem name n type k ∧ (∀ l, l < k → ¬ Hit blk mem name n type l) ∧
      id = dentryInodeId blk k) ∨
    ((∀ k, k < 128 → ¬ Hit blk mem name n type k) ∧ id = minusOne)

/-- An entry that is hit is live. -/
theorem Hit.live {k : Nat} (h : Hit blk mem name n type k) : dentryType blk k ≠ 0 := by
  intro hz
  apply h.1
  rw [hz, Nat.zero_and]

/-- An entry matches if it is a hit. -/
theorem dentryMatches_name (blk : Store) (type : Nat) {i : Nat} (hi : i < 128) (hname : name ≠ 0) (hn : NameEnds mem name n)
    (hlt : n < dName) : ∃ r, dentryMatches blk i mem name type = .ok r ∧
      (r = true ↔ Hit blk mem name n type i) := by
  unfold dentryMatches strcmpZero Hit
  by_cases hbits : dentryType blk i &&& type ≠ 0
  · rw [if_pos hbits, if_neg hname]
    obtain ⟨r, hr, hiff⟩ := strcmpLoop_name blk (4096 - dentryName i) (dentryName i) hn
      (by unfold dentryName; unfold dName at hlt; omega)
    exact ⟨r, hr, hiff.trans ⟨fun h => ⟨hbits, h⟩, fun h => h.2⟩⟩
  · rw [if_neg hbits]
    exact ⟨false, rfl, by simp [hbits]⟩

/-- The loop over the entries finds the first hit, by induction on what is left. -/
theorem searchLoop_name (blk : Store) (type : Nat) (hname : name ≠ 0) (hn : NameEnds mem name n) (hlt : n < dName)
    (left i : Nat) (hi : i + left = 128)
    (hbefore : ∀ l, l < i → ¬ Hit blk mem name n type l) :
    ∃ id, searchLoop blk mem (liveBelow blk 128) name type left i (liveBelow blk i) = .ok id ∧
      Finds blk mem name n type id := by
  induction left generalizing i with
  | zero => exact ⟨minusOne, rfl, Or.inr ⟨fun k hk => hbefore k (by omega), rfl⟩⟩
  | succ left ih =>
      obtain ⟨r, hr, hiff⟩ := dentryMatches_name blk type
        (show i < 128 by omega) hname hn hlt
      unfold searchLoop
      rw [← liveBelow_succ, hr]
      cases r with
      | true =>
          exact ⟨_, rfl, Or.inl ⟨i, by omega, hiff.mp rfl, hbefore, rfl⟩⟩
      | false =>
          have hmiss : ¬ Hit blk mem name n type i := fun hcon => by
            cases hiff.mpr hcon
          by_cases hall : liveBelow blk (i + 1) = liveBelow blk 128
          · refine ⟨minusOne, by simp [hall, bind, Except.bind], Or.inr ⟨fun k hk hcon => ?_, rfl⟩⟩
            by_cases hki : k ≤ i
            · rcases Nat.lt_or_eq_of_le hki with hlt' | heq
              · exact hbefore k hlt' hcon
              · exact hmiss (heq ▸ hcon)
            · exact hcon.live (dead_of_liveBelow hall (by omega) hk)
          · obtain ⟨id, hid, hfinds⟩ := ih (i + 1) (by omega) fun l hl => by
              by_cases hli : l = i
              · rw [hli]
                exact hmiss
              · exact hbefore l (by omega)
            refine ⟨id, ?_, hfinds⟩
            simp only [bind, Except.bind, Bool.false_eq_true, if_false, if_neg hall]
            exact hid

/-- **A search finds what is there.** -/
theorem searchDentry_name (type : Nat) {s : State} {j : Nat} (hj : j < 512)
    (hlt : ino s.disk j inoDirectBlock < 131072)
    (hcount : ino s.disk j inoFileNum = (liveSlots s.disk j).card) (hname : name ≠ 0)
    (hn : NameEnds mem name n) (hfit : n < dName) :
    ∃ id, searchDentry j name type mem s = .ok (id, searched j s) ∧
      Finds (dirBlock s.disk j) mem name n type id := by
  obtain ⟨id, hid, hfinds⟩ := searchLoop_name (dirBlock s.disk j) type hname hn hfit 128 0 rfl fun l hl => by omega
  refine ⟨id, ?_, hfinds⟩
  have hnum : ino s.disk j inoFileNum = liveBelow (dirBlock s.disk j) 128 := hcount
  rw [searchDentry_eq hj hlt, hnum]
  have h0 : liveBelow (dirBlock s.disk j) 0 = 0 := rfl
  rw [h0] at hid
  rw [hid]
  rfl

end Search

end Fs
