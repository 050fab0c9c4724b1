import OslabRiscv.Mm.Eviction

/-!
# Device memory

`ioremap` of `ioremap.c` gives device memory virtual addresses from `IO_ADDR_START` on, in
pages of 2 MB.  The addresses it gives out advance by the size asked for, the mapping by 2 MB,
so the next region can start in the middle of a page of the last one.

`sv39` is the walk of the hardware, with its check that the frame number of a large page is
aligned.  `ioremap_translates` says exactly which sequences of calls are translated as
they should be.
-/

namespace Mm

open Outcome

def ioAddrStart : Nat := 0xffffffe000000000

def largePageSize : Nat := 2 ^ 21

/-- The attributes of a page of device memory. -/
def ioAttr : BitVec 10 := present ||| read ||| write ||| exec ||| accessed ||| dirty

/-! ## The code -/

/-- The first part of `ioremap_helper`: a second-level table where there is none. -/
def ioTableFor (pgdir vpn2 : Nat) (s : State) : State :=
  if s.mem pgdir vpn2 = ⟨0, 0⟩ then
    let (t, s) := allocPage s
    let s := modifyWord pgdir vpn2 (setPfn (kva2pa t / 4096)) s
    let s := modifyWord pgdir vpn2 (setAttribute present) s
    clearPgdir (pageOf (s.mem pgdir vpn2)) s
  else s

/-- `ioremap_helper`. -/
def ioremapHelper (va pa pgdir : Nat) (s : State) : State :=
  let va := va % 2 ^ 39
  let vpn2 := va / 2 ^ 30
  let vpn1 := (vpn2 * 2 ^ 9) ^^^ (va / 2 ^ 21)
  let s := ioTableFor pgdir vpn2 s
  let pmd := pageOf (s.mem pgdir vpn2)
  let s := modifyWord pmd vpn1 (setPfn (pa / 4096)) s
  modifyWord pmd vpn1 (setAttribute ioAttr) s

/-- The loop of `ioremap`; the first argument counts the rounds. -/
def ioremapLoop : Nat → Nat → Nat → Nat → State → Except Stop State
  | 0, _, _, _, _ => .error .endless
  | rounds + 1, kva, physAddr, ioBase, s =>
    if kva < ioBase then
      ioremapLoop rounds ((kva + largePageSize) % 2 ^ 64) ((physAddr + largePageSize) % 2 ^ 64)
        ioBase (ioremapHelper kva physAddr (pa2kva pgdirPa) s)
    else .ok s

/-- The static `io_base`, with the memory. -/
structure Io where
  ioBase : Nat
  vm : State

/-- `ioremap`.  A loop that ends takes a round for each large page of the size. -/
def ioremap (physAddr size : Nat) (io : Io) : Except Stop (Nat × Io) := do
  let ret := io.ioBase
  let ioBase := (io.ioBase + size) % 2 ^ 64
  let vm ← ioremapLoop (size / largePageSize + 2) ret physAddr ioBase io.vm
  .ok (ret, ⟨ioBase, vm⟩)

/-! ## The hardware -/

/-- An entry the walk goes on with: valid, not writable without being readable, and without
a reserved bit. -/
def Pte.Walkable (e : Pte) : Prop :=
  e.has present = true ∧ ¬(e.has write = true ∧ e.has read = false) ∧ e.pfn < 2 ^ 44

instance (e : Pte) : Decidable e.Walkable := inferInstanceAs (Decidable (_ ∧ _ ∧ _))

/-- The walk from a table of a level on, level 0 being the last one.  An entry that can be
read or executed is a leaf, and the frame number of a leaf is aligned to its size. -/
def sv39From (s : State) (va : Nat) : Nat → Nat → Option Nat
  | level, t =>
    let e := s.mem t (va / 2 ^ (12 + 9 * level) % 512)
    if ¬ e.Walkable then none
    else if e.has (read ||| exec) then
      if e.pfn % 2 ^ (9 * level) = 0 then some (e.pfn * 4096 + va % 2 ^ (12 + 9 * level)) else none
    else match level with
      | 0 => none
      | level + 1 => sv39From s va level (pageOf e)

/-- The physical address behind an address in the kernel's root table.  Addresses have 39 bits,
and the bits above are all like the last of them. -/
def sv39 (va : Nat) (s : State) : Option Nat :=
  if va < 2 ^ 38 ∨ 2 ^ 64 - 2 ^ 38 ≤ va ∧ va < 2 ^ 64 then sv39From s va 2 (pa2kva pgdirPa)
  else none

/-! ## The table of the window -/

/-- The entry of the root table that the whole window is behind. -/
def ioSlot : Nat := 384

/-- There is no table for the window yet, and `allocPage` has a page for it. -/
structure IoFree (s : State) : Prop where
  entry : s.mem (pa2kva pgdirPa) ioSlot = ⟨0, 0⟩
  frame : Frame (allocPage s).1
  ne : (allocPage s).1 ≠ pa2kva pgdirPa

/-- The table of the window is in the page `pmd`, and its entries are empty or for device
memory. -/
structure IoTable (pmd : Nat) (s : State) : Prop where
  entry : s.mem (pa2kva pgdirPa) ioSlot = ⟨kva2pa pmd / 4096 % 2 ^ 54, present⟩
  frame : Frame pmd
  ne : pmd ≠ pa2kva pgdirPa
  attr : ∀ j, (s.mem pmd j).attr = 0 ∨ (s.mem pmd j).attr = ioAttr

/-- What holds between the calls. -/
def IoReady (s : State) : Prop := IoFree s ∨ ∃ pmd, IoTable pmd s

/-- Entry `j` of the table of the window. -/
def ioLeaf (s : State) (j : Nat) : Pte :=
  if s.mem (pa2kva pgdirPa) ioSlot = ⟨0, 0⟩ then ⟨0, 0⟩
  else s.mem (pageOf (s.mem (pa2kva pgdirPa) ioSlot)) j

/-- The entry for the large page at `pa`. -/
def ioEntry (pa : Nat) : Pte := ⟨pa / 4096 % 2 ^ 54, ioAttr⟩

section Helper

variable {s : State} {pmd x pa : Nat}

/-- The entry of the root leads to the table. -/
theorem IoTable.pageOf_entry (h : IoTable pmd s) :
    pageOf (s.mem (pa2kva pgdirPa) ioSlot) = pmd :=
  h.frame.pageOf_eq (by rw [h.entry])

/-- It is not empty. -/
theorem IoTable.entry_ne (h : IoTable pmd s) : s.mem (pa2kva pgdirPa) ioSlot ≠ ⟨0, 0⟩ := by
  rw [h.entry]
  intro hcon
  have hattr : present = 0 := congrArg Pte.attr hcon
  exact absurd hattr (by decide)

/-- The entries of the table. -/
theorem IoTable.ioLeaf_eq (h : IoTable pmd s) (j : Nat) : ioLeaf s j = s.mem pmd j := by
  unfold ioLeaf
  rw [if_neg h.entry_ne, h.pageOf_entry]

/-- Without a table all entries are empty. -/
theorem IoFree.ioLeaf_eq (h : IoFree s) (j : Nat) : ioLeaf s j = ⟨0, 0⟩ := by
  unfold ioLeaf
  rw [if_pos h.entry]

/-- The low nine bits of a number. -/
theorem xor_low (a : Nat) {b : Nat} (hb : b < 2 ^ 9) : (a * 2 ^ 9) ^^^ (a * 2 ^ 9 + b) = b := by
  refine Nat.eq_of_testBit_eq fun k => ?_
  rw [Nat.testBit_xor, Nat.mul_comm, Nat.testBit_two_pow_mul_add _ hb, Nat.testBit_two_pow_mul]
  by_cases hk : k < 9
  · simp [hk, Nat.not_le.mpr hk]
  · have hbig : b.testBit k = false :=
      Nat.testBit_lt_two_pow (lt_of_lt_of_le hb (Nat.pow_le_pow_right (by decide) (by omega)))
    simp [hk, Nat.not_lt.mp hk, hbig]

/-- Addresses of the window share their entry in the root table; the second index counts large
pages. -/
theorem window_index (hx : x < 2 ^ 30) :
    (ioAddrStart + x) % 2 ^ 39 / 2 ^ 30 = ioSlot ∧
      (((ioAddrStart + x) % 2 ^ 39 / 2 ^ 30 * 2 ^ 9) ^^^ ((ioAddrStart + x) % 2 ^ 39 / 2 ^ 21)) =
        x / 2 ^ 21 := by
  have htop : (ioAddrStart + x) % 2 ^ 39 / 2 ^ 30 = ioSlot := by
    unfold ioAddrStart ioSlot
    omega
  have hlow : (ioAddrStart + x) % 2 ^ 39 / 2 ^ 21 = ioSlot * 2 ^ 9 + x / 2 ^ 21 := by
    unfold ioAddrStart ioSlot
    omega
  refine ⟨htop, ?_⟩
  rw [htop, hlow]
  exact xor_low ioSlot (by omega)

/-- The table is made where there is none, and no entry changes by it. -/
theorem ioTableFor_spec (hs : IoReady s) :
    ∃ pmd, IoTable pmd (ioTableFor (pa2kva pgdirPa) ioSlot s) ∧
      ∀ j, ioLeaf (ioTableFor (pa2kva pgdirPa) ioSlot s) j = ioLeaf s j := by
  rcases hs with hfree | ⟨pmd, htab⟩
  · obtain ⟨hentry, hframe, hne⟩ := hfree
    set t := (allocPage s).1 with ht
    have hbits : (0 : BitVec 10) ||| present = present := by decide
    have htop : (modifyWord (pa2kva pgdirPa) ioSlot (setAttribute present)
        (modifyWord (pa2kva pgdirPa) ioSlot (setPfn (kva2pa t / 4096)) (allocPage s).2)) =
        setWord (pa2kva pgdirPa) ioSlot ⟨kva2pa t / 4096 % 2 ^ 54, present⟩ (allocPage s).2 := by
      rw [modifyWord_twice]
      change setWord _ _ (setAttribute present (setPfn _ (s.mem (pa2kva pgdirPa) ioSlot))) _ = _
      rw [hentry]
      simp only [setAttribute, setPfn, hbits]
    have hmade : ioTableFor (pa2kva pgdirPa) ioSlot s =
        clearPgdir t (setWord (pa2kva pgdirPa) ioSlot ⟨kva2pa t / 4096 % 2 ^ 54, present⟩
          (allocPage s).2) := by
      have hpage : pageOf ((setWord (pa2kva pgdirPa) ioSlot ⟨kva2pa t / 4096 % 2 ^ 54, present⟩
          (allocPage s).2).mem (pa2kva pgdirPa) ioSlot) = t :=
        hframe.pageOf_eq (by simp only [setWord, and_self, if_true])
      unfold ioTableFor
      rw [if_pos hentry]
      simp only [← ht, htop, hpage]
    have htable : IoTable t (ioTableFor (pa2kva pgdirPa) ioSlot s) := by
      rw [hmade]
      exact ⟨by simp [clearPgdir, setContent, setWord, Ne.symm hne], hframe, hne, fun j => by
        simp [clearPgdir, setContent]⟩
    refine ⟨t, htable, fun j => ?_⟩
    rw [htable.ioLeaf_eq, IoFree.ioLeaf_eq ⟨hentry, hframe, hne⟩, hmade]
    simp [clearPgdir, setContent]
  · have hsame : ioTableFor (pa2kva pgdirPa) ioSlot s = s := by
      unfold ioTableFor
      rw [if_neg htab.entry_ne]
    rw [hsame]
    exact ⟨pmd, htab, fun _ => rfl⟩

/-- One round sets the one entry. -/
theorem ioremapHelper_spec (pa : Nat) (hs : IoReady s) (hx : x < 2 ^ 30) :
    (∃ pmd, IoTable pmd (ioremapHelper (ioAddrStart + x) pa (pa2kva pgdirPa) s)) ∧
      ∀ j, ioLeaf (ioremapHelper (ioAddrStart + x) pa (pa2kva pgdirPa) s) j =
        if j = x / 2 ^ 21 then ioEntry pa else ioLeaf s j := by
  obtain ⟨pmd, htab, hleaf⟩ := ioTableFor_spec hs
  obtain ⟨htop, hindex⟩ := window_index hx
  set s₁ := ioTableFor (pa2kva pgdirPa) ioSlot s
  have hword : setAttribute ioAttr (setPfn (pa / 4096) (s₁.mem pmd (x / 2 ^ 21))) = ioEntry pa := by
    have hbits : (s₁.mem pmd (x / 2 ^ 21)).attr ||| ioAttr = ioAttr := by
      rcases htab.attr (x / 2 ^ 21) with h0 | h1
      · rw [h0]
        decide
      · rw [h1]
        decide
    simp only [setAttribute, setPfn, ioEntry, hbits]
  have hset : ioremapHelper (ioAddrStart + x) pa (pa2kva pgdirPa) s =
      setWord pmd (x / 2 ^ 21) (ioEntry pa) s₁ := by
    unfold ioremapHelper
    simp only [hindex]
    simp only [htop]
    rw [htab.pageOf_entry, modifyWord_twice, hword]
  have htab' : IoTable pmd (setWord pmd (x / 2 ^ 21) (ioEntry pa) s₁) := by
    refine ⟨?_, htab.frame, htab.ne, fun j => ?_⟩
    · simp [setWord, Ne.symm htab.ne, htab.entry]
    · by_cases hj : j = x / 2 ^ 21
      · exact .inr (by simp only [setWord, hj, and_self, if_true, ioEntry])
      · simp only [setWord, hj, and_false, if_false]
        exact htab.attr j
  rw [hset]
  refine ⟨⟨pmd, htab'⟩, fun j => ?_⟩
  rw [htab'.ioLeaf_eq, ← hleaf, htab.ioLeaf_eq]
  simp [setWord]

end Helper

/-! ## Translations -/

/-- What an entry of the table of the window translates `x` to. -/
def leafTarget (e : Pte) (x : Nat) : Option Nat :=
  if e.attr = ioAttr ∧ e.pfn < 2 ^ 44 ∧ e.pfn % 2 ^ 9 = 0 then some (e.pfn * 4096 + x % 2 ^ 21)
  else none

section Walk

variable {s s' : State} {x pa : Nat}

/-- An entry without attributes ends the walk. -/
theorem not_walkable_of_attr {e : Pte} (h : e.attr = 0) : ¬ e.Walkable := by
  rintro ⟨hp, _⟩
  rw [has_eq_true, h] at hp
  exact hp (by decide)

/-- A walk that ends in a large page. -/
theorem sv39From_leaf {e : Pte} (hattr : e.attr = 0 ∨ e.attr = ioAttr) {va t : Nat}
    (he : s.mem t (va / 2 ^ 21 % 512) = e) (hva : va % 2 ^ 21 = x % 2 ^ 21) :
    sv39From s va 1 t = leafTarget e x := by
  unfold sv39From leafTarget
  simp only [he, Nat.reduceMul, Nat.reduceAdd]
  rcases hattr with h0 | h1
  · have hne : ¬ e.attr = ioAttr := by
      rw [h0]
      decide
    rw [if_pos (not_walkable_of_attr h0), if_neg fun h => hne h.1]
  · have hrx : e.has (read ||| exec) = true := by
      rw [has_eq_true, h1]
      decide
    have hwalk : e.Walkable ↔ e.pfn < 2 ^ 44 := by
      refine ⟨fun h => h.2.2, fun h => ⟨?_, ?_, h⟩⟩
      · rw [has_eq_true, h1]
        decide
      · rintro ⟨_, hr⟩
        rw [has_eq_false, h1] at hr
        exact absurd hr (by decide)
    by_cases hp : e.pfn < 2 ^ 44
    · rw [if_neg (not_not.mpr (hwalk.mpr hp)), if_pos hrx, hva]
      by_cases hal : e.pfn % 2 ^ 9 = 0
      · rw [if_pos hal, if_pos ⟨h1, hp, hal⟩]
      · rw [if_neg hal, if_neg fun h => hal h.2.2]
    · rw [if_pos (mt hwalk.mp hp), if_neg fun h => hp h.2.1]

/-- An address of the window is translated by the one entry. -/
theorem sv39_window (hs : IoReady s) (hx : x < 2 ^ 30) :
    sv39 (ioAddrStart + x) s = leafTarget (ioLeaf s (x / 2 ^ 21)) x := by
  have hrange : 2 ^ 64 - 2 ^ 38 ≤ ioAddrStart + x ∧ ioAddrStart + x < 2 ^ 64 := by
    unfold ioAddrStart
    omega
  have htop : (ioAddrStart + x) / 2 ^ 30 % 512 = ioSlot := by
    unfold ioAddrStart ioSlot
    omega
  have hnext : (ioAddrStart + x) / 2 ^ 21 % 512 = x / 2 ^ 21 := by
    unfold ioAddrStart
    omega
  have hlow : (ioAddrStart + x) % 2 ^ 21 = x % 2 ^ 21 := by
    unfold ioAddrStart
    omega
  unfold sv39
  rw [if_pos (.inr hrange)]
  unfold sv39From
  simp only [Nat.reduceMul, Nat.reduceAdd, htop]
  rcases hs with hfree | ⟨pmd, htab⟩
  · rw [hfree.ioLeaf_eq, hfree.entry, if_pos (not_walkable_of_attr rfl)]
    exact (if_neg fun h => absurd h.1 (by decide)).symm
  · have hattr : (s.mem (pa2kva pgdirPa) ioSlot).attr = present := by rw [htab.entry]
    have hwalk : (s.mem (pa2kva pgdirPa) ioSlot).Walkable := by
      refine ⟨by rw [has_eq_true, hattr]; decide, ?_, ?_⟩
      · rintro ⟨hw, _⟩
        rw [has_eq_true, hattr] at hw
        exact hw (by decide)
      rw [htab.entry]
      have hlo := htab.frame.1
      have hhi := htab.frame.2.1
      unfold kvaOffset at hlo
      simp only [kva2pa, kvaOffset]
      omega
    have hptr : ¬ (s.mem (pa2kva pgdirPa) ioSlot).has (read ||| exec) = true := by
      rw [has_eq_true, hattr]
      decide
    rw [if_neg (not_not.mpr hwalk), if_neg hptr, htab.pageOf_entry, htab.ioLeaf_eq, ← hnext]
    exact sv39From_leaf (htab.attr _) rfl hlow

/-- The target of an entry that `ioremap_helper` makes. -/
theorem leafTarget_ioEntry (hpa : pa % 4096 = 0) (hlt : pa < 2 ^ 64) :
    leafTarget (ioEntry pa) x =
      if pa < 2 ^ 56 ∧ pa % 2 ^ 21 = 0 then some (pa + x % 2 ^ 21) else none := by
  have hpfn : pa / 4096 % 2 ^ 54 = pa / 4096 := Nat.mod_eq_of_lt (by omega)
  unfold leafTarget ioEntry
  simp only [hpfn, true_and]
  by_cases h : pa < 2 ^ 56 ∧ pa % 2 ^ 21 = 0
  · rw [if_pos h, if_pos (by omega), Nat.div_mul_cancel (Nat.dvd_of_mod_eq_zero hpa)]
  · rw [if_neg h, if_neg (by omega)]

end Walk

/-! ## The loop -/

/-- The loop gives the large pages from that of `x` on, one after the other, up to `y`. -/
theorem ioremapLoop_spec (rounds : Nat) {s : State} {x y p : Nat} (hs : IoReady s)
    (hp : p < 2 ^ 64) (hy : y ≤ 2 ^ 30) (hx : x < y + 2 ^ 21)
    (hr : y + 2 ^ 21 ≤ x + rounds * 2 ^ 21) :
    ∃ s', ioremapLoop rounds (ioAddrStart + x) p (ioAddrStart + y) s = .ok s' ∧ IoReady s' ∧
      (∀ n, x + n * 2 ^ 21 < y →
        ioLeaf s' (x / 2 ^ 21 + n) = ioEntry ((p + n * 2 ^ 21) % 2 ^ 64)) ∧
      ∀ j < x / 2 ^ 21, ioLeaf s' j = ioLeaf s j := by
  induction rounds generalizing s x p with
  | zero => omega
  | succ rounds ih =>
      unfold ioremapLoop
      by_cases hlt : x < y
      · obtain ⟨htab, hleaf⟩ := ioremapHelper_spec p hs (by omega : x < 2 ^ 30)
        have hnext : (ioAddrStart + x + largePageSize) % 2 ^ 64 = ioAddrStart + (x + 2 ^ 21) := by
          unfold ioAddrStart largePageSize
          omega
        obtain ⟨s', hloop, hready, hpages, hbelow⟩ :=
          ih (x := x + 2 ^ 21) (p := (p + largePageSize) % 2 ^ 64) (.inr htab)
            (Nat.mod_lt _ (by decide)) (by omega) (by omega)
        rw [if_pos (by omega), hnext]
        refine ⟨s', hloop, hready, fun n hn => ?_, fun j hj => ?_⟩
        · cases n with
          | zero =>
              have hphys : (p + 0 * 2 ^ 21) % 2 ^ 64 = p := by omega
              rw [hbelow _ (by omega), hleaf, if_pos (by omega), hphys]
          | succ n =>
              have hpage := hpages n (by omega)
              have hindex : (x + 2 ^ 21) / 2 ^ 21 + n = x / 2 ^ 21 + (n + 1) := by omega
              have hphys : ((p + largePageSize) % 2 ^ 64 + n * 2 ^ 21) % 2 ^ 64 =
                  (p + (n + 1) * 2 ^ 21) % 2 ^ 64 := by
                unfold largePageSize
                omega
              rw [← hindex, hpage, hphys]
        · rw [hbelow j (by omega), hleaf, if_neg (by omega)]
      · rw [if_neg (by omega)]
        exact ⟨s, rfl, hs, fun n hn => by omega, fun _ _ => rfl⟩

/-! ## Sequences of calls -/

/-- A call `ioremap(phys, size)`. -/
structure IoCall where
  phys : Nat
  size : Nat
  deriving DecidableEq, Repr

/-- An `unsigned long` that is the address of a page, and a size. -/
structure IoCall.Legal (c : IoCall) : Prop where
  size : 0 < c.size
  page : c.phys % 4096 = 0
  word : c.phys < 2 ^ 64

/-- A region that was given out. -/
structure Region where
  virt : Nat
  phys : Nat
  size : Nat
  deriving DecidableEq, Repr

/-- The state with the regions given out so far. -/
structure IoRun where
  io : Io
  regions : List Region

def ioStep (c : IoCall) (h : IoRun) : Except Stop IoRun := do
  let (ret, io) ← ioremap c.phys c.size h.io
  .ok ⟨io, h.regions ++ [⟨ret, c.phys, c.size⟩]⟩

/-- Every address of the region is translated to the one asked for. -/
def Region.Translated (r : Region) (s : State) : Prop :=
  ∀ o < r.size, sv39 (r.virt + o) s = some (r.phys + o)

def AllTranslated (h : IoRun) : Prop := ∀ r ∈ h.regions, r.Translated h.io.vm

/-- The region starts a large page on both sides, and ends within the 56 bits of a physical
address. -/
def Placed (h : IoRun) (c : IoCall) : Prop :=
  h.io.ioBase % largePageSize = 0 ∧ c.phys % largePageSize = 0 ∧ c.phys + c.size ≤ 2 ^ 56

instance (h : IoRun) (c : IoCall) : Decidable (Placed h c) :=
  inferInstanceAs (Decidable (_ ∧ _ ∧ _))

/-- Before the calls `cs`: they fit into the window behind the regions given out. -/
structure IoRunning (cs : List IoCall) (h : IoRun) : Prop where
  ready : IoReady h.io.vm
  legal : ∀ c ∈ cs, c.Legal
  room : ∃ x, h.io.ioBase = ioAddrStart + x ∧ x + (cs.map IoCall.size).sum ≤ 2 ^ 30 ∧
    ∀ r ∈ h.regions, ∃ w, r.virt = ioAddrStart + w ∧ w + r.size ≤ x

section Calls

variable {h : IoRun} {c : IoCall} {cs : List IoCall}

/-- What a call leaves: the region behind the others, its large pages, and those below. -/
theorem ioStep_spec (hJ : IoRunning (c :: cs) h) {x : Nat} (hx : h.io.ioBase = ioAddrStart + x)
    (hroom : x + c.size ≤ 2 ^ 30) :
    ∃ s', ioStep c h = .ok ⟨⟨ioAddrStart + (x + c.size), s'⟩,
        h.regions ++ [⟨ioAddrStart + x, c.phys, c.size⟩]⟩ ∧ IoReady s' ∧
      (∀ n, n * 2 ^ 21 < c.size →
        ioLeaf s' (x / 2 ^ 21 + n) = ioEntry ((c.phys + n * 2 ^ 21) % 2 ^ 64)) ∧
      ∀ j < x / 2 ^ 21, ioLeaf s' j = ioLeaf h.io.vm j := by
  obtain ⟨hsize, hpage, hword⟩ := hJ.legal c List.mem_cons_self
  obtain ⟨s', hloop, hready, hpages, hbelow⟩ :=
    ioremapLoop_spec (c.size / largePageSize + 2) hJ.ready hword (y := x + c.size) (x := x) hroom
      (by omega) (by unfold largePageSize; omega)
  have hbase : (h.io.ioBase + c.size) % 2 ^ 64 = ioAddrStart + (x + c.size) := by
    rw [hx]
    unfold ioAddrStart
    omega
  refine ⟨s', ?_, hready, fun n hn => hpages n (by omega), hbelow⟩
  unfold ioStep ioremap
  simp only [hbase]
  rw [hx, hloop]
  rfl

/-- The step lemma of the calls. -/
theorem ioStep_running (hJ : IoRunning (c :: cs) h) :
    ∃ h', ioStep c h = .ok h' ∧ IoRunning cs h' := by
  obtain ⟨x, hx, hroom, hregions⟩ := hJ.room
  rw [List.map_cons, List.sum_cons] at hroom
  obtain ⟨s', hstep, hready, _, _⟩ := ioStep_spec hJ hx (by omega)
  refine ⟨_, hstep, hready, fun c' hc' => hJ.legal c' (List.mem_cons_of_mem _ hc'),
    x + c.size, rfl, by omega, fun r hr => ?_⟩
  rcases List.mem_append.mp hr with hr | hr
  · obtain ⟨w, hw, hle⟩ := hregions r hr
    exact ⟨w, hw, by omega⟩
  · cases List.mem_singleton.mp hr
    exact ⟨x, rfl, le_refl _⟩

/-- A region that starts a large page is translated through its own entries. -/
theorem sv39_region {s : State} {x o : Nat} (hs : IoReady s) (hlegal : c.Legal)
    (hroom : x + c.size ≤ 2 ^ 30) (ho : o < c.size) (hx : x % 2 ^ 21 = 0)
    (hpages : ∀ n, n * 2 ^ 21 < c.size →
      ioLeaf s (x / 2 ^ 21 + n) = ioEntry ((c.phys + n * 2 ^ 21) % 2 ^ 64)) :
    sv39 (ioAddrStart + x + o) s =
      if (c.phys + o / 2 ^ 21 * 2 ^ 21) % 2 ^ 64 < 2 ^ 56 ∧ c.phys % 2 ^ 21 = 0 then
        some ((c.phys + o / 2 ^ 21 * 2 ^ 21) % 2 ^ 64 + o % 2 ^ 21)
      else none := by
  have hpage := hlegal.page
  have hindex : (x + o) / 2 ^ 21 = x / 2 ^ 21 + o / 2 ^ 21 := by omega
  have hlow : (x + o) % 2 ^ 21 = o % 2 ^ 21 := by omega
  have halign : (c.phys + o / 2 ^ 21 * 2 ^ 21) % 2 ^ 64 % 2 ^ 21 = c.phys % 2 ^ 21 := by omega
  rw [Nat.add_assoc, sv39_window hs (by omega), hindex, hpages _ (by omega),
    leafTarget_ioEntry (by omega) (Nat.mod_lt _ (by decide)), halign, hlow]

/-- A call keeps the translations and adds its own exactly if its region is placed well. -/
theorem ioStep_translated (hJ : IoRunning (c :: cs) h) (hI : AllTranslated h) {h' : IoRun}
    (hstep : ioStep c h = .ok h') : AllTranslated h' ↔ Placed h c := by
  obtain ⟨x, hx, hroom, hregions⟩ := hJ.room
  obtain ⟨hsize, hpage, hword⟩ := hJ.legal c List.mem_cons_self
  rw [List.map_cons, List.sum_cons] at hroom
  obtain ⟨s', hstep', hready, hpages, hbelow⟩ := ioStep_spec hJ hx (by omega)
  cases hstep.symm.trans hstep'
  have hbase : h.io.ioBase % largePageSize = x % 2 ^ 21 := by
    rw [hx]
    unfold ioAddrStart largePageSize
    omega
  constructor
  · intro hall
    have hregion : Region.Translated ⟨ioAddrStart + x, c.phys, c.size⟩ s' :=
      hall _ (List.mem_append_right _ (List.mem_singleton.mpr rfl))
    -- the first address gives both alignments
    have hfirst : sv39 (ioAddrStart + x) s' = some c.phys := hregion 0 hsize
    have hzero := hpages 0 (by rw [Nat.zero_mul]; exact hsize)
    rw [Nat.zero_mul, Nat.add_zero, Nat.add_zero, Nat.mod_eq_of_lt hword] at hzero
    rw [sv39_window hready (by omega), hzero, leafTarget_ioEntry hpage hword] at hfirst
    obtain ⟨⟨hphys, halign⟩, hsame⟩ := Option.ite_none_right_eq_some.mp hfirst
    rw [Option.some.injEq] at hsame
    have hx0 : x % 2 ^ 21 = 0 := by omega
    -- and the last one the end
    have hlast : sv39 (ioAddrStart + x + (c.size - 1)) s' = some (c.phys + (c.size - 1)) :=
      hregion (c.size - 1) (Nat.sub_one_lt_of_lt hsize)
    rw [sv39_region hready (hJ.legal c List.mem_cons_self) (by omega)
      (Nat.sub_one_lt_of_lt hsize) hx0 hpages] at hlast
    obtain ⟨⟨hend, _⟩, hsum⟩ := Option.ite_none_right_eq_some.mp hlast
    rw [Option.some.injEq] at hsum
    refine ⟨hbase.trans hx0, halign, ?_⟩
    omega
  · rintro ⟨hvirt, hphys, hend⟩ r hr o ho
    rw [hbase] at hvirt
    unfold largePageSize at hphys
    rcases List.mem_append.mp hr with hr | hr
    · obtain ⟨w, hw, hle⟩ := hregions r hr
      have hold := hI r hr o ho
      rw [hw, Nat.add_assoc, sv39_window hJ.ready (by omega)] at hold
      rw [hw, Nat.add_assoc, sv39_window hready (by omega), hbelow _ (by omega)]
      exact hold
    · cases List.mem_singleton.mp hr
      have hwrap : (c.phys + o / 2 ^ 21 * 2 ^ 21) % 2 ^ 64 = c.phys + o / 2 ^ 21 * 2 ^ 21 :=
        Nat.mod_eq_of_lt (by simp only at ho; omega)
      simp only at ho ⊢
      rw [sv39_region hready (hJ.legal c List.mem_cons_self) (by omega) ho hvirt hpages, hwrap,
        if_pos ⟨by omega, hphys⟩]
      congr 1
      omega

end Calls

/-- The kernel's state before the first call. -/
def ioBoot (s : State) : IoRun := ⟨⟨ioAddrStart, s⟩, []⟩

/-- Before the first call. -/
theorem ioBoot_running {s : State} (hs : IoFree s) {calls : List IoCall}
    (hlegal : ∀ c ∈ calls, c.Legal) (hsum : (calls.map IoCall.size).sum ≤ 2 ^ 30) :
    IoRunning calls (ioBoot s) :=
  ⟨.inl hs, hlegal, 0, rfl, by omega, fun _ hr => absurd hr List.not_mem_nil⟩

/-- **The regions are translated to what was asked for exactly if each call finds its region
placed on large pages.**  All calls return.  A call that does not shares an entry of the table
with the region before, or asks for a frame that no large page can start at. -/
theorem ioremap_translates {s : State} (hs : IoFree s) {calls : List IoCall}
    (hlegal : ∀ c ∈ calls, c.Legal) (hsum : (calls.map IoCall.size).sum ≤ 2 ^ 30) :
    (∃ t, run ioStep calls (ioBoot s) = .ok t) ∧
      ((∀ k t, run ioStep (calls.take k) (ioBoot s) = .ok t → AllTranslated t) ↔
        AllSteps ioStep Placed calls (ioBoot s)) := by
  have hJ := ioBoot_running hs hlegal hsum
  obtain ⟨t, ht⟩ := run_returns (fun _ _ _ => ioStep_running) calls (ioBoot s) hJ
  refine ⟨⟨t, ht⟩, run_forall_iff (fun h c cs h' hJ hI hstep => ?_) calls (ioBoot s) t hJ
    (fun _ hr => absurd hr List.not_mem_nil) ht⟩
  obtain ⟨h₁, hstep₁, hJ₁⟩ := ioStep_running hJ
  cases hstep.symm.trans hstep₁
  exact ⟨hJ₁, ioStep_translated hJ hI hstep⟩

/-- The state after boot has no table for the window. -/
theorem bootState_ioFree : IoFree bootState :=
  ⟨by decide, by decide, by decide⟩

/-- Two devices of a large page each. -/
theorem ioremap_translates_two : ∃ t,
    run ioStep [⟨0x10000000, 0x200000⟩, ⟨0x20000000, 0x200000⟩] (ioBoot bootState) = .ok t ∧
      AllTranslated t := by
  have hlegal : ∀ c ∈ [(⟨0x10000000, 0x200000⟩ : IoCall), ⟨0x20000000, 0x200000⟩], c.Legal := by
    intro c hc
    rcases List.mem_cons.mp hc with rfl | hc
    · exact ⟨by decide, by decide, by decide⟩
    · rw [List.mem_singleton.mp hc]
      exact ⟨by decide, by decide, by decide⟩
  obtain ⟨⟨t, ht⟩, hiff⟩ := ioremap_translates bootState_ioFree hlegal (by decide)
  exact ⟨t, ht, hiff.mpr (by decide) 2 t ht⟩

/-- The second region starts a page after the first, in the middle of its large page: the first
region is then translated to the frames of the second. -/
theorem ioremap_overwrites : ∃ t,
    run ioStep [⟨0x10000000, 0x1000⟩, ⟨0x20000000, 0x200000⟩] (ioBoot bootState) = .ok t ∧
      ¬AllTranslated t ∧ sv39 ioAddrStart t.io.vm = some 0x20000000 := by
  obtain ⟨t, ht, hmem, hmoved⟩ := exists_of_returns
    (x := run ioStep [⟨0x10000000, 0x1000⟩, ⟨0x20000000, 0x200000⟩] (ioBoot bootState))
    (P := fun t : IoRun => ⟨ioAddrStart, 0x10000000, 0x1000⟩ ∈ t.regions ∧
      sv39 ioAddrStart t.io.vm = some 0x20000000) (by decide)
  refine ⟨t, ht, fun hall => ?_, hmoved⟩
  have hkept : sv39 (ioAddrStart + 0) t.io.vm = some (0x10000000 + 0) := hall _ hmem 0 (by decide)
  rw [Nat.add_zero, hmoved] at hkept
  exact absurd hkept (by decide)

end Mm
