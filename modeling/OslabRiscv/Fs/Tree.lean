import OslabRiscv.Fs.Disk

/-!
# Who owns which block

The disk read as a volume: the two maps, the words of an inode, the bytes and
words of a block.  The pointers of an inode form a forest: slot `k` of the
inode is its word `32 + 4 * k` (fourteen direct blocks, three first-level and
two second-level index blocks), and an index block holds the pointers of the
next level.  A position in that forest is an inode, a slot and the offsets
taken from the slot down, the last one first; `ref` is the block stored there,
`0` meaning none.

`Owned` says that the forest is a partial injection into the blocks marked
used.  The two ways the kernel extends it, a new pointer in an inode
(`ref_linkInode`) and a new pointer in an index block (`ref_linkIndex`), change
`ref` at one position only, so that ownership is kept by `Owned.link`.
-/

namespace Fs

open ByteStore

/-! ## The disk as a volume -/

/-- Byte `i` of the inode map. -/
def imap (d : Store) (i : Nat) : UInt8 := d (8389120 + i)

/-- Byte `b` of the block map. -/
def bmap (d : Store) (b : Nat) : UInt8 := d (8389632 + b)

/-- Where inode `i` starts on the disk. -/
def inoAddr (i : Nat) : Nat := 8520704 + 128 * i

/-- The field at byte offset `f` of inode `i`. -/
def ino (d : Store) (i f : Nat) : Nat := rd32 d (inoAddr i + f)

/-- Where block `b` starts on the disk. -/
def blkAddr (b : Nat) : Nat := 8782848 + 4096 * b

/-- Byte `k` of block `b`. -/
def blkByte (d : Store) (b k : Nat) : UInt8 := d (blkAddr b + k)

/-- Word `o` of block `b`. -/
def blkWord (d : Store) (b o : Nat) : Nat := rd32 d (blkAddr b + 4 * o)

/-- Inode `i` is marked used. -/
def InodeUsed (d : Store) (i : Nat) : Prop := i < 512 ∧ imap d i ≠ 0

/-- Block `b` is marked used. -/
def BlockUsed (d : Store) (b : Nat) : Prop := b < 131072 ∧ bmap d b ≠ 0

instance (d : Store) (i : Nat) : Decidable (InodeUsed d i) :=
  inferInstanceAs (Decidable (_ ∧ _))

instance (d : Store) (b : Nat) : Decidable (BlockUsed d b) :=
  inferInstanceAs (Decidable (_ ∧ _))

/-- Use is read off the map. -/
theorem inodeUsed_congr {d d' : Store} {j : Nat} (h : j < 512 → imap d' j = imap d j) :
    InodeUsed d' j ↔ InodeUsed d j := by
  refine and_congr_right fun hj => ?_
  rw [h hj]

/-- The kind of an inode is read off its use and its type. -/
theorem typed_congr {d d' : Store} {j : Nat} (hused : InodeUsed d' j ↔ InodeUsed d j)
    (htype : j < 512 → ino d' j inoType = ino d j inoType) (type : Nat) :
    InodeUsed d' j ∧ ino d' j inoType = type ↔ InodeUsed d j ∧ ino d j inoType = type := by
  rw [hused]
  refine and_congr_right fun hu => ?_
  rw [htype hu.1]

/-- Where the inode map starts. -/
theorem inodeMap_addr : 512 * (fsStart + inodeMapOffset) = 8389120 := rfl

/-- Where the block map starts. -/
theorem blockMap_addr : 512 * (fsStart + blockMapOffset) = 8389632 := rfl

/-- Where the sector of an inode starts. -/
theorem inodeSector_addr {i : Nat} (hi : i < 512) :
    512 * inodeSector (i / 4) = 8520704 + 512 * (i / 4) := by
  unfold inodeSector fsStart inodeBlockOffset
  omega

/-- Where a block starts. -/
theorem blockSector_addr {b : Nat} (hb : b < 131072) :
    512 * blockSector b = blkAddr b := by
  unfold blockSector fsStart dataNumOffset blkAddr
  omega

/-! ## Positions -/

/-- A pointer position: an inode, one of its slots, and the offsets from there
down, the last one first. -/
structure Pos where
  inode : Nat
  slot : Nat
  path : List Nat
  deriving DecidableEq

/-- How many index blocks lie between a slot and its data. -/
def depth (slot : Nat) : Nat := if slot < 14 then 0 else if slot < 17 then 1 else 2

/-- The positions the block tree of an inode has. -/
def Pos.Valid (p : Pos) : Prop :=
  p.slot < 19 ∧ p.path.length ≤ depth p.slot ∧ ∀ o ∈ p.path, o < 1024

/-- The positions that hold data blocks. -/
def Pos.Data (p : Pos) : Prop := p.path.length = depth p.slot

/-- The block stored at a position of inode `i`; `0` is none. -/
def refAt (d : Store) (i slot : Nat) : List Nat → Nat
  | [] => ino d i (32 + 4 * slot)
  | o :: q => if refAt d i slot q = 0 then 0 else blkWord d (refAt d i slot q) o

/-- The block stored at a position. -/
def ref (d : Store) (p : Pos) : Nat := refAt d p.inode p.slot p.path

theorem ref_nil (d : Store) (i slot : Nat) : ref d ⟨i, slot, []⟩ = ino d i (32 + 4 * slot) := rfl

/-- The block in a word of an index block. -/
theorem ref_cons (d : Store) (i slot o : Nat) (q : List Nat) :
    ref d ⟨i, slot, o :: q⟩ =
      if ref d ⟨i, slot, q⟩ = 0 then 0 else blkWord d (ref d ⟨i, slot, q⟩) o := rfl

theorem Pos.Valid.tail {i slot o : Nat} {q : List Nat}
    (h : Pos.Valid ⟨i, slot, o :: q⟩) : Pos.Valid ⟨i, slot, q⟩ := by
  obtain ⟨hs, hl, ho⟩ := h
  refine ⟨hs, ?_, fun x hx => ho x (List.mem_cons_of_mem _ hx)⟩
  change q.length + 1 ≤ depth slot at hl
  change q.length ≤ depth slot
  omega

/-- An offset in an index block. -/
theorem Pos.Valid.head_lt {i slot o : Nat} {q : List Nat}
    (h : Pos.Valid ⟨i, slot, o :: q⟩) : o < 1024 :=
  h.2.2 o List.mem_cons_self

/-- A position that some other position continues is not a data position. -/
theorem Pos.Valid.tail_not_data {i slot o : Nat} {q : List Nat}
    (h : Pos.Valid ⟨i, slot, o :: q⟩) : ¬ Pos.Data ⟨i, slot, q⟩ := by
  have hl : q.length + 1 ≤ depth slot := h.2.1
  intro hd
  change q.length = depth slot at hd
  omega

/-- Positions of inodes in use. -/
def Pos.Live (d : Store) (p : Pos) : Prop := p.Valid ∧ InodeUsed d p.inode

theorem Pos.Live.tail {d : Store} {i slot o : Nat} {q : List Nat}
    (h : Pos.Live d ⟨i, slot, o :: q⟩) : Pos.Live d ⟨i, slot, q⟩ :=
  ⟨h.1.tail, h.2⟩

/-- Every block referenced by an inode in use is marked used and referenced
exactly once, and block 0 is marked used. -/
structure Owned (d : Store) : Prop where
  zero_used : bmap d 0 ≠ 0
  used : ∀ p, p.Live d → ref d p ≠ 0 → BlockUsed d (ref d p)
  inj : ∀ p q, p.Live d → q.Live d → ref d p ≠ 0 → ref d p = ref d q → p = q

/-- A block not marked used is referenced nowhere. -/
theorem Owned.ref_ne_of_free {d : Store} (h : Owned d) {p : Pos} (hp : p.Live d)
    {b : Nat} (hb : bmap d b = 0) : ref d p ≠ b := by
  intro heq
  by_cases hz : ref d p = 0
  · rw [hz] at heq
    exact h.zero_used (by rw [heq]; exact hb)
  · exact (h.used p hp hz).2 (by rw [heq]; exact hb)

/-- If the new disk stores a fresh block at one more position and nothing else
moves, ownership is kept. -/
theorem Owned.link {d d' : Store} (h : Owned d) {t : Pos} {b : Nat}
    (hb0 : bmap d b = 0) (hb : b < 131072)
    (himap : ∀ i, i < 512 → imap d' i = imap d i)
    (hbmap : bmap d' b ≠ 0) (hother : ∀ c, c < 131072 → c ≠ b → bmap d' c = bmap d c)
    (href : ∀ p, p.Live d → ref d' p = if p = t then b else ref d p) : Owned d' := by
  have hlive : ∀ p : Pos, p.Live d' → p.Live d := by
    intro p hp
    refine ⟨hp.1, hp.2.1, ?_⟩
    have := hp.2.2
    rwa [himap _ hp.2.1] at this
  have hbne : b ≠ 0 := by
    intro h0
    subst h0
    exact h.zero_used hb0
  refine ⟨?_, ?_, ?_⟩
  · rw [hother 0 (by omega) (Ne.symm hbne)]
    exact h.zero_used
  · intro p hp hne
    rw [href p (hlive p hp)] at hne ⊢
    by_cases hpt : p = t
    · rw [if_pos hpt]
      exact ⟨hb, hbmap⟩
    · rw [if_neg hpt] at hne ⊢
      have hu := h.used p (hlive p hp) hne
      have hcb : ref d p ≠ b := h.ref_ne_of_free (hlive p hp) hb0
      exact ⟨hu.1, by rw [hother _ hu.1 hcb]; exact hu.2⟩
  · intro p q hp hq hne heq
    rw [href p (hlive p hp)] at hne heq
    rw [href q (hlive q hq)] at heq
    by_cases hpt : p = t <;> by_cases hqt : q = t
    · rw [hpt, hqt]
    · rw [if_pos hpt, if_neg hqt] at heq
      exact absurd heq.symm (h.ref_ne_of_free (hlive q hq) hb0)
    · rw [if_neg hpt, if_pos hqt] at heq
      exact absurd heq (h.ref_ne_of_free (hlive p hp) hb0)
    · rw [if_neg hpt] at hne heq
      rw [if_neg hqt] at heq
      exact h.inj p q (hlive p hp) (hlive q hq) hne heq

/-! ## Changing one pointer -/

/-- If every stored pointer is the old one except that position `t` now holds
a block whose own words are all zero, then `ref` has changed at `t` only. -/
theorem ref_update {d d' : Store} {t : Pos} {b : Nat} (hb : b ≠ 0) (ht : ref d t = 0)
    (hpar : ∀ o q, t.path = o :: q → ref d ⟨t.inode, t.slot, q⟩ ≠ 0)
    (hino : ∀ i slot, Pos.Live d ⟨i, slot, []⟩ →
      ino d' i (32 + 4 * slot) =
        if (⟨i, slot, []⟩ : Pos) = t then b else ino d i (32 + 4 * slot))
    (hblk : ∀ i slot o q, Pos.Live d ⟨i, slot, o :: q⟩ → ref d ⟨i, slot, q⟩ ≠ 0 →
      blkWord d' (ref d ⟨i, slot, q⟩) o =
        if (⟨i, slot, o :: q⟩ : Pos) = t then b else blkWord d (ref d ⟨i, slot, q⟩) o)
    (hfresh : ∀ o, o < 1024 → blkWord d' b o = 0) :
    ∀ p : Pos, p.Live d → ref d' p = if p = t then b else ref d p := by
  rintro ⟨i, slot, path⟩ hp
  induction path with
  | nil => exact hino i slot hp
  | cons o q ih =>
      rw [ref_cons, ih hp.tail]
      by_cases hq : (⟨i, slot, q⟩ : Pos) = t
      · -- below the new block: nothing was there before, and nothing is now
        have hne : (⟨i, slot, o :: q⟩ : Pos) ≠ t := by
          rw [← hq]
          simp
        rw [if_pos hq, if_neg hb, hfresh o hp.1.head_lt, if_neg hne, ref_cons, hq, if_pos ht]
      · rw [if_neg hq]
        by_cases hz : ref d ⟨i, slot, q⟩ = 0
        · have hpt : (⟨i, slot, o :: q⟩ : Pos) ≠ t := by
            rintro rfl
            exact hpar o q rfl hz
          rw [if_pos hz, if_neg hpt, ref_cons, if_pos hz]
        · rw [if_neg hz, hblk i slot o q hp hz, ref_cons, if_neg hz]

/-- Nothing moves when the pointer words of the inode and of its index blocks
are kept. -/
theorem ref_congr {d d' : Store} {i slot : Nat}
    (hino : ino d' i (32 + 4 * slot) = ino d i (32 + 4 * slot))
    (hblk : ∀ o q, Pos.Valid ⟨i, slot, o :: q⟩ → ref d ⟨i, slot, q⟩ ≠ 0 →
      blkWord d' (ref d ⟨i, slot, q⟩) o = blkWord d (ref d ⟨i, slot, q⟩) o)
    {path : List Nat} (hp : Pos.Valid ⟨i, slot, path⟩) :
    ref d' ⟨i, slot, path⟩ = ref d ⟨i, slot, path⟩ := by
  induction path with
  | nil => exact hino
  | cons o q ih =>
      rw [ref_cons, ref_cons, ih hp.tail]
      by_cases hz : ref d ⟨i, slot, q⟩ = 0
      · rw [if_pos hz, if_pos hz]
      · rw [if_neg hz, if_neg hz, hblk o q hp hz]

/-- The disk after a fresh block `b` was marked used, its number stored at
`cell`, the block count of inode `i` set to `v`, and the block cleared. -/
def linkAt (d : Store) (i cell b v : Nat) : Store :=
  blit (wr32 (wr32 (wr8 d (8389632 + b) 1) cell b) (inoAddr i + inoBlocks) v)
    (blkAddr b) zeros 0 4096

/-- A byte that linking leaves alone. -/
theorem linkAt_apply {d : Store} {i cell b v a : Nat} (hm : a ≠ 8389632 + b)
    (hc : a < cell ∨ cell + 4 ≤ a) (hi : a < inoAddr i + 28 ∨ inoAddr i + 32 ≤ a)
    (hb : a < blkAddr b ∨ blkAddr b + 4096 ≤ a) : linkAt d i cell b v a = d a := by
  unfold linkAt inoBlocks
  rw [blit_apply_of_ne _ _ hb, wr32_apply_of_ne _ (by omega), wr32_apply_of_ne _ hc,
    wr8_apply_of_ne _ _ hm]

/-- A word that linking leaves alone. -/
theorem rd32_linkAt {d : Store} {i cell b v a : Nat}
    (hm : a + 4 ≤ 8389632 + b ∨ 8389632 + b < a)
    (hc : a + 4 ≤ cell ∨ cell + 4 ≤ a) (hi : a + 4 ≤ inoAddr i + 28 ∨ inoAddr i + 32 ≤ a)
    (hb : a + 4 ≤ blkAddr b ∨ blkAddr b + 4096 ≤ a) :
    rd32 (linkAt d i cell b v) a = rd32 d a :=
  rd32_congr fun _ hk => linkAt_apply (by omega) (by omega) (by omega) (by omega)

/-- A pointer cell of inode `i`, or of an index block other than `b`. -/
def IsCell (i b cell : Nat) : Prop :=
  (∃ slot, slot < 19 ∧ cell = inoAddr i + (32 + 4 * slot)) ∨
    ∃ c o, c ≠ b ∧ o < 1024 ∧ cell = blkAddr c + 4 * o

section LinkAt

variable {d : Store} {i cell b v : Nat}

/-- Linking leaves the inode map. -/
theorem imap_linkAt (hi : i < 512) (hcell : IsCell i b cell) {j : Nat} (hj : j < 512) :
    imap (linkAt d i cell b v) j = imap d j := by
  apply linkAt_apply
  · omega
  · rcases hcell with ⟨slot, hs, rfl⟩ | ⟨c, o, _, _, rfl⟩ <;> simp only [inoAddr, blkAddr] <;> omega
  · simp only [inoAddr]; omega
  · simp only [blkAddr]; omega

/-- Linking marks the fresh block. -/
theorem bmap_linkAt (hi : i < 512) (hb : b < 131072) (hcell : IsCell i b cell) {c : Nat}
    (hc : c < 131072) : bmap (linkAt d i cell b v) c = if c = b then 1 else bmap d c := by
  have hcell' : 8520704 ≤ cell := by
    rcases hcell with ⟨slot, hs, rfl⟩ | ⟨c, o, _, _, rfl⟩ <;> simp only [inoAddr, blkAddr] <;> omega
  by_cases hcb : c = b
  · subst hcb
    unfold bmap linkAt
    rw [blit_apply_of_ne _ _ (by simp only [blkAddr]; omega),
      wr32_apply_of_ne _ (by simp only [inoAddr, inoBlocks]; omega),
      wr32_apply_of_ne _ (by omega), wr8_apply, if_pos rfl]
  · rw [if_neg hcb]
    apply linkAt_apply
    · omega
    · omega
    · simp only [inoAddr]; omega
    · simp only [blkAddr]; omega

/-- The words of the inodes, the stored pointer and the block count apart. -/
theorem ino_linkAt (hb : b < 131072) {j f : Nat} (hj : j < 512) (hf : f + 4 ≤ 128)
    (hcell : inoAddr j + f + 4 ≤ cell ∨ cell + 4 ≤ inoAddr j + f)
    (hne : j ≠ i ∨ f + 4 ≤ 28 ∨ 32 ≤ f) :
    ino (linkAt d i cell b v) j f = ino d j f := by
  apply rd32_linkAt
  · simp only [inoAddr]; omega
  · exact hcell
  · simp only [inoAddr]; omega
  · simp only [inoAddr, blkAddr]; omega

/-- The slot holds the fresh block. -/
theorem ino_linkAt_slot (hi : i < 512) (hb : b < 131072) {slot : Nat} (hs : slot < 19) :
    ino (linkAt d i (inoAddr i + (32 + 4 * slot)) b v) i (32 + 4 * slot) = b := by
  unfold ino linkAt
  rw [rd32_blit_of_ne _ _ (by simp only [inoAddr, blkAddr]; omega),
    rd32_wr32_of_ne _ (by simp only [inoAddr, inoBlocks]; omega), rd32_wr32_of_lt _ (by omega)]

/-- The fresh block reads as zeros. -/
theorem blkByte_linkAt_fresh {k : Nat} (hk : k < 4096) :
    blkByte (linkAt d i cell b v) b k = 0 := by
  unfold blkByte linkAt
  rw [blit_apply_add _ _ hk]
  rfl

/-- Other blocks keep every byte outside the stored pointer. -/
theorem blkByte_linkAt (hi : i < 512) (hb : b < 131072) {c k : Nat} (hcb : c ≠ b)
    (hk : k < 4096) (hcell : blkAddr c + k < cell ∨ cell + 4 ≤ blkAddr c + k) :
    blkByte (linkAt d i cell b v) c k = blkByte d c k := by
  apply linkAt_apply
  · simp only [blkAddr]; omega
  · exact hcell
  · simp only [inoAddr, blkAddr]; omega
  · simp only [blkAddr]; omega

/-- The fresh block is empty. -/
theorem blkWord_linkAt_fresh {o : Nat} (ho : o < 1024) :
    blkWord (linkAt d i cell b v) b o = 0 := by
  apply rd32_eq_zero
  intro k hk
  rw [Nat.add_assoc]
  exact blkByte_linkAt_fresh (by omega)

/-- The words of other blocks, but for the cell. -/
theorem blkWord_linkAt (hi : i < 512) (hb : b < 131072) {c o : Nat} (hcb : c ≠ b)
    (ho : o < 1024) (hcell : blkAddr c + 4 * o + 4 ≤ cell ∨ cell + 4 ≤ blkAddr c + 4 * o) :
    blkWord (linkAt d i cell b v) c o = blkWord d c o := by
  apply rd32_congr
  intro k hk
  rw [Nat.add_assoc]
  exact blkByte_linkAt hi hb hcb (by omega) (by omega)

/-- The cell in an index block holds the fresh block. -/
theorem blkWord_linkAt_cell (hi : i < 512) (hb : b < 131072) {c o : Nat} (hcb : c ≠ b)
    (ho : o < 1024) : blkWord (linkAt d i (blkAddr c + 4 * o) b v) c o = b := by
  unfold blkWord linkAt
  rw [rd32_blit_of_ne _ _ (by simp only [blkAddr]; omega),
    rd32_wr32_of_ne _ (by simp only [inoAddr, blkAddr, inoBlocks]; omega),
    rd32_wr32_of_lt _ (by omega)]

end LinkAt

/-- A new pointer in the inode changes the forest at that slot only. -/
theorem ref_linkInode {d : Store} (h : Owned d) {i slot b v : Nat} (hi : InodeUsed d i)
    (hs : slot < 19) (hz : ref d ⟨i, slot, []⟩ = 0) (hb : b < 131072) (hb0 : bmap d b = 0) :
    ∀ p : Pos, p.Live d → ref (linkAt d i (inoAddr i + (32 + 4 * slot)) b v) p =
      if p = ⟨i, slot, []⟩ then b else ref d p := by
  have hbne : b ≠ 0 := fun h0 => h.zero_used (h0 ▸ hb0)
  refine ref_update hbne hz (by simp) ?_ ?_ fun o ho => blkWord_linkAt_fresh ho
  · intro j slot' hp
    have hslot : slot' < 19 := hp.1.1
    by_cases heq : (⟨j, slot', []⟩ : Pos) = ⟨i, slot, []⟩
    · rw [if_pos heq]
      obtain ⟨rfl, rfl⟩ : j = i ∧ slot' = slot := by simpa using heq
      exact ino_linkAt_slot hi.1 hb hslot
    · rw [if_neg heq]
      have hj : j < 512 := hp.2.1
      have hne : j ≠ i ∨ slot' ≠ slot := by
        by_contra hcon
        apply heq
        simp only [not_or, not_not] at hcon
        rw [hcon.1, hcon.2]
      apply ino_linkAt hb hj (by omega)
      · simp only [inoAddr]; omega
      · omega
  · intro j slot' o q hp hq
    rw [if_neg (by simp)]
    apply blkWord_linkAt hi.1 hb (h.ref_ne_of_free hp.tail hb0) hp.1.head_lt
    simp only [inoAddr, blkAddr]
    have := hi.1
    omega

/-- A new pointer in an index block changes the forest at that entry only:
no other position reads the index block, since it is owned once. -/
theorem ref_linkIndex {d : Store} (h : Owned d) {i slot o b v : Nat} {q : List Nat}
    (ht : Pos.Live d ⟨i, slot, o :: q⟩) (hq : ref d ⟨i, slot, q⟩ ≠ 0)
    (hz : ref d ⟨i, slot, o :: q⟩ = 0) (hb : b < 131072) (hb0 : bmap d b = 0) :
    ∀ p : Pos, p.Live d → ref (linkAt d i (blkAddr (ref d ⟨i, slot, q⟩) + 4 * o) b v) p =
      if p = ⟨i, slot, o :: q⟩ then b else ref d p := by
  have hbne : b ≠ 0 := fun h0 => h.zero_used (h0 ▸ hb0)
  have hi := ht.2.1
  have ho := ht.1.head_lt
  have hpar := h.used _ ht.tail hq
  have hne : ref d ⟨i, slot, q⟩ ≠ b := h.ref_ne_of_free ht.tail hb0
  refine ref_update hbne hz ?_ ?_ ?_ fun o ho => blkWord_linkAt_fresh ho
  · intro o' q' heq
    obtain ⟨rfl, rfl⟩ : o = o' ∧ q = q' := by simpa using heq
    exact hq
  · intro j slot' hp
    rw [if_neg (by simp)]
    have hslot : slot' < 19 := hp.1.1
    have hj : j < 512 := hp.2.1
    apply ino_linkAt hb hj (by omega)
    · simp only [inoAddr, blkAddr]; omega
    · omega
  · intro j slot' o' q' hp hq'
    have ho' := hp.1.head_lt
    by_cases heq : (⟨j, slot', o' :: q'⟩ : Pos) = ⟨i, slot, o :: q⟩
    · rw [if_pos heq]
      obtain ⟨rfl, rfl, rfl, rfl⟩ : j = i ∧ slot' = slot ∧ o' = o ∧ q' = q := by simpa using heq
      exact blkWord_linkAt_cell hi hb hne ho
    · rw [if_neg heq]
      apply blkWord_linkAt hi hb (h.ref_ne_of_free hp.tail hb0) ho'
      by_cases hc : ref d ⟨j, slot', q'⟩ = ref d ⟨i, slot, q⟩
      · have hpos := h.inj _ _ hp.tail ht.tail hq' hc
        have hoo : o' ≠ o := by
          rintro rfl
          apply heq
          obtain ⟨rfl, rfl, rfl⟩ : j = i ∧ slot' = slot ∧ q' = q := by simpa using hpos
          rfl
        rw [hc]
        omega
      · simp only [blkAddr]
        omega

end Fs
