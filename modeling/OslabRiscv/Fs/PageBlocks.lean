import Mathlib.Data.Set.Card
import OslabRiscv.Fs.FileSemantics

/-!
# The blocks behind the pages of a file

`byte_locate` over a whole sequence of calls on one inode.  `Grown` says what one call does
to the block tree; what is added here is the count: `inode.blocks` is incremented in every
place where a block is linked, so it stays the number of blocks of the tree (`Counted`).  With
both, a page keeps its block over all later calls, and no other page gets it.
-/

namespace Fs

open ByteStore Outcome

/-- The blocks in the tree of inode `i`, data blocks and index blocks. -/
def treeBlocks (d : Store) (i : Nat) : Set Nat :=
  {b | b ≠ 0 ∧ ∃ p : Pos, p.Valid ∧ p.inode = i ∧ ref d p = b}

/-- `inode.blocks` is the number of blocks of the tree. -/
def Counted (d : Store) (i : Nat) : Prop := ino d i inoBlocks = (treeBlocks d i).ncard

/-! ## Counting -/

section Count

variable {d : Store} {i cell b v : Nat} {t : Pos}

/-- The blocks of a tree are marked used. -/
theorem treeBlocks_used (h : Owned d) (hi : InodeUsed d i) {c : Nat} (hc : c ∈ treeBlocks d i) :
    BlockUsed d c := by
  obtain ⟨hne, p, hp, rfl, rfl⟩ := hc
  exact h.used p ⟨hp, hi⟩ hne

/-- There are finitely many. -/
theorem treeBlocks_finite (h : Owned d) (hi : InodeUsed d i) : (treeBlocks d i).Finite :=
  (Set.finite_Iio 131072).subset fun _ hc => (treeBlocks_used h hi hc).1

/-- There are no more than the map has entries. -/
theorem ncard_treeBlocks_le (h : Owned d) (hi : InodeUsed d i) :
    (treeBlocks d i).ncard ≤ 131072 := by
  have hle := Set.ncard_le_ncard (t := Set.Iio 131072)
    (fun _ hc => (treeBlocks_used h hi hc).1) (Set.finite_Iio 131072)
  rwa [← Finset.coe_range, Set.ncard_coe_finset, Finset.card_range] at hle

theorem ino_linkAt_blocks (hi : i < 512) (hv : v < 2 ^ 32) :
    ino (linkAt d i cell b v) i inoBlocks = v := by
  unfold ino linkAt
  rw [rd32_blit_of_ne _ _ (by simp only [inoAddr, inoBlocks, blkAddr]; omega),
    rd32_wr32_of_lt _ hv]

/-- One new pointer adds one block to the tree. -/
theorem treeBlocks_linkAt (ht : t.Live d) (hti : t.inode = i) (hz : ref d t = 0) (hb : b ≠ 0)
    (href : ∀ p : Pos, p.Live d → ref (linkAt d i cell b v) p = if p = t then b else ref d p) :
    treeBlocks (linkAt d i cell b v) i = insert b (treeBlocks d i) := by
  have hi : InodeUsed d i := hti ▸ ht.2
  ext c
  constructor
  · rintro ⟨hne, p, hp, hpi, rfl⟩
    rw [href p ⟨hp, by rw [hpi]; exact hi⟩] at hne ⊢
    by_cases hpt : p = t
    · rw [if_pos hpt]
      exact Or.inl rfl
    · rw [if_neg hpt] at hne ⊢
      exact Or.inr ⟨hne, p, hp, hpi, rfl⟩
  · rintro (rfl | ⟨hne, p, hp, hpi, rfl⟩)
    · exact ⟨hb, t, ht.1, hti, by rw [href t ht, if_pos rfl]⟩
    · refine ⟨hne, p, hp, hpi, ?_⟩
      rw [href p ⟨hp, by rw [hpi]; exact hi⟩, if_neg]
      rintro rfl
      exact hne hz

/-- **Linking and counting go together.** -/
theorem counted_linkAt (h : Owned d) (ht : t.Live d) (hti : t.inode = i) (hz : ref d t = 0)
    (hb0 : bmap d b = 0)
    (href : ∀ p : Pos, p.Live d → ref (linkAt d i cell b v) p = if p = t then b else ref d p)
    (hv : v = (ino d i inoBlocks + 1) % 2 ^ 32) (hc : Counted d i) :
    Counted (linkAt d i cell b v) i := by
  have hi : InodeUsed d i := hti ▸ ht.2
  have hb : b ≠ 0 := fun h0 => h.zero_used (h0 ▸ hb0)
  have hnew : b ∉ treeBlocks d i := fun hmem => (treeBlocks_used h hi hmem).2 hb0
  have hle := ncard_treeBlocks_le h hi
  unfold Counted at hc ⊢
  rw [ino_linkAt_blocks hi.1 (by omega), treeBlocks_linkAt ht hti hz hb href,
    Set.ncard_insert_of_notMem hnew (treeBlocks_finite h hi), hv, hc]
  omega

end Count

/-! ## The helpers count what they link -/

section Helpers

variable {i slot : Nat} {s : State}

/-- From `s` to `s'` the count has stayed right, if it was. -/
def KeepsCount (i : Nat) (s s' : State) : Prop :=
  Counted (flushed i s) i → Counted (flushed i s') i

/-- A slot that is linked is counted. -/
theorem inodeLink_counted (h : Owned (flushed i s)) (hi : InodeUsed (flushed i s) i)
    (hs : slot < 19) :
    Holds (· = Halt.noMoreBlocks) (fun r => KeepsCount i s r.2)
      (inodeLink (inodePtr i) (32 + 4 * slot) (32 + 4 * slot) s) := by
  have hlive : Pos.Live (flushed i s) ⟨i, slot, []⟩ := ⟨⟨hs, Nat.zero_le _, by simp⟩, hi⟩
  have hget : inodeGet s (inodePtr i) (32 + 4 * slot) = ref (flushed i s) ⟨i, slot, []⟩ :=
    inodeGet_eq i s (by omega)
  unfold inodeLink
  simp only [hget]
  by_cases hz : ref (flushed i s) ⟨i, slot, []⟩ = 0
  · rw [if_pos hz]
    rcases allocBlock_spec s with ⟨b, hb, hb0, _, halloc⟩ | ⟨herr, _⟩
    · rw [halloc]
      intro hc
      have hbz : bmap (flushed i s) b = 0 := by rw [bmap_flushed s (by omega)]; exact hb0
      have hold : inodeGet (inodeSet (inodePtr i) (32 + 4 * slot) b (allocatedBlock b s))
          (inodePtr i) inoBlocks = ino (flushed i s) i inoBlocks := by
        rw [inodeGet_eq i _ (by decide), flushed_inodeSet i _ (by omega),
          flushed_allocatedBlock hi.1 hb]
        unfold ino
        rw [rd32_wr32_of_ne _ (by unfold inoBlocks; omega),
          rd32_wr8_of_ne _ _ (by simp only [inoAddr, inoBlocks]; omega)]
      have hflush := flushed_inodeLink hi.1 hs hb s
      rw [hold] at hflush
      change Counted (flushed i (writeBlock b _)) i
      rw [hflush]
      exact counted_linkAt h hlive rfl hz hbz (ref_linkInode h hi hs hz (by omega) hbz) rfl hc
    · rw [herr]
      rfl
  · rw [if_neg hz]
    exact fun hc => hc

/-- A word of an index block that is linked is counted. -/
theorem indexLink_counted {o : Nat} {q : List Nat} (h : Owned (flushed i s))
    (hlive : Pos.Live (flushed i s) ⟨i, slot, o :: q⟩)
    (hq : ref (flushed i s) ⟨i, slot, q⟩ ≠ 0) :
    Holds (· = Halt.noMoreBlocks) (fun r => KeepsCount i s r.2)
      (indexLink (inodePtr i) (ref (flushed i s) ⟨i, slot, q⟩) o s) := by
  have hi : i < 512 := hlive.2.1
  have ho : o < 1024 := hlive.1.head_lt
  obtain ⟨hpar, _⟩ := h.used _ hlive.tail hq
  unfold indexLink
  simp only [indexEntry_eq h hlive hq]
  by_cases hz : ref (flushed i s) ⟨i, slot, o :: q⟩ = 0
  · rw [if_pos hz]
    rcases allocBlock_spec (readBlock (ref (flushed i s) ⟨i, slot, q⟩) s) with
      ⟨b, hb, hb0, _, halloc⟩ | ⟨herr, _⟩
    · rw [halloc]
      intro hc
      have hbz : bmap (flushed i s) b = 0 := by rw [bmap_flushed s (by omega)]; exact hb0
      have hold : inodeGet (allocatedBlock b (readBlock (ref (flushed i s) ⟨i, slot, q⟩) s))
          (inodePtr i) inoBlocks = ino (flushed i s) i inoBlocks := by
        rw [inodeGet_eq i _ (by decide), flushed_allocatedBlock hi hb]
        exact rd32_wr8_of_ne _ _ (by simp only [inoAddr, inoBlocks]; omega)
      have hflush := flushed_indexLink hi hpar ho hb s
      rw [hold] at hflush
      change Counted (flushed i (writeBlock b _)) i
      rw [hflush]
      exact counted_linkAt h hlive rfl hz hbz (ref_linkIndex h hlive hq hz (by omega) hbz) rfl hc
    · rw [herr]
      rfl
  · rw [if_neg hz]
    exact fun hc => hc

/-- Along a whole path. -/
theorem linkPath_counted (h : Owned (flushed i s)) (hi : InodeUsed (flushed i s) i)
    (path : List Nat) (hv : Pos.Valid ⟨i, slot, path⟩) :
    Holds (· = Halt.noMoreBlocks) (fun r => KeepsCount i s r.2) (linkPath (inodePtr i) slot path s) := by
  induction path with
  | nil => exact inodeLink_counted h hi hv.1
  | cons o q ih =>
      refine ((ih hv.tail).both (linkPath_spec h hi q hv.tail)).bind fun r hr => ?_
      obtain ⟨hkeep, hloc⟩ := hr
      have hlive : Pos.Live (flushed i r.2) ⟨i, slot, o :: q⟩ := hloc.grown.live.mpr ⟨hv, hi⟩
      have hlink := indexLink_counted hloc.owned hlive (by rw [hloc.ref]; exact hloc.ne)
      rw [hloc.ref] at hlink
      exact hlink.mono fun _ hstep hc => hstep (hkeep hc)

/-- `byte_locate` counts what it links. -/
theorem byteLocate_counted {offset : Nat} (h : Owned (flushed i s))
    (hi : InodeUsed (flushed i s) i) (hid : ino (flushed i s) i inoInodeId = i)
    (ho : offset < 2 ^ 32) :
    Holds (· = Halt.noMoreBlocks) (fun r => KeepsCount i s r.2) (byteLocate (inodePtr i) offset s) := by
  have hpage : offset / 4096 < pageLimit := by
    unfold pageLimit
    omega
  have hvalid := pagePos_valid i hpage
  have hinode := pagePos_inode i (offset / 4096)
  unfold byteLocate
  rw [locatePage_eq i hpage]
  generalize pagePos i (offset / 4096) = p at *
  obtain ⟨j, slot, path⟩ := p
  obtain rfl : j = i := hinode
  rw [bind_assoc]
  refine ((linkPath_counted h hi path hvalid).both
    (linkPath_spec h hi path hvalid)).bind fun r hr hc => ?_
  obtain ⟨hkeep, hloc⟩ := hr
  have hid' : inodeGet r.2 (inodePtr j) inoInodeId = j := by
    rw [inodeGet_eq j _ (by decide), hloc.grown.ino j inoInodeId hi.1 (by decide)
      (by right; left; decide), hid]
  change Counted (flushed j (writeInode (inodeGet r.2 (inodePtr j) inoInodeId / 4) r.2)) j
  rw [hid', flushed_writeInode hi.1]
  exact hkeep hc

end Helpers

/-! ## Sequences of calls -/

section Runs

variable {i : Nat} {s t : State}

/-- `byte_locate` as one step of a run on inode `i`. -/
def locateStep (i offset : Nat) (s : State) : Except Halt State := do
  let (_, s) ← byteLocate (inodePtr i) offset s
  .ok s

/-- What holds between the calls. -/
structure Locatable (i : Nat) (s : State) : Prop where
  loaded : Loaded i s
  counted : Counted s.disk i

/-- What a call for page `page` of inode `i` does that returns block `b`, from disk `d` to
disk `d'`. -/
structure PageBlock (i page b : Nat) (d d' : Store) : Prop where
  there : ref d' (pagePos i page) = b
  ne : b ≠ 0
  /-- A page that has a block keeps it. -/
  old : ref d (pagePos i page) ≠ 0 → b = ref d (pagePos i page)
  /-- A block that is new to the page was free and is clear now. -/
  fresh : ref d (pagePos i page) = 0 → bmap d b = 0 ∧ ∀ k, k < 4096 → blkByte d' b k = 0
  live : ∀ p : Pos, p.Live d → p.Live d'
  kept : ∀ p : Pos, p.Live d → ref d p ≠ 0 → ref d' p = ref d p
  /-- No block changes but the index blocks of the inode. -/
  content : ∀ p : Pos, p.Live d → ref d p ≠ 0 → (p.inode = i → p.Data) →
    ∀ k, k < 4096 → blkByte d' (ref d p) k = blkByte d (ref d p) k
  counted : Counted d' i

/-- The block that is located is the block of the page. -/
theorem Located.pageBlock {page b : Nat} {s' : State} (h : Located i s (pagePos i page) b s')
    (hs : Owned (flushed i s)) (hi : InodeUsed (flushed i s) i) (hp : page < pageLimit)
    (hc : Counted (flushed i s') i) : PageBlock i page b (flushed i s) (flushed i s') where
  there := h.ref
  ne := h.ne
  old hne := by rw [← h.ref, h.grown.ref_keep _ (pagePos_live hi hp) hne]
  fresh hz := by
    have hlive := pagePos_live hi hp
    have hne : Fs.ref (flushed i s') (pagePos i page) ≠ 0 := by
      rw [h.ref]
      exact h.ne
    have hfree := (h.grown.ref_new _ hlive hz hne).2
    rw [h.ref] at hfree
    refine ⟨hfree, fun k hk => ?_⟩
    have hdata := h.grown.data _ hlive (pagePos_data i page) k hk
    unfold dataByte at hdata
    rw [if_neg hne, if_pos hz, h.ref] at hdata
    exact hdata
  live _ := h.grown.live.mpr
  kept := h.grown.ref_keep
  content p hp hne hdata k hk := by
    refine h.grown.blk _ k (hs.used p hp hne) hk fun q hq hqi hqd heq => ?_
    -- an index block is reached from one position only
    obtain rfl := hs.inj q p hq hp (by rw [heq]; exact hne) heq
    exact absurd (hdata hqi) hqd
  counted := hc

/-- **One call.**  It returns `0` unless `alloc_block` finds no block. -/
theorem Locatable.byteLocate {offset : Nat} (hs : Locatable i s) (ho : offset < 2 ^ 32) :
    Holds (· = Halt.noMoreBlocks)
      (fun r => ∃ b, r.1 = some (b, offset % 4096) ∧ Locatable i r.2 ∧
        PageBlock i (offset / 4096) b s.disk r.2.disk)
      (Fs.byteLocate (inodePtr i) offset s) := by
  have how : Owned (flushed i s) := by rw [← hs.loaded.disk]; exact hs.loaded.owned
  have hused : InodeUsed (flushed i s) i := by rw [← hs.loaded.disk]; exact hs.loaded.used
  have hid : ino (flushed i s) i inoInodeId = i := by rw [← hs.loaded.disk]; exact hs.loaded.id
  have hpage : offset / 4096 < pageLimit := by
    unfold pageLimit
    omega
  have hspec := (byteLocate_spec how hused hid ho).both (byteLocate_counted how hused hid ho)
  rw [hs.loaded.disk]
  refine hspec.mono fun r hr => ?_
  obtain ⟨⟨b, hb, hloc, hdisk⟩, hkeep⟩ := hr
  have hcount : Counted (flushed i r.2) i := hkeep (by rw [← hs.loaded.disk]; exact hs.counted)
  refine ⟨b, hb, ⟨⟨hdisk, ?_, ?_, ?_⟩, ?_⟩, ?_⟩
  · rw [hdisk]
    exact hloc.owned
  · rw [hdisk]
    exact ⟨hused.1, by rw [hloc.grown.imap i hused.1]; exact hused.2⟩
  · rw [hdisk, hloc.grown.ino i inoInodeId hused.1 (by decide) (by right; left; decide)]
    exact hid
  · rw [hdisk]
    exact hcount
  · rw [hdisk]
    exact hloc.pageBlock how hused hpage hcount

/-- A call that returned. -/
theorem Locatable.returned {offset : Nat} {r : Option (Nat × Nat) × State} (hs : Locatable i s)
    (ho : offset < 2 ^ 32) (hr : Fs.byteLocate (inodePtr i) offset s = .ok r) :
    ∃ b, r.1 = some (b, offset % 4096) ∧ Locatable i r.2 ∧
      PageBlock i (offset / 4096) b s.disk r.2.disk :=
  (hs.byteLocate ho).of_ok hr

theorem locateStep_ok {offset : Nat} (h : locateStep i offset s = .ok t) :
    ∃ loc, Fs.byteLocate (inodePtr i) offset s = .ok (loc, t) := by
  unfold locateStep at h
  cases hr : Fs.byteLocate (inodePtr i) offset s with
  | ok r =>
      rw [hr] at h
      cases h
      exact ⟨r.1, rfl⟩
  | error e =>
      rw [hr] at h
      cases h

/-- **Runs.**  Between the calls all is as before the first, and the tree has kept its blocks. -/
theorem Locatable.run {offsets : List Nat} (hs : Locatable i s) (ho : ∀ o ∈ offsets, o < 2 ^ 32)
    (hrun : Outcome.run (locateStep i) offsets s = .ok t) :
    Locatable i t ∧ ∀ p : Pos, p.Live s.disk → ref s.disk p ≠ 0 →
      p.Live t.disk ∧ ref t.disk p = ref s.disk p := by
  induction offsets generalizing s with
  | nil =>
      cases hrun
      exact ⟨hs, fun p hp _ => ⟨hp, rfl⟩⟩
  | cons offset offsets ih =>
      obtain ⟨s', hstep, hrest⟩ := run_cons hrun
      obtain ⟨loc, hloc⟩ := locateStep_ok hstep
      obtain ⟨b, -, hs', hpage⟩ := hs.returned (ho offset List.mem_cons_self) hloc
      obtain ⟨ht, hkeep⟩ := ih hs' (fun o hmem => ho o (List.mem_cons_of_mem _ hmem)) hrest
      refine ⟨ht, fun p hp hne => ?_⟩
      have hone := hpage.kept p hp hne
      obtain ⟨hlive, hsame⟩ := hkeep p (hpage.live p hp) (by rw [hone]; exact hne)
      exact ⟨hlive, hsame.trans hone⟩

/-- A later call returns the same block if it is for the same page, and only then. -/
theorem PageBlock.later {page page' b b' : Nat} {d d' e e' : Store}
    (h : PageBlock i page b d d') (hkeep : ∀ p : Pos, p.Live d' → ref d' p ≠ 0 →
      p.Live e ∧ ref e p = ref d' p)
    (h' : PageBlock i page' b' e e') (hu : InodeUsed d i) (how : Owned e')
    (hp : page < pageLimit) (hp' : page' < pageLimit) : b' = b ↔ page' = page := by
  have hlive := h.live _ (pagePos_live hu hp)
  have hlive' := h.live _ (pagePos_live hu hp')
  obtain ⟨hlater, hsame⟩ := hkeep _ hlive (by rw [h.there]; exact h.ne)
  rw [h.there] at hsame
  constructor
  · rintro rfl
    have hone := h'.kept _ hlater (by rw [hsame]; exact h.ne)
    have hinode : InodeUsed e' i := by
      have := (h'.live _ hlater).2
      rwa [pagePos_inode] at this
    refine pagePos_inj (how.inj _ _ (pagePos_live hinode hp') (pagePos_live hinode hp) ?_ ?_)
    · rw [h'.there]
      exact h'.ne
    · rw [h'.there, hone, hsame]
  · rintro rfl
    rw [h'.old (by rw [hsame]; exact h.ne), hsame]

/-- **Block location is stable, injective and fresh.**  After any calls of `byte_locate` on an
inode of a well-formed disk the next one returns `0`, as long as `alloc_block` finds a block,
with the block of the page; and a call after any more of them returns the same block if and only
if its offset lies in the same page. -/
theorem block_location (how : Owned s.disk) (hi : InodeUsed s.disk i)
    (hid : ino s.disk i inoInodeId = i) (hcount : Counted s.disk i) {offsets : List Nat}
    (hoffs : ∀ o ∈ offsets, o < 2 ^ 32)
    (hrun : run (locateStep i) offsets (getInode i s) = .ok t) {offset : Nat}
    (ho : offset < 2 ^ 32)
    (hroom : byteLocate (inodePtr i) offset t ≠ .error .noMoreBlocks) :
    ∃ b t', byteLocate (inodePtr i) offset t = .ok (some (b, offset % 4096), t') ∧
      PageBlock i (offset / 4096) b t.disk t'.disk ∧
      ∀ later u, (∀ o ∈ later, o < 2 ^ 32) → run (locateStep i) later t' = .ok u →
        ∀ offset' b' o' u', offset' < 2 ^ 32 →
          byteLocate (inodePtr i) offset' u = .ok (some (b', o'), u') →
            (b' = b ↔ offset' / 4096 = offset / 4096) := by
  have hpage : ∀ {o : Nat}, o < 2 ^ 32 → o / 4096 < pageLimit := by
    intro o ho
    unfold pageLimit
    omega
  have hstart : Locatable i (getInode i s) := ⟨loaded_getInode how hi hid, hcount⟩
  obtain ⟨ht, -⟩ := hstart.run hoffs hrun
  obtain ⟨⟨loc, t'⟩, hret, b, hb, ht', hblock⟩ :=
    (ht.byteLocate ho).exists_ok fun e he hcon => hroom (by rw [hcon, he])
  obtain rfl : loc = some (b, offset % 4096) := hb
  refine ⟨b, t', hret, hblock, ?_⟩
  intro later u hlater hrun' offset' b' o' u' ho' hret'
  obtain ⟨hu, hkeep⟩ := ht'.run hlater hrun'
  obtain ⟨c, hc, hu', hblock'⟩ := hu.returned ho' hret'
  obtain rfl : b' = c := (Prod.mk.inj (Option.some.inj hc)).1
  exact hblock.later hkeep hblock' ht.loaded.used hu'.loaded.owned (hpage ho) (hpage ho')

/-- The empty file of the sample disk has no blocks. -/
theorem sampleDisk_counted : Counted sampleDisk 1 := by
  have hempty : treeBlocks sampleDisk 1 = ∅ := by
    rw [Set.eq_empty_iff_forall_notMem]
    rintro b ⟨hne, p, hp, hpi, rfl⟩
    exact hne (sampleDisk_ref ⟨hp, by rw [hpi]; decide⟩)
  unfold Counted
  rw [hempty, Set.ncard_empty]
  decide

/-- A page behind an index block first, then two calls for the first page. -/
theorem block_location_sample : ∃ t b t' u, run (locateStep 1) [60000] (getInode 1 sampleState) = .ok t ∧
    byteLocate (inodePtr 1) 5 t = .ok (some (b, 5), t') ∧ PageBlock 1 0 b t.disk t'.disk ∧
    byteLocate (inodePtr 1) 4095 t' = .ok (some (b, 4095), u) := by
  have hok : returns (fun t => returns (fun r => returns (fun r' => r'.1 = some (3, 4095))
      (byteLocate (inodePtr 1) 4095 r.2) = true) (byteLocate (inodePtr 1) 5 t) = true)
      (run (locateStep 1) [60000] (getInode 1 sampleState)) = true := by decide +kernel
  obtain ⟨t, hrun, hret⟩ := exists_of_returns hok
  obtain ⟨r, hr, hnext⟩ := exists_of_returns hret
  obtain ⟨⟨_, u⟩, hu, rfl⟩ := exists_of_returns hnext
  obtain ⟨b, t', hb, hpage, hlater⟩ := block_location sampleState_wellFormed.owned (i := 1)
    (by decide) (by decide) sampleDisk_counted (by decide) hrun (by decide : 5 < 2 ^ 32)
    (by rw [hr]; exact nofun)
  obtain rfl : r = (some (b, 5), t') := Except.ok.inj (hr.symm.trans hb)
  obtain rfl : 3 = b := (hlater [] t' (by decide) rfl 4095 3 4095 u (by decide) hu).mpr (by decide)
  exact ⟨t, 3, t', u, hrun, hb, hpage, hu⟩

end Runs

end Fs
