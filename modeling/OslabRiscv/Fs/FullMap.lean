import OslabRiscv.Fs.Creation

/-!
# A full map in front of free blocks

`alloc_block` reads eight of the 256 sectors of the block map, so it sees 4096 of 131072 entries.
A file that has grown over all the blocks it sees leaves a consistent volume with free blocks on
which nothing can be made any more (`full_map`).  `creation_exact` says that this is the only way
in which `do_mkdir` and `do_touch` of a plain name fail their purpose.
-/

namespace Fs

open ByteStore Outcome

/-! ## Growing a file over every block in sight -/

/-- Positions of inode `x`, each behind the one it hangs from: the slots of the inode, and the
entries of its three first-level index blocks and of the first second-level one. -/
def cellPos (x n : Nat) : Pos :=
  if n < 19 then ⟨x, n, []⟩ else ⟨x, 14 + (n - 19) / 1024, [(n - 19) % 1024]⟩

section Cells

variable {d : Store} {x n : Nat}

/-- The inode of a position in the list. -/
theorem cellPos_inode (x n : Nat) : (cellPos x n).inode = x := by
  unfold cellPos
  split_ifs <;> rfl

/-- There are 19 slots, and 1024 entries in each of four index blocks. -/
theorem cellPos_valid (hn : n < 4115) : (cellPos x n).Valid := by
  unfold cellPos
  split_ifs with hslot
  · exact ⟨hslot, Nat.zero_le _, fun o ho => absurd ho List.not_mem_nil⟩
  · refine ⟨by change 14 + (n - 19) / 1024 < 19; omega, ?_, fun o ho => ?_⟩
    · change 1 ≤ depth (14 + (n - 19) / 1024)
      unfold depth
      split_ifs <;> omega
    · rw [List.mem_singleton.mp ho]
      omega

/-- No position is listed twice. -/
theorem cellPos_inj {m : Nat} (h : cellPos x n = cellPos x m) : n = m := by
  unfold cellPos at h
  split_ifs at h with hn hm hm
  · exact (Pos.mk.inj h).2.1
  · exact absurd (Pos.mk.inj h).2.2 (List.cons_ne_nil _ _).symm
  · exact absurd (Pos.mk.inj h).2.2 (List.cons_ne_nil _ _)
  · obtain ⟨-, hslot, hpath⟩ := Pos.mk.inj h
    have hoff := (List.cons.inj hpath).1
    omega

/-- There are more positions than blocks `alloc_block` hands out, so one of them is empty. -/
theorem exists_empty (hV : Volume d) (hx : InodeUsed d x) :
    ∃ n, n < 4115 ∧ ref d (cellPos x n) = 0 := by
  by_contra hall
  push Not at hall
  have hlive : ∀ n, n < 4115 → (cellPos x n).Live d := fun n hn =>
    ⟨cellPos_valid hn, by rw [cellPos_inode]; exact hx⟩
  have hcard := Finset.card_le_card_of_injOn (s := Finset.range 4115) (t := Finset.range 4096)
    (fun n => ref d (cellPos x n)) ?_ ?_
  · rw [Finset.card_range, Finset.card_range] at hcard
    omega
  · intro n hn
    have hn := Finset.mem_range.mp hn
    have hused := hV.owned.used _ (hlive n hn) (hall n hn)
    rw [Finset.coe_range, Set.mem_Iio]
    rcases hV.low _ hused.1 with hz | hone
    · exact absurd hz hused.2
    · exact hone.2
  · intro n hn m hm heq
    rw [Finset.coe_range, Set.mem_Iio] at hn hm
    exact cellPos_inj (hV.owned.inj _ _ (hlive n hn) (hlive m hm) (hall n hn) heq)

/-- A free block can be hung into the file. -/
theorem exists_linked (hV : Volume d) (hx : InodeUsed d x) {b : Nat} (hb : b < 4096)
    (hb0 : bmap d b = 0) : ∃ d', Owned d' ∧ Touched x d d' ∧ bmap d' b ≠ 0 := by
  have hb' : b < 131072 := by omega
  -- the first empty position: what it hangs from is in front of it
  have hex := exists_empty hV hx
  obtain ⟨hlt, hz⟩ := Nat.find_spec hex
  have hfirst : ∀ m, m < Nat.find hex → ref d (cellPos x m) ≠ 0 := fun m hm hm0 =>
    Nat.find_min hex hm ⟨hm.trans hlt, hm0⟩
  obtain ⟨n, hn⟩ : ∃ n, n = Nat.find hex := ⟨_, rfl⟩
  rw [← hn] at hlt hz hfirst
  have hlive : (cellPos x n).Live d := ⟨cellPos_valid hlt, by rw [cellPos_inode]; exact hx⟩
  obtain ⟨cell, hcell, href⟩ : ∃ cell, CellOf d x cell ∧ ∀ p : Pos, p.Live d →
      ref (linkAt d x cell b 0) p = if p = cellPos x n then b else ref d p := by
    by_cases hslot : n < 19
    · have hpos : cellPos x n = ⟨x, n, []⟩ := if_pos hslot
      rw [hpos] at hz ⊢
      exact ⟨_, Or.inl ⟨n, hslot, rfl⟩, ref_linkInode hV.owned hx hslot hz hb' hb0⟩
    · have hpos : cellPos x n = ⟨x, 14 + (n - 19) / 1024, [(n - 19) % 1024]⟩ := if_neg hslot
      have hparent : cellPos x (14 + (n - 19) / 1024) = ⟨x, 14 + (n - 19) / 1024, []⟩ :=
        if_pos (by omega)
      have hpar := hfirst (14 + (n - 19) / 1024) (by omega)
      rw [hparent] at hpar
      rw [hpos] at hz hlive ⊢
      refine ⟨_, Or.inr ⟨_, (n - 19) % 1024, hlive.tail, rfl, hlive.1.tail_not_data, hpar,
        by omega, rfl⟩, ref_linkIndex hV.owned hlive hpar hz hb' hb0⟩
  refine ⟨linkAt d x cell b 0, owned_linkAt hV.owned hx.1 hb hb0 hcell href,
    (grown_linkAt hV.owned hlive (cellPos_inode x n) hz hb hb0 hcell href).touched, ?_⟩
  rw [bmap_linkAt hx.1 hb' (hcell.isCell hV.owned hb0) hb', if_pos rfl]
  decide

/-- Block by block, the file takes all that `alloc_block` sees. -/
theorem exists_grown (hV : Volume d) (hx : IsFile d x) (n : Nat) (hn : n ≤ 4096) :
    ∃ d', Owned d' ∧ Touched x d d' ∧ ∀ b, b < n → bmap d' b ≠ 0 := by
  induction n with
  | zero => exact ⟨d, hV.owned, .refl x d, fun b hb => absurd hb (Nat.not_lt_zero b)⟩
  | succ n ih =>
      obtain ⟨d', ho, ht, hused⟩ := ih (by omega)
      by_cases hfree : bmap d' n = 0
      · obtain ⟨d'', ho', ht', hlast⟩ := exists_linked (hV.touched hx ho ht)
          (ht.inodeUsed.mpr hx.1) (by omega) hfree
        refine ⟨d'', ho', ht.trans ht', fun b hb => ?_⟩
        by_cases hbn : b = n
        · rw [hbn]
          exact hlast
        · have hb' := hused b (by omega)
          rw [ht'.bmap b (by omega) hb']
          exact hb'
      · refine ⟨d', ho, ht, fun b hb => ?_⟩
        by_cases hbn : b = n
        · rw [hbn]
          exact hfree
        · exact hused b (by omega)

end Cells

/-! ## A volume with one file -/

/-- The root is the only directory.  Besides `.` and `..` it holds one entry, and the name of that
does not start with an `a`. -/
structure OneFile (d : Store) (x : Nat) : Prop where
  tree : Tree d
  noLeak : NoLeak d
  file : IsFile d x
  free : ∀ i, i < 512 → imap d i = 0 → ∀ f, f + 4 ≤ 128 → ino d i f = 0
  only : ∀ q, IsDir d q → q = 0
  dead : ∀ k, k < 128 → entType d 0 k = 0 → ∀ m, m < dName → dirBlock d 0 (dentryName k + m) = 0
  entries : ∃ k, k < 128 ∧ dirBlock d 0 (dentryName k) = 98 ∧
    ∀ l, LiveEntry d 0 l → l = 0 ∨ l = 1 ∨ l = k

section OneFile

variable {d d' : Store} {x : Nat}

/-- Such a volume is consistent. -/
theorem OneFile.consistent (h : OneFile d x) : Consistent d := by
  have hroot := h.tree.volume.root
  have hdots := h.tree.dots 0 hroot
  refine ⟨h.tree.volume.owned, h.noLeak, fun i => ⟨fun hi => ?_, ?_⟩, h.free, fun q hq => ?_,
    h.tree.count, fun q hq k l hk hl hne => ?_⟩
  · rcases h.tree.volume.kind i hi with hdir | hfile
    · exact Or.inl (h.only i hdir)
    · exact Or.inr (h.tree.named i hfile)
  · rintro (rfl | ⟨q, k, hq, hk, rfl⟩)
    · exact hroot.1
    · exact (h.tree.typed q k hq hk).used
  · obtain rfl := h.only q hq
    exact h.dead
  · obtain rfl := h.only q hq
    rintro ⟨n, hsame⟩
    obtain ⟨j, -, hb, hlive⟩ := h.entries
    -- the three names differ in their first two bytes
    have hfirst : ∀ l n, (l = 0 ∨ l = 1) →
        ¬ SameName (dirBlock d 0) (dentryName l) (dirBlock d 0) (dentryName j) n := by
      rintro l n hl ⟨hsame, -, hend⟩
      have hpos : 0 < n := by
        by_contra hcon
        rw [show n = 0 by omega, Nat.add_zero, hb] at hend
        exact absurd hend (by decide)
      have hbyte := (hsame 0 hpos).1
      rw [Nat.add_zero, Nat.add_zero, hb] at hbyte
      rcases hl with rfl | rfl
      · rw [hdots.dotName.1] at hbyte
        exact absurd hbyte (by decide)
      · rw [hdots.dotdotName.1] at hbyte
        exact absurd hbyte (by decide)
    have hdot : ∀ n, ¬ SameName (dirBlock d 0) (dentryName 0) (dirBlock d 0) (dentryName 1) n :=
      hdots.distinct
    rcases hlive k hk with rfl | rfl | rfl <;> rcases hlive l hl with rfl | rfl | rfl
    · exact absurd rfl hne
    · exact absurd hsame (hdot n)
    · exact absurd hsame (hfirst _ n (Or.inl rfl))
    · exact absurd hsame.symm (hdot n)
    · exact absurd rfl hne
    · exact absurd hsame (hfirst _ n (Or.inr rfl))
    · exact absurd hsame.symm (hfirst _ n (Or.inl rfl))
    · exact absurd hsame.symm (hfirst _ n (Or.inr rfl))
    · exact absurd rfl hne

/-- It stays one while the file grows. -/
theorem OneFile.touched (h : OneFile d x) (ho : Owned d') (ht : Touched x d d') : OneFile d' x := by
  have hV := h.tree.volume
  have hblk : ∀ y, y < 4096 → dirBlock d' 0 y = dirBlock d 0 y := fun y hy =>
    ht.dirBlock_eq hV h.file hV.root hy
  have htype : ∀ k, k < 128 → entType d' 0 k = entType d 0 k := fun k hk =>
    dentryType_congr hblk hk
  obtain ⟨j, hj, hb, hlive⟩ := h.entries
  refine ⟨h.tree.touched h.file ho ht, h.noLeak.change (R := fun _ => False) hV
    (fun _ hcon => hcon.elim) (.touched h.file ho ht), ht.isFile.mpr h.file,
    fun i hi hz f hf => ?_, fun q hq => h.only q (ht.isDir.mp hq), fun k hk hz m hm => ?_,
    j, hj, ?_, fun l hl => hlive l ⟨hl.1, by rw [← htype l hl.1]; exact hl.2⟩⟩
  · rw [ht.imap i hi] at hz
    have hix : i ≠ x := fun heq => h.file.1.2 (heq ▸ hz)
    rw [ht.ino i f hi hf (Or.inl hix)]
    exact h.free i hi hz f hf
  · rw [htype k hk] at hz
    unfold dName at hm
    rw [hblk _ (by unfold dentryName; omega)]
    exact h.dead k hk hz m hm
  · rw [hblk _ (by unfold dentryName; omega)]
    exact hb

/-- Nothing in it is called `a`. -/
theorem OneFile.unnamed (h : OneFile d x) (type : Nat) {l : Nat} (hl : l < 128) :
    ¬ Hit (dirBlock d 0) memA 100 1 type l := by
  intro hit
  obtain ⟨j, -, hb, hlive⟩ := h.entries
  have hdots := h.tree.dots 0 h.tree.volume.root
  have hname : dirBlock d 0 (dentryName l + 0) = 97 := hit.2 0 (by decide)
  rw [Nat.add_zero] at hname
  rcases hlive l ⟨hl, hit.live⟩ with rfl | rfl | rfl
  · rw [hdots.dotName.1] at hname
    exact absurd hname (by decide)
  · rw [hdots.dotdotName.1] at hname
    exact absurd hname (by decide)
  · rw [hb] at hname
    exact absurd hname (by decide)

/-- The directory and the inode map have room. -/
theorem OneFile.room (h : OneFile d x) :
    (∃ i, i < 512 ∧ imap d i = 0) ∧ ∃ k, k < 128 ∧ entType d 0 k = 0 := by
  obtain ⟨j, -, -, hlive⟩ := h.entries
  have hroot := h.tree.volume.root
  constructor
  · -- an inode in use is the root or what the third entry names
    obtain ⟨i, hi, hi0, hij⟩ : ∃ i, i < 512 ∧ i ≠ 0 ∧ i ≠ entId d 0 j := by
      by_cases h1 : entId d 0 j = 1
      · exact ⟨2, by decide, by decide, by omega⟩
      · exact ⟨1, by decide, by decide, Ne.symm h1⟩
    refine ⟨i, hi, ?_⟩
    by_contra hused
    rcases h.tree.volume.kind i ⟨hi, hused⟩ with hdir | hfile
    · exact hi0 (h.only i hdir)
    · obtain ⟨q, l, hq, hl, hid⟩ := h.tree.named i hfile
      obtain rfl := h.only q hq
      rcases hlive l hl with rfl | rfl | rfl
      · exact hi0 (hid.symm.trans (h.tree.dots 0 hroot).dotId)
      · exact hi0 (hid.symm.trans h.tree.rootUp)
      · exact hij hid.symm
  · obtain ⟨l, hl, hl2, hlj⟩ : ∃ l, l < 128 ∧ 2 ≤ l ∧ l ≠ j := by
      by_cases h2 : j = 2
      · exact ⟨3, by decide, by decide, by omega⟩
      · exact ⟨2, by decide, by decide, Ne.symm h2⟩
    refine ⟨l, hl, ?_⟩
    by_contra hused
    have := hlive l ⟨hl, hused⟩
    omega

end OneFile

theorem memB_oneName : OneName memPaths 110 1 where
  ne := by decide
  run m hm := by
    obtain rfl : m = 0 := by omega
    exact ⟨by decide, by decide⟩
  ends := rfl
  next := rfl
  fit := by decide

/-- A volume just formatted has no `b`. -/
theorem freshState_fresh_b : Fresh freshState memPaths 110 1 iFile := by
  obtain ⟨t, ht⟩ := freshState_formatted
  have hcwd : currentId freshState = 0 := ht.cwd
  refine ⟨fun m hm => ?_, fun k hk hit => ?_⟩
  · obtain rfl : m = 0 := by omega
    rfl
  · rw [hcwd, ht.disk] at hit
    have hlive := mem_liveSlots.mpr ⟨hk, hit.live⟩
    have hdots := formatted_tree (s := t) |>.dots 0 formatted_root
    have hname : dirBlock (formatted t) 0 (dentryName k + 0) = 98 := hit.2 0 (by decide)
    rw [Nat.add_zero] at hname
    rw [liveSlots_formatted, Finset.mem_insert, Finset.mem_singleton] at hlive
    rcases hlive with rfl | rfl
    · rw [hdots.dotName.1] at hname
      exact absurd hname (by decide)
    · rw [hdots.dotdotName.1] at hname
      exact absurd hname (by decide)

/-- `do_touch` of `b` on a volume just formatted. -/
theorem exists_oneFile : ∃ s x, OneFile s.disk x ∧ currentId s = 0 := by
  obtain ⟨u, hu⟩ := freshState_formatted
  have hcwd : currentId freshState = 0 := hu.cwd
  have hc := freshState_consistent
  have hroot : IsDir freshState.disk 0 := hcwd ▸ freshState_vacant.cwd
  obtain ⟨k, i, b, t, -, hmade, hext⟩ := makePath_created hc freshState_vacant freshState_blockInSight
    memB_oneName (by decide) freshState_fresh_b
  rw [hcwd] at hmade
  have hT : Tree freshState.disk := by
    rw [hu.disk]
    exact formatted_tree
  have hV := hT.volume
  have he := hmade.slotEdit hV hroot
  have hk := hmade.entry.slot
  have hk2 := hT.two_le hroot hk hmade.entry.dead
  have hdir : ∀ q, IsDir t.disk q → q = 0 := by
    intro q hq
    rcases hmade.dir_cases hq with ⟨_, hcon⟩ | ⟨_, hq'⟩
    · cases hcon
    · rw [hu.disk] at hq'
      exact formatted_used hq'.1
  have hnew : entType t.disk 0 k = iFile := hmade.entry.entryType
  refine ⟨t, i, ⟨hT.made hroot hmade.toMade (Or.inr rfl), ?_, ⟨hmade.new_used, hmade.newType⟩,
    fun j hj hz f hf => ?_, hdir, fun l hl hz m hm => ?_, k, hk, ?_, fun l hl => ?_⟩, ?_⟩
  · exact hc.noLeak.change (R := fun _ => False) hV (fun _ hcon => hcon.elim)
      (.made hroot hmade.toMade (Or.inr rfl))
  · have hji : j ≠ i := by
      rintro rfl
      rw [hmade.imap_eq j hj, if_pos rfl] at hz
      exact absurd hz (by decide)
    rw [hmade.imap_eq j hj, if_neg hji] at hz
    have hj0 : j ≠ 0 := fun heq => hroot.1.2 (heq ▸ hz)
    rw [hmade.ino_eq j f hj hf hji (Or.inl hj0)]
    exact hc.free j hj hz f hf
  · have hlk : l ≠ k := by
      rintro rfl
      rw [hnew] at hz
      exact absurd hz (by decide)
    rw [(he.ent hroot hl fun _ => hlk).1] at hz
    unfold dName at hm
    rw [hmade.entry.other _ (by unfold dentryName; omega) (by unfold dentryName; omega)]
    exact hc.dead 0 hroot l hl hz m hm
  · rw [← Nat.add_zero (dentryName k), hmade.name_eq 0 (by decide)]
    rfl
  · by_cases hlk : l = k
    · exact Or.inr (Or.inr hlk)
    · have hold := (he.live hroot fun _ => hlk).mp hl
      rw [hu.disk] at hold
      have hmem := mem_liveSlots.mpr hold
      rw [liveSlots_formatted, Finset.mem_insert, Finset.mem_singleton] at hmem
      omega
  · unfold currentId at hcwd ⊢
    rw [hext.cwd]
    exact hcwd

/-- **A full map in sight.**  On a consistent volume with a free inode, a dead entry in the
current directory and more than a hundred thousand free blocks, `alloc_block` may see none. -/
theorem full_map : ∃ s, Consistent s.disk ∧ Vacant s ∧
    (∀ b, 4096 ≤ b → b < 131072 → bmap s.disk b = 0) ∧ ¬ BlockInSight s ∧
    ∀ type, Fresh s memA 100 1 type := by
  obtain ⟨s, x, h, hcwd⟩ := exists_oneFile
  obtain ⟨d, ho, ht, hfull⟩ := exists_grown h.tree.volume h.file 4096 (Nat.le_refl _)
  have hd := h.touched ho ht
  have hroot := hd.tree.volume.root
  have hhigh : ∀ b, 4096 ≤ b → b < 131072 → bmap d b = 0 := by
    intro b hlo hhi
    rcases hd.tree.volume.low b hhi with hz | hone
    · exact hz
    · omega
  have hcur : currentId { s with disk := d } = 0 := hcwd
  refine ⟨{ s with disk := d }, hd.consistent, ⟨?_, hd.room.1, ⟨4096, by decide, ?_⟩, ?_⟩, hhigh,
    fun ⟨b, hb, hz⟩ => hfull b hb hz, fun type => ⟨fun m hm => ?_, fun k hk hit => ?_⟩⟩
  · rw [hcur]
    exact hroot
  · exact hhigh 4096 (by decide) (by decide)
  · rw [hcur]
    exact hd.room.2
  · obtain rfl : m = 0 := by omega
    rfl
  · rw [hcur] at hit
    exact hd.unnamed type hk hit

/-! ## Creation is exact where a block is in sight -/

section Creation

variable {s : State} {mem : Store} {name n type : Nat}

/-- What a call that makes an inode of the given type should do with a name: of a fresh one it
makes one inode and one entry and nothing else changes; any other it refuses with `-1` and leaves
the disk alone.  `do_mkdir` returns 0, `do_touch` the number of the inode. -/
structure CreatesExactly (call : Nat → Store → State → Except Halt (Nat × Store × State))
    (type : Nat) (s : State) (mem : Store) (name n : Nat) : Prop where
  fresh : Fresh s mem name n type → ∃ k i b s',
    call name mem s = .ok (if type = iDir then 0 else i, mem, s') ∧
      Created s.disk s'.disk (currentId s) k i b type mem name n ∧
      (type = iDir → Dots s'.disk i ∧ up s'.disk i = currentId s ∧ liveSlots s'.disk i = {0, 1}) ∧
      s'.currentInode = s.currentInode ∧ s'.fdescArray = s.fdescArray
  taken : ¬ Fresh s mem name n type → ∃ s', call name mem s = .ok (minusOne, mem, s') ∧
    s'.disk = s.disk ∧ s'.currentInode = s.currentInode ∧ s'.fdescArray = s.fdescArray

/-- For a fresh name it takes a block that `alloc_block` sees, and nothing more. -/
theorem makePath_exact_iff (hc : Consistent s.disk) (hv : Vacant s) (hname : OneName mem name n)
    (ht : type < 2 ^ 32) : CreatesExactly (makePath type) type s mem name n ↔
      (Fresh s mem name n type → BlockInSight s) := by
  constructor
  · intro h hfresh
    by_contra hs
    obtain ⟨k, i, b, s', hrun, -⟩ := h.fresh hfresh
    rw [makePath_noBlock hc hv hs hname hfresh] at hrun
    cases hrun
  · intro h
    refine ⟨fun hfresh => ?_, fun hnot => ?_⟩
    · obtain ⟨k, i, b, s', hrun, hmade, hext⟩ :=
        makePath_created hc hv (h hfresh) hname ht hfresh
      refine ⟨k, i, b, s', hrun, hmade, fun hdir => ?_, hext.cwd, hext.fdesc⟩
      subst hdir
      refine ⟨hmade.dots_new hv.cwd.1.1, ?_, hmade.liveSlots_new⟩
      exact (hmade.entId_new hv.cwd.1.1 (show 1 < 128 by decide)).trans rfl
    · obtain ⟨s', hrun, hdisk, hext⟩ := makePath_taken hc hv.cwd hname hnot
      exact ⟨s', hrun, hdisk, hext.cwd, hext.fdesc⟩

/-- **Creation is exact** if and only if the name is refused or `alloc_block` sees a free block,
for `do_mkdir` and for `do_touch`. -/
theorem creation_exact (hc : Consistent s.disk) (hv : Vacant s) (hname : OneName mem name n) :
    (CreatesExactly doMkdir iDir s mem name n ↔ (Fresh s mem name n iDir → BlockInSight s)) ∧
      (CreatesExactly doTouch iFile s mem name n ↔ (Fresh s mem name n iFile → BlockInSight s)) :=
  ⟨makePath_exact_iff hc hv hname (by decide), makePath_exact_iff hc hv hname (by decide)⟩

end Creation

/-- On a disk just formatted both make `a`. -/
theorem creation_exact_a : BlockInSight freshState ∧ CreatesExactly doMkdir iDir freshState memA 100 1 ∧
    CreatesExactly doTouch iFile freshState memA 100 1 := by
  obtain ⟨hmkdir, htouch⟩ :=
    creation_exact freshState_consistent freshState_vacant memA_oneName
  exact ⟨freshState_blockInSight, hmkdir.mpr fun _ => freshState_blockInSight,
    htouch.mpr fun _ => freshState_blockInSight⟩

/-- With the map full in sight, `do_mkdir` and `do_touch` of `a` stop. -/
theorem creation_not_exact : ∃ s, Consistent s.disk ∧ Vacant s ∧ OneName memA 100 1 ∧
    doMkdir 100 memA s = .error .noMoreBlocks ∧ doTouch 100 memA s = .error .noMoreBlocks ∧
    ¬ CreatesExactly doMkdir iDir s memA 100 1 ∧ ¬ CreatesExactly doTouch iFile s memA 100 1 := by
  obtain ⟨s, hc, hv, -, hs, hfresh⟩ := full_map
  have hmkdir : doMkdir 100 memA s = .error .noMoreBlocks :=
    makePath_noBlock hc hv hs memA_oneName (hfresh iDir)
  have htouch : doTouch 100 memA s = .error .noMoreBlocks :=
    makePath_noBlock hc hv hs memA_oneName (hfresh iFile)
  refine ⟨s, hc, hv, memA_oneName, hmkdir, htouch, fun h => ?_, fun h => ?_⟩
  · obtain ⟨k, i, b, s', hrun, -⟩ := h.fresh (hfresh iDir)
    rw [hmkdir] at hrun
    cases hrun
  · obtain ⟨k, i, b, s', hrun, -⟩ := h.fresh (hfresh iFile)
    rw [htouch] at hrun
    cases hrun

end Fs
