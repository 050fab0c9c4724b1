import OslabRiscv.Fs.Runs

/-!
# Block accounting

A block is accounted for when the block map marks it exactly if one inode in
use refers to it, and no two references share it.  All calls keep this except
`do_rm`, which releases the first block of a file and forgets the others.

Pointer value 0 stands for "no block" everywhere except in the root directory,
whose block is block 0.
-/

namespace Fs

open ByteStore Outcome

/-- Block `b` is what position `p` of an inode in use refers to. -/
def BlockRef (d : Store) (b : Nat) (p : Pos) : Prop :=
  p.Live d ∧ ref d p = b ∧ (b = 0 → p = firstPos 0)

/-- The block map is the set of blocks in use, and each has one owner. -/
structure Accounted (d : Store) : Prop where
  marked : ∀ b, (b < 131072 ∧ bmap d b = 1) ↔ ∃ p, BlockRef d b p
  once : ∀ b p q, BlockRef d b p → BlockRef d b q → p = q

/-- Every marked block is referred to. -/
def NoLeak (d : Store) : Prop :=
  ∀ c, c < 131072 → bmap d c ≠ 0 → c ≠ 0 → ∃ p : Pos, p.Live d ∧ ref d p = c

/-- Where no block is lost the map agrees with the references. -/
theorem Volume.accounted {d : Store} (hV : Volume d) (hn : NoLeak d) : Accounted d where
  marked b := by
    constructor
    · intro hb
      by_cases h0 : b = 0
      · refine ⟨firstPos 0, firstPos_live hV.root.1, ?_, fun _ => rfl⟩
        rw [h0]
        exact hV.rootBlock
      · obtain ⟨p, hp, href⟩ := hn b hb.1 (by rw [hb.2]; decide) h0
        exact ⟨p, hp, href, fun hcon => absurd hcon h0⟩
    · intro hp
      obtain ⟨p, hp, href, _⟩ := hp
      have hused : BlockUsed d b := by
        by_cases h0 : b = 0
        · rw [h0]
          exact ⟨by decide, hV.owned.zero_used⟩
        · rw [← href] at h0 ⊢
          exact hV.owned.used p hp h0
      rcases hV.low b hused.1 with hz | hone
      · exact absurd hz hused.2
      · exact ⟨hused.1, hone.1⟩
  once b p q hp hq := by
    by_cases h0 : b = 0
    · rw [hp.2.2 h0, hq.2.2 h0]
    · refine hV.owned.inj p q hp.1 hq.1 ?_ (hp.2.1.trans hq.2.1.symm)
      rw [hp.2.1]
      exact h0

/-! ## Changes -/

/-- The inode has no block besides `direct_block[0]`. -/
def SingleBlock (d : Store) (x : Nat) : Prop :=
  ∀ slot, slot < 19 → 0 < slot → ino d x (32 + 4 * slot) = 0

instance (d : Store) (x : Nat) : Decidable (SingleBlock d x) :=
  inferInstanceAs (Decidable (∀ slot, slot < 19 → 0 < slot → _))

/-- The only position with a block is the first one. -/
theorem SingleBlock.pos_eq {d : Store} {x : Nat} (h : SingleBlock d x) {p : Pos} (hp : p.Valid)
    (hpx : p.inode = x) (hz : ref d p ≠ 0) : p = firstPos x := by
  obtain ⟨i, slot, path⟩ := p
  change i = x at hpx
  subst hpx
  have hs : slot < 19 := hp.1
  by_cases h0 : slot = 0
  · subst h0
    have hlen : path.length ≤ 0 := hp.2.1
    have hnil : path = [] := List.length_eq_zero_iff.mp (by omega)
    rw [hnil]
    rfl
  · -- an empty slot has an empty tree
    have hempty : ∀ path : List Nat, ref d ⟨i, slot, path⟩ = 0 := by
      intro path
      induction path with
      | nil => exact h slot hs (by omega)
      | cons o path ih => rw [ref_cons, if_pos ih]
    exact absurd (hempty path) hz

/-- A directory has one block. -/
theorem Volume.singleBlock {d : Store} (hV : Volume d) {x : Nat} (hx : IsDir d x) :
    SingleBlock d x := fun slot hs h0 => hV.dirOnly x hx slot h0 hs

/-- No block is lost when what is removed has one block only. -/
theorem NoLeak.change {R : Nat → Prop} {d d' : Store} (hV : Volume d) (hn : NoLeak d)
    (hR : ∀ x, R x → SingleBlock d x) (h : Change R d d') : NoLeak d' := by
  intro c hc hne h0
  cases h with
  | quiet h =>
      rw [h.bmap_eq c hc] at hne
      obtain ⟨p, hp, href⟩ := hn c hc hne h0
      exact ⟨p, h.live.mpr hp, by rw [h.ref hV hp]; exact href⟩
  | @made _ dir k i b type hdir h _ =>
      by_cases hcb : c = b
      · refine ⟨firstPos i, firstPos_live h.new_used, ?_⟩
        rw [h.ref_new hV (firstPos_live h.new_used).1 rfl, if_pos rfl, hcb]
      · rw [h.bmap_eq c hc, if_neg hcb] at hne
        obtain ⟨p, hp, href⟩ := hn c hc hne h0
        refine ⟨p, ⟨hp.1, (h.inodeUsed (h.ne_of_used hp.2)).mpr hp.2⟩, ?_⟩
        rw [h.ref_old hV hdir hp]
        exact href
  | @removed _ dir k x hdir hx hRx h =>
      rw [h.bmap_eq c hc] at hne
      by_cases hcb : c = ino d x inoDirectBlock
      · rw [if_pos hcb] at hne
        exact absurd rfl hne
      · rw [if_neg hcb] at hne
        obtain ⟨p, hp, href⟩ := hn c hc hne h0
        have hpx : p.inode ≠ x := by
          intro hpx
          have hfirst := (hR x hRx).pos_eq hp.1 hpx (by rw [href]; exact h0)
          rw [hfirst, ref_firstPos] at href
          exact hcb href.symm
        refine ⟨p, ⟨hp.1, h.inodeUsed.mpr ⟨hp.2, hpx⟩⟩, ?_⟩
        rw [h.ref_old rfl hx hV hdir hp hpx]
        exact href
  | @touched _ i _ _ h =>
      by_cases hold : bmap d c = 0
      · obtain ⟨_, _, _, p, hp, _, href⟩ := h.bmap_new c hc hold hne
        exact ⟨p, h.live.mpr hp, href⟩
      · obtain ⟨p, hp, href⟩ := hn c hc hold h0
        refine ⟨p, h.live.mpr hp, ?_⟩
        rw [h.ref_keep p hp (by rw [href]; exact h0)]
        exact href
  | format s =>
      rw [bmap_formatted hc, if_neg h0] at hne
      exact absurd rfl hne

/-- On a formatted disk no block is lost. -/
theorem formatted_noLeak {s : State} : NoLeak (formatted s) := by
  intro c hc hne h0
  rw [bmap_formatted hc, if_neg h0] at hne
  exact absurd rfl hne

/-- A second block of a removed inode stays marked and nobody refers to it. -/
theorem Removed.leak {d d' : Store} {p k x c : Nat} {q : Pos} (hV : Volume d)
    (hp : IsDir d p) (hx : InodeUsed d x)
    (h : Removed d d' p k x (ino d x inoDirectBlock)) (hq : q.Live d) (hqx : q.inode = x)
    (hqc : ref d q = c) (hc0 : c ≠ 0) (hne : q ≠ firstPos x) :
    ¬ Accounted d' := by
  intro hacc
  have hz : ref d q ≠ 0 := by rw [hqc]; exact hc0
  have hused := hV.owned.used q hq hz
  rw [hqc] at hused
  have hcb : c ≠ ino d x inoDirectBlock := by
    intro heq
    exact hne (hV.owned.inj q (firstPos x) hq (firstPos_live hx) hz (hqc.trans heq))
  have hone : bmap d' c = 1 := by
    rw [h.bmap_eq c hused.1, if_neg hcb]
    rcases hV.low c hused.1 with h0 | h1
    · exact absurd h0 hused.2
    · exact h1.1
  obtain ⟨r, hr, href, _⟩ := (hacc.marked c).mp ⟨hused.1, hone⟩
  obtain ⟨hru, hrx⟩ := h.inodeUsed.mp hr.2
  rw [h.ref_old rfl hx hV hp ⟨hr.1, hru⟩ hrx] at href
  have hqr := hV.owned.inj q r hq ⟨hr.1, hru⟩ hz (hqc.trans href.symm)
  rw [hqr] at hqx
  exact hrx hqx

/-! ## Runs -/

/-- A live entry names `x`, besides the one `do_rm` takes out of directory `p`,
which is the first that holds the number. -/
def OtherName (d : Store) (p x : Nat) : Prop :=
  ∃ q, q < 512 ∧ IsDir d q ∧ ∃ l, l < 128 ∧ dentryType (dirBlock d q) l ≠ 0 ∧
    dentryInodeId (dirBlock d q) l = x ∧
      (q = p → ∃ k, k < l ∧ dentryInodeId (dirBlock d p) k = x)

instance (d : Store) (p x : Nat) : Decidable (OtherName d p x) :=
  inferInstanceAs (Decidable (∃ q, q < 512 ∧ IsDir d q ∧ ∃ l, l < 128 ∧ _))

/-- `do_rm` of a file: a file about to go has one block, and a file that stays
because of its link count has another name. -/
def RmOk (path : Nat) (mem : Store) (s : State) : Prop :=
  match removeTarget iFile path mem s with
  | some (p, _, _, x) => IsFile s.disk x →
      (ino s.disk x inoLinksCount = 1 → SingleBlock s.disk x) ∧
      (ino s.disk x inoLinksCount ≠ 1 → OtherName s.disk p x)
  | none => True

instance (path : Nat) (mem : Store) (s : State) : Decidable (RmOk path mem s) := by
  unfold RmOk
  split <;> infer_instance

/-- What the accounting asks of a call. -/
def AccountOk (s : State) (c : Call) : Prop :=
  CallOk s c ∧
    match c with
    | .rm path mem => RmOk path mem s
    | _ => True

instance (s : State) (c : Call) : Decidable (AccountOk s c) :=
  @instDecidableAnd _ _ inferInstance
    (match c with
    | .rm path mem => (inferInstance : Decidable (RmOk path mem s))
    | .mkfs _ | .statfs | .cd _ _ | .mkdir _ _ | .rmdir _ _ | .ls _ _ _ | .touch _ _ | .cat _ _
    | .fopen _ _ _ _ | .fread _ _ _ | .fwrite _ _ _ | .fclose _ | .ln _ _ _
    | .lseek _ _ _ _ => instDecidableTrue)

/-- The invariant of a run. -/
structure Tidy (s : State) : Prop where
  sound : Sound s
  noLeak : NoLeak s.disk

/-- What `do_rm` may remove has one block. -/
theorem RmOk.single {s : State} {path x : Nat} {mem : Store} (h : RmOk path mem s)
    (hx : removedInode iFile path mem s = some x) (hfile : IsFile s.disk x) :
    SingleBlock s.disk x := by
  obtain ⟨p, dir, mem', ht, hlast⟩ := removedInode_eq_some.mp hx
  unfold RmOk at h
  rw [ht] at h
  exact (h hfile).1 hlast.1

/-- The step lemma of the accounts. -/
theorem exec_tidy {s s' : State} {c : Call} (hs : Tidy s) (hok : AccountOk s c)
    (h : exec c s = .ok s') : Tidy s' := by
  have heff := (exec_effect hs.sound hok.1).of_ok h
  obtain ⟨d, h1, h2⟩ := heff.change
  have hR : ∀ x, Removable s c x → SingleBlock s.disk x := by
    intro x hx
    obtain ⟨hrem, _, hdir | ⟨path, mem, hc, hfile⟩⟩ := hx
    · exact hs.sound.volume.singleBlock hdir
    · subst hc
      exact hok.2.single hrem hfile
  have hV := hs.sound.volume.change (fun x hx => hx.2.1) h1
  refine ⟨exec_sound hs.sound hok.1 h, ?_⟩
  exact (hs.noLeak.change hs.sound.volume hR h1).change hV (fun _ hx => hx.elim) h2

/-- `do_rm` of a path that leads to an entry removes it. -/
theorem rm_removes {s s' : State} (hV : Volume s.disk) {path p dir x : Nat} {mem mem' : Store}
    (hok : CallOk s (.rm path mem)) (h : exec (.rm path mem) s = .ok s')
    (ht : removeTarget iFile path mem s = some (p, dir, mem', x)) :
    ∃ k, RemoveEnd iFile path mem s s'.disk p dir mem' x k := by
  have hspec : Holds AnyHalt (fun u => Extends s u ∧
      ((u.disk = s.disk ∧ (iFile ≠ iDir → removeTarget iFile path mem s = none)) ∨
        ∃ p dir mem' x k, RemoveEnd iFile path mem s u.disk p dir mem' x k))
      (ended (doRm path mem s)) := ended_holds (removePath_spec hV hok)
  rcases (hspec.of_ok h).2 with ⟨_, hnone⟩ | ⟨p', dir', m, y, k, hend⟩
  · rw [hnone (by decide)] at ht
    cases ht
  · have heq := hend.target
    rw [ht] at heq
    cases heq
    exact ⟨k, hend⟩

/-- An entry other than the one removed is still there. -/
theorem Unlinked.entry_kept {d d' : Store} {p k x q l : Nat} (hV : Volume d) (hp : IsDir d p)
    (h : Unlinked d d' p k x) (hq : IsDir d q) (hl : l < 128) (hne : q = p → l ≠ k) :
    IsDir d' q ∧ dentryType (dirBlock d' q) l = dentryType (dirBlock d q) l ∧
      dentryInodeId (dirBlock d' q) l = dentryInodeId (dirBlock d q) l := by
  refine ⟨(h.quiet hV hp).isDir.mpr hq, ?_⟩
  by_cases hqp : q = p
  · subst hqp
    exact entries_of_other hl (hne rfl) h.entry.other
  · have hsame : ∀ y, y < 4096 → dirBlock d' q y = dirBlock d q y := fun y hy =>
      hV.otherDir hp hq hqp (h.ino_eq q _ hq.1.1 (by decide) (Or.inl hqp))
        (fun y hy hne => h.blk_eq _ y hne hy) hy
    exact ⟨dentryType_congr hsame hl, dentryInodeId_congr hsame hl⟩

/-- No live entry of a directory names `x`. -/
def Nameless (d : Store) (x : Nat) : Prop :=
  ∀ q l, IsDir d q → l < 128 → dentryType (dirBlock d q) l ≠ 0 → dentryInodeId (dirBlock d q) l ≠ x

/-- Removing the last name of a file frees its blocks. -/
theorem rm_frees {s s' : State} (hs : Tidy s) {path p dir x : Nat} {mem mem' : Store}
    (hok : AccountOk s (.rm path mem)) (h : exec (.rm path mem) s = .ok s')
    (ht : removeTarget iFile path mem s = some (p, dir, mem', x)) (hfile : IsFile s.disk x)
    (hlost : Nameless s'.disk x) {b : Nat} {q : Pos} (hq : BlockRef s.disk b q)
    (hqx : q.inode = x) : bmap s'.disk b = 0 := by
  have hV := hs.sound.volume
  have hrm : RmOk path mem s := hok.2
  unfold RmOk at hrm
  rw [ht] at hrm
  obtain ⟨hsingle, hother⟩ := hrm hfile
  obtain ⟨k, hend⟩ := rm_removes hV hok.1 h ht
  rcases hend.effect with ⟨hlast, _, hun⟩ | ⟨hlast, hused, _, hrem⟩
  · have hlinks : ino s.disk x inoLinksCount ≠ 1 := by
      intro hone
      exact hlast ⟨hone, fun hcon => absurd hcon (by decide)⟩
    obtain ⟨r, _, hr, l, hl, hlive, hid, hbefore⟩ := hother hlinks
    obtain ⟨hr', hty, hid'⟩ := hun.entry_kept hV hend.parent hr hl (by
      intro hrp hlk
      obtain ⟨k', hk', hidk⟩ := hbefore hrp
      exact hun.entry.first k' (by omega) hidk)
    refine absurd (hid'.trans hid) (hlost r l hr' hl ?_)
    rw [hty]
    exact hlive
  · have hz : ref s.disk q ≠ 0 := by
      intro h0
      have hb0 : b = 0 := hq.2.1.symm.trans h0
      have hqr := hq.2.2 hb0
      rw [hqr] at hqx
      have hx0 : x = 0 := hqx.symm
      rw [hx0] at hfile
      exact not_isDir_of_isFile hfile hV.root
    have hfirst := (hsingle hlast.1).pos_eq hq.1.1 hqx hz
    have hb : b = ino s.disk x inoDirectBlock := by
      rw [← hq.2.1, hfirst, ref_firstPos]
    have hlt := hV.first_lt hfile.1.1
    rw [hrem.bmap_eq b (by omega), if_pos hb]

/-- The condition is needed: removing a file with a second block leaks it. -/
theorem rm_leaks {s s' : State} (hV : Volume s.disk) {path x : Nat} {mem : Store}
    (hok : CallOk s (.rm path mem)) (h : exec (.rm path mem) s = .ok s')
    (hx : removedInode iFile path mem s = some x) {slot : Nat} (h0 : 0 < slot) (hs : slot < 19)
    (hptr : ino s.disk x (32 + 4 * slot) ≠ 0) : ¬ Accounted s'.disk := by
  obtain ⟨p, dir, mem', ht, hlast⟩ := removedInode_eq_some.mp hx
  obtain ⟨k, hend⟩ := rm_removes hV hok h ht
  rcases hend.effect with ⟨hcon, _, _⟩ | ⟨_, hused, _, hrem⟩
  · exact absurd hlast hcon
  · have hlive : Pos.Live s.disk ⟨x, slot, []⟩ := ⟨⟨hs, Nat.zero_le _, by simp⟩, hused⟩
    refine hrem.leak hV hend.parent hused hlive rfl rfl hptr ?_
    intro heq
    have hslot : slot = 0 := congrArg Pos.slot heq
    omega

/-- **Block accounting.**  From a freshly formatted disk, as long as every call
meets its conditions, in every state reached the block map marks exactly the
blocks that inodes in use refer to, each once; and a `do_rm` that takes the last
name of a file frees all its blocks. -/
theorem blocks_accounted {s₀ s t : State} {cs : List Call}
    (hb : ∀ fd, (s₀.fdescArray fd).Bounded) (hfresh : doMkfs true s₀ = .ok (0, s))
    (hok : AllSteps exec AccountOk cs s) (hrun : run exec cs s = .ok t) :
    Accounted t.disk ∧
      ∀ path mem t', AccountOk t (.rm path mem) → exec (.rm path mem) t = .ok t' →
        ∀ p dir mem' x, removeTarget iFile path mem t = some (p, dir, mem', x) →
          IsFile t.disk x → Nameless t'.disk x →
          ∀ b q, BlockRef t.disk b q → q.inode = x → bmap t'.disk b = 0 := by
  obtain ⟨hsound, t₀, hdisk⟩ := doMkfs_sound hb hfresh
  have htidy : Tidy s := ⟨hsound, by rw [hdisk]; exact formatted_noLeak⟩
  have hend : Tidy t := run_invariant (fun _ _ _ => exec_tidy) cs s t htidy hok hrun
  refine ⟨hend.sound.volume.accounted hend.noLeak, ?_⟩
  intro path mem t' hrm hexec p dir mem' x ht hfile hlost b q hq hqx
  exact rm_frees hend hrm hexec ht hfile hlost hq hqx

/-! ## A run that leaks, and one that does not -/

/-- The static variables at boot, with an empty disk. -/
def bootState : State where
  disk := zeros
  superblock := zeros
  currentInode := zeros
  fdescArray _ := ⟨0, 0, 0, 0, 0⟩
  inodeMap := zeros
  blockMap := zeros
  sctBuffer := zeros
  blkBuffer := zeros
  writes := []

/-- The state after the first `do_mkfs`. -/
def freshState : State :=
  match doMkfs true bootState with
  | .ok (_, s) => s
  | .error _ => bootState

theorem freshState_eq : doMkfs true bootState = .ok (0, freshState) := by
  obtain ⟨s', hs', _⟩ := doMkfs_spec true bootState
  unfold freshState
  rw [hs']

theorem bootState_bounded (fd : Nat) : (bootState.fdescArray fd).Bounded :=
  ⟨by simp [bootState], by simp [bootState]⟩

/-- A process with the string `a` at address 100. -/
def memA : Store := wr8 zeros 100 97

/-- Make a file, put something in it, close it and remove it. -/
def shortFile : List Call :=
  [.fopen 100 oRdwr 1 memA, .fwrite 0 memA 200, .fclose 0, .rm 100 memA]

theorem blocks_accounted_shortFile :
    AllSteps exec AccountOk shortFile freshState ∧
      ∃ t, run exec shortFile freshState = .ok t ∧ Accounted t.disk := by
  have hok : AllSteps exec AccountOk shortFile freshState := by decide +kernel
  have hrun : returns (fun _ => True) (run exec shortFile freshState) = true := by decide +kernel
  obtain ⟨t, ht, _⟩ := exists_of_returns hrun
  exact ⟨hok, t, ht, (blocks_accounted bootState_bounded freshState_eq hok ht).1⟩

/-- Make a file with a second page. -/
def longFile : List Call := [.fopen 100 oWronly 1 memA, .lseek 0 4096 0 0]

/-- Removing the file leaves its second block marked. -/
theorem blocks_not_accounted_longFile :
    ∃ s t, doMkfs true bootState = .ok (0, s) ∧ AllSteps exec CallOk (longFile ++ [.rm 100 memA]) s ∧
      run exec (longFile ++ [.rm 100 memA]) s = .ok t ∧ ¬ Accounted t.disk := by
  have hok : AllSteps exec CallOk (longFile ++ [.rm 100 memA]) freshState := by decide +kernel
  have hok' : AllSteps exec CallOk longFile freshState := by decide +kernel
  have hrun : returns (fun t => CallOk t (.rm 100 memA) ∧ removedInode iFile 100 memA t = some 1 ∧
      ino t.disk 1 36 ≠ 0) (run exec longFile freshState) = true := by decide +kernel
  have hall : returns (fun _ => True) (run exec (longFile ++ [.rm 100 memA]) freshState) = true := by
    decide +kernel
  obtain ⟨t, ht, hcall, hrem, hptr⟩ := exists_of_returns hrun
  obtain ⟨u, hu, _⟩ := exists_of_returns hall
  have hsound : Sound t := run_invariant (fun _ _ _ => exec_sound) longFile freshState t
    (doMkfs_sound bootState_bounded freshState_eq).1 hok' ht
  have hstep : exec (.rm 100 memA) t = .ok u := by
    rw [run_append, ht] at hu
    obtain ⟨v, hv, hend⟩ := run_cons hu
    cases hend
    exact hv
  refine ⟨freshState, u, freshState_eq, hok, hu, ?_⟩
  exact rm_leaks hsound.volume hcall hstep hrem (show 0 < 1 by decide) (by decide) hptr

end Fs
