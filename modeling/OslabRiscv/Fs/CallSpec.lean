import OslabRiscv.Fs.Volume

/-!
# What the calls on paths do

For each call, on a volume and with a path that leads through directories
only, the effect it has and that its sector writes lie in their areas.  A call
that stops in an `assert`, in an allocator that ran out or in undefined
behaviour has no result, and nothing is said about it.
-/

namespace Fs

open ByteStore Outcome

/-- Any way of not returning. -/
def AnyHalt : Halt → Prop := fun _ => True

theorem anyHalt {α : Type} {E : Halt → Prop} {P : α → Prop} {x : Except Halt α}
    (h : Holds E P x) : Holds AnyHalt P x :=
  h.attempt fun _ _ => trivial

section Make

variable {s : State} {mem : Store} {p dir type : Nat}

theorem ShortName.length {n : Nat} (h : ShortName mem dir) (hlen : strlen mem dir = .ok n) :
    n ≤ dName := by
  rcases h with h0 | ⟨m, hm, hend⟩
  · unfold strlen at hlen
    rw [if_pos h0] at hlen
    cases hlen
  · rw [(strlen_ok hlen).unique hend]
    omega

/-- What a new entry takes: an inode, a block, a dead entry and a name that fits. -/
structure Room (d : Store) (p : Nat) (mem : Store) (dir : Nat) : Prop where
  inode : ∃ i, i < 512 ∧ imap d i = 0
  block : ∃ b, b < 4096 ∧ bmap d b = 0
  slot : ∃ k, k < 128 ∧ dentryType (dirBlock d p) k = 0
  name : ∃ n, strlen mem dir = .ok n ∧ n < dName

/-- The disk once `makeInode` has put inode `i` with block `b` into entry `k`. -/
def inodeMade (d : Store) (p k i b type : Nat) (mem : Store) (dir n : Nat) : Store :=
  initIno (setBmap (setBlk (bumpDir (setImap d i 1) p type) (ino d p inoDirectBlock)
    (addEntry (block (setImap d i 1) (ino d p inoDirectBlock)) k i type mem dir n)) b 1) i b type
    oRdwr

/-- `makeInode` takes the first inode, entry and block it finds, and goes through
when there is room. -/
theorem makeInode_edit (hp : IsDir s.disk p) (hcu : BlockUsed s.disk (ino s.disk p inoDirectBlock)) :
    Holds (fun _ => ¬ Room s.disk p mem dir)
      (fun r => Extends s r.2.2 ∧ (r.1 < 512 ∧ imap s.disk r.1 = 0) ∧
        (r.2.1 < 4096 ∧ bmap s.disk r.2.1 = 0) ∧
        ∃ k n, k < 128 ∧ dentryType (dirBlock s.disk p) k = 0 ∧
          (∀ j, j < k → dentryType (dirBlock s.disk p) j ≠ 0) ∧ strlen mem dir = .ok n ∧
          r.2.2.disk = inodeMade s.disk p k r.1 r.2.1 type mem dir n)
      (makeInode p dir type mem s) := by
  unfold makeInode
  refine ((allocInode_spec s).attempt fun _ hfull hroom => ?_).bind fun r hr => ?_
  · obtain ⟨i, hi, hz⟩ := hroom.inode
    exact hfull i hi hz
  obtain ⟨i, s₁⟩ := r
  obtain ⟨hi, hfree, hdisk₁, hext₁⟩ := hr
  simp only at hi hfree hdisk₁ hext₁
  have hc₁ : ino s₁.disk p inoDirectBlock = ino s.disk p inoDirectBlock := by
    rw [hdisk₁, ino_setImap hi]
  have hblk₁ : ∀ e y, block s₁.disk e y = block s.disk e y := by
    intro e y
    rw [hdisk₁, block_setImap hi]
  have htype₁ : ∀ k, k < 128 → dentryType (block s₁.disk (ino s.disk p inoDirectBlock)) k =
      dentryType (dirBlock s.disk p) k := fun k hk => dentryType_congr (fun y _ => hblk₁ _ y) hk
  refine ((createDentry_spec hp.1.1 hc₁ hcu.1).attempt fun _ hfull hroom => ?_).bind fun r hr => ?_
  · rcases hfull with hlive | hlong
    · obtain ⟨k, hk, hdead⟩ := hroom.slot
      exact hlive k hk ((htype₁ k hk).trans hdead)
    · obtain ⟨n, hlen, hn⟩ := hroom.name
      have := hlong n hlen
      omega
  obtain ⟨i', s₂⟩ := r
  obtain ⟨hi', k, n, hk, hdead, hfirst, hlen, _, hdisk₂, hext₂⟩ := hr
  simp only at hi' hdisk₂ hext₂
  subst hi'
  have hbmap₂ : ∀ b, b < 4096 → bmap s₂.disk b = bmap s.disk b := by
    intro b hb
    rw [hdisk₂, bmap_setBlk (by omega), bmap_bumpDir (by omega), hdisk₁, bmap_setImap hi]
  refine ((allocBlock_edit s₂).attempt fun _ hfull hroom => ?_).bind fun r hr => ?_
  · obtain ⟨b, hb, hz⟩ := hroom.block
    exact hfull b hb ((hbmap₂ b hb).trans hz)
  obtain ⟨b, s₃⟩ := r
  obtain ⟨hb, hb0, hdisk₃, hext₃⟩ := hr
  simp only at hb hb0 hdisk₃ hext₃
  rw [hbmap₂ b hb] at hb0
  refine ⟨?_, ⟨hi, hfree⟩, ⟨hb, hb0⟩, k, n, hk, ?_, ?_, hlen, ?_⟩
  · exact (((hext₁.trans hext₂).trans hext₃).createInode hi b type oRdwr).writeInode hi
  · rw [← htype₁ k hk]
    exact hdead
  · intro j hj
    rw [← htype₁ j (by omega)]
    exact hfirst j hj
  · rw [writeInode_createInode hi, hdisk₃, hdisk₂, hdisk₁]
    rfl

/-- `makeInode` and the block that its caller fills in. -/
theorem makeInode_spec (hV : Volume s.disk) (hp : IsDir s.disk p) (hname : ShortName mem dir)
    (ht : type < 2 ^ 32) :
    Holds AnyHalt
      (fun r => Extends s r.2.2 ∧ r.2.1 < 4096 ∧ ∃ k,
        Made s.disk (setBlk r.2.2.disk r.2.1
          (if type = iDir then newDirBlock p r.1 else zeros)) p k r.1 r.2.1 type)
      (makeInode p dir type mem s) := by
  have hcu := hV.dir_used hp
  refine (anyHalt (makeInode_edit hp hcu)).mono fun r hr => ?_
  obtain ⟨hext, ⟨hi, hfree⟩, ⟨hb, hb0⟩, k, n, hk, hdead, hfirst, hlen, hdisk⟩ := hr
  have hpi : p ≠ r.1 := fun heq => hp.1.2 (heq ▸ hfree)
  refine ⟨hext, hb, k, ?_⟩
  rw [hdisk]
  refine made_edit hp.1.1 rfl hpi hi hfree hb hb0 ?_ hk hdead hfirst (hname.length hlen) ht
  intro heq
  exact hcu.2 (heq ▸ hb0)

end Make

section Calls

variable {s : State} {mem : Store} {path type : Nat}

/-- The path leads to a directory, but the name is not allowed there or already
taken; `do_mkdir` and `do_touch` then return `-1`. -/
def makeRefused (type path : Nat) (mem : Store) (s : State) : Bool :=
  match walk path mem s with
  | .ok (some (p, dir), mem', t) =>
    match isNameIllegal mem' dir, searchDentry p dir type mem' t with
    | .ok true, _ => true
    | .ok false, .ok (x, _) => x ≠ minusOne
    | _, _ => false
  | _ => false

/-- A component of the path is not found, or too long. -/
def walkFails (path : Nat) (mem : Store) (s : State) : Bool :=
  match walk path mem s with
  | .ok (none, _, _) => true
  | _ => false

/-- What `do_mkdir` and `do_touch` do: nothing, or a new inode.  In the first
case they return `0`, the path having led nowhere, or `-1`, having refused; in
the second `do_mkdir` returns `0` and `do_touch` the inode. -/
def MakeEnd (type path : Nat) (mem : Store) (s : State) (r : Nat × Store × State) : Prop :=
  Extends s r.2.2 ∧
    ((r.2.2.disk = s.disk ∧ ((r.1 = 0 ∧ walkFails path mem s = true) ∨
        (r.1 = minusOne ∧ makeRefused type path mem s = true))) ∨
      ∃ p k i b, IsDir s.disk p ∧ Made s.disk r.2.2.disk p k i b type ∧
        r.1 = (if type = iDir then 0 else i) ∧ walkFails path mem s = false)

/-- `do_mkdir` and `do_touch` make an inode, or leave the disk alone. -/
theorem makePath_spec (hV : Volume s.disk) (hv : ∀ j ∈ visits path mem s, IsDir s.disk j)
    (ht : type < 2 ^ 32) :
    Holds AnyHalt (MakeEnd type path mem s) (makePath type path mem s) := by
  unfold makePath
  refine (anyHalt (walk_spec hV.dirsInRange hv)).bind_eq fun r hwalk hr => ?_
  obtain ⟨target, mem', t⟩ := r
  obtain ⟨hdisk, hext, htarget⟩ := hr
  simp only at hdisk hext htarget
  cases target with
  | none =>
      refine ⟨hext, Or.inl ⟨hdisk, Or.inl ⟨rfl, ?_⟩⟩⟩
      unfold walkFails
      rw [hwalk]
  | some q =>
      obtain ⟨p, dir⟩ := q
      obtain ⟨hp, hname⟩ := htarget p dir rfl
      simp only
      cases hill : isNameIllegal mem' dir with
      | error e => exact trivial
      | ok illegal =>
          cases illegal with
          | true =>
              refine ⟨hext, Or.inl ⟨hdisk, Or.inr ⟨rfl, ?_⟩⟩⟩
              unfold makeRefused
              simp only [hwalk, hill]
          | false =>
              have hpt : IsDir t.disk p := by rw [hdisk]; exact hp
              refine (anyHalt (searchDentry_spec hp.1.1
                (hV.dirsInRange.mono hdisk p hpt))).bind_eq fun r hsearch hr => ?_
              obtain ⟨found, u⟩ := r
              obtain ⟨_, hdisku, hextu⟩ := hr
              simp only at hdisku hextu ⊢
              rw [hdisk] at hdisku
              by_cases hfound : found ≠ minusOne
              · rw [if_pos hfound]
                refine ⟨hext.trans hextu, Or.inl ⟨hdisku, Or.inr ⟨rfl, ?_⟩⟩⟩
                unfold makeRefused
                simp only [hwalk, hill, hsearch]
                exact decide_eq_true hfound
              · rw [if_neg hfound]
                refine (makeInode_spec (by rw [hdisku]; exact hV) (by rw [hdisku]; exact hp) hname
                  ht).bind fun r hr => ?_
                obtain ⟨i, b, v⟩ := r
                obtain ⟨hextv, hb, k, hmade⟩ := hr
                simp only at hextv hb hmade ⊢
                rw [hdisku] at hmade
                have hall := (hext.trans hextu).trans hextv
                have hkept : walkFails path mem s = false := by
                  unfold walkFails
                  rw [hwalk]
                by_cases hdir : type = iDir
                · rw [if_pos hdir] at hmade ⊢
                  refine ⟨hall.createDirBlock (by omega) p i,
                    Or.inr ⟨p, k, i, b, hp, ?_, (if_pos hdir).symm, hkept⟩⟩
                  rw [createDirBlock_disk (by omega)]
                  exact hmade
                · rw [if_neg hdir] at hmade ⊢
                  refine ⟨hall.createFileBlock (by omega),
                    Or.inr ⟨p, k, i, b, hp, ?_, (if_neg hdir).symm, hkept⟩⟩
                  rw [createFileBlock_disk (by omega)]
                  exact hmade

/-- What the path of a removal leads to: the directory, the component in memory
and the inode. -/
def removeTarget (type path : Nat) (mem : Store) (s : State) :
    Option (Nat × Nat × Store × Nat) :=
  match walk path mem s with
  | .ok (some (p, dir), mem', t) =>
    match searchDentry p dir type mem' t with
    | .ok (x, _) => if x = minusOne then none else some (p, dir, mem', x)
    | .error _ => none
  | _ => none

/-- A removal that changed the disk: it found inode `x` in directory `p`, and
removed the entry with or without the inode. -/
structure RemoveEnd (type path : Nat) (mem : Store) (s : State) (d' : Store)
    (p dir : Nat) (mem' : Store) (x k : Nat) : Prop where
  target : removeTarget type path mem s = some (p, dir, mem', x)
  parent : IsDir s.disk p
  hit : ∃ l, EntryHit (dirBlock s.disk p) mem' dir type l ∧
    dentryInodeId (dirBlock s.disk p) l = x
  lt : x < 512
  effect : (¬ lastLink s.disk x type ∧ type ≠ iDir ∧ Unlinked s.disk d' p k x) ∨
    (lastLink s.disk x type ∧ InodeUsed s.disk x ∧ ino s.disk x inoType = type ∧
      Removed s.disk d' p k x (ino s.disk x inoDirectBlock))

/-- The second half of a removal: the entry has gone, the inode follows. -/
theorem removeInode_removed {t : State} {p k x : Nat} (hV : Volume s.disk) (hp : IsDir s.disk p)
    (hx : x < 512) (h : Unlinked s.disk t.disk p k x) :
    Holds AnyHalt
      (fun u => InodeUsed s.disk x ∧ ino s.disk x inoType = type ∧
        Removed s.disk u.disk p k x (ino s.disk x inoDirectBlock) ∧ Extends t u)
      (removeInode x type t) := by
  have hc : ino t.disk x inoDirectBlock = ino s.disk x inoDirectBlock :=
    h.ino_eq x _ hx (by decide) (Or.inr notCount_directBlock)
  have hlt := hV.first_lt hx
  refine (anyHalt (removeInode_spec hx hc hlt)).mono fun u hu => ?_
  obtain ⟨hty, hone, hmap, hdisk, hext⟩ := hu
  rw [h.ino_eq x _ hx (by decide) (Or.inr (Or.inl (by decide)))] at hty
  rw [h.bmap_eq _ (by omega)] at hone
  rw [h.imap_eq x hx] at hmap
  have hused : InodeUsed s.disk x := ⟨hx, by rw [hmap]; decide⟩
  refine ⟨hused, hty, ?_, hext⟩
  rw [hdisk]
  refine removed_edit h hp.1.1 hx ?_ (by omega) hmap hone
  by_cases hpx : p = x
  · exact Or.inr hpx
  · exact Or.inl (hV.dir_first_ne hp hused hpx)

/-- `do_rmdir` and `do_rm` remove an inode or an entry, or leave the disk alone. -/
theorem removePath_spec (hV : Volume s.disk) (hv : ∀ j ∈ visits path mem s, IsDir s.disk j) :
    Holds AnyHalt
      (fun r => Extends s r.2.2 ∧
        ((r.2.2.disk = s.disk ∧ (type ≠ iDir → removeTarget type path mem s = none)) ∨
          ∃ p dir mem' x k, RemoveEnd type path mem s r.2.2.disk p dir mem' x k))
      (removePath type path mem s) := by
  unfold removePath
  refine (anyHalt (walk_spec hV.dirsInRange hv)).bind_eq fun r hwalk hr => ?_
  obtain ⟨target, mem', t⟩ := r
  obtain ⟨hdisk, hext, htarget⟩ := hr
  simp only at hdisk hext htarget
  cases target with
  | none =>
      refine ⟨hext, Or.inl ⟨hdisk, fun _ => ?_⟩⟩
      unfold removeTarget
      rw [hwalk]
  | some q =>
      obtain ⟨p, dir⟩ := q
      obtain ⟨hp, _⟩ := htarget p dir rfl
      have hpt : IsDir t.disk p := by rw [hdisk]; exact hp
      simp only
      refine (anyHalt (searchDentry_spec hp.1.1 (hV.dirsInRange.mono hdisk p hpt))).bind_eq
        fun r hsearch hr => ?_
      obtain ⟨x, u⟩ := r
      obtain ⟨hhit, hdisku, hextu⟩ := hr
      rw [hdisk] at hhit
      simp only at hhit hdisku hextu ⊢
      rw [hdisk] at hdisku
      by_cases hnone : x = minusOne
      · rw [if_pos hnone]
        refine ⟨hext.trans hextu, Or.inl ⟨hdisku, fun _ => ?_⟩⟩
        unfold removeTarget
        rw [hwalk]
        simp only [hsearch, if_pos hnone]
      · rw [if_neg hnone]
        have hhit' : ∃ l, EntryHit (dirBlock s.disk p) mem' dir type l ∧
            dentryInodeId (dirBlock s.disk p) l = x := by
          rcases hhit with hcon | hhit
          · exact absurd hcon hnone
          · exact hhit
        have hx : x < 512 := by
          obtain ⟨l, hl, hid⟩ := hhit'
          exact hid ▸ hV.entries p hp l hl.lt
        have htgt : removeTarget type path mem s = some (p, dir, mem', x) := by
          unfold removeTarget
          rw [hwalk]
          simp only [hsearch, if_neg hnone]
        have hcu := hV.dir_used hp
        refine (anyHalt (deleteDentry_spec hp.1.1 hx (by rw [hdisku]) hcu.1)).bind
          fun r hr => ?_
        obtain ⟨goOn, v⟩ := r
        simp only at hr ⊢
        rw [hdisku] at hr
        rcases hr with ⟨hgo, hdir, _, hdiskv, hextv⟩ |
          ⟨hgo, hguard, k, hk, hid, hfirst, hdiskv, hextv⟩
        · rw [hgo]
          exact ⟨(hext.trans hextu).trans hextv, Or.inl ⟨hdiskv, fun hne => absurd hdir hne⟩⟩
        · have hunl : Unlinked s.disk v.disk p k x := by
            rw [hdiskv]
            exact unlinked_edit hp.1.1 rfl hk hid hfirst
          have hall := (hext.trans hextu).trans hextv
          by_cases hlast : lastLink s.disk x type
          · rw [hgo, decide_eq_true hlast]
            refine (removeInode_removed hV hp hx hunl).bind fun w hw => ?_
            obtain ⟨hused, hty, hrem, hextw⟩ := hw
            exact ⟨hall.trans hextw, Or.inr ⟨p, dir, mem', x, k, htgt, hp, hhit', hx,
              Or.inr ⟨hlast, hused, hty, hrem⟩⟩⟩
          · rw [hgo, decide_eq_false hlast]
            exact ⟨hall, Or.inr ⟨p, dir, mem', x, k, htgt, hp, hhit', hx,
              Or.inl ⟨hlast, fun hdir => hlast (hguard hdir), hunl⟩⟩⟩

/-! ## Links -/

/-- The directories both paths of `do_ln` lead through. -/
def lnVisits (srcPath dstPath : Nat) (mem : Store) (s : State) : List Nat :=
  visits srcPath mem s ++
    match walk srcPath mem s with
    | .ok (some _, mem', t) => visits dstPath mem' t
    | _ => []

/-- The inode `do_ln` makes a link to. -/
def lnSource (srcPath dstPath : Nat) (mem : Store) (s : State) : Option Nat :=
  match walk srcPath mem s with
  | .ok (some (q, srcDir), mem', t) =>
    match walk dstPath mem' t with
    | .ok (some _, mem'', u) =>
      match searchDentry q srcDir (iDir ||| iFile) mem'' u with
      | .ok (x, _) => if x = minusOne then none else some x
      | .error _ => none
    | _ => none
  | _ => none

/-- One of the two paths of `do_ln` leads nowhere. -/
def lnFails (srcPath dstPath : Nat) (mem : Store) (s : State) : Bool :=
  match walk srcPath mem s with
  | .ok (none, _, _) => true
  | .ok (some _, mem', t) => walkFails dstPath mem' t
  | .error _ => false

/-- `do_ln` makes a link and returns `0`, or it leaves the disk alone and returns `-1`, or `0`
where a path leads nowhere. -/
theorem doLn_spec {srcPath dstPath : Nat} (hV : Volume s.disk)
    (hv : ∀ j ∈ lnVisits srcPath dstPath mem s, IsDir s.disk j) :
    Holds AnyHalt
      (fun r => Extends s r.2.2 ∧
        ((r.2.2.disk = s.disk ∧ (r.1 = minusOne ∨ lnFails srcPath dstPath mem s = true)) ∨
          ∃ p k q l x, IsDir s.disk p ∧ IsDir s.disk q ∧ l < 128 ∧
            dentryType (dirBlock s.disk q) l ≠ 0 ∧ dentryInodeId (dirBlock s.disk q) l = x ∧
            x < 512 ∧ Linked s.disk r.2.2.disk p k x ∧ lnSource srcPath dstPath mem s = some x ∧
            r.1 = 0 ∧ lnFails srcPath dstPath mem s = false))
      (doLn srcPath dstPath mem s) := by
  unfold doLn
  have hvs : ∀ j ∈ visits srcPath mem s, IsDir s.disk j :=
    fun j hj => hv j (List.mem_append_left _ hj)
  refine (anyHalt (walk_spec hV.dirsInRange hvs)).bind_eq fun r hwalk hr => ?_
  obtain ⟨src, mem₁, t⟩ := r
  obtain ⟨hdiskt, hextt, hsrc⟩ := hr
  simp only at hdiskt hextt hsrc
  cases src with
  | none =>
      refine ⟨hextt, Or.inl ⟨hdiskt, Or.inr ?_⟩⟩
      unfold lnFails
      rw [hwalk]
  | some q =>
      obtain ⟨q, srcDir⟩ := q
      obtain ⟨hq, _⟩ := hsrc q srcDir rfl
      have hvd : ∀ j ∈ visits dstPath mem₁ t, IsDir t.disk j := by
        intro j hj
        rw [hdiskt]
        apply hv
        unfold lnVisits
        rw [hwalk]
        exact List.mem_append_right _ hj
      simp only
      refine (anyHalt (walk_spec (hV.dirsInRange.mono hdiskt) hvd)).bind_eq fun r hwalk' hr => ?_
      obtain ⟨dst, mem₂, u⟩ := r
      obtain ⟨hdisku, hextu, hdst⟩ := hr
      simp only at hdisku hextu hdst
      rw [hdiskt] at hdisku hdst
      cases dst with
      | none =>
          refine ⟨hextt.trans hextu, Or.inl ⟨hdisku, Or.inr ?_⟩⟩
          unfold lnFails walkFails
          simp only [hwalk, hwalk']
      | some p =>
          obtain ⟨p, dstDir⟩ := p
          obtain ⟨hp, hname⟩ := hdst p dstDir rfl
          have hqu : IsDir u.disk q := by rw [hdisku]; exact hq
          simp only
          refine (anyHalt (searchDentry_spec hq.1.1 (hV.dirsInRange.mono hdisku q hqu))).bind_eq
            fun r hsearch hr => ?_
          obtain ⟨x, v⟩ := r
          obtain ⟨hhit, hdiskv, hextv⟩ := hr
          rw [hdisku] at hhit
          simp only at hhit hdiskv hextv ⊢
          rw [hdisku] at hdiskv
          have hallv := (hextt.trans hextu).trans hextv
          by_cases hnone : x = minusOne
          · rw [if_pos hnone]
            exact ⟨hallv, Or.inl ⟨hdiskv, Or.inl rfl⟩⟩
          · rw [if_neg hnone]
            obtain ⟨l, hl, hid⟩ : ∃ l, EntryHit (dirBlock s.disk q) mem₂ srcDir (iDir ||| iFile) l ∧
                dentryInodeId (dirBlock s.disk q) l = x := by
              rcases hhit with hcon | hhit
              · exact absurd hcon hnone
              · exact hhit
            have hx : x < 512 := hid ▸ hV.entries q hq l hl.lt
            have hlive : dentryType (dirBlock s.disk q) l ≠ 0 := by
              intro hz
              exact hl.bits (by rw [hz]; exact Nat.zero_and _)
            have hpv : IsDir v.disk p := by rw [hdiskv]; exact hp
            refine (anyHalt (searchDentry_spec hp.1.1 (hV.dirsInRange.mono hdiskv p hpv))).bind
              fun r hr => ?_
            obtain ⟨found, w⟩ := r
            obtain ⟨_, hdiskw, hextw⟩ := hr
            simp only at hdiskw hextw ⊢
            rw [hdiskv] at hdiskw
            have hallw := hallv.trans hextw
            by_cases hfound : found ≠ minusOne
            · rw [if_pos hfound]
              exact ⟨hallw, Or.inl ⟨hdiskw, Or.inl rfl⟩⟩
            · rw [if_neg hfound]
              obtain ⟨y, hy⟩ : ∃ y, y = writeInode (x / 4) (inodeAdd (inodePtr x) inoLinksCount 1
                (getInode x w)) := ⟨_, rfl⟩
              have hdisky : y.disk = setIno s.disk x inoLinksCount
                  ((ino s.disk x inoLinksCount + 1) % 2 ^ 32) := by
                rw [hy, writeInode_disk hx, flushed_inodeAdd _ (by decide), flushed_getInode hx,
                  hdiskw]
              have hexty : Extends s y := by
                rw [hy]
                exact ((hallw.getInode x).inodeAdd _ _ _).writeInode hx
              have hcu := hV.dir_used hp
              have hcy : ino y.disk p inoDirectBlock = ino s.disk p inoDirectBlock := by
                rw [hdisky]
                exact ino_setIno_frame (by decide) (by decide) (Or.inr (Or.inr (by decide)))
              have hblk : ∀ e z, block y.disk e z = block s.disk e z := by
                intro e z
                rw [hdisky, block_setIno hx (by decide)]
              rw [← hy]
              refine (anyHalt (createDentry_spec hp.1.1 hcy hcu.1)).bind fun r hr => ?_
              obtain ⟨_, z⟩ := r
              obtain ⟨_, k, n, hk, hdead, hfirst, hlen, _, hdiskz, hextz⟩ := hr
              simp only at hdiskz hextz
              refine ⟨hexty.trans hextz,
                Or.inr ⟨p, k, q, l, x, hp, hq, hl.lt, hlive, hid, hx, ?_, ?_, rfl, ?_⟩⟩
              · rw [hdiskz, hdisky]
                refine linked_edit hp.1.1 rfl hx hk ?_ ?_ (hname.length hlen)
                · rw [← dentryType_congr (fun z _ => hblk _ z) hk]
                  exact hdead
                · intro j hj
                  rw [← dentryType_congr (fun z _ => hblk _ z) (by omega)]
                  exact hfirst j hj
              · unfold lnSource
                simp only [hwalk, hwalk', hsearch, if_neg hnone]
              · unfold lnFails walkFails
                simp only [hwalk, hwalk']

/-! ## Opening -/

/-- The descriptor that is found is not in use. -/
theorem freeFdesc_spec {a : Nat → Fdesc} {n i k : Nat} (h : freeFdesc a n i = some k) :
    k < i + n ∧ (a k).status = fAvailable := by
  induction n generalizing i with
  | zero => cases h
  | succ n ih =>
      unfold freeFdesc at h
      by_cases hs : (a i).status = fAvailable
      · rw [if_pos hs] at h
        cases h
        exact ⟨by omega, hs⟩
      · rw [if_neg hs] at h
        have hk := ih h
        exact ⟨by omega, hk.2⟩

/-- A descriptor has been taken for inode `x`, or nothing was changed. -/
def OpenEnd (s : State) (d : Store) (s' : State) : Prop :=
  (s'.disk = d ∧ Extends s s') ∨
    ∃ fd x mode, x < 512 ∧ fd < numFdescs ∧ (s.fdescArray fd).status = fAvailable ∧
      Opened d s'.disk x ∧ Extends (setFdesc fd ⟨x, fOccupied, mode, 0, 0⟩ s) s'

/-- The same, with the inode. -/
def OpenOf (s : State) (d : Store) (x : Nat) (s' : State) : Prop :=
  (s'.disk = d ∧ Extends s s') ∨
    ∃ fd mode, x < 512 ∧ fd < numFdescs ∧ (s.fdescArray fd).status = fAvailable ∧
      Opened d s'.disk x ∧ Extends (setFdesc fd ⟨x, fOccupied, mode, 0, 0⟩ s) s'

theorem OpenOf.openEnd {d : Store} {x : Nat} {s' : State} (h : OpenOf s d x s') :
    OpenEnd s d s' := by
  rcases h with h | ⟨fd, mode, hx, hfd, hav, hop, he⟩
  · exact Or.inl h
  · exact Or.inr ⟨fd, x, mode, hx, hfd, hav, hop, he⟩

/-- Reading before the descriptor is taken makes no difference. -/
theorem OpenOf.lift {d : Store} {x : Nat} {t s' : State} (hext : Extends s t)
    (h : OpenOf t d x s') : OpenOf s d x s' := by
  rcases h with ⟨hd, he⟩ | ⟨fd, mode, hx, hfd, hav, hop, he⟩
  · exact Or.inl ⟨hd, hext.trans he⟩
  · refine Or.inr ⟨fd, mode, hx, hfd, ?_, hop, (hext.setFdesc fd _).trans he⟩
    rw [← hext.fdesc]
    exact hav

/-- Setting the owner is all that happens to the disk. -/
theorem opened_edit {d : Store} {x v : Nat} (hx : x < 512) :
    Opened d (setIno d x inoUid v) x where
  imap_eq _ hj := imap_setIno hj
  bmap_eq _ hc := bmap_setIno hc
  ino_eq _ _ _ hf h := ino_setIno_frame hf (by decide) h
  blk_eq _ _ _ := block_setIno hx (by decide)

/-- Opening an inode takes a descriptor and sets its owner, or does nothing. -/
theorem openInode_spec {x mode pid : Nat} (hx : x < 512) :
    Holds AnyHalt (fun r => OpenOf s s.disk x r.2) (openInode x mode pid s) := by
  unfold openInode
  simp only
  by_cases hperm : inodeGet (getInode x s) (inodePtr x) inoMode &&& mode = 0
  · rw [if_pos hperm]
    exact Or.inl ⟨rfl, (Extends.refl s).getInode x⟩
  · rw [if_neg hperm]
    cases hfree : freeFdesc (getInode x s).fdescArray numFdescs 0 with
    | none => exact trivial
    | some fd =>
        obtain ⟨hlt, havail⟩ := freeFdesc_spec hfree
        have hsra : sra2 x = x / 4 := by
          unfold sra2
          rw [if_pos (by omega)]
        simp only [hsra]
        refine Or.inr ⟨fd, mode, hx, by omega, havail, ?_, ?_⟩
        · change Opened s.disk (writeInode (x / 4) _).disk x
          rw [writeInode_disk hx, flushed_inodeSet x _ (by decide), flushed_getInode hx]
          exact opened_edit hx
        · have hext : Extends s (writeInode (x / 4) (inodeSet (inodePtr x) inoUid pid
              (getInode x s))) := (((Extends.refl s).getInode x).inodeSet _ _ _).writeInode hx
          exact hext.setFdesc fd _

/-- The directories `do_fopen` searches. -/
def fopenVisits (path : Nat) (mem : Store) (s : State) : List Nat :=
  currentId s ::
    match searchDentry (currentId s) path iFile mem s with
    | .ok (x, t) => if x = minusOne then visits path mem t else []
    | .error _ => []

/-- The file is not in the current directory, and `do_touch` refuses to make
it. -/
def fopenRefused (path : Nat) (mem : Store) (s : State) : Bool :=
  match searchDentry (currentId s) path iFile mem s with
  | .ok (x, t) => x = minusOne && makeRefused iFile path mem t
  | .error _ => false

/-- The file is not in the current directory, and the path leads `do_touch`
nowhere. -/
def fopenLost (path : Nat) (mem : Store) (s : State) : Bool :=
  match searchDentry (currentId s) path iFile mem s with
  | .ok (x, t) => x = minusOne && walkFails path mem t
  | .error _ => false

/-- The inode `do_fopen` opens: the one an entry of the current directory names, a
new one, or, the path having led nowhere, whatever has number 0. -/
inductive FopenSource (path : Nat) (mem : Store) (s : State) (d : Store) (x : Nat) : Prop
  | found {l : Nat} (hd : d = s.disk)
      (hit : EntryHit (dirBlock s.disk (currentId s)) mem path iFile l)
      (hid : dentryInodeId (dirBlock s.disk (currentId s)) l = x)
  | made {p k b : Nat} (hp : IsDir s.disk p) (hm : Made s.disk d p k x b iFile)
  | lost (hd : d = s.disk) (h : fopenLost path mem s = true)

/-- `do_fopen` opens an inode that is found or made. -/
theorem doFopen_opens {mode pid : Nat} (hV : Volume s.disk)
    (hv : ∀ j ∈ fopenVisits path mem s, IsDir s.disk j) (hr : fopenRefused path mem s = false) :
    Holds AnyHalt (fun r => ∃ d x, FopenSource path mem s d x ∧ OpenOf s d x r.2.2)
      (doFopen path mode pid mem s) := by
  have hcwd : IsDir s.disk (currentId s) := hv _ (List.mem_cons_self)
  unfold doFopen
  refine (anyHalt (searchDentry_spec hcwd.1.1 (hV.dirsInRange _ hcwd))).bind_eq
    fun r hsearch hres => ?_
  obtain ⟨x, t⟩ := r
  obtain ⟨hhit, hdisk, hext⟩ := hres
  simp only at hhit hdisk hext ⊢
  by_cases hnone : x = minusOne
  · rw [if_pos hnone]
    have hvt : ∀ j ∈ visits path mem t, IsDir t.disk j := by
      intro j hj
      rw [hdisk]
      apply hv
      unfold fopenVisits
      rw [hsearch]
      simp only [if_pos hnone]
      exact List.mem_cons_of_mem _ hj
    have hnot : makeRefused iFile path mem t = false := by
      unfold fopenRefused at hr
      rw [hsearch] at hr
      simp only [hnone, decide_true, Bool.true_and] at hr
      exact hr
    have htouch : Holds AnyHalt (MakeEnd iFile path mem t) (doTouch path mem t) :=
      makePath_spec (by rw [hdisk]; exact hV) hvt (by decide)
    refine htouch.bind fun r hend => ?_
    obtain ⟨id, mem', u⟩ := r
    obtain ⟨hextu, hend⟩ := hend
    change Extends t u at hextu
    have hsource : FopenSource path mem s u.disk id ∧ id < 512 := by
      rcases hend with ⟨hsame, ⟨h0, hfails⟩ | ⟨-, hcon⟩⟩ | ⟨p, k, i, b, hp, hmade, hi, -⟩
      · change id = 0 at h0
        refine ⟨.lost (hsame.trans hdisk) ?_, by omega⟩
        unfold fopenLost
        rw [hsearch]
        simp only [hnone, decide_true, Bool.true_and]
        exact hfails
      · rw [hnot] at hcon
        cases hcon
      · have heq : id = i := hi.trans (if_neg (by decide))
        rw [hdisk] at hp hmade
        rw [heq]
        exact ⟨.made hp hmade, hmade.free.1⟩
    refine (openInode_spec hsource.2).bind fun q hq => ?_
    exact ⟨u.disk, id, hsource.1, (hq.lift hextu).lift hext⟩
  · rw [if_neg hnone]
    obtain ⟨l, hl, hid⟩ := hhit.resolve_left hnone
    have hx : x < 512 := hid ▸ hV.entries _ hcwd l hl.lt
    refine (openInode_spec hx).bind fun q hq => ?_
    rw [hdisk] at hq
    exact ⟨s.disk, x, .found rfl hl hid, hq.lift hext⟩

/-- What `do_fopen` leaves on the disk. -/
theorem doFopen_spec {mode pid : Nat} (hV : Volume s.disk)
    (hv : ∀ j ∈ fopenVisits path mem s, IsDir s.disk j) (hr : fopenRefused path mem s = false) :
    Holds AnyHalt
      (fun r => ∃ d, (d = s.disk ∨ ∃ p k i b, IsDir s.disk p ∧ Made s.disk d p k i b iFile) ∧
        OpenEnd s d r.2.2)
      (doFopen path mode pid mem s) := by
  refine (doFopen_opens hV hv hr).mono fun r hend => ?_
  obtain ⟨d, x, hsource, hopen⟩ := hend
  refine ⟨d, ?_, hopen.openEnd⟩
  cases hsource with
  | found hd hit hid => exact Or.inl hd
  | made hp hm => exact Or.inr ⟨_, _, x, _, hp, hm⟩
  | lost hd h => exact Or.inl hd

end Calls

end Fs
