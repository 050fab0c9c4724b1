import OslabRiscv.Fs.EmptyDirs

/-!
# Creation when a resource runs out

`do_mkdir` and `do_touch` take an inode, an entry and a block one after the other, and
`do_ln` counts the link before it looks for an entry.  The calls of `Calls` forget the state
when an assertion fails; here they come with the disk at that point (`stopsAt`), and
`creation_allOrNothing` says when a call that does not complete leaves the disk alone.
-/

namespace Fs

open ByteStore Outcome

variable {α β : Type}

/-- A step that writes to the disk only when nothing can stop it any more: where it stops, the
disk is as it was before. -/
def stopsAt (d : Store) (x : Except Halt α) : Except (Halt × Store) α :=
  x.mapError fun e => (e, d)

/-- Without the disk at the point where it stopped. -/
def forget (x : Except (Halt × Store) α) : Except Halt α := x.mapError Prod.fst

def makeInodeStops (dirId dir type : Nat) (mem : Store) (s : State) :
    Except (Halt × Store) (Nat × Nat × State) := do
  let (dentryId, s₁) ← stopsAt s.disk (allocInode s)
  let (dentryId, s₂) ← stopsAt s₁.disk (createDentry dirId dentryId dir type mem s₁)
  let (blockId, s₃) ← stopsAt s₂.disk (allocBlock s₂)
  let s := createInode dentryId blockId type oRdwr s₃
  .ok (dentryId, blockId, writeInode (dentryId / 4) s)

def makePathStops (type path : Nat) (mem : Store) (s : State) :
    Except (Halt × Store) (Nat × Store × State) := do
  let (target, mem, s) ← stopsAt s.disk (walk path mem s)
  match target with
  | none => .ok (0, mem, s)
  | some (dirId, dir) => do
    let illegal ← stopsAt s.disk (isNameIllegal mem dir)
    if illegal then .ok (minusOne, mem, s)
    else do
      let (found, s) ← stopsAt s.disk (searchDentry dirId dir type mem s)
      if found ≠ minusOne then .ok (minusOne, mem, s)
      else do
        let (dentryId, blockId, s) ← makeInodeStops dirId dir type mem s
        if type = iDir then .ok (0, mem, createDirBlock blockId dirId dentryId s)
        else .ok (dentryId, mem, createFileBlock blockId s)

def doLnStops (srcPath dstPath : Nat) (mem : Store) (s : State) :
    Except (Halt × Store) (Nat × Store × State) := do
  let (src, mem, s) ← stopsAt s.disk (walk srcPath mem s)
  match src with
  | none => .ok (0, mem, s)
  | some (srcDirId, srcDir) => do
    let (dst, mem, s) ← stopsAt s.disk (walk dstPath mem s)
    match dst with
    | none => .ok (0, mem, s)
    | some (dstDirId, dstDir) => do
      let (srcDentryId, s) ←
        stopsAt s.disk (searchDentry srcDirId srcDir (iDir ||| iFile) mem s)
      if srcDentryId = minusOne then .ok (minusOne, mem, s)
      else do
        let (dstDentryId, s) ← stopsAt s.disk (searchDentry dstDirId dstDir dLink mem s)
        if dstDentryId ≠ minusOne then .ok (minusOne, mem, s)
        else do
          let s := getInode srcDentryId s
          let s := inodeAdd (inodePtr srcDentryId) inoLinksCount 1 s
          let s := writeInode (srcDentryId / 4) s
          let (_, s) ← stopsAt s.disk (createDentry dstDirId srcDentryId dstDir dLink mem s)
          .ok (0, mem, s)

/-! ## The same calls -/

section Forget

/-- A step that can only stop where it started. -/
theorem forget_stopsAt {d : Store} {x : Except Halt α} {f : α → Except (Halt × Store) β}
    {g : α → Except Halt β} (h : ∀ a, forget (f a) = g a) :
    forget (stopsAt d x >>= f) = x >>= g := by
  cases x with
  | ok a => exact h a
  | error e => rfl

/-- Forgetting the disk goes through a sequence. -/
theorem forget_bind {x : Except (Halt × Store) α} {f : α → Except (Halt × Store) β}
    {g : α → Except Halt β} (h : ∀ a, forget (f a) = g a) :
    forget (x >>= f) = forget x >>= g := by
  cases x with
  | ok a => exact h a
  | error e => rfl

variable {s : State} {mem : Store} {path type : Nat}

/-- `make_inode` with the disk it stops at is `make_inode`. -/
theorem makeInodeStops_forget (p dir : Nat) :
    forget (makeInodeStops p dir type mem s) = makeInode p dir type mem s := by
  unfold makeInodeStops makeInode
  refine forget_stopsAt fun r => ?_
  refine forget_stopsAt fun r => ?_
  refine forget_stopsAt fun r => ?_
  rfl

/-- So are `do_mkdir` and `do_touch`. -/
theorem makePathStops_forget :
    forget (makePathStops type path mem s) = makePath type path mem s := by
  unfold makePathStops makePath
  refine forget_stopsAt fun r => ?_
  obtain ⟨target, mem', t⟩ := r
  cases target with
  | none => rfl
  | some q =>
      refine forget_stopsAt fun illegal => ?_
      cases illegal with
      | true => rfl
      | false =>
          refine forget_stopsAt fun r => ?_
          simp only
          by_cases hfound : r.1 ≠ minusOne
          · rw [if_pos hfound, if_pos hfound]
            rfl
          · rw [if_neg hfound, if_neg hfound]
            refine (forget_bind fun r => ?_).trans
              (congrArg (· >>= _) (makeInodeStops_forget q.1 q.2))
            by_cases hdir : type = iDir
            · simp only [if_pos hdir]
              rfl
            · simp only [if_neg hdir]
              rfl

/-- So is `do_ln`. -/
theorem doLnStops_forget (srcPath dstPath : Nat) :
    forget (doLnStops srcPath dstPath mem s) = doLn srcPath dstPath mem s := by
  unfold doLnStops doLn
  refine forget_stopsAt fun r => ?_
  obtain ⟨src, mem₁, t⟩ := r
  cases src with
  | none => rfl
  | some q =>
      refine forget_stopsAt fun r => ?_
      obtain ⟨dst, mem₂, u⟩ := r
      cases dst with
      | none => rfl
      | some p =>
          refine forget_stopsAt fun r => ?_
          simp only
          by_cases hnone : r.1 = minusOne
          · rw [if_pos hnone, if_pos hnone]
            rfl
          · rw [if_neg hnone, if_neg hnone]
            refine forget_stopsAt fun r => ?_
            by_cases hfound : r.1 ≠ minusOne
            · rw [if_pos hfound, if_pos hfound]
              rfl
            · rw [if_neg hfound, if_neg hfound]
              exact forget_stopsAt fun r => rfl

end Forget

/-! ## What a call leaves -/

/-- The maps, the inodes and the blocks of the directories are the same. -/
structure Unchanged (d d' : Store) : Prop where
  imap_eq : ∀ i, i < 512 → imap d' i = imap d i
  bmap_eq : ∀ b, b < 131072 → bmap d' b = bmap d b
  ino_eq : ∀ i f, i < 512 → f + 4 ≤ 128 → ino d' i f = ino d i f
  dir_eq : ∀ p, IsDir d p → ∀ y, y < 4096 → dirBlock d' p y = dirBlock d p y

theorem Unchanged.refl (d : Store) : Unchanged d d :=
  ⟨fun _ _ => rfl, fun _ _ => rfl, fun _ _ _ _ => rfl, fun _ _ _ _ => rfl⟩

/-- A disk that is the same is unchanged. -/
theorem Unchanged.of_eq {d d' : Store} (h : d' = d) : Unchanged d d' := by
  rw [h]
  exact .refl d

/-- A call that returns without having failed did what it is for (`Done` of the disk it
leaves); one that failed, or that an assertion stopped, changed nothing. -/
def AllOrNothing (d : Store) (Failed : Nat → Prop) (Done : Store → Prop) :
    Except (Halt × Store) (Nat × Store × State) → Prop
  | .ok r => (Failed r.1 → Unchanged d r.2.2.disk) ∧ (¬Failed r.1 → Done r.2.2.disk)
  | .error e => Unchanged d e.2

/-- `do_mkdir` and `do_touch` failed: they returned `-1`, or `0` for a path that leads
nowhere. -/
def MakeFailed (path : Nat) (mem : Store) (s : State) (ret : Nat) : Prop :=
  ret = minusOne ∨ walkFails path mem s = true

/-- `do_ln` failed: it returned `-1`, or `0` where one of the paths leads nowhere. -/
def LnFailed (srcPath dstPath : Nat) (mem : Store) (s : State) (ret : Nat) : Prop :=
  ret = minusOne ∨ lnFails srcPath dstPath mem s = true

/-- The inode has been made in some directory. -/
def MadeSomewhere (type : Nat) (d d' : Store) : Prop :=
  ∃ p k i b, IsDir d p ∧ Made d d' p k i b type

/-- The link has been made in some directory. -/
def LinkedSomewhere (d d' : Store) : Prop := ∃ p k x, IsDir d p ∧ Linked d d' p k x

/-- Where `do_mkdir` and `do_touch` make their inode, once nothing but a lack of room can stop
them: the directory, the name and the memory it is in. -/
def makeTarget (type path : Nat) (mem : Store) (s : State) : Option (Nat × Nat × Store) :=
  match walk path mem s with
  | .ok (some (p, dir), mem', t) =>
    match isNameIllegal mem' dir, searchDentry p dir type mem' t with
    | .ok false, .ok (x, _) => if x = minusOne then some (p, dir, mem') else none
    | _, _ => none
  | _ => none

/-- Where `do_ln` makes its entry. -/
def lnTarget (srcPath dstPath : Nat) (mem : Store) (s : State) : Option (Nat × Nat) :=
  match walk srcPath mem s with
  | .ok (some (q, srcDir), mem', t) =>
    match walk dstPath mem' t with
    | .ok (some (p, dstDir), mem'', u) =>
      match searchDentry q srcDir (iDir ||| iFile) mem'' u with
      | .ok (x, v) =>
        if x = minusOne then none
        else
          match searchDentry p dstDir dLink mem'' v with
          | .ok (y, _) => if y = minusOne then some (p, dstDir) else none
          | .error _ => none
      | .error _ => none
    | _ => none
  | _ => none

/-- Directory `p` has a dead entry. -/
def FreeSlot (d : Store) (p : Nat) : Prop := ∃ k, k < 128 ∧ dentryType (dirBlock d p) k = 0

/-- If there is an inode for what `do_mkdir` or `do_touch` makes, there are an entry and a
block as well.  The block has to be one of the first 4096: `alloc_block` goes through one page
of the map, though the volume has 131072 blocks. -/
def MakeRoom (type path : Nat) (mem : Store) (s : State) : Prop :=
  ∀ p dir m, makeTarget type path mem s = some (p, dir, m) →
    (∃ i, i < 512 ∧ imap s.disk i = 0) →
    FreeSlot s.disk p ∧ ∃ b, b < 4096 ∧ bmap s.disk b = 0

/-- There is an entry for the link. -/
def LnRoom (srcPath dstPath : Nat) (mem : Store) (s : State) : Prop :=
  ∀ p dir, lnTarget srcPath dstPath mem s = some (p, dir) → FreeSlot s.disk p ∧ dir ≠ 0

/-- A call that makes nothing needs no room. -/
theorem MakeRoom.of_none {s : State} {mem : Store} {path type : Nat}
    (h : makeTarget type path mem s = none) : MakeRoom type path mem s := by
  intro p dir m hsome
  rw [h] at hsome
  cases hsome

/-- A link that is not made needs none. -/
theorem LnRoom.of_none {s : State} {mem : Store} {srcPath dstPath : Nat}
    (h : lnTarget srcPath dstPath mem s = none) : LnRoom srcPath dstPath mem s := by
  intro p dir hsome
  rw [h] at hsome
  cases hsome

/-- Sequencing: a step may stop here, or the rest of the call follows. -/
theorem holds_stopsAt {E : Halt × Store → Prop} {R : β → Prop} {d : Store} {x : Except Halt α}
    {f : α → Except (Halt × Store) β} (he : ∀ e, x = .error e → E (e, d))
    (hf : ∀ a, x = .ok a → Holds E R (f a)) : Holds E R (stopsAt d x >>= f) := by
  cases x with
  | ok a => exact hf a rfl
  | error e => exact he e rfl

/-! ## Making an inode -/

section Make

variable {s : State} {mem : Store} {path type p dir : Nat}

/-- A component that is not the null pointer has a length that fits. -/
theorem ShortName.exists_length (h : ShortName mem dir) (h0 : dir ≠ 0) :
    ∃ n, strlen mem dir = .ok n ∧ n < dName := by
  obtain ⟨n, hn, hends⟩ := h.resolve_left h0
  exact ⟨n, strlen_name h0 hends hn, hn⟩

/-- With an inode to be had, the call stops for want of an entry or a block, and then the
inode is gone. -/
theorem makeInodeStops_spec (hp : IsDir s.disk p)
    (hcu : BlockUsed s.disk (ino s.disk p inoDirectBlock)) (hname : ShortName mem dir)
    (h0 : dir ≠ 0) :
    Holds
      (fun e => (e.2 = s.disk ∧ ∀ i, i < 512 → imap s.disk i ≠ 0) ∨
        ((∃ i, i < 512 ∧ imap s.disk i = 0 ∧ imap e.2 i = 1) ∧
          ¬(FreeSlot s.disk p ∧ ∃ b, b < 4096 ∧ bmap s.disk b = 0)))
      (fun _ => FreeSlot s.disk p ∧ ∃ b, b < 4096 ∧ bmap s.disk b = 0)
      (makeInodeStops p dir type mem s) := by
  unfold makeInodeStops
  have halloc := allocInode_spec s
  refine holds_stopsAt (fun e he => Or.inl ⟨rfl, ?_⟩) fun r hr => ?_
  · rw [he] at halloc
    exact halloc
  obtain ⟨i, s₁⟩ := r
  obtain ⟨hi, hfree, hdisk₁, -⟩ := halloc.of_ok hr
  simp only at hi hfree hdisk₁ ⊢
  have himap₁ : imap s₁.disk i = 1 := by
    rw [hdisk₁, imap_setImap, if_pos rfl]
  have hc₁ : ino s₁.disk p inoDirectBlock = ino s.disk p inoDirectBlock := by
    rw [hdisk₁, ino_setImap hi]
  have hblk₁ : ∀ e y, block s₁.disk e y = block s.disk e y := by
    intro e y
    rw [hdisk₁, block_setImap hi]
  have htype₁ : ∀ k, k < 128 → dentryType (block s₁.disk (ino s.disk p inoDirectBlock)) k =
      dentryType (dirBlock s.disk p) k := fun k hk => dentryType_congr (fun y _ => hblk₁ _ y) hk
  obtain ⟨n, hn, hlt⟩ := hname.exists_length h0
  have hcreate : Holds _ _ (createDentry p i dir type mem s₁) :=
    createDentry_spec hp.1.1 hc₁ hcu.1
  refine holds_stopsAt (fun e he => Or.inr ⟨⟨i, hi, hfree, himap₁⟩, ?_⟩) fun r hr => ?_
  · rw [he] at hcreate
    rintro ⟨⟨k, hk, hdead⟩, -⟩
    rcases hcreate with hlive | hlong
    · exact hlive k hk ((htype₁ k hk).trans hdead)
    · have := hlong n hn
      omega
  obtain ⟨i', s₂⟩ := r
  obtain ⟨-, k, m, hk, hdead, -, -, -, hdisk₂, -⟩ := hcreate.of_ok hr
  simp only at hdisk₂ ⊢
  have hslot : FreeSlot s.disk p := ⟨k, hk, (htype₁ k hk).symm.trans hdead⟩
  have himap₂ : imap s₂.disk i = 1 := by
    rw [hdisk₂, imap_setBlk hi, imap_bumpDir hi]
    exact himap₁
  have hbmap₂ : ∀ b, b < 4096 → bmap s₂.disk b = bmap s.disk b := by
    intro b hb
    rw [hdisk₂, bmap_setBlk (by omega), bmap_bumpDir (by omega), hdisk₁, bmap_setImap hi]
  have hblock := allocBlock_edit s₂
  refine holds_stopsAt (fun e he => Or.inr ⟨⟨i, hi, hfree, himap₂⟩, ?_⟩) fun r hr => ?_
  · rw [he] at hblock
    rintro ⟨-, b, hb, hz⟩
    exact hblock b hb ((hbmap₂ b hb).trans hz)
  obtain ⟨b, s₃⟩ := r
  obtain ⟨hb, hb0, -, -⟩ := hblock.of_ok hr
  exact ⟨hslot, b, hb, (hbmap₂ b hb).symm.trans hb0⟩

/-- `do_mkdir` and `do_touch` stop with the disk as it was, unless they found an inode but no
entry or no block for it. -/
theorem makePathStops_spec (hV : Volume s.disk) (hv : ∀ j ∈ visits path mem s, IsDir s.disk j) :
    Holds
      (fun e => (e.2 = s.disk ∧ MakeRoom type path mem s) ∨
        ((∃ i, i < 512 ∧ imap s.disk i = 0 ∧ imap e.2 i = 1) ∧ ¬MakeRoom type path mem s))
      (fun _ => MakeRoom type path mem s) (makePathStops type path mem s) := by
  unfold makePathStops
  have hwalk := walk_spec hV.dirsInRange hv
  refine holds_stopsAt (fun e he => Or.inl ⟨rfl, .of_none ?_⟩) fun r hr => ?_
  · unfold makeTarget
    rw [he]
  obtain ⟨target, mem', t⟩ := r
  obtain ⟨hdisk, -, htarget⟩ := hwalk.of_ok hr
  simp only at hdisk htarget ⊢
  cases target with
  | none =>
      refine .of_none ?_
      unfold makeTarget
      rw [hr]
  | some q =>
      obtain ⟨p, dir⟩ := q
      obtain ⟨hp, hname⟩ := htarget p dir rfl
      have hpt : IsDir t.disk p := by rw [hdisk]; exact hp
      have hsearch : Holds _ _ (searchDentry p dir type mem' t) :=
        searchDentry_spec hp.1.1 (hV.dirsInRange.mono hdisk p hpt)
      refine holds_stopsAt (fun e he => Or.inl ⟨hdisk, .of_none ?_⟩) fun illegal hill => ?_
      · unfold makeTarget
        simp only [hr, he]
      cases illegal with
      | true =>
          refine .of_none ?_
          unfold makeTarget
          simp only [hr, hill]
      | false =>
          refine holds_stopsAt (fun e he => Or.inl ⟨hdisk, .of_none ?_⟩) fun r hfound => ?_
          · unfold makeTarget
            simp only [hr, hill, he]
          obtain ⟨found, u⟩ := r
          obtain ⟨-, hdisku, -⟩ := hsearch.of_ok hfound
          simp only at hdisku ⊢
          rw [hdisk] at hdisku
          by_cases hnew : found ≠ minusOne
          · rw [if_pos hnew]
            refine .of_none ?_
            unfold makeTarget
            simp only [hr, hill, hfound, if_neg hnew]
          · rw [if_neg hnew]
            have htgt : makeTarget type path mem s = some (p, dir, mem') := by
              unfold makeTarget
              simp only [hr, hill, hfound, if_pos (not_not.mp hnew)]
            have h0 : dir ≠ 0 := by
              rintro rfl
              cases hill
            have hmake : Holds _ _ (makeInodeStops p dir type mem' u) :=
              makeInodeStops_spec (by rw [hdisku]; exact hp)
                (by rw [hdisku]; exact hV.dir_used hp) hname h0
            rw [hdisku] at hmake
            have hiff : MakeRoom type path mem s ↔ ((∃ i, i < 512 ∧ imap s.disk i = 0) →
                FreeSlot s.disk p ∧ ∃ b, b < 4096 ∧ bmap s.disk b = 0) := by
              constructor
              · exact fun h => h p dir mem' htgt
              · intro h p' dir' m' hsome
                rw [htgt] at hsome
                cases hsome
                exact h
            rw [hiff]
            refine (hmake.attempt fun e he => ?_).bind fun r hr => ?_
            · rcases he with ⟨heq, hfull⟩ | ⟨⟨i, hi, hz, hone⟩, hno⟩
              · refine Or.inl ⟨heq, ?_⟩
                rintro ⟨i, hi, hz⟩
                exact absurd hz (hfull i hi)
              · exact Or.inr ⟨⟨i, hi, hz, hone⟩, fun h => hno (h ⟨i, hi, hz⟩)⟩
            · by_cases hdir : type = iDir
              · rw [if_pos hdir]
                exact fun _ => hr
              · rw [if_neg hdir]
                exact fun _ => hr

/-- **All or nothing**, for `do_mkdir` and `do_touch`. -/
theorem makePath_allOrNothing (hV : Volume s.disk) (hv : ∀ j ∈ visits path mem s, IsDir s.disk j)
    (ht : type < 2 ^ 32) :
    AllOrNothing s.disk (MakeFailed path mem s) (MadeSomewhere type s.disk)
      (makePathStops type path mem s) ↔ MakeRoom type path mem s := by
  have hspec : Holds _ _ (makePathStops type path mem s) := makePathStops_spec hV hv
  have hforget : forget (makePathStops type path mem s) = makePath type path mem s :=
    makePathStops_forget
  cases hcall : makePathStops type path mem s with
  | ok r =>
      rw [hcall] at hspec hforget
      obtain ⟨-, hend⟩ := (makePath_spec hV hv ht).of_ok hforget.symm
      refine iff_of_true ?_ hspec
      rcases hend with ⟨hsame, hwhy⟩ | ⟨p, k, i, b, hp, hmade, hret, hkept⟩
      · refine ⟨fun _ => .of_eq hsame, fun hdone => (hdone ?_).elim⟩
        rcases hwhy with ⟨-, hfails⟩ | ⟨hret, -⟩
        · exact Or.inr hfails
        · exact Or.inl hret
      · refine ⟨fun hfailed => ?_, fun _ => ⟨p, k, i, b, hp, hmade⟩⟩
        rcases hfailed with hminus | hfails
        · -- neither 0 nor the number of an inode is -1
          have hi := hmade.free.1
          rw [hminus] at hret
          unfold minusOne at hret
          split_ifs at hret
          omega
        · rw [hkept] at hfails
          cases hfails
  | error e =>
      rw [hcall] at hspec
      rcases hspec with ⟨hsame, hroom⟩ | ⟨⟨i, hi, hz, hone⟩, hno⟩
      · exact iff_of_true (.of_eq hsame) hroom
      · refine iff_of_false (fun h => ?_) hno
        have hsame : imap e.2 i = imap s.disk i := h.imap_eq i hi
        rw [hone, hz] at hsame
        exact absurd hsame (by decide)

end Make

/-! ## Making a link -/

section Ln

variable {s : State} {mem : Store} {srcPath dstPath : Nat}

/-- The link is counted before an entry is looked for. -/
theorem linkEntryStops {w y : State} {x p dir : Nat} {m : Store} (hx : x < 512)
    (hp : IsDir w.disk p) (hlt : ino w.disk p inoDirectBlock < 131072)
    (hname : ShortName m dir) (hy : y.disk = setIno w.disk x inoLinksCount
      ((ino w.disk x inoLinksCount + 1) % 2 ^ 32)) :
    Holds
      (fun e => (∃ j, j < 512 ∧ ino e.2 j inoLinksCount ≠ ino w.disk j inoLinksCount) ∧
        ¬(FreeSlot w.disk p ∧ dir ≠ 0))
      (fun _ => FreeSlot w.disk p ∧ dir ≠ 0)
      (stopsAt y.disk (createDentry p x dir dLink m y)) := by
  have hcy : ino y.disk p inoDirectBlock = ino w.disk p inoDirectBlock := by
    rw [hy]
    exact ino_setIno_frame (by decide) (by decide) (Or.inr (Or.inr (by decide)))
  have hblk : ∀ e z, block y.disk e z = block w.disk e z := by
    intro e z
    rw [hy, block_setIno hx (by decide)]
  have htype : ∀ k, k < 128 → dentryType (block y.disk (ino w.disk p inoDirectBlock)) k =
      dentryType (dirBlock w.disk p) k := fun k hk => dentryType_congr (fun z _ => hblk _ z) hk
  have hcreate : Holds _ _ (createDentry p x dir dLink m y) :=
    createDentry_spec hp.1.1 hcy hlt
  unfold stopsAt
  refine (hcreate.mono ?_).mapError ?_
  · rintro r ⟨-, k, n, hk, hdead, -, hlen, -⟩
    refine ⟨⟨k, hk, (htype k hk).symm.trans hdead⟩, ?_⟩
    rintro rfl
    cases hlen
  · intro e he
    refine ⟨⟨x, hx, ?_⟩, ?_⟩
    · change ino y.disk x inoLinksCount ≠ _
      rw [hy, ino_setIno_self]
      have hlt : ino w.disk x inoLinksCount < 2 ^ 32 := rd32_lt _ _
      omega
    · rintro ⟨⟨k, hk, hdead⟩, h0⟩
      obtain ⟨n, hn, hlt⟩ := hname.exists_length h0
      rcases he with hlive | hlong
      · exact hlive k hk ((htype k hk).trans hdead)
      · have := hlong n hn
        omega

/-- `do_ln` stops with the disk as it was, unless it came to the entry and there was none. -/
theorem doLnStops_spec (hV : Volume s.disk)
    (hv : ∀ j ∈ lnVisits srcPath dstPath mem s, IsDir s.disk j) :
    Holds
      (fun e => (e.2 = s.disk ∧ LnRoom srcPath dstPath mem s) ∨
        ((∃ j, j < 512 ∧ ino e.2 j inoLinksCount ≠ ino s.disk j inoLinksCount) ∧
          ¬LnRoom srcPath dstPath mem s))
      (fun _ => LnRoom srcPath dstPath mem s) (doLnStops srcPath dstPath mem s) := by
  unfold doLnStops
  have hvs : ∀ j ∈ visits srcPath mem s, IsDir s.disk j :=
    fun j hj => hv j (List.mem_append_left _ hj)
  have hwalk := walk_spec hV.dirsInRange hvs
  refine holds_stopsAt (fun e he => Or.inl ⟨rfl, .of_none ?_⟩) fun r hr => ?_
  · unfold lnTarget
    rw [he]
  obtain ⟨src, mem₁, t⟩ := r
  obtain ⟨hdiskt, -, hsrc⟩ := hwalk.of_ok hr
  simp only at hdiskt hsrc ⊢
  cases src with
  | none =>
      refine .of_none ?_
      unfold lnTarget
      rw [hr]
  | some q =>
      obtain ⟨q, srcDir⟩ := q
      obtain ⟨hq, -⟩ := hsrc q srcDir rfl
      have hvd : ∀ j ∈ visits dstPath mem₁ t, IsDir t.disk j := by
        intro j hj
        rw [hdiskt]
        apply hv
        unfold lnVisits
        rw [hr]
        exact List.mem_append_right _ hj
      have hwalk' := walk_spec (hV.dirsInRange.mono hdiskt) hvd
      refine holds_stopsAt (fun e he => Or.inl ⟨hdiskt, .of_none ?_⟩) fun r hr' => ?_
      · unfold lnTarget
        simp only [hr, he]
      obtain ⟨dst, mem₂, u⟩ := r
      obtain ⟨hdisku, -, hdst⟩ := hwalk'.of_ok hr'
      simp only at hdisku hdst ⊢
      rw [hdiskt] at hdisku hdst
      cases dst with
      | none =>
          refine .of_none ?_
          unfold lnTarget
          simp only [hr, hr']
      | some p =>
          obtain ⟨p, dstDir⟩ := p
          obtain ⟨hp, hname⟩ := hdst p dstDir rfl
          have hqu : IsDir u.disk q := by rw [hdisku]; exact hq
          have hsearch : Holds _ _ (searchDentry q srcDir (iDir ||| iFile) mem₂ u) :=
            searchDentry_spec hq.1.1 (hV.dirsInRange.mono hdisku q hqu)
          refine holds_stopsAt (fun e he => Or.inl ⟨hdisku, .of_none ?_⟩) fun r hx => ?_
          · unfold lnTarget
            simp only [hr, hr', he]
          obtain ⟨x, v⟩ := r
          obtain ⟨hhit, hdiskv, -⟩ := hsearch.of_ok hx
          simp only at hhit hdiskv ⊢
          rw [hdisku] at hdiskv hhit
          by_cases hnone : x = minusOne
          · rw [if_pos hnone]
            refine .of_none ?_
            unfold lnTarget
            simp only [hr, hr', hx, if_pos hnone]
          · rw [if_neg hnone]
            obtain ⟨l, hl, hid⟩ := hhit.resolve_left hnone
            have hx512 : x < 512 := hid ▸ hV.entries q hq l hl.lt
            have hpv : IsDir v.disk p := by rw [hdiskv]; exact hp
            have hsearch' : Holds _ _ (searchDentry p dstDir dLink mem₂ v) :=
              searchDentry_spec hp.1.1 (hV.dirsInRange.mono hdiskv p hpv)
            refine holds_stopsAt (fun e he => Or.inl ⟨hdiskv, .of_none ?_⟩) fun r hy => ?_
            · unfold lnTarget
              simp only [hr, hr', hx, if_neg hnone, he]
            obtain ⟨found, w⟩ := r
            obtain ⟨-, hdiskw, -⟩ := hsearch'.of_ok hy
            simp only at hdiskw ⊢
            rw [hdiskv] at hdiskw
            by_cases hfound : found ≠ minusOne
            · rw [if_pos hfound]
              refine .of_none ?_
              unfold lnTarget
              simp only [hr, hr', hx, if_neg hnone, hy, if_neg hfound]
            · rw [if_neg hfound]
              have htgt : lnTarget srcPath dstPath mem s = some (p, dstDir) := by
                unfold lnTarget
                simp only [hr, hr', hx, if_neg hnone, hy, if_pos (not_not.mp hfound)]
              have hiff : LnRoom srcPath dstPath mem s ↔ FreeSlot s.disk p ∧ dstDir ≠ 0 := by
                constructor
                · exact fun h => h p dstDir htgt
                · intro h p' dir' hsome
                  rw [htgt] at hsome
                  cases hsome
                  exact h
              rw [hiff]
              obtain ⟨y, hydef⟩ : ∃ y, y = writeInode (x / 4) (inodeAdd (inodePtr x)
                inoLinksCount 1 (getInode x w)) := ⟨_, rfl⟩
              have hdisky : y.disk = setIno w.disk x inoLinksCount
                  ((ino w.disk x inoLinksCount + 1) % 2 ^ 32) := by
                rw [hydef, writeInode_disk hx512, flushed_inodeAdd _ (by decide),
                  flushed_getInode hx512]
              have hstep := linkEntryStops hx512 (by rw [hdiskw]; exact hp)
                (by rw [hdiskw]; exact (hV.dir_used hp).1) hname hdisky
              rw [hdiskw] at hstep
              rw [← hydef]
              exact (hstep.attempt fun e he => Or.inr he).bind fun r hroom => hroom

/-- **All or nothing**, for `do_ln`. -/
theorem doLn_allOrNothing (hV : Volume s.disk)
    (hv : ∀ j ∈ lnVisits srcPath dstPath mem s, IsDir s.disk j) :
    AllOrNothing s.disk (LnFailed srcPath dstPath mem s) (LinkedSomewhere s.disk)
      (doLnStops srcPath dstPath mem s) ↔ LnRoom srcPath dstPath mem s := by
  have hspec := doLnStops_spec hV hv
  have hforget : forget (doLnStops srcPath dstPath mem s) = doLn srcPath dstPath mem s :=
    doLnStops_forget srcPath dstPath
  cases hcall : doLnStops srcPath dstPath mem s with
  | ok r =>
      rw [hcall] at hspec hforget
      obtain ⟨-, hend⟩ := (doLn_spec hV hv).of_ok hforget.symm
      refine iff_of_true ?_ hspec
      rcases hend with ⟨hsame, hwhy⟩ | ⟨p, k, q, l, x, hp, -, -, -, -, -, hlinked, -, hret, hkept⟩
      · exact ⟨fun _ => .of_eq hsame, fun hdone => (hdone hwhy).elim⟩
      · refine ⟨fun hfailed => ?_, fun _ => ⟨p, k, x, hp, hlinked⟩⟩
        rcases hfailed with hminus | hfails
        · rw [hminus] at hret
          exact absurd hret (by decide)
        · rw [hkept] at hfails
          cases hfails
  | error e =>
      rw [hcall] at hspec
      rcases hspec with ⟨hsame, hroom⟩ | ⟨⟨j, hj, hne⟩, hno⟩
      · exact iff_of_true (.of_eq hsame) hroom
      · exact iff_of_false (fun h => hne (h.ino_eq j inoLinksCount hj (by decide))) hno

end Ln

/-- **Creation is all or nothing** exactly when the inode that there is comes with an entry and
a block, and the link with an entry. -/
theorem creation_allOrNothing {s : State} {mem : Store} {path srcPath dstPath : Nat}
    (hV : Volume s.disk) (hv : ∀ j ∈ visits path mem s, IsDir s.disk j)
    (hl : ∀ j ∈ lnVisits srcPath dstPath mem s, IsDir s.disk j) :
    (forget (makePathStops iDir path mem s) = doMkdir path mem s ∧
        (AllOrNothing s.disk (MakeFailed path mem s) (MadeSomewhere iDir s.disk)
          (makePathStops iDir path mem s) ↔ MakeRoom iDir path mem s)) ∧
      (forget (makePathStops iFile path mem s) = doTouch path mem s ∧
        (AllOrNothing s.disk (MakeFailed path mem s) (MadeSomewhere iFile s.disk)
          (makePathStops iFile path mem s) ↔ MakeRoom iFile path mem s)) ∧
      (forget (doLnStops srcPath dstPath mem s) = doLn srcPath dstPath mem s ∧
        (AllOrNothing s.disk (LnFailed srcPath dstPath mem s) (LinkedSomewhere s.disk)
          (doLnStops srcPath dstPath mem s) ↔ LnRoom srcPath dstPath mem s)) :=
  ⟨⟨makePathStops_forget, makePath_allOrNothing hV hv (by decide)⟩,
    ⟨makePathStops_forget, makePath_allOrNothing hV hv (by decide)⟩,
    doLnStops_forget srcPath dstPath, doLn_allOrNothing hV hl⟩

/-! ## A directory without a dead entry -/

section OneName

variable {s : State} {mem : Store} {name n type : Nat}

/-- A path of one name is looked up in the current directory only. -/
theorem visits_oneName (h : OneName mem name n) : ∀ j ∈ visits name mem s, j = currentId s := by
  intro j hj
  obtain ⟨k, hk, -⟩ := addressSpace_succ
  unfold visits at hj
  rw [getDir_end h.ne h.run h.fit h.ends] at hj
  simp only at hj
  rw [if_neg h.ne, hk] at hj
  unfold walkVisits at hj
  rw [if_neg h.no_subdir] at hj
  exact List.mem_singleton.mp hj

/-- An allowed name that no entry has is to be made in the current directory. -/
theorem makeTarget_oneName (h : OneName mem name n) (hT : Tree s.disk)
    (hcwd : IsDir s.disk (currentId s)) (hfresh : Fresh s mem name n type) :
    makeTarget type name mem s = some (currentId s, name, mem) := by
  obtain ⟨illegal, hill, hiff⟩ := isNameIllegal_name h.ne h.string h.fit
  obtain ⟨id, hsearch, hfinds⟩ := searchDentry_name type hcwd.1.1
    (hT.volume.dir_used hcwd).1 (hT.count _ hcwd) h.ne h.string h.fit
  obtain rfl : illegal = false := hiff.mpr hfresh.1
  rcases hfinds with ⟨k, hk, hit, -⟩ | ⟨-, hid⟩
  · exact absurd hit (hfresh.2 k hk)
  · unfold makeTarget
    simp only [walk_oneName h, hill, hsearch, if_pos hid]

end OneName

/-- The byte that names entry `k`. -/
def oneByte (k : Nat) : UInt8 := UInt8.ofNat (k + 126)

/-- The names of the entries are not `a`. -/
theorem oneByte_ne {k : Nat} (hk : k < 128) : oneByte k ≠ 97 := by
  intro heq
  have h := congrArg UInt8.toNat heq
  unfold oneByte at h
  rw [UInt8.toNat_ofNat'] at h
  have h97 : (97 : UInt8).toNat = 97 := rfl
  omega

/-- A link for `.` in entry `k` of the root, as `do_ln` makes it. -/
def rootLinked (d : Store) (k : Nat) : Store :=
  setBlk (bumpDir (setIno d 0 inoLinksCount ((ino d 0 inoLinksCount + 1) % 2 ^ 32)) 0 dLink)
    (ino d 0 inoDirectBlock)
    (addEntry (block (setIno d 0 inoLinksCount ((ino d 0 inoLinksCount + 1) % 2 ^ 32))
      (ino d 0 inoDirectBlock)) k 0 dLink (fun _ => oneByte k) 100 1)

/-- A fresh volume with `n` links to the root. -/
def crowded : Nat → Store
  | 0 => freshState.disk
  | n + 1 => rootLinked (crowded n) (n + 2)

structure Crowded (d : Store) (n : Nat) : Prop where
  tree : Tree d
  live : ∀ k, k < n + 2 → entType d 0 k ≠ 0
  dead : ∀ k, n + 2 ≤ k → k < 128 → entType d 0 k = 0
  unnamed : ∀ k, k < 128 → ¬Hit (dirBlock d 0) memA 100 1 iDir k
  free : imap d 1 = 0

/-- One link more in a crowded volume. -/
theorem Crowded.next {d : Store} {n : Nat} (h : Crowded d n) (hn : n + 2 < 128) :
    Crowded (rootLinked d (n + 2)) (n + 1) := by
  have hroot := h.tree.volume.root
  have hl : Linked d (rootLinked d (n + 2)) 0 (n + 2) 0 :=
    linked_edit hroot.1.1 rfl (by decide) hn (h.dead _ (Nat.le_refl _) hn) h.live (by decide)
  have he := hl.slotEdit h.tree.volume hroot
  have htype : entType (rootLinked d (n + 2)) 0 (n + 2) = dLink := hl.entry.entryType
  refine ⟨h.tree.linked hroot hroot.1 hl, fun k hk => ?_, fun k hk hk' => ?_, fun k hk hit => ?_, ?_⟩
  · by_cases hkn : k = n + 2
    · rw [hkn, htype]
      decide
    · rw [(he.ent hroot (by omega) fun _ => hkn).1]
      exact h.live k (by omega)
  · rw [(he.ent hroot hk' fun _ => by omega).1]
    exact h.dead k (by omega) hk'
  · by_cases hkn : k = n + 2
    · subst hkn
      have hname : dirBlock (rootLinked d (n + 2)) 0 (dentryName (n + 2) + 0) = 97 :=
        hit.2 0 (by decide)
      have hblock : ino (rootLinked d (n + 2)) 0 inoDirectBlock = ino d 0 inoDirectBlock :=
        hl.ino_eq 0 _ (by decide) (by decide) (Or.inl notCount_directBlock)
      unfold dirBlock at hname
      rw [hblock] at hname
      unfold rootLinked at hname
      rw [block_setBlk_self (by unfold dentryName; omega), addEntry_name (by decide),
        if_pos (by decide)] at hname
      exact oneByte_ne hn hname
    · refine h.unnamed k hk ⟨?_, fun m hm => ?_⟩
      · have hbits : entType (rootLinked d (n + 2)) 0 k &&& iDir ≠ 0 := hit.1
        rw [(he.ent hroot hk fun _ => hkn).1] at hbits
        exact hbits
      · rw [← hit.2 m hm]
        unfold dentryName
        exact (hl.entry.other _ (by omega) (by omega)).symm
  · rw [hl.imap_eq 1 (by decide)]
    exact h.free

/-- What is in a volume with `n` links, by induction on `n`. -/
theorem crowded_spec {n : Nat} (hn : n + 2 ≤ 128) : Crowded (crowded n) n := by
  induction n with
  | zero =>
      obtain ⟨t, ht⟩ := freshState_formatted
      have hfresh := (freshState_fresh iDir).2
      have hcwd : currentId freshState = 0 := ht.cwd
      rw [hcwd] at hfresh
      have htype : ∀ k, k < 128 → entType freshState.disk 0 k = if k < 2 then iDir else 0 := by
        intro k hk
        rw [ht.disk]
        exact entType_formatted hk
      refine ⟨freshState_filed.tree, fun k hk => ?_, fun k hk hk' => ?_, hfresh, ?_⟩
      · change entType freshState.disk 0 k ≠ 0
        rw [htype k (by omega), if_pos (by omega)]
        decide
      · change entType freshState.disk 0 k = 0
        rw [htype k hk', if_neg (by omega)]
      · change imap freshState.disk 1 = 0
        rw [ht.disk, imap_formatted (by decide), if_neg (by decide)]
  | succ n ih => exact (ih (by omega)).next (by omega)

/-- A state on such a volume. -/
def crowdedState (n : Nat) : State := { freshState with disk := crowded n }

theorem crowdedState_disk (n : Nat) : (crowdedState n).disk = crowded n := by
  simp only [crowdedState]

theorem crowdedState_cwd (n : Nat) : currentId (crowdedState n) = 0 := by
  obtain ⟨t, ht⟩ := freshState_formatted
  have hfresh : currentId freshState = 0 := ht.cwd
  have hcur : (crowdedState n).currentInode = freshState.currentInode := by
    simp only [crowdedState]
  unfold currentId at hfresh ⊢
  rw [hcur]
  exact hfresh

/-- Without a dead entry in the root, `do_mkdir` takes an inode and then stops. -/
theorem crowded_stops {s : State} {n : Nat} (hs : Crowded s.disk n) (hn : n + 2 = 128)
    (hcwd : currentId s = 0) :
    ¬AllOrNothing s.disk (MakeFailed 100 memA s) (MadeSomewhere iDir s.disk)
      (makePathStops iDir 100 memA s) := by
  have hroot : IsDir s.disk (currentId s) := by
    rw [hcwd]
    exact hs.tree.volume.root
  have hfresh : Fresh s memA 100 1 iDir := by
    refine ⟨(freshState_fresh iDir).1, ?_⟩
    rw [hcwd]
    exact hs.unnamed
  have hv : ∀ j ∈ visits 100 memA s, IsDir s.disk j := by
    intro j hj
    rw [visits_oneName memA_oneName j hj]
    exact hroot
  intro hall
  have hroom := (makePath_allOrNothing hs.tree.volume hv (by decide)).mp hall
  obtain ⟨⟨k, hk, hdead⟩, -⟩ := hroom _ _ _ (makeTarget_oneName memA_oneName hs.tree hroot hfresh)
    ⟨1, by decide, hs.free⟩
  rw [hcwd] at hdead
  exact hs.live k (by omega) hdead

/-- With 126 links to the root in the root there is an inode for `do_mkdir` but no entry. -/
theorem creation_not_allOrNothing :
    Tree (crowdedState 126).disk ∧ ¬AllOrNothing (crowdedState 126).disk
      (MakeFailed 100 memA (crowdedState 126)) (MadeSomewhere iDir (crowdedState 126).disk)
      (makePathStops iDir 100 memA (crowdedState 126)) := by
  have hc : Crowded (crowdedState 126).disk 126 := by
    rw [crowdedState_disk]
    exact crowded_spec (by decide)
  exact ⟨hc.tree, crowded_stops hc rfl (crowdedState_cwd 126)⟩

/-- In a volume just formatted there is room for all three. -/
theorem creation_allOrNothing_a :
    (forget (makePathStops iDir 100 memA freshState) = doMkdir 100 memA freshState ∧
        (AllOrNothing freshState.disk (MakeFailed 100 memA freshState)
          (MadeSomewhere iDir freshState.disk)
          (makePathStops iDir 100 memA freshState) ↔ MakeRoom iDir 100 memA freshState)) ∧
      (forget (makePathStops iFile 100 memA freshState) = doTouch 100 memA freshState ∧
        (AllOrNothing freshState.disk (MakeFailed 100 memA freshState)
          (MadeSomewhere iFile freshState.disk)
          (makePathStops iFile 100 memA freshState) ↔ MakeRoom iFile 100 memA freshState)) ∧
      (forget (doLnStops 100 100 memA freshState) = doLn 100 100 memA freshState ∧
        (AllOrNothing freshState.disk (LnFailed 100 100 memA freshState)
          (LinkedSomewhere freshState.disk)
          (doLnStops 100 100 memA freshState) ↔ LnRoom 100 100 memA freshState)) := by
  have hroot := freshState_vacant.cwd
  have hvisits : ∀ j ∈ visits 100 memA freshState, IsDir freshState.disk j := by
    intro j hj
    rw [visits_oneName memA_oneName j hj]
    exact hroot
  have hlvisits : ∀ j ∈ lnVisits 100 100 memA freshState, IsDir freshState.disk j := by
    intro j hj
    unfold lnVisits at hj
    rw [walk_oneName memA_oneName] at hj
    rcases List.mem_append.mp hj with hj | hj
    · exact hvisits j hj
    · exact hvisits j hj
  exact creation_allOrNothing freshState_filed.tree.volume hvisits hlvisits

end Fs
