import OslabRiscv.Fs.Exhaustion

/-!
# What `do_fopen` opens

`do_fopen` looks the whole path up as a name in the current directory, hands it to `do_touch`
when it is not there, and takes whatever number comes back for an inode: that of a new file,
`0` when the path leads nowhere, `-1` when `do_touch` refuses.  `fopen_opens_named` says when
the descriptor is one for the named file.
-/

namespace Fs

open ByteStore Outcome

variable {s t u : State} {mem : Store} {path mode pid x : Nat}

/-- The mode of the inode with number `x`, where `get_inode` looks for it. -/
def modeAt (d : Store) (x : Nat) : Nat :=
  rd32 d (512 * inodeSector (x / 4) + inodePtr x + inoMode)

theorem modeAt_ino {d : Store} {x : Nat} (hx : x < 512) : modeAt d x = ino d x inoMode := by
  have haddr : 512 * inodeSector (x / 4) + inodePtr x = inoAddr x := by
    rw [inodeSector_addr hx]
    unfold inodePtr inoAddr
    omega
  unfold modeAt ino
  rw [haddr]

theorem inodeGet_mode (x : Nat) (s : State) :
    inodeGet (getInode x s) (inodePtr x) inoMode = modeAt s.disk x := by
  have hp := inodePtr_lt x
  have hread := rd32_blit_add s.sctBuffer s.disk (a := 0) (b := 512 * inodeSector (x / 4))
    (n := 512) (k := inodePtr x + inoMode) (by unfold inoMode; omega)
  rw [Nat.zero_add, ← Nat.add_assoc] at hread
  exact hread

/-! ## A descriptor -/

/-- Where no descriptor is found all are in use. -/
theorem freeFdesc_none {a : Nat → Fdesc} {n i k : Nat} (h : freeFdesc a n i = none) (hlo : i ≤ k)
    (hhi : k < i + n) : (a k).status ≠ fAvailable := by
  induction n generalizing i with
  | zero => omega
  | succ n ih =>
      unfold freeFdesc at h
      by_cases hs : (a i).status = fAvailable
      · rw [if_pos hs] at h
        cases h
      · rw [if_neg hs] at h
        by_cases hik : i = k
        · exact hik ▸ hs
        · exact ih h (by omega) (by omega)

/-- A descriptor is free. -/
def FreeFdesc (s : State) : Prop := ∃ fd, fd < numFdescs ∧ (s.fdescArray fd).status = fAvailable

/-- The second half of `do_fopen` refuses, or takes a descriptor. -/
theorem openInode_cases (hfree : FreeFdesc s) (x mode pid : Nat) :
    (modeAt s.disk x &&& mode = 0 ∧ openInode x mode pid s = .ok (minusOne, getInode x s)) ∨
      (modeAt s.disk x &&& mode ≠ 0 ∧ ∃ fd s', fd < numFdescs ∧
        openInode x mode pid s = .ok (fd, s') ∧ (s'.fdescArray fd).inodeId = x ∧
        (x < 512 → Opened s.disk s'.disk x)) := by
  unfold openInode
  simp only [inodeGet_mode]
  by_cases hperm : modeAt s.disk x &&& mode = 0
  · rw [if_pos hperm]
    exact Or.inl ⟨hperm, rfl⟩
  · rw [if_neg hperm]
    refine Or.inr ⟨hperm, ?_⟩
    cases hfd : freeFdesc (getInode x s).fdescArray numFdescs 0 with
    | none =>
        obtain ⟨fd, hlt, hav⟩ := hfree
        exact absurd hav (freeFdesc_none hfd (Nat.zero_le fd) (by omega))
    | some fd =>
        have hlt := (freeFdesc_spec hfd).1
        refine ⟨fd, _, by omega, rfl, ?_, fun hx => ?_⟩
        · rw [setFdesc_fdescArray_self]
        · have hsra : sra2 x = x / 4 := by
            unfold sra2
            rw [if_pos (by omega)]
          change Opened s.disk (writeInode (sra2 x) _).disk x
          rw [hsra, writeInode_disk hx, flushed_inodeSet x _ (by decide), flushed_getInode hx]
          exact opened_edit hx

/-! ## What `do_touch` returns -/

/-- A lookup of `do_mkdir` or `do_touch` stops: the last component is the null pointer, or a
string does not end. -/
def makeStops (type path : Nat) (mem : Store) (s : State) : Bool :=
  match walk path mem s with
  | .error _ => true
  | .ok (none, _, _) => false
  | .ok (some (p, dir), mem', t) =>
    match isNameIllegal mem' dir, searchDentry p dir type mem' t with
    | .ok true, _ => false
    | .ok false, .ok _ => false
    | _, _ => true

/-- The ways `do_mkdir` and `do_touch` go: they stop, the path leads nowhere, they refuse, or they
come to make an inode. -/
inductive MakeWay (type path : Nat) (mem : Store) (s : State) : Prop
  | stopped (e : Halt) (ret : makePath type path mem s = .error e)
      (stops : makeStops type path mem s = true)
  | lost (m : Store) (t : State) (ret : makePath type path mem s = .ok (0, m, t))
      (reads : Reads s t) (runs : makeStops type path mem s = false)
      (fails : walkFails path mem s = true) (free : makeRefused type path mem s = false)
      (target : makeTarget type path mem s = none)
  | refused (m : Store) (t : State) (ret : makePath type path mem s = .ok (minusOne, m, t))
      (reads : Reads s t) (runs : makeStops type path mem s = false)
      (kept : walkFails path mem s = false) (refuses : makeRefused type path mem s = true)
      (target : makeTarget type path mem s = none)
  | goes (p dir : Nat) (m : Store) (t u : State) (walks : walk path mem s = .ok (some (p, dir), m, t))
      (search : searchDentry p dir type m t = .ok (minusOne, u))
      (ret : makePath type path mem s = makeInode p dir type m u >>= fun q =>
        if type = iDir then .ok (0, m, createDirBlock q.2.1 p q.1 q.2.2)
        else .ok (q.1, m, createFileBlock q.2.1 q.2.2))
      (reads : Reads s u) (runs : makeStops type path mem s = false)
      (kept : walkFails path mem s = false) (free : makeRefused type path mem s = false)
      (target : makeTarget type path mem s = some (p, dir, m))

/-- The ways in which `do_touch` goes. -/
theorem makePath_way (type path : Nat) (mem : Store) (s : State) : MakeWay type path mem s := by
  have hwalks := walk_reads path mem s
  cases hwalk : walk path mem s with
  | error e =>
      refine .stopped e ?_ ?_
      · unfold makePath
        rw [hwalk]
        rfl
      · simp only [makeStops, hwalk]
  | ok r =>
      obtain ⟨target, m, t⟩ := r
      have hreads : Reads s t := hwalks.of_ok hwalk
      cases target with
      | none =>
          refine .lost m t ?_ hreads ?_ ?_ ?_ ?_
          · unfold makePath
            rw [hwalk]
            rfl
          · simp only [makeStops, hwalk]
          · simp only [walkFails, hwalk]
          · simp only [makeRefused, hwalk]
          · simp only [makeTarget, hwalk]
      | some q =>
          obtain ⟨p, dir⟩ := q
          have hkept : walkFails path mem s = false := by simp only [walkFails, hwalk]
          have hret : makePath type path mem s = isNameIllegal m dir >>= fun illegal =>
              if illegal then .ok (minusOne, m, t)
              else searchDentry p dir type m t >>= fun r =>
                if r.1 ≠ minusOne then .ok (minusOne, m, r.2)
                else makeInode p dir type m r.2 >>= fun q =>
                  if type = iDir then .ok (0, m, createDirBlock q.2.1 p q.1 q.2.2)
                  else .ok (q.1, m, createFileBlock q.2.1 q.2.2) := by
            unfold makePath
            rw [hwalk]
            rfl
          cases hill : isNameIllegal m dir with
          | error e =>
              rw [hill] at hret
              refine .stopped e hret ?_
              simp only [makeStops, hwalk, hill]
          | ok illegal =>
              rw [hill] at hret
              cases illegal with
              | true =>
                  refine .refused m t hret hreads ?_ hkept ?_ ?_
                  · simp only [makeStops, hwalk, hill]
                  · simp only [makeRefused, hwalk, hill]
                  · simp only [makeTarget, hwalk, hill]
              | false =>
                  change _ = searchDentry p dir type m t >>= _ at hret
                  have hsearches := searchDentry_reads p dir type m t
                  cases hsearch : searchDentry p dir type m t with
                  | error e =>
                      rw [hsearch] at hret
                      refine .stopped e hret ?_
                      simp only [makeStops, hwalk, hill, hsearch]
                  | ok r =>
                      obtain ⟨y, u⟩ := r
                      have hreadsu : Reads s u := hreads.trans (hsearches.of_ok hsearch)
                      have hruns : makeStops type path mem s = false := by
                        simp only [makeStops, hwalk, hill, hsearch]
                      rw [hsearch] at hret
                      change _ = (if y ≠ minusOne then _ else _) at hret
                      by_cases hy : y = minusOne
                      · subst hy
                        rw [if_neg (not_not.mpr rfl)] at hret
                        refine .goes p dir m t u hwalk hsearch hret hreadsu hruns hkept ?_ ?_
                        · simp only [makeRefused, hwalk, hill, hsearch]
                          exact decide_eq_false (not_not.mpr rfl)
                        · simp only [makeTarget, hwalk, hill, hsearch]
                          exact if_pos trivial
                      · rw [if_pos hy] at hret
                        refine .refused m u hret hreadsu hruns hkept ?_ ?_
                        · simp only [makeRefused, hwalk, hill, hsearch]
                          exact decide_eq_true hy
                        · simp only [makeTarget, hwalk, hill, hsearch]
                          exact if_neg hy

/-- `makeInode` comes through exactly when there is room. -/
theorem makeInode_room {p dir type : Nat} (hp : IsDir s.disk p)
    (hcu : BlockUsed s.disk (ino s.disk p inoDirectBlock)) (hname : ShortName mem dir) :
    Holds (fun _ => ¬Room s.disk p mem dir) (fun _ => Room s.disk p mem dir)
      (makeInode p dir type mem s) := by
  refine (makeInode_edit hp hcu).mono fun r hr => ?_
  obtain ⟨-, hinode, hblock, k, n, hk, hdead, -, hlen, -⟩ := hr
  refine ⟨⟨_, hinode⟩, ⟨_, hblock⟩, ⟨k, hk, hdead⟩, n, hlen, ?_⟩
  rcases hname with rfl | ⟨l, hl, hends⟩
  · cases hlen
  · rw [(strlen_ok hlen).unique hends]
    exact hl

/-- Wherever its entry went, the inode that was made can be read and written. -/
theorem makeInode_mode (p dir type : Nat) (mem : Store) (s : State) :
    Holds AnyHalt
      (fun r => r.1 < 512 ∧ r.2.1 < 4096 ∧ ino r.2.2.disk r.1 inoMode = oRdwr ∧
        r.2.2.fdescArray = s.fdescArray)
      (makeInode p dir type mem s) := by
  unfold makeInode
  refine (anyHalt (allocInode_spec s)).bind fun r hr => ?_
  obtain ⟨i, s₁⟩ := r
  obtain ⟨hi, -, -, hext₁⟩ := hr
  have hcreate : Holds AnyHalt (fun r => r.1 = i ∧ r.2.fdescArray = s₁.fdescArray)
      (createDentry p i dir type mem s₁) := by
    unfold createDentry
    simp only
    split
    · exact trivial
    · cases strlen mem dir with
      | error e => exact trivial
      | ok n =>
          simp only [bind, Except.bind]
          split_ifs
          · exact trivial
          · exact ⟨rfl, rfl⟩
          · exact ⟨rfl, rfl⟩
  refine hcreate.bind fun r hr => ?_
  obtain ⟨j, s₂⟩ := r
  obtain ⟨hj, hfd₂⟩ := hr
  obtain rfl : j = i := hj
  refine (anyHalt (allocBlock_edit s₂)).bind fun r hr => ?_
  obtain ⟨b, s₃⟩ := r
  obtain ⟨hb, -, -, hext₃⟩ := hr
  refine ⟨hi, hb, ?_, ?_⟩
  · rw [writeInode_createInode hi]
    unfold initIno
    simp only
    repeat rw [ino_setIno_field (by decide)]
    rw [ino_setIno_self]
    rfl
  · have hinit : Extends s₃ (writeInode (j / 4) (createInode j b type oRdwr s₃)) :=
      ((Extends.refl s₃).createInode hi b type oRdwr).writeInode hi
    exact (hinit.fdesc.trans hext₃.fdesc).trans (hfd₂.trans hext₁.fdesc)

/-! ## The call -/

/-- Where `do_fopen` makes a file that its lookup in the current directory did not find. -/
def fopenTarget (path : Nat) (mem : Store) (s : State) : Option (Nat × Nat × Store) :=
  match searchDentry (currentId s) path iFile mem s with
  | .ok (x, t) => if x = minusOne then makeTarget iFile path mem t else none
  | .error _ => none

/-- A lookup of `do_fopen` stops. -/
def fopenStops (path : Nat) (mem : Store) (s : State) : Bool :=
  match searchDentry (currentId s) path iFile mem s with
  | .ok (x, t) => x = minusOne && makeStops iFile path mem t
  | .error _ => true

/-- The file the path names: what the lookup finds in the current directory under exactly this
name, or what the path leads to through directories. -/
def Denotes (path : Nat) (mem : Store) (s : State) (x : Nat) : Prop :=
  ∃ y t, searchDentry (currentId s) path iFile mem s = .ok (y, t) ∧
    ((y = x ∧ ∃ l, EntryHit (dirBlock s.disk (currentId s)) mem path iFile l ∧
        entId s.disk (currentId s) l = x) ∨
      ((∀ j ∈ visits path mem t, IsDir s.disk j) ∧
        ∃ p dir m, removeTarget iFile path mem t = some (p, dir, m, x)))

/-- The file can be made: the path leads to a directory through directories, the name is allowed
there and not taken, and there are an inode, a dead entry and a block for it. -/
def Makeable (path : Nat) (mem : Store) (s : State) : Prop :=
  ∃ p dir m, fopenTarget path mem s = some (p, dir, m) ∧
    (∀ j ∈ fopenVisits path mem s, IsDir s.disk j) ∧ Room s.disk p m dir

/-- The file was made where the path leads. -/
def MadeAt (path : Nat) (mem : Store) (s : State) (d' : Store) (x : Nat) : Prop :=
  ∃ p dir m k b d, fopenTarget path mem s = some (p, dir, m) ∧ Made s.disk d p k x b iFile ∧
    Opened d d' x

/-- What `do_fopen` should do: it returns; a descriptor it returns is one for the named file; if
there is no such file and none can be made, it returns `-1` and changes nothing. -/
structure FopenRight (path mode pid : Nat) (mem : Store) (s : State) : Prop where
  returns : ∃ r, doFopen path mode pid mem s = .ok r
  opened : ∀ r, doFopen path mode pid mem s = .ok r → r.1 ≠ minusOne →
    IsFile r.2.2.disk (r.2.2.fdescArray r.1).inodeId ∧
      (Denotes path mem s (r.2.2.fdescArray r.1).inodeId ∨
        MadeAt path mem s r.2.2.disk (r.2.2.fdescArray r.1).inodeId)
  refused : (∀ x, ¬Denotes path mem s x) → ¬Makeable path mem s →
    ∃ m t, doFopen path mode pid mem s = .ok (minusOne, m, t) ∧ t.disk = s.disk ∧
      t.fdescArray = s.fdescArray

/-- No lookup stops.  The entry found in the current directory is one for a file, or its mode is
refused; what is opened for a path that `do_touch` does not make, inode `0` or `-1`, has its mode
refused; and where `do_touch` comes to make a file, it can be made. -/
structure FopenCond (path mode : Nat) (mem : Store) (s : State) : Prop where
  runs : fopenStops path mem s = false
  found : ∀ x t, searchDentry (currentId s) path iFile mem s = .ok (x, t) → x ≠ minusOne →
    IsFile s.disk x ∨ modeAt s.disk x &&& mode = 0
  lost : fopenLost path mem s = true → modeAt s.disk 0 &&& mode = 0
  refused : fopenRefused path mem s = true → modeAt s.disk minusOne &&& mode = 0
  made : fopenTarget path mem s ≠ none → Makeable path mem s

/-- What is left of `do_touch` where it comes to make an inode in directory `p`. -/
theorem makeInode_made {p dir : Nat} {m : Store} {r : Nat × Store × State}
    (hV : Volume s.disk) (hp : IsDir s.disk p) (hname : ShortName m dir)
    (hret : (makeInode p dir iFile m s >>= fun q =>
      if iFile = iDir then .ok (0, m, createDirBlock q.2.1 p q.1 q.2.2)
      else .ok (q.1, m, createFileBlock q.2.1 q.2.2)) = .ok r) :
    ∃ k b, Made s.disk r.2.2.disk p k r.1 b iFile := by
  have hmake : Holds AnyHalt _ (makeInode p dir iFile m s) :=
    makeInode_spec hV hp hname (by decide)
  have hend : Holds AnyHalt
      (fun r : Nat × Store × State => ∃ k b, Made s.disk r.2.2.disk p k r.1 b iFile)
      (makeInode p dir iFile m s >>= fun q =>
        if iFile = iDir then .ok (0, m, createDirBlock q.2.1 p q.1 q.2.2)
        else .ok (q.1, m, createFileBlock q.2.1 q.2.2)) := by
    refine hmake.bind fun q hq => ?_
    obtain ⟨-, hb, k, hmade⟩ := hq
    refine ⟨k, q.2.1, ?_⟩
    rw [createFileBlock_disk (by omega)]
    exact hmade
  exact hend.of_ok hret

section Fopen

variable {m : Store} {y : Nat}

/-- `do_fopen` of a name that is found. -/
theorem doFopen_found (h : searchDentry (currentId s) path iFile mem s = .ok (x, t))
    (hx : x ≠ minusOne) : doFopen path mode pid mem s =
      openInode x mode pid t >>= fun r => .ok (r.1, mem, r.2) := by
  unfold doFopen
  rw [h]
  change (if x = minusOne then _ else _) = _
  rw [if_neg hx]

/-- `do_fopen` of what `do_touch` returns. -/
theorem doFopen_touched (h : searchDentry (currentId s) path iFile mem s = .ok (minusOne, t))
    (ht : makePath iFile path mem t = .ok (y, m, u)) : doFopen path mode pid mem s =
      openInode y mode pid u >>= fun r => .ok (r.1, m, r.2) := by
  have htouch : doTouch path mem t = .ok (y, m, u) := ht
  unfold doFopen
  rw [h]
  simp only [bind, Except.bind, if_true, htouch]

/-- `do_fopen` stops where `do_touch` does. -/
theorem doFopen_stopped {e : Halt}
    (h : searchDentry (currentId s) path iFile mem s = .ok (minusOne, t))
    (ht : makePath iFile path mem t = .error e) : doFopen path mode pid mem s = .error e := by
  have htouch : doTouch path mem t = .error e := ht
  unfold doFopen
  rw [h]
  simp only [bind, Except.bind, if_true, htouch]

/-- `do_fopen` stops where the search does. -/
theorem doFopen_error {e : Halt}
    (h : searchDentry (currentId s) path iFile mem s = .error e) :
    doFopen path mode pid mem s = .error e := by
  unfold doFopen
  rw [h]
  rfl

/-- What becomes of a path whose lookup in the current directory returned `x`. -/
theorem fopen_looked (h : searchDentry (currentId s) path iFile mem s = .ok (x, t)) :
    fopenLost path mem s = (decide (x = minusOne) && walkFails path mem t) ∧
      fopenRefused path mem s = (decide (x = minusOne) && makeRefused iFile path mem t) ∧
      fopenStops path mem s = (decide (x = minusOne) && makeStops iFile path mem t) ∧
      fopenTarget path mem s = if x = minusOne then makeTarget iFile path mem t else none := by
  unfold fopenLost fopenRefused fopenStops fopenTarget
  rw [h]
  exact ⟨rfl, rfl, rfl, rfl⟩

/-- A call that stops is wrong. -/
theorem not_fopenRight_of_stopped {e : Halt} (h : doFopen path mode pid mem s = .error e) :
    ¬FopenRight path mode pid mem s := by
  intro hright
  obtain ⟨r, hret⟩ := hright.returns
  rw [h] at hret
  cases hret

/-- A refused mode changes nothing. -/
theorem fopen_denied (hout : doFopen path mode pid mem s = .ok (minusOne, m, u))
    (hdisk : u.disk = s.disk) (hfd : u.fdescArray = s.fdescArray) :
    FopenRight path mode pid mem s := by
  refine ⟨⟨_, hout⟩, fun r hret hne => ?_, fun _ _ => ⟨m, u, hout, hdisk, hfd⟩⟩
  rw [hout] at hret
  cases hret
  exact absurd rfl hne

/-- A descriptor is not `-1`. -/
theorem ne_minusOne_of_fd {fd : Nat} (hfd : fd < numFdescs) : fd ≠ minusOne := by
  unfold numFdescs at hfd
  unfold minusOne
  omega

/-- Whatever is opened for a number that is not that of a file is wrong. -/
theorem not_fopenRight {fd : Nat} (hfd : fd < numFdescs)
    (hout : doFopen path mode pid mem s = .ok (fd, m, u)) (hid : (u.fdescArray fd).inodeId = x)
    (hno : ¬IsFile u.disk x) : ¬FopenRight path mode pid mem s := by
  intro hright
  have hfile := (hright.opened _ hout (ne_minusOne_of_fd hfd)).1
  simp only at hfile
  rw [hid] at hfile
  exact hno hfile

/-- The name is in the current directory. -/
theorem fopen_found_iff (hV : Volume s.disk) (hfree : FreeFdesc s)
    (hsearch : searchDentry (currentId s) path iFile mem s = .ok (x, t)) (hx : x ≠ minusOne)
    (hreads : Reads s t) (hlt : x < 512)
    (hit : ∃ l, EntryHit (dirBlock s.disk (currentId s)) mem path iFile l ∧
      entId s.disk (currentId s) l = x) :
    FopenRight path mode pid mem s ↔ FopenCond path mode mem s := by
  obtain ⟨hlost, hrefused, hstops, htarget⟩ := fopen_looked hsearch
  rw [decide_eq_false hx, Bool.false_and] at hlost hrefused hstops
  rw [if_neg hx] at htarget
  have hden : Denotes path mem s x := ⟨x, t, hsearch, Or.inl ⟨rfl, hit⟩⟩
  have hcond : FopenCond path mode mem s ↔
      (IsFile s.disk x ∨ modeAt s.disk x &&& mode = 0) := by
    constructor
    · exact fun h => h.found x t hsearch hx
    · intro h
      refine ⟨hstops, fun x' t' hsearch' _ => ?_, fun hcon => ?_, fun hcon => ?_,
        fun hcon => absurd htarget hcon⟩
      · rw [hsearch] at hsearch'
        cases hsearch'
        exact h
      · rw [hlost] at hcon
        cases hcon
      · rw [hrefused] at hcon
        cases hcon
  have hfree' : FreeFdesc t := by
    unfold FreeFdesc
    rw [hreads.2.fdesc]
    exact hfree
  rw [hcond]
  have hout : doFopen path mode pid mem s = _ := doFopen_found hsearch hx
  rcases openInode_cases hfree' x mode pid with
    ⟨hperm, hopen⟩ | ⟨hmode, fd, s', hlt', hopen, hid, hop⟩
  · rw [hopen] at hout
    rw [hreads.1] at hperm
    exact iff_of_true (fopen_denied hout hreads.1 hreads.2.fdesc) (Or.inr hperm)
  · rw [hopen] at hout
    rw [hreads.1] at hmode
    have hop' := hop hlt
    rw [hreads.1] at hop'
    have hfile : IsFile s'.disk x ↔ IsFile s.disk x := (hop'.quiet hV).isFile
    by_cases hx' : IsFile s.disk x
    · refine iff_of_true ⟨⟨_, hout⟩, fun r hret _ => ?_, fun hno => absurd hden (hno x)⟩ (Or.inl hx')
      rw [hout] at hret
      cases hret
      simp only [hid]
      exact ⟨hfile.mpr hx', Or.inl hden⟩
    · refine iff_of_false (not_fopenRight hlt' hout hid fun h => hx' (hfile.mp h)) ?_
      rintro (h | h)
      · exact hx' h
      · exact hmode h

/-- The path went to `do_touch`, which failed or refused: what is opened for its value is no
file, so the mode has to be refused. -/
theorem fopen_failed_iff (hsearch : searchDentry (currentId s) path iFile mem s = .ok (minusOne, t))
    (ht : makePath iFile path mem t = .ok (y, m, u)) (hfree : FreeFdesc u) (hreads : Reads s u)
    (hno : ∀ d', (y < 512 → Opened s.disk d' y) → ¬IsFile d' y)
    (hcond : FopenCond path mode mem s ↔ modeAt s.disk y &&& mode = 0) :
    FopenRight path mode pid mem s ↔ FopenCond path mode mem s := by
  have hout : doFopen path mode pid mem s = _ := doFopen_touched hsearch ht
  rw [hcond]
  rcases openInode_cases hfree y mode pid with
    ⟨hperm, hopen⟩ | ⟨hmode, fd, s', hlt', hopen, hid, hop⟩
  · rw [hopen] at hout
    rw [hreads.1] at hperm
    exact iff_of_true (fopen_denied hout hreads.1 hreads.2.fdesc) hperm
  · rw [hopen] at hout
    rw [hreads.1] at hmode hop
    exact iff_of_false (not_fopenRight hlt' hout hid (hno _ hop)) hmode

/-- The file was made. -/
theorem fopen_made (hsearch : searchDentry (currentId s) path iFile mem s = .ok (minusOne, t))
    (ht : makePath iFile path mem t = .ok (y, m, u)) (hfree : FreeFdesc u) (hV : Volume s.disk)
    {p dir k b : Nat} {m' : Store} (htarget : fopenTarget path mem s = some (p, dir, m'))
    (hp : IsDir s.disk p) (hmade : Made s.disk u.disk p k y b iFile)
    (hmake : Makeable path mem s) : FopenRight path mode pid mem s := by
  have hout : doFopen path mode pid mem s = _ := doFopen_touched hsearch ht
  rcases openInode_cases hfree y mode pid with ⟨-, hopen⟩ | ⟨-, fd, s', -, hopen, hid, hop⟩
  · rw [hopen] at hout
    refine ⟨⟨_, hout⟩, fun r hret hne => ?_, fun _ hno => absurd hmake hno⟩
    rw [hout] at hret
    cases hret
    exact absurd rfl hne
  · rw [hopen] at hout
    refine ⟨⟨_, hout⟩, fun r hret _ => ?_, fun _ hno => absurd hmake hno⟩
    rw [hout] at hret
    cases hret
    have hop' := hop hmade.free.1
    have hfile : IsFile u.disk y := ⟨hmade.new_used, hmade.newType⟩
    simp only [hid]
    exact ⟨((hop'.quiet (hV.made hp hmade (Or.inr rfl))).isFile).mpr hfile,
      Or.inr ⟨p, dir, m', k, b, u.disk, htarget, hmade, hop'⟩⟩

/-- A file made behind something that is no directory is opened, where `-1` was due. -/
theorem fopen_astray (hV : Volume s.disk) (hmode : mode = oRdonly ∨ mode = oWronly ∨ mode = oRdwr)
    (hsearch : searchDentry (currentId s) path iFile mem s = .ok (minusOne, t))
    (ht : makePath iFile path mem t = .ok (y, m, u)) (hfree : FreeFdesc u)
    (hcwd : IsDir s.disk (currentId s)) (hinode : modeAt u.disk y = oRdwr)
    (hdirs : ¬∀ j ∈ visits path mem t, IsDir s.disk j) (hmake : ¬Makeable path mem s) :
    ¬FopenRight path mode pid mem s := by
  intro hright
  have hnone : ∀ x, ¬Denotes path mem s x := by
    rintro x ⟨z, t', hsearch', hden⟩
    rw [hsearch] at hsearch'
    cases hsearch'
    rcases hden with ⟨hx, l, hl, hid⟩ | ⟨hvisits, -⟩
    · -- no entry has inode number -1
      have hlt := hV.entries _ hcwd l hl.lt
      change entId s.disk (currentId s) l < 512 at hlt
      rw [hid, ← hx] at hlt
      exact absurd hlt (by decide)
    · exact hdirs hvisits
  obtain ⟨m', t', hret, -⟩ := hright.refused hnone hmake
  have hout : doFopen path mode pid mem s = _ := doFopen_touched hsearch ht
  rcases openInode_cases hfree y mode pid with ⟨hperm, -⟩ | ⟨-, fd, s', hlt', hopen, -⟩
  · rw [hinode] at hperm
    rcases hmode with rfl | rfl | rfl
    · exact absurd hperm (by decide)
    · exact absurd hperm (by decide)
    · exact absurd hperm (by decide)
  · rw [hopen, hret] at hout
    have hfd : minusOne = fd := (Prod.mk.inj (Except.ok.inj hout)).1
    exact ne_minusOne_of_fd hlt' hfd.symm

/-- The directories `do_fopen` searches when the current directory does not have the file. -/
theorem fopenVisits_touched (hcwd : IsDir s.disk (currentId s))
    (hsearch : searchDentry (currentId s) path iFile mem s = .ok (minusOne, t)) :
    (∀ j ∈ fopenVisits path mem s, IsDir s.disk j) ↔ ∀ j ∈ visits path mem t, IsDir s.disk j := by
  have heq : fopenVisits path mem s = currentId s :: visits path mem t := by
    unfold fopenVisits
    rw [hsearch]
    exact congrArg _ (if_pos rfl)
  rw [heq]
  constructor
  · exact fun h j hj => h j (List.mem_cons_of_mem _ hj)
  · intro h j hj
    rcases List.mem_cons.mp hj with rfl | hj
    · exact hcwd
    · exact h j hj

/-- `do_touch` comes to make a file. -/
theorem fopen_goes_iff (hV : Volume s.disk) (hcwd : IsDir s.disk (currentId s))
    (hmode : mode = oRdonly ∨ mode = oWronly ∨ mode = oRdwr) (hfree : FreeFdesc s)
    (hsearch : searchDentry (currentId s) path iFile mem s = .ok (minusOne, t))
    (hdisk : t.disk = s.disk) {p dir : Nat} {v : State}
    (hwalk : walk path mem t = .ok (some (p, dir), m, u)) (hreads : Reads s v)
    (hret : makePath iFile path mem t = makeInode p dir iFile m v >>= fun q =>
      if iFile = iDir then .ok (0, m, createDirBlock q.2.1 p q.1 q.2.2)
      else .ok (q.1, m, createFileBlock q.2.1 q.2.2))
    (htarget : fopenTarget path mem s = some (p, dir, m)) :
    FopenRight path mode pid mem s ↔ Makeable path mem s := by
  have hkept : Holds AnyHalt _ (makeInode p dir iFile m v) := makeInode_mode p dir iFile m v
  have hunmakeable : (∀ j ∈ fopenVisits path mem s, IsDir s.disk j) ∧ Room s.disk p m dir ↔
      Makeable path mem s := by
    constructor
    · exact fun h => ⟨p, dir, m, htarget, h⟩
    · rintro ⟨p', dir', m', htarget', h⟩
      rw [htarget] at htarget'
      cases htarget'
      exact h
  rw [← hunmakeable, fopenVisits_touched hcwd hsearch]
  cases hmake : makeInode p dir iFile m v with
  | error e =>
      rw [hmake] at hret
      refine iff_of_false (not_fopenRight_of_stopped (doFopen_stopped hsearch hret)) ?_
      rintro ⟨hdirs, hroom⟩
      rw [← hdisk] at hdirs
      obtain ⟨hp, hname⟩ := ((walk_spec (hV.dirsInRange.mono hdisk) hdirs).of_ok hwalk).2.2 p dir rfl
      rw [hdisk, ← hreads.1] at hp
      have hV' : Volume v.disk := by rw [hreads.1]; exact hV
      have hspec : Holds _ _ (makeInode p dir iFile m v) :=
        makeInode_room hp (hV'.dir_used hp) hname
      rw [hmake, hreads.1] at hspec
      exact hspec hroom
  | ok q =>
      obtain ⟨y, b, w⟩ := q
      obtain ⟨hy, hb, hinode, hfd⟩ := hkept.of_ok hmake
      simp only at hy hb hinode hfd
      have htouch : makePath iFile path mem t = .ok (y, m, createFileBlock b w) := by
        rw [hret, hmake]
        rfl
      have hfree' : FreeFdesc (createFileBlock b w) := by
        have hfd' : (createFileBlock b w).fdescArray = s.fdescArray := hfd.trans hreads.2.fdesc
        unfold FreeFdesc
        rw [hfd']
        exact hfree
      by_cases hdirs : ∀ j ∈ visits path mem t, IsDir s.disk j
      · have hdirs' := hdirs
        rw [← hdisk] at hdirs'
        obtain ⟨hp, hname⟩ :=
          ((walk_spec (hV.dirsInRange.mono hdisk) hdirs').of_ok hwalk).2.2 p dir rfl
        rw [hdisk] at hp
        have hpv : IsDir v.disk p := by rw [hreads.1]; exact hp
        have hV' : Volume v.disk := by rw [hreads.1]; exact hV
        have hroom := (makeInode_room hpv (hV'.dir_used hpv) hname).of_ok hmake
        rw [hreads.1] at hroom
        obtain ⟨k, b', hmade⟩ := makeInode_made hV' hpv hname (hret.symm.trans htouch)
        rw [hreads.1] at hmade
        refine iff_of_true (fopen_made hsearch htouch hfree' hV htarget hp hmade ?_) ⟨hdirs, hroom⟩
        exact hunmakeable.mp ⟨(fopenVisits_touched hcwd hsearch).mpr hdirs, hroom⟩
      · refine iff_of_false ?_ fun h => hdirs h.1
        refine fopen_astray hV hmode hsearch htouch hfree' hcwd ?_ hdirs ?_
        · rw [modeAt_ino hy, createFileBlock_disk (by omega), ino_setBlk hy (by decide)]
          exact hinode
        · exact fun h => hdirs ((fopenVisits_touched hcwd hsearch).mp (hunmakeable.mpr h).1)

/-- What the current directory does not have goes to `do_touch`. -/
theorem fopen_touched_iff (hV : Volume s.disk) (hcwd : IsDir s.disk (currentId s))
    (hmode : mode = oRdonly ∨ mode = oWronly ∨ mode = oRdwr) (hfree : FreeFdesc s)
    (hsearch : searchDentry (currentId s) path iFile mem s = .ok (minusOne, t))
    (hreads : Reads s t) : FopenRight path mode pid mem s ↔ FopenCond path mode mem s := by
  obtain ⟨hlost, hrefused, hstops, htarget⟩ := fopen_looked hsearch
  rw [decide_eq_true rfl, Bool.true_and] at hlost hrefused hstops
  rw [if_pos rfl] at htarget
  have hnofound : ∀ x t', searchDentry (currentId s) path iFile mem s = .ok (x, t') →
      x ≠ minusOne → IsFile s.disk x ∨ modeAt s.disk x &&& mode = 0 := by
    intro x t' hsearch' hx
    rw [hsearch] at hsearch'
    cases hsearch'
    exact absurd rfl hx
  have hfree' : ∀ {u : State}, Reads s u → FreeFdesc u := by
    intro u hreadsu
    unfold FreeFdesc
    rw [hreadsu.2.fdesc]
    exact hfree
  cases makePath_way iFile path mem t with
  | stopped e htouch hstop =>
      refine iff_of_false (not_fopenRight_of_stopped (doFopen_stopped hsearch htouch)) fun h => ?_
      have hruns := h.runs
      rw [hstops, hstop] at hruns
      cases hruns
  | lost m u htouch hreadsu hruns hfails hfree₀ htgt =>
      rw [hfails] at hlost
      rw [hfree₀] at hrefused
      rw [hruns] at hstops
      rw [htgt] at htarget
      have hall := hreads.trans hreadsu
      refine fopen_failed_iff hsearch htouch (hfree' hall) hall ?_ ?_
      · intro d' hop hfile
        exact not_isDir_of_isFile hfile (((hop (by decide)).quiet hV).isDir.mpr hV.root)
      · refine ⟨fun h => h.lost hlost, fun h => ⟨hstops, hnofound, fun _ => h, fun hcon => ?_,
          fun hcon => absurd htarget hcon⟩⟩
        rw [hrefused] at hcon
        cases hcon
  | refused m u htouch hreadsu hruns hkept hrefs htgt =>
      rw [hkept] at hlost
      rw [hrefs] at hrefused
      rw [hruns] at hstops
      rw [htgt] at htarget
      have hall := hreads.trans hreadsu
      refine fopen_failed_iff hsearch htouch (hfree' hall) hall ?_ ?_
      · intro d' _ hfile
        exact absurd hfile.1.1 (by decide)
      · refine ⟨fun h => h.refused hrefused, fun h => ⟨hstops, hnofound, fun hcon => ?_,
          fun _ => h, fun hcon => absurd htarget hcon⟩⟩
        rw [hlost] at hcon
        cases hcon
  | goes p dir m u v hwalk hfound hret hreadsv hruns hkept hfree₀ htgt =>
      rw [hkept] at hlost
      rw [hfree₀] at hrefused
      rw [hruns] at hstops
      rw [htgt] at htarget
      rw [fopen_goes_iff hV hcwd hmode hfree hsearch hreads.1 hwalk (hreads.trans hreadsv) hret
        htarget]
      constructor
      · intro hmake
        refine ⟨hstops, hnofound, fun hcon => ?_, fun hcon => ?_, fun _ => hmake⟩
        · rw [hlost] at hcon
          cases hcon
        · rw [hrefused] at hcon
          cases hcon
      · intro h
        refine h.made ?_
        rw [htarget]
        exact Option.some_ne_none _

/-- **Only the named file is opened** exactly when no lookup stops, the entry found is one for a
file, the mode is refused wherever `do_touch` made nothing, and what it comes to make can be
made. -/
theorem fopen_opens_named (hV : Volume s.disk) (hcwd : IsDir s.disk (currentId s))
    (hfree : FreeFdesc s) (hmode : mode = oRdonly ∨ mode = oWronly ∨ mode = oRdwr) :
    FopenRight path mode pid mem s ↔ FopenCond path mode mem s := by
  have hspec : Holds _ _ (searchDentry (currentId s) path iFile mem s) :=
    searchDentry_spec hcwd.1.1 (hV.dirsInRange _ hcwd)
  cases hsearch : searchDentry (currentId s) path iFile mem s with
  | error e =>
      refine iff_of_false (not_fopenRight_of_stopped (doFopen_error hsearch)) fun h => ?_
      have hruns := h.runs
      unfold fopenStops at hruns
      rw [hsearch] at hruns
      cases hruns
  | ok r =>
      obtain ⟨x, t⟩ := r
      obtain ⟨hhit, hreads⟩ := hspec.of_ok hsearch
      simp only at hhit hreads
      by_cases hx : x = minusOne
      · subst hx
        exact fopen_touched_iff hV hcwd hmode hfree hsearch hreads
      · obtain ⟨l, hl, hid⟩ := hhit.resolve_left hx
        exact fopen_found_iff hV hfree hsearch hx hreads (hid ▸ hV.entries _ hcwd l hl.lt)
          ⟨l, hl, hid⟩

end Fopen

theorem freshState_freeFdesc : FreeFdesc freshState := ⟨0, by decide, by decide +kernel⟩

/-- A name that a volume just formatted does not have. -/
theorem fopen_opens_named_a :
    FopenRight 100 oRdwr 1 memA freshState ↔ FopenCond 100 oRdwr memA freshState :=
  fopen_opens_named freshState_filed.tree.volume freshState_vacant.cwd freshState_freeFdesc
    (Or.inr (Or.inr rfl))

/-- For a file in a directory that does not exist, the root is opened. -/
theorem fopen_opens_root : ¬FopenRight 120 oRdwr 1 memPaths freshState := by
  have hrun : returns (fun r => r.1 = 0 ∧ (r.2.2.fdescArray 0).inodeId = 0 ∧
      ¬IsFile r.2.2.disk 0) (doFopen 120 oRdwr 1 memPaths freshState) = true := by decide +kernel
  obtain ⟨⟨fd, m, t⟩, hret, hfd, hid, hno⟩ := exists_of_returns hrun
  obtain rfl : fd = 0 := hfd
  exact not_fopenRight (by decide) hret hid hno

end Fs
