import OslabRiscv.Fs.Accounting
import OslabRiscv.Mm.Eviction

/-!
# The sectors of the disk

The swap area and the file system share one disk without knowing of each other.
The sectors an eviction writes come from a counter that only grows, so where they
lie is a matter of how many evictions there have been; those the file system writes
come from inode and block numbers.  `Drawn s` says that the evictions of a run have
written the sectors the counter has gone through, in their order.
-/

namespace Mm

open Outcome

/-! ## The counter -/

/-- The sectors written are those of the counter, from 2048 on in steps of eight. -/
structure Drawn (s : State) : Prop where
  writes : s.writes = (List.range s.writes.length).map fun k => (2048 + 8 * k) % 2 ^ 32
  sector : s.sector = (2048 + 8 * s.writes.length) % 2 ^ 32

variable {s s' : State}

/-- What writes no sector draws none. -/
theorem Drawn.same (h : Drawn s) (hw : s'.writes = s.writes) (hs : s'.sector = s.sector) :
    Drawn s' := by
  refine ⟨?_, ?_⟩
  · rw [hw]
    exact h.writes
  · rw [hw, hs]
    exact h.sector

/-- Taking the next sector and writing it. -/
theorem Drawn.next (h : Drawn s) (hw : s'.writes = s.writes ++ [s.sector])
    (hs : s'.sector = (s.sector + 8) % 2 ^ 32) : Drawn s' := by
  have hlen : s'.writes.length = s.writes.length + 1 := by
    rw [hw, List.length_append, List.length_singleton]
  refine ⟨?_, ?_⟩
  · rw [hlen, List.range_succ, List.map_append, ← h.writes, hw, h.sector]
    rfl
  · rw [hs, h.sector, hlen]
    omega

/-- Every error is admitted. -/
def AnyStop (_ : Stop) : Prop := True

/-- The search for a descriptor changes nothing but `page_id`. -/
theorem findUnused_same (fuel : Nat) : ∀ s : State,
    Holds AnyStop (fun r => r.2.mem = s.mem ∧ r.2.kernMemCurr = s.kernMemCurr ∧ r.2.procs = s.procs)
      (findUnused fuel s) := by
  induction fuel with
  | zero => exact fun _ => trivial
  | succ fuel ih =>
      intro s
      unfold findUnused
      split_ifs
      · trivial
      · exact ⟨rfl, rfl, rfl⟩
      · exact ih { s with pageId := 0 }
      · exact ih { s with pageId := s.pageId + 1 }

/-- An eviction draws the next eight sectors. -/
theorem swapToSd_drawn (h : Drawn s) (id p : Nat) :
    Holds AnyStop (fun r => Drawn r.2) (swapToSd id p s) := by
  unfold swapToSd
  refine Holds.bind (P := fun _ => True) ?_ fun ti _ => ?_
  · cases getPte _ _ _ with
    | ok a => trivial
    | error e => trivial
  · exact h.next rfl rfl

/-- The same with the search for the victim. -/
theorem doSwap_drawn (h : Drawn s) (p : Nat) :
    Holds AnyStop (fun r => Drawn r.2) (doSwap p s) := by
  unfold doSwap
  refine Holds.bind (P := fun _ => True) ?_ fun id _ => swapToSd_drawn h id p
  cases getSwapPage _ _ with
  | ok a => trivial
  | error e => trivial

/-- The search for a descriptor draws none. -/
theorem findUnused_drawn (fuel : Nat) :
    ∀ {s : State}, Drawn s → Holds AnyStop (fun r => Drawn r.2) (findUnused fuel s) := by
  induction fuel with
  | zero =>
      intro s _
      exact trivial
  | succ fuel ih =>
      intro s h
      unfold findUnused
      split_ifs
      · trivial
      · exact h.same rfl rfl
      · exact ih (h.same rfl rfl)
      · exact ih (h.same rfl rfl)

/-- An allocation draws for the page it puts away. -/
theorem allocPagetable_drawn (h : Drawn s) (p : Nat) (status : PageStatus) :
    Holds AnyStop (fun r => Drawn r.2) (allocPagetable p status s) := by
  unfold allocPagetable
  split_ifs
  · refine Holds.bind (doSwap_drawn h p) fun r hr => ?_
    refine Holds.bind (findUnused_drawn _ hr) fun q hq => ?_
    exact hq.same rfl rfl
  · refine Holds.bind (findUnused_drawn _ h) fun q hq => ?_
    exact hq.same rfl rfl

/-- A step down the tables draws for the table it makes. -/
theorem tableAt_drawn (h : Drawn s) (p t i : Nat) :
    Holds AnyStop (fun r => Drawn r.2) (tableAt p t i s) := by
  unfold tableAt
  split_ifs
  · exact h
  · exact Holds.bind (allocPagetable_drawn h p _) fun r hr => hr.same rfl rfl

/-- `alloc_page_helper` draws for the pages it takes. -/
theorem allocPageHelper_drawn (h : Drawn s) (va p : Nat) (status : PageStatus) :
    Holds AnyStop (fun r => Drawn r.2) (allocPageHelper va p status s) := by
  unfold allocPageHelper
  refine Holds.bind (tableAt_drawn h p _ _) fun r hr => ?_
  refine Holds.bind (tableAt_drawn hr p _ _) fun r' hr' => ?_
  obtain ⟨third, s'⟩ := r'
  simp only
  split_ifs
  · exact hr'
  · exact Holds.bind (allocPagetable_drawn hr' p _) fun q hq => hq.same rfl rfl

/-- `build_page_helper` draws for the tables it makes. -/
theorem buildPageHelper_drawn (h : Drawn s) (va p pa : Nat) :
    Holds AnyStop Drawn (buildPageHelper va p pa s) := by
  unfold buildPageHelper
  refine Holds.bind (tableAt_drawn h p _ _) fun r hr => ?_
  refine Holds.bind (tableAt_drawn hr p _ _) fun r' hr' => ?_
  obtain ⟨third, s'⟩ := r'
  simp only
  split_ifs
  · exact hr'
  · exact hr'.same rfl rfl

/-- The search for a page writes nothing. -/
theorem findPage_drawn (P : PageInfo → Bool) (l : List Nat) (s : State) :
    Holds AnyStop (fun _ => True) (findPage P l s) := by
  unfold findPage
  cases l.find? fun id => P (s.pages id) with
  | some id => trivial
  | none =>
      cases l.getLast? with
      | some id => trivial
      | none => trivial

/-- A page that comes back is read, not written. -/
theorem swapToMem_drawn (h : Drawn s) (t i va kva p : Nat) :
    Holds AnyStop Drawn (swapToMem t i va kva p s) := by
  unfold swapToMem
  refine Holds.bind (findPage_drawn _ _ s) fun id _ => ?_
  split_ifs
  · trivial
  · trivial
  · exact h.same rfl rfl

/-- The same with the eviction that makes room for it. -/
theorem swapIn_drawn (h : Drawn s) (t i stval p : Nat) :
    Holds AnyStop Drawn (swapIn t i stval p s) := by
  unfold swapIn
  split_ifs
  · exact Holds.bind (doSwap_drawn h p) fun r hr => swapToMem_drawn hr t i stval r.1 p
  · trivial

/-- A page that is copied draws for its new frame. -/
theorem copyOnWrite_drawn (h : Drawn s) (t i stval p : Nat) :
    Holds AnyStop Drawn (copyOnWrite t i stval p s) := by
  unfold copyOnWrite
  refine Holds.bind (findPage_drawn _ _ s) fun id _ => ?_
  split_ifs
  · trivial
  · exact h.same rfl rfl
  · refine Holds.bind (allocPagetable_drawn ?_ p _) fun r hr => ?_
    · exact h.same rfl rfl
    · exact Holds.bind (buildPageHelper_drawn hr stval p _) fun q hq => hq.same rfl rfl

/-- A load fault draws from the counter. -/
theorem handleLoadPageFault_drawn (h : Drawn s) (p stval : Nat) :
    Holds AnyStop Drawn (handleLoadPageFault p stval s) := by
  unfold handleLoadPageFault
  cases pteChecker stval (s.procs p).pgdir s with
  | none => exact Holds.bind (allocPageHelper_drawn h stval p _) fun r hr => hr
  | some ti =>
      simp only
      split_ifs
      · exact swapIn_drawn h _ _ stval p
      · trivial
      · exact h.same rfl rfl

/-- A store fault draws from the counter. -/
theorem handleStorePageFault_drawn (h : Drawn s) (p stval : Nat) :
    Holds AnyStop Drawn (handleStorePageFault p stval s) := by
  unfold handleStorePageFault
  cases pteChecker stval (s.procs p).pgdir s with
  | none => exact Holds.bind (allocPageHelper_drawn h stval p _) fun r hr => hr
  | some ti =>
      simp only
      split_ifs
      · exact swapIn_drawn h _ _ stval p
      · trivial
      · exact h.same rfl rfl
      · exact copyOnWrite_drawn h _ _ stval p

/-- The search for a free address writes nothing. -/
theorem probe_drawn (pgdir : Nat) (s : State) (fuel : Nat) :
    ∀ va, Holds AnyStop (fun _ => True) (probe pgdir s fuel va) := by
  induction fuel with
  | zero =>
      intro va
      trivial
  | succ fuel ih =>
      intro va
      unfold probe
      simp only
      split_ifs
      · trivial
      · exact ih _

/-- A snapshot draws for the tables it makes. -/
theorem doSnapshot_drawn (h : Drawn s) (p va : Nat) :
    Holds AnyStop (fun r => Drawn r.2) (doSnapshot p va s) := by
  unfold doSnapshot
  cases pteChecker va (s.procs p).pgdir s with
  | none => trivial
  | some ti =>
      simp only
      refine Holds.bind (findPage_drawn _ _ s) fun id _ => ?_
      refine Holds.bind (probe_drawn _ s _ va) fun newVa _ => ?_
      refine Holds.bind (P := Drawn) (buildPageHelper_drawn ?_ newVa p _) fun q hq => ?_
      · split_ifs
        · exact h.same rfl rfl
        · exact h.same rfl rfl
      · cases pteChecker newVa (q.procs p).pgdir q with
        | none => trivial
        | some ti' => exact hq.same rfl rfl

/-- Loading an image, by induction on its pages. -/
theorem loadTaskImg_drawn (p : Nat) (image : List (Nat × (Nat → Pte))) :
    ∀ {s : State}, Drawn s → Holds AnyStop Drawn (loadTaskImg p image s) := by
  induction image with
  | nil =>
      intro s h
      exact h
  | cons page rest ih =>
      intro s h
      unfold loadTaskImg
      exact Holds.bind (allocPageHelper_drawn h page.1 p _) fun r hr => ih (hr.same rfl rfl)

/-- `do_exec` draws from the counter. -/
theorem doExec_drawn (h : Drawn s) (p : Nat) (stack args : Nat → Pte)
    (image : List (Nat × (Nat → Pte))) : Holds AnyStop Drawn (doExec p stack args image s) := by
  unfold doExec
  refine Holds.bind (allocPagetable_drawn ?_ p _) fun r hr => ?_
  · exact h.same rfl rfl
  refine Holds.bind (allocPagetable_drawn ?_ p _) fun r' hr' => ?_
  · exact hr.same rfl rfl
  refine Holds.bind (allocPageHelper_drawn ?_ _ p _) fun q hq => ?_
  · exact hr'.same rfl rfl
  refine loadTaskImg_drawn p image ?_
  exact hq.same rfl rfl

/-- A store of the program touches neither disk nor counter. -/
theorem put_keeps (p va : Nat) (word : Pte) (s : State) :
    (put p va word s).writes = s.writes ∧ (put p va word s).sector = s.sector := by
  unfold put
  split
  · split_ifs <;> exact ⟨rfl, rfl⟩
  · exact ⟨rfl, rfl⟩

/-- No event writes a sector but the next one of the counter. -/
theorem handle_drawn (h : Drawn s) (e : Event) : Holds AnyStop Drawn (handle e s) := by
  cases e with
  | exec p stack args image => exact doExec_drawn h p stack args image
  | load p stval =>
      simp only [handle]
      split_ifs
      · exact handleLoadPageFault_drawn h p stval
      · exact h
  | store p stval =>
      simp only [handle]
      split_ifs
      · exact handleStorePageFault_drawn h p stval
      · exact h
  | put p va word =>
      simp only [handle]
      split_ifs
      · exact h.same (put_keeps p va word s).1 (put_keeps p va word s).2
      · exact h
  | snapshot p va =>
      simp only [handle]
      split_ifs
      · have hr := doSnapshot_drawn h p va
        cases hx : doSnapshot p va s with
        | ok r =>
            rw [hx] at hr
            exact hr
        | error e => trivial
      · exact h

/-- After boot nothing has been drawn. -/
theorem Booted.drawn (h : Booted s) : Drawn s := by
  refine ⟨?_, ?_⟩
  · rw [h.writes]
    rfl
  · rw [h.writes, h.sector]
    rfl

/-! ## Two pages that take turns -/

/-- A process with all its frames taken, of whose pages only `x` can be evicted,
while `y`, with its entry in the same table, is out. -/
structure Rally (p t f x y vx vy : Nat) (s : State) : Prop where
  live : (s.procs p).live = true
  full : (s.procs p).pagenum = (s.procs p).upbound
  leads : Leads (s.procs p).pgdir vx t s
  vpn2 : vpn2 vx = vpn2 vy
  vpn1 : vpn1 vx = vpn1 vy
  vpn0 : vpn0 vx ≠ vpn0 vy
  frame : Frame f
  apart : f ≠ (s.procs p).pgdir ∧ f ≠ pageOf (s.mem (s.procs p).pgdir (Mm.vpn2 vx)) ∧ f ≠ t
  inner : t ≠ (s.procs p).pgdir ∧ t ≠ pageOf (s.mem (s.procs p).pgdir (Mm.vpn2 vx))
  inPresent : (s.mem t (Mm.vpn0 vx)).has present = true
  inNotSd : (s.mem t (Mm.vpn0 vx)).has inSd = false
  inFrame : pageOf (s.mem t (Mm.vpn0 vx)) = f
  outPresent : (s.mem t (Mm.vpn0 vy)).has present = false
  outSd : (s.mem t (Mm.vpn0 vy)).has inSd = true
  ne : x ≠ y
  mem_x : x ∈ (s.procs p).pagehead
  mem_y : y ∈ (s.procs p).pagehead
  pageX : (s.pages x).status = .swapable ∧ (s.pages x).kva = f ∧ (s.pages x).uva = vx ∧
    (s.pages x).pte = some (t, Mm.vpn0 vx)
  pageY : (s.pages y).status = .notInMem ∧ (s.pages y).kva = 0 ∧
    (s.pages y).pte = some (t, Mm.vpn0 vy)
  others : ∀ id ∈ (s.procs p).pagehead, id ≠ x → id ≠ y → (s.pages id).status ≠ .swapable ∧
    (s.pages id).pte ≠ some (t, Mm.vpn0 vx) ∧ (s.pages id).pte ≠ some (t, Mm.vpn0 vy)

/-- A fault on the page that is out puts away the other one. -/
theorem Rally.turn {p t f x y vx vy : Nat} (h : Rally p t f x y vx vy s) :
    ∃ s', handle (.load p vy) s = .ok s' ∧ Rally p t f y x vy vx s' ∧
      s'.sector = (s.sector + 8) % 2 ^ 32 ∧ s'.writes = s.writes ++ [s.sector] ∧
      (∀ id, id ≠ x → id ≠ y → s'.pages id = s.pages id) ∧
      (∀ i, i ≠ Mm.vpn0 vx → i ≠ Mm.vpn0 vy → s'.mem t i = s.mem t i) ∧
      (s'.mem t (Mm.vpn0 vx)).pfn = s.sector % 2 ^ 54 ∧ s'.procs = s.procs := by
  have hleads : Leads (s.procs p).pgdir vy t s := by
    have hl := h.leads
    exact ⟨by rw [← h.vpn2]; exact hl.top, by rw [← h.vpn2, ← h.vpn1]; exact hl.second,
      by rw [← h.vpn2, ← h.vpn1]; exact hl.third⟩
  -- the walk, the eviction and the return
  have hcheck : pteChecker vy (s.procs p).pgdir s = some (t, Mm.vpn0 vy) := by
    rw [hleads.pteChecker, h.outSd, Bool.or_true, if_pos rfl]
  have hswap : getSwapPage (s.procs p).pagehead s = .ok x := by
    have hfind : (s.procs p).pagehead.find? (fun id => (s.pages id).status = .swapable) = some x := by
      refine find?_eq_of_unique h.mem_x (decide_eq_true h.pageX.1) fun z hz hPz => ?_
      by_contra hne
      have hst := of_decide_eq_true hPz
      by_cases hzy : z = y
      · rw [hzy, h.pageY.1] at hst
        cases hst
      · exact (h.others z hz hne hzy).1 hst
    unfold getSwapPage
    rw [hfind]
  have hpte : getPte (s.pages x).uva (s.procs p).pgdir s = .ok (t, Mm.vpn0 vx) := by
    rw [h.pageX.2.2.1]
    exact h.leads.getPte h.inPresent
  obtain ⟨s₁, hs₁, hev⟩ := swapToSd_evicts hpte (by rw [h.inFrame]; exact h.apart.2.2)
  rw [h.pageX.2.1] at hs₁
  have hprocs := hev.procs
  have hkeep : ∀ a j, (a ≠ t ∨ j ≠ Mm.vpn0 vx) → a ≠ f → s₁.mem a j = s.mem a j := by
    intro a j haj ha
    exact hev.mem a j haj (by rw [h.inFrame]; exact ha)
  have hY : s₁.pages y = s.pages y := hev.pages y h.ne.symm
  have hfind : findPage (fun q => q.pte = some (t, Mm.vpn0 vy)) (s₁.procs p).pagehead s₁ = .ok y := by
    have hf : (s₁.procs p).pagehead.find?
        (fun id => (s₁.pages id).pte = some (t, Mm.vpn0 vy)) = some y := by
      refine find?_eq_of_unique (by rw [hprocs]; exact h.mem_y)
        (decide_eq_true (by rw [hY]; exact h.pageY.2.2)) fun z hz hPz => ?_
      by_contra hne
      have hst := of_decide_eq_true hPz
      rw [hprocs] at hz
      by_cases hzx : z = x
      · rw [hzx, hev.page] at hst
        exact h.vpn0 (congrArg Prod.snd (Option.some.inj hst))
      · rw [hev.pages z hzx] at hst
        exact (h.others z hz hzx hne).2.2 hst
    unfold findPage
    rw [hf]
  obtain ⟨s₂, hs₂, hbr⟩ : ∃ s₂, swapToMem t (Mm.vpn0 vy) vy f p s₁ = .ok s₂ ∧
      Brings y t (Mm.vpn0 vy) vy f s₁ s₂ :=
    swapToMem_brings hfind (by rw [hY]; exact h.pageY.1) (by rw [hY]; exact h.pageY.2.1)
      h.apart.2.2
  have hprocs₂ : s₂.procs = s.procs := hbr.procs.trans hprocs
  have hkeep₂ : ∀ a j, a ≠ t → a ≠ f → s₂.mem a j = s.mem a j := by
    intro a j hat haf
    rw [hbr.mem a j (Or.inl hat) haf, hkeep a j (Or.inl hat) haf]
  have htable : ∀ i, i ≠ Mm.vpn0 vx → i ≠ Mm.vpn0 vy → s₂.mem t i = s.mem t i := by
    intro i hix hiy
    rw [hbr.mem t i (Or.inr hiy) h.apart.2.2.symm, hkeep t i (Or.inr hix) h.apart.2.2.symm]
  have hinY : s₂.mem t (Mm.vpn0 vy) = inEntry f (s.mem t (Mm.vpn0 vy)) := by
    rw [hbr.entry, hkeep t _ (Or.inr h.vpn0.symm) h.apart.2.2.symm]
  have houtX : s₂.mem t (Mm.vpn0 vx) = outEntry s.sector (s.mem t (Mm.vpn0 vx)) := by
    rw [hbr.mem t _ (Or.inr h.vpn0) h.apart.2.2.symm, hev.entry]
  have hX : s₂.pages x = s₁.pages x := hbr.pages x h.ne
  have hothers : ∀ id, id ≠ x → id ≠ y → s₂.pages id = s.pages id := by
    intro id hix hiy
    rw [hbr.pages id hiy, hev.pages id hix]
  have hout := evict_bits _ (has_eq_true.mp h.inPresent) (has_eq_false.mp h.inNotSd)
  have hin := return_bits _ (has_eq_false.mp h.outPresent) (has_eq_true.mp h.outSd)
  have htop : s₂.mem (s.procs p).pgdir (Mm.vpn2 vy) = s.mem (s.procs p).pgdir (Mm.vpn2 vx) := by
    rw [hkeep₂ _ _ h.inner.1.symm h.apart.1.symm, h.vpn2]
  have hsecond : ∀ j, s₂.mem (pageOf (s.mem (s.procs p).pgdir (Mm.vpn2 vx))) j =
      s.mem (pageOf (s.mem (s.procs p).pgdir (Mm.vpn2 vx))) j :=
    fun j => hkeep₂ _ j h.inner.2.symm h.apart.2.1.symm
  refine ⟨s₂, ?_, ?_, ?_, ?_, hothers, htable, ?_, hprocs₂⟩
  · simp only [handle, h.live, if_true, handleLoadPageFault, hcheck, h.outSd, swapIn, h.full,
      doSwap, hswap]
    change (swapToSd x p s >>= fun r => swapToMem t (Mm.vpn0 vy) vy r.1 p r.2) = .ok s₂
    rw [hs₁]
    exact hs₂
  · constructor
    case live => rw [hprocs₂]; exact h.live
    case full => rw [hprocs₂]; exact h.full
    case leads =>
      rw [hprocs₂]
      refine ⟨?_, ?_, ?_⟩
      · rw [htop]
        exact h.leads.top
      · rw [htop, hsecond, ← h.vpn1]
        exact h.leads.second
      · rw [htop, hsecond, ← h.vpn1]
        exact h.leads.third
    case vpn2 => exact h.vpn2.symm
    case vpn1 => exact h.vpn1.symm
    case vpn0 => exact h.vpn0.symm
    case frame => exact h.frame
    case apart =>
      rw [hprocs₂, htop]
      exact h.apart
    case inner =>
      rw [hprocs₂, htop]
      exact h.inner
    case inPresent =>
      rw [hinY]
      exact has_eq_true.mpr hin.1
    case inNotSd =>
      rw [hinY]
      exact has_eq_false.mpr hin.2
    case inFrame =>
      rw [hinY]
      exact h.frame.pageOf_eq rfl
    case outPresent =>
      rw [houtX]
      exact has_eq_false.mpr hout.1
    case outSd =>
      rw [houtX]
      exact has_eq_true.mpr hout.2.1
    case ne => exact h.ne.symm
    case mem_x => rw [hprocs₂]; exact h.mem_y
    case mem_y => rw [hprocs₂]; exact h.mem_x
    case pageX =>
      rw [hbr.page, hY]
      exact ⟨rfl, rfl, rfl, h.pageY.2.2⟩
    case pageY =>
      rw [hX, hev.page]
      exact ⟨rfl, rfl, rfl⟩
    case others =>
      intro id hid hiy hix
      rw [hprocs₂] at hid
      rw [hothers id hix hiy]
      obtain ⟨h1, h2, h3⟩ := h.others id hid hix hiy
      exact ⟨h1, h3, h2⟩
  · rw [hbr.sector, hev.sector]
  · rw [hbr.writes, hev.writes]
  · rw [houtX]
    rfl

/-- Two pages that take turns for `n` rounds. -/
def rounds (p vx vy : Nat) : Nat → List Event
  | 0 => []
  | n + 1 => .load p vy :: .load p vx :: rounds p vx vy n

/-- Each round draws two sectors, and leaves all other pages as they were. -/
theorem Rally.rounds {p t f x y vx vy : Nat} (n : Nat) :
    ∀ {s : State}, Rally p t f x y vx vy s →
      ∃ s', run handle (rounds p vx vy n) s = .ok s' ∧ Rally p t f x y vx vy s' ∧
        s'.sector % 2 ^ 32 = (s.sector + 16 * n) % 2 ^ 32 ∧
        s'.writes.length = s.writes.length + 2 * n ∧
        (∀ id, id ≠ x → id ≠ y → s'.pages id = s.pages id) ∧
        (∀ i, i ≠ Mm.vpn0 vx → i ≠ Mm.vpn0 vy → s'.mem t i = s.mem t i) ∧ s'.procs = s.procs := by
  induction n with
  | zero =>
      intro s h
      exact ⟨s, rfl, h, by simp, by simp, fun _ _ _ => rfl, fun _ _ _ => rfl, rfl⟩
  | succ n ih =>
      intro s h
      obtain ⟨s₁, hs₁, h₁, hsec₁, hw₁, hpg₁, hmem₁, _, hpr₁⟩ := h.turn
      obtain ⟨s₂, hs₂, h₂, hsec₂, hw₂, hpg₂, hmem₂, _, hpr₂⟩ := h₁.turn
      obtain ⟨s₃, hs₃, h₃, hsec₃, hw₃, hpg₃, hmem₃, hpr₃⟩ := ih h₂
      refine ⟨s₃, ?_, h₃, ?_, ?_, ?_, ?_, ?_⟩
      · simp only [Mm.rounds, run, hs₁]
        change (handle (.load p vx) s₁ >>= _) = _
        rw [hs₂]
        exact hs₃
      · rw [hsec₃, hsec₂, hsec₁]
        omega
      · rw [hw₃, hw₂, hw₁]
        simp only [List.length_append, List.length_singleton]
        omega
      · intro id hix hiy
        rw [hpg₃ id hix hiy, hpg₂ id hiy hix, hpg₁ id hix hiy]
      · intro i hix hiy
        rw [hmem₃ i hix hiy, hmem₂ i hiy hix, hmem₁ i hix hiy]
      · rw [hpr₃, hpr₂, hpr₁]

/-- A shell, and a process whose image and tables leave it one frame; its last three
pages share that frame. -/
def oneFrameLeft : List Event :=
  [.exec 0 blank blank [(0x10000, blank)],
    .exec 1 blank blank ((List.range 16).map fun k => (0x10000 + 4096 * k, blank)),
    .load 1 0x20000, .load 1 0x21000, .load 1 0x22000]

/-- The state they lead to: the page at `0x20000` is in sector 2048, the one at
`0x21000` is out as well and the one at `0x22000` is in. -/
theorem oneFrameLeft_rally :
    ∃ s, run handle oneFrameLeft bootState = .ok s ∧
      Rally 1 0xffffffc052011000 0xffffffc052022000 33 32 0x22000 0x21000 s ∧
      s.sector = 2064 ∧ s.writes.length = 2 ∧ 31 ∈ (s.procs 1).pagehead ∧
      (s.pages 31).status = .notInMem ∧ (s.pages 31).pte = some (0xffffffc052011000, 32) ∧
      (s.mem 0xffffffc052011000 32).pfn = 2048 := by
  have hrun : returns (fun s =>
      ((s.procs 1).live = true ∧ (s.procs 1).pagenum = (s.procs 1).upbound ∧
        (s.procs 1).pgdir = 0xffffffc05200b000 ∧
        (s.mem 0xffffffc05200b000 0).has present = true ∧
        pageOf (s.mem 0xffffffc05200b000 0) = 0xffffffc052010000 ∧
        (s.mem 0xffffffc052010000 0).has present = true ∧
        pageOf (s.mem 0xffffffc052010000 0) = 0xffffffc052011000) ∧
      ((s.mem 0xffffffc052011000 34).has present = true ∧
        (s.mem 0xffffffc052011000 34).has inSd = false ∧
        pageOf (s.mem 0xffffffc052011000 34) = 0xffffffc052022000 ∧
        (s.mem 0xffffffc052011000 33).has present = false ∧
        (s.mem 0xffffffc052011000 33).has inSd = true) ∧
      (33 ∈ (s.procs 1).pagehead ∧ 32 ∈ (s.procs 1).pagehead ∧
        ((s.pages 33).status = .swapable ∧ (s.pages 33).kva = 0xffffffc052022000 ∧
          (s.pages 33).uva = 0x22000 ∧ (s.pages 33).pte = some (0xffffffc052011000, 34)) ∧
        ((s.pages 32).status = .notInMem ∧ (s.pages 32).kva = 0 ∧
          (s.pages 32).pte = some (0xffffffc052011000, 33)) ∧
        ∀ id ∈ (s.procs 1).pagehead, id ≠ 33 → id ≠ 32 → (s.pages id).status ≠ .swapable ∧
          (s.pages id).pte ≠ some (0xffffffc052011000, 34) ∧
          (s.pages id).pte ≠ some (0xffffffc052011000, 33)) ∧
      s.sector = 2064 ∧ s.writes.length = 2 ∧ 31 ∈ (s.procs 1).pagehead ∧
      (s.pages 31).status = .notInMem ∧ (s.pages 31).pte = some (0xffffffc052011000, 32) ∧
      (s.mem 0xffffffc052011000 32).pfn = 2048)
      (run handle oneFrameLeft bootState) = true := by
    decide +kernel
  obtain ⟨s, hs, ⟨hlive, hfull, hdir, htop, hmid, hsecond, hlow⟩, ⟨hin, hsd, hfr, hout, hosd⟩,
    ⟨hx, hy, hX, hY, hoth⟩, hrest⟩ := exists_of_returns hrun
  refine ⟨s, hs, ?_, hrest⟩
  have hv : vpn2 0x22000 = 0 ∧ vpn1 0x22000 = 0 ∧ vpn0 0x22000 = 34 ∧ vpn0 0x21000 = 33 := by
    decide
  have hroot : pageOf (s.mem (s.procs 1).pgdir (vpn2 0x22000)) = 0xffffffc052010000 := by
    rw [hdir, hv.1, hmid]
  constructor
  case live => exact hlive
  case full => exact hfull
  case leads =>
    refine ⟨?_, ?_, ?_⟩
    · rw [hdir, hv.1]
      exact htop
    · rw [hroot, hv.2.1]
      exact hsecond
    · rw [hroot, hv.2.1]
      exact hlow
  case vpn2 => decide
  case vpn1 => decide
  case vpn0 => decide
  case frame => decide
  case apart =>
    rw [hroot, hdir]
    decide
  case inner =>
    rw [hroot, hdir]
    decide
  case inPresent => exact hin
  case inNotSd => exact hsd
  case inFrame => exact hfr
  case outPresent => exact hout
  case outSd => exact hosd
  case ne => decide
  case mem_x => exact hx
  case mem_y => exact hy
  case pageX => exact hX
  case pageY => exact hY
  case others => exact hoth

/-! ## One disk -/

/-- The parts of the system that write the disk. -/
structure System where
  fs : Fs.State
  mm : State

inductive Step
  | call (c : Fs.Call)
  | event (e : Event)

def System.step : Step → System → Except (Fs.Halt ⊕ Stop) System
  | .call c, y =>
    match Fs.exec c y.fs with
    | .ok fs => .ok { y with fs := fs }
    | .error h => .error (.inl h)
  | .event e, y =>
    match handle e y.mm with
    | .ok mm => .ok { y with mm := mm }
    | .error h => .error (.inr h)

/-- The file-system calls meet what they take for granted. -/
def CallsOk (y : System) : Step → Prop
  | .call c => Fs.CallOk y.fs c
  | .event _ => True

instance (y : System) : ∀ e, Decidable (CallsOk y e)
  | .call c => (inferInstance : Decidable (Fs.CallOk y.fs c))
  | .event _ => instDecidableTrue

/-- A call of the file system leaves the memory alone. -/
theorem System.step_call {c : Fs.Call} {y z : System} (h : System.step (.call c) y = .ok z) :
    Fs.exec c y.fs = .ok z.fs ∧ z.mm = y.mm := by
  unfold System.step at h
  cases hx : Fs.exec c y.fs with
  | ok fs =>
      simp only [hx] at h
      cases h
      exact ⟨rfl, rfl⟩
  | error e =>
      simp only [hx] at h
      cases h

/-- An event of the memory leaves the file system alone. -/
theorem System.step_event {e : Event} {y z : System} (h : System.step (.event e) y = .ok z) :
    handle e y.mm = .ok z.mm ∧ z.fs = y.fs := by
  unfold System.step at h
  cases hx : handle e y.mm with
  | ok mm =>
      simp only [hx] at h
      cases h
      exact ⟨rfl, rfl⟩
  | error e =>
      simp only [hx] at h
      cases h

/-- A run of events alone, by induction. -/
theorem System.run_events {f : Fs.State} (es : List Event) :
    ∀ {m m' : State}, run handle es m = .ok m' →
      run System.step (es.map Step.event) ⟨f, m⟩ = .ok ⟨f, m'⟩ := by
  induction es with
  | nil =>
      intro m m' h
      cases h
      rfl
  | cons e es ih =>
      intro m m' h
      obtain ⟨m₁, hm₁, hrest⟩ := run_cons h
      have hstep : System.step (.event e) ⟨f, m⟩ = .ok ⟨f, m₁⟩ := by
        simp only [System.step, hm₁]
      simp only [List.map_cons, run, hstep]
      exact ih hrest

/-- What holds of the two parts along a run that began with the file system in `f`. -/
structure Tidy (f : Fs.State) (y : System) : Prop where
  drawn : Drawn y.mm
  sound : Fs.Sound y.fs
  writes : Fs.WritesOk f y.fs

/-- The step lemma of the two parts. -/
theorem Tidy.step {f : Fs.State} (y : System) (e : Step) (z : System) (h : Tidy f y)
    (hok : CallsOk y e) (hstep : System.step e y = .ok z) : Tidy f z := by
  cases e with
  | call c =>
      obtain ⟨hexec, hmm⟩ := System.step_call hstep
      have heff := (Fs.exec_effect h.sound hok).of_ok hexec
      obtain ⟨ws, hws, harea⟩ := h.writes
      obtain ⟨ws', hws', harea'⟩ := heff.writes
      refine ⟨by rw [hmm]; exact h.drawn, Fs.exec_sound h.sound hok hexec, ws ++ ws', ?_, ?_⟩
      · rw [hws', hws, List.append_assoc]
      · intro w hw
        rcases List.mem_append.mp hw with hw | hw
        · exact harea w hw
        · exact harea' w hw
  | event e =>
      obtain ⟨hhandle, hfs⟩ := System.step_event hstep
      refine ⟨(handle_drawn h.drawn e).of_ok hhandle, ?_, ?_⟩
      · rw [hfs]
        exact h.sound
      · rw [hfs]
        exact h.writes

/-- The eight sectors from `w` on lie in the swap area. -/
def InSwapArea (w : Nat) : Prop := 2048 ≤ w ∧ w + 8 ≤ 16384

instance (w : Nat) : Decidable (InSwapArea w) := inferInstanceAs (Decidable (_ ∧ _))

/-- The counter stays in the swap area for 1792 evictions, and no longer. -/
theorem Drawn.inSwapArea_iff (h : Drawn s) :
    (∀ w ∈ s.writes, InSwapArea w) ↔ s.writes.length ≤ 1792 := by
  constructor
  · intro hall
    by_contra hlen
    have hmem : (2048 + 8 * 1792) % 2 ^ 32 ∈ s.writes := by
      rw [h.writes]
      exact List.mem_map.mpr ⟨1792, List.mem_range.mpr (by omega), rfl⟩
    have hcon := (hall _ hmem).2
    omega
  · intro hlen w hw
    rw [h.writes] at hw
    obtain ⟨k, hk, rfl⟩ := List.mem_map.mp hw
    have hk' := List.mem_range.mp hk
    unfold InSwapArea
    omega

/-- A write in one of the file system's areas is behind the swap area. -/
theorem inArea_behind {v : Fs.SdWrite} (h : v.InArea) :
    16384 ≤ v.sector ∧ v.sector + v.count ≤ 1065730 := by
  obtain ⟨writer, sector, count⟩ := v
  cases writer <;> simp only [Fs.SdWrite.InArea] at h <;> dsimp only <;> omega

/-- **Swap area and file system.**  In every run from boot on a freshly formatted disk whose
file-system calls meet their conditions, every write of the file system lies in the
area of its helper; the evictions stay in the swap area exactly as long as there are at
most 1792 of them, and then no write of one ever meets a write of the other. -/
theorem disk_regions_separate {f f' : Fs.State} {m : State} {z : System} {es : List Step}
    (hb : ∀ fd, (f.fdescArray fd).Bounded) (hfresh : Fs.doMkfs true f = .ok (0, f'))
    (hboot : Booted m) (hok : AllSteps System.step CallsOk es ⟨f', m⟩)
    (hrun : run System.step es ⟨f', m⟩ = .ok z) :
    ∃ ws, z.fs.writes = f'.writes ++ ws ∧ (∀ v ∈ ws, v.InArea) ∧
      ((∀ w ∈ z.mm.writes, InSwapArea w) ↔ z.mm.writes.length ≤ 1792) ∧
      (z.mm.writes.length ≤ 1792 → ∀ w ∈ z.mm.writes, ∀ v ∈ ws, w + 8 ≤ v.sector) := by
  have hstart : Tidy f' ⟨f', m⟩ :=
    ⟨hboot.drawn, (Fs.doMkfs_sound hb hfresh).1, [], by simp, by simp⟩
  have hend := run_invariant Tidy.step es _ z hstart hok hrun
  obtain ⟨ws, hws, harea⟩ := hend.writes
  refine ⟨ws, hws, harea, hend.drawn.inSwapArea_iff, fun hlen w hw v hv => ?_⟩
  have hin := (hend.drawn.inSwapArea_iff.mpr hlen) w hw
  have hbehind := inArea_behind (harea v hv)
  exact hin.2.trans hbehind.1

/-- Three evictions, and a file made between them. -/
def mixed : List Step :=
  oneFrameLeft.map Step.event ++ [.call (.touch 100 Fs.memA), .event (.load 1 0x20000)]

/-- A run with three evictions and a file between them. -/
theorem disk_regions_separate_mixed :
    ∃ z ws, run System.step mixed ⟨Fs.freshState, bootState⟩ = .ok z ∧ z.mm.writes.length = 3 ∧
      z.fs.writes = Fs.freshState.writes ++ ws ∧
      ∀ w ∈ z.mm.writes, ∀ v ∈ ws, w + 8 ≤ v.sector := by
  have hok : AllSteps System.step CallsOk mixed ⟨Fs.freshState, bootState⟩ := by decide +kernel
  have hrun : returns (fun z => z.mm.writes.length = 3)
      (run System.step mixed ⟨Fs.freshState, bootState⟩) = true := by decide +kernel
  obtain ⟨z, hz, hlen⟩ := exists_of_returns hrun
  obtain ⟨ws, hws, _, _, hapart⟩ := disk_regions_separate
    Fs.bootState_bounded Fs.freshState_eq bootState_booted hok hz
  exact ⟨z, ws, hz, hlen, hws, hapart (by omega)⟩

/-- The eviction with number 1793 writes over the superblock of the file system. -/
theorem disk_regions_not_separate_rounds :
    ∃ z, run System.step ((oneFrameLeft ++ rounds 1 0x22000 0x21000 896).map Step.event)
        ⟨Fs.freshState, bootState⟩ = .ok z ∧
      16384 ∈ z.mm.writes ∧ ¬ InSwapArea 16384 := by
  obtain ⟨s, hs, hrally, _, hlen, _⟩ := oneFrameLeft_rally
  obtain ⟨s', hs', _, _, hlen', _⟩ := hrally.rounds 896
  have hall : run handle (oneFrameLeft ++ rounds 1 0x22000 0x21000 896) bootState = .ok s' := by
    rw [run_append_ok hs, hs']
  have hdrawn : Drawn s' := run_invariant (C := fun _ _ => True)
    (fun _ e _ h _ hstep => (handle_drawn h e).of_ok hstep) _ _ _ bootState_booted.drawn
    (allSteps_true _ _) hall
  refine ⟨⟨Fs.freshState, s'⟩, System.run_events _ hall, ?_, by decide⟩
  change 16384 ∈ s'.writes
  rw [hdrawn.writes]
  exact List.mem_map.mpr ⟨1792, List.mem_range.mpr (by omega), by decide⟩

end Mm
