import OslabRiscv.Mm.Sectors
import OslabRiscv.Mm.Calls

/-!
# What pages cost

A page descriptor is never given back, and memory is only taken together with one,
but for the stacks of `do_taskset_exec`.  So the memory given out is bounded by the
number of descriptors, and every root table lies in it.
-/

namespace Mm

open Outcome

/-- The first `pageId` descriptors are in use and no other; beside their pages at most
`n` have been given out. -/
structure Ledger (n : Nat) (s : State) : Prop where
  fresh : ∀ id, s.pageId ≤ id → (s.pages id).status = .unused
  listed : ∀ p, ∀ id ∈ (s.procs p).pagehead, id < s.pageId
  count : s.pageId ≤ pageNum
  room : freememKernel ≤ s.kernMemCurr ∧ s.kernMemCurr % 4096 = 0 ∧
    s.kernMemCurr ≤ freememKernel + 4096 * (s.pageId + n)
  dir : ∀ p, (s.procs p).pgdir = 0 ∨
    freememKernel ≤ (s.procs p).pgdir ∧ (s.procs p).pgdir < s.kernMemCurr

variable {n p : Nat} {s s' : State}

/-- Memory and the swap area are not in the ledger. -/
theorem Ledger.same (h : Ledger n s) (hpages : s'.pages = s.pages) (hid : s'.pageId = s.pageId)
    (hprocs : s'.procs = s.procs) (hkern : s'.kernMemCurr = s.kernMemCurr) : Ledger n s' := by
  obtain ⟨fresh, listed, count, room, dir⟩ := h
  constructor
  · rw [hpages, hid]
    exact fresh
  · rw [hprocs, hid]
    exact listed
  · rw [hid]
    exact count
  · rw [hid, hkern]
    exact room
  · rw [hprocs, hkern]
    exact dir

theorem Ledger.mono (h : Ledger n s) {m : Nat} (hm : n ≤ m) : Ledger m s := by
  have hr := h.room
  exact ⟨h.fresh, h.listed, h.count, ⟨hr.1, hr.2.1, by omega⟩, h.dir⟩

/-- A descriptor in use changes. -/
theorem Ledger.setPage (h : Ledger n s) {id : Nat} (hid : id < s.pageId) (q : PageInfo) :
    Ledger n (setPage id q s) := by
  refine ⟨fun k hk => ?_, h.listed, h.count, h.room, h.dir⟩
  have hne : k ≠ id := by
    have : s.pageId ≤ k := hk
    omega
  exact (congrArg PageInfo.status (if_neg hne)).trans (h.fresh k hk)

/-- The paging part of a PCB changes. -/
theorem Ledger.setProc (h : Ledger n s) {r : Proc} (hlist : ∀ id ∈ r.pagehead, id < s.pageId)
    (hdir : r.pgdir = 0 ∨ freememKernel ≤ r.pgdir ∧ r.pgdir < s.kernMemCurr) :
    Ledger n (setProc p r s) := by
  refine ⟨h.fresh, fun q => ?_, h.count, h.room, fun q => ?_⟩
  · by_cases hq : q = p
    · rw [show (Mm.setProc p r s).procs q = r from if_pos hq]
      exact hlist
    · rw [show (Mm.setProc p r s).procs q = s.procs q from if_neg hq]
      exact h.listed q
  · by_cases hq : q = p
    · rw [show (Mm.setProc p r s).procs q = r from if_pos hq]
      exact hdir
    · rw [show (Mm.setProc p r s).procs q = s.procs q from if_neg hq]
      exact h.dir q

/-- A descriptor in use is one of the first. -/
theorem Ledger.inUse (h : Ledger n s) {id : Nat} (hst : (s.pages id).status ≠ .unused) :
    id < s.pageId := by
  by_contra hlt
  exact hst (h.fresh id (Nat.le_of_not_lt hlt))

/-- The search takes the next descriptor. -/
theorem findUnused_next (h : Ledger n s) (fuel : Nat) :
    Holds AnyStop (fun r => r = (s.pageId, { s with pageId := s.pageId + 1 }) ∧
      s.pageId < pageNum) (findUnused fuel s) := by
  cases fuel with
  | zero => trivial
  | succ fuel =>
      unfold findUnused
      by_cases hfull : pageNum ≤ s.pageId
      · rw [if_pos hfull]
        trivial
      · rw [if_neg hfull, if_pos (h.fresh _ le_rfl)]
        exact ⟨rfl, Nat.lt_of_not_le hfull⟩

/-- What a new descriptor leaves behind. -/
structure Taken (n p : Nat) (s : State) (r : Nat × State) : Prop where
  ledger : Ledger n r.2
  inUse : r.1 < r.2.pageId
  pgdir : (r.2.procs p).pgdir = (s.procs p).pgdir

/-- An eviction gives out no page. -/
theorem swapToSd_ledger (h : Ledger n s) {id : Nat} (hid : id < s.pageId) (p : Nat) :
    Holds AnyStop (fun r => Ledger n r.2 ∧ r.2.procs = s.procs) (swapToSd id p s) := by
  unfold swapToSd
  refine Holds.bind (P := fun _ => True) ?_ fun ti _ => ?_
  · cases getPte _ _ _ with
    | ok a => trivial
    | error e => trivial
  · refine ⟨Ledger.setPage ?_ ?_ _, rfl⟩
    · exact h.same rfl rfl rfl rfl
    · exact hid

/-- The same with the search for the victim. -/
theorem doSwap_ledger (h : Ledger n s) (p : Nat) :
    Holds AnyStop (fun r => Ledger n r.2 ∧ r.2.procs = s.procs) (doSwap p s) := by
  unfold doSwap
  refine Holds.bind (P := fun id => id < s.pageId) ?_ fun id hid => swapToSd_ledger h hid p
  unfold getSwapPage
  cases hf : (s.procs p).pagehead.find? fun id => (s.pages id).status = .swapable with
  | some id => exact h.listed p id (List.mem_of_find?_eq_some hf)
  | none => trivial

/-- A descriptor is taken, with or without a page for it. -/
theorem Ledger.take (h : Ledger n s) (hroom : s.pageId < pageNum) {m : Nat}
    (hm : s.kernMemCurr ≤ m ∧ m % 4096 = 0 ∧ m ≤ s.kernMemCurr + 4096) (q : PageInfo) {r : Proc}
    (hlist : r.pagehead = (s.procs p).pagehead ++ [s.pageId])
    (hdir : r.pgdir = (s.procs p).pgdir) :
    Taken n p s (s.pageId, Mm.setProc p r
      (Mm.setPage s.pageId q { s with pageId := s.pageId + 1, kernMemCurr := m })) := by
  have hnext : Ledger n { s with pageId := s.pageId + 1, kernMemCurr := m } := by
    have hr := h.room
    constructor
    · exact fun id hid => h.fresh id (Nat.le_of_succ_le hid)
    · exact fun k id hid => Nat.lt_succ_of_lt (h.listed k id hid)
    · exact Nat.succ_le_of_lt hroom
    · change freememKernel ≤ m ∧ m % 4096 = 0 ∧ m ≤ freememKernel + 4096 * (s.pageId + 1 + n)
      omega
    · intro k
      rcases h.dir k with h0 | ⟨hlo, hhi⟩
      · exact Or.inl h0
      · exact Or.inr ⟨hlo, lt_of_lt_of_le hhi hm.1⟩
  have hled : Ledger n (Mm.setPage s.pageId q
      { s with pageId := s.pageId + 1, kernMemCurr := m }) :=
    hnext.setPage (Nat.lt_succ_self _) q
  refine ⟨hled.setProc ?_ ?_, Nat.lt_succ_self _, ?_⟩
  · intro id hid
    rw [hlist, List.mem_append, List.mem_singleton] at hid
    rcases hid with hid | rfl
    · exact Nat.lt_succ_of_lt (h.listed p id hid)
    · exact Nat.lt_succ_self _
  · rw [hdir]
    exact hled.dir p
  · exact (congrArg Proc.pgdir (if_pos rfl)).trans hdir

/-- `allocPagetable` takes the next descriptor. -/
theorem allocPagetable_taken (h : Ledger n s) (p : Nat) (status : PageStatus) :
    Holds AnyStop (Taken n p s) (allocPagetable p status s) := by
  unfold allocPagetable
  split_ifs
  · refine Holds.bind (doSwap_ledger h p) fun r hr => ?_
    obtain ⟨kva, s₁⟩ := r
    obtain ⟨h₁, hprocs⟩ := hr
    refine Holds.bind (findUnused_next h₁ _) fun q hq => ?_
    obtain ⟨rfl, hroom⟩ := hq
    have ht := h₁.take (p := p) hroom ⟨le_rfl, h₁.room.2.1, Nat.le_add_right _ _⟩
      { s₁.pages s₁.pageId with status := status, kva := kva }
      (r := { s₁.procs p with pagehead := (s₁.procs p).pagehead ++ [s₁.pageId] }) rfl rfl
    exact ⟨ht.ledger, ht.inUse, ht.pgdir.trans (by rw [show s₁.procs = s.procs from hprocs])⟩
  · refine Holds.bind (findUnused_next h _) fun q hq => ?_
    obtain ⟨rfl, hroom⟩ := hq
    have hroom' := h.room
    exact h.take hroom ⟨by simp only; omega, by simp only; omega, by simp only; omega⟩ _ rfl rfl

/-- A process that may have another page gets it from free memory. -/
theorem allocPagetable_kva (h : Ledger n s) (status : PageStatus)
    (hfull : (s.procs p).pagenum ≠ (s.procs p).upbound) :
    Holds AnyStop (fun r => freememKernel ≤ (r.2.pages r.1).kva ∧
      (r.2.pages r.1).kva < r.2.kernMemCurr) (allocPagetable p status s) := by
  unfold allocPagetable
  rw [if_neg hfull]
  refine Holds.bind (findUnused_next h _) fun q hq => ?_
  obtain ⟨rfl, hroom⟩ := hq
  have hroom' := h.room
  simp only [allocPage, setProc, setPage, if_pos, holds_ok]
  omega

/-- The descriptor it takes is booked. -/
theorem allocPagetable_ledger (h : Ledger n s) (p : Nat) (status : PageStatus) :
    Holds AnyStop (fun r => Ledger n r.2 ∧ r.1 < r.2.pageId) (allocPagetable p status s) :=
  (allocPagetable_taken h p status).mono fun _ ht => ⟨ht.ledger, ht.inUse⟩

/-- A step down the tables books the table it makes. -/
theorem tableAt_ledger (h : Ledger n s) (p t i : Nat) :
    Holds AnyStop (fun r => Ledger n r.2) (tableAt p t i s) := by
  unfold tableAt
  split_ifs
  · exact h
  · exact Holds.bind (allocPagetable_ledger h p _) fun r hr => hr.1.same rfl rfl rfl rfl

/-- `alloc_page_helper` books the pages it takes. -/
theorem allocPageHelper_ledger (h : Ledger n s) (va p : Nat) (status : PageStatus) :
    Holds AnyStop (fun r => Ledger n r.2) (allocPageHelper va p status s) := by
  unfold allocPageHelper
  refine Holds.bind (tableAt_ledger h p _ _) fun r hr => ?_
  refine Holds.bind (tableAt_ledger hr p _ _) fun r' hr' => ?_
  obtain ⟨third, s'⟩ := r'
  simp only
  split_ifs
  · exact hr'
  · refine Holds.bind (allocPagetable_ledger hr' p _) fun q hq => ?_
    have hset := hq.1.setPage hq.2 { q.2.pages q.1 with uva := va, pte := some (third, vpn0 va) }
    exact hset.same rfl rfl rfl rfl

/-- `build_page_helper` books the tables it makes. -/
theorem buildPageHelper_ledger (h : Ledger n s) (va p pa : Nat) :
    Holds AnyStop (Ledger n) (buildPageHelper va p pa s) := by
  unfold buildPageHelper
  refine Holds.bind (tableAt_ledger h p _ _) fun r hr => ?_
  refine Holds.bind (tableAt_ledger hr p _ _) fun r' hr' => ?_
  obtain ⟨third, s'⟩ := r'
  simp only
  split_ifs
  · exact hr'
  · exact hr'.same rfl rfl rfl rfl

/-- A page that is found is one of the list. -/
theorem findPage_listed (P : PageInfo → Bool) (l : List Nat) (s : State) :
    Holds AnyStop (fun id => id ∈ l) (findPage P l s) := by
  unfold findPage
  cases hf : l.find? fun id => P (s.pages id) with
  | some id => exact List.mem_of_find?_eq_some hf
  | none =>
      cases hl : l.getLast? with
      | some id => exact List.mem_of_getLast? hl
      | none => trivial

/-- A page that comes back is booked already. -/
theorem swapToMem_ledger (h : Ledger n s) (t i va kva p : Nat) :
    Holds AnyStop (Ledger n) (swapToMem t i va kva p s) := by
  unfold swapToMem
  refine Holds.bind (findPage_listed _ _ s) fun id hid => ?_
  split_ifs
  · trivial
  · trivial
  · have hset := h.setPage (h.listed p id hid)
      { s.pages id with status := .swapable, uva := va, kva := kva }
    exact hset.same rfl rfl rfl rfl

/-- The same with the eviction that makes room for it. -/
theorem swapIn_ledger (h : Ledger n s) (t i stval p : Nat) :
    Holds AnyStop (Ledger n) (swapIn t i stval p s) := by
  unfold swapIn
  split_ifs
  · exact Holds.bind (doSwap_ledger h p) fun r hr => swapToMem_ledger hr.1 t i stval r.1 p
  · trivial

/-- A page that is copied books its new frame. -/
theorem copyOnWrite_ledger (h : Ledger n s) (t i stval p : Nat) :
    Holds AnyStop (Ledger n) (copyOnWrite t i stval p s) := by
  unfold copyOnWrite
  refine Holds.bind (findPage_listed _ _ s) fun id hid => ?_
  have hlt := h.listed p id hid
  split_ifs
  · trivial
  · have hset := h.setPage hlt { s.pages id with readMember := 0 }
    refine Ledger.setPage ?_ ?_ _
    · exact hset.same rfl rfl rfl rfl
    · exact hlt
  · refine Holds.bind (allocPagetable_ledger (n := n) ?_ p _) fun r hr => ?_
    · have hset := h.setPage hlt { s.pages id with readMember := (s.pages id).readMember - 1 }
      exact hset.same rfl rfl rfl rfl
    · refine Holds.bind (buildPageHelper_ledger hr.1 stval p _) fun q hq => ?_
      exact hq.same rfl rfl rfl rfl

/-- A load fault keeps the books. -/
theorem handleLoadPageFault_ledger (h : Ledger n s) (p stval : Nat) :
    Holds AnyStop (Ledger n) (handleLoadPageFault p stval s) := by
  unfold handleLoadPageFault
  cases pteChecker stval (s.procs p).pgdir s with
  | none => exact Holds.bind (allocPageHelper_ledger h stval p _) fun r hr => hr
  | some ti =>
      simp only
      split_ifs
      · exact swapIn_ledger h _ _ stval p
      · trivial
      · exact h.same rfl rfl rfl rfl

/-- A store fault keeps the books. -/
theorem handleStorePageFault_ledger (h : Ledger n s) (p stval : Nat) :
    Holds AnyStop (Ledger n) (handleStorePageFault p stval s) := by
  unfold handleStorePageFault
  cases pteChecker stval (s.procs p).pgdir s with
  | none => exact Holds.bind (allocPageHelper_ledger h stval p _) fun r hr => hr
  | some ti =>
      simp only
      split_ifs
      · exact swapIn_ledger h _ _ stval p
      · trivial
      · exact h.same rfl rfl rfl rfl
      · exact copyOnWrite_ledger h _ _ stval p

/-- A snapshot keeps the books. -/
theorem doSnapshot_ledger (h : Ledger n s) (p va : Nat) :
    Holds AnyStop (fun r => Ledger n r.2) (doSnapshot p va s) := by
  unfold doSnapshot
  cases pteChecker va (s.procs p).pgdir s with
  | none => trivial
  | some ti =>
      simp only
      refine Holds.bind (findPage_listed _ _ s) fun id hid => ?_
      refine Holds.bind (probe_drawn _ s _ va) fun newVa _ => ?_
      refine Holds.bind (P := Ledger n) (buildPageHelper_ledger ?_ newVa p _) fun q hq => ?_
      · split_ifs
        · refine Ledger.setPage ?_ ?_ _
          · exact h.same rfl rfl rfl rfl
          · exact h.listed p id hid
        · exact h.setPage (h.listed p id hid) _
      · cases pteChecker newVa (q.procs p).pgdir q with
        | none => trivial
        | some ti' => exact hq.same rfl rfl rfl rfl

/-- Loading an image, by induction on its pages. -/
theorem loadTaskImg_ledger (p : Nat) (image : List (Nat × (Nat → Pte))) :
    ∀ {s : State}, Ledger n s → Holds AnyStop (Ledger n) (loadTaskImg p image s) := by
  induction image with
  | nil =>
      intro s h
      exact h
  | cons page rest ih =>
      intro s h
      unfold loadTaskImg
      refine Holds.bind (allocPageHelper_ledger h page.1 p _) fun r hr => ih ?_
      exact hr.same rfl rfl rfl rfl

/-- `do_exec` keeps the books. -/
theorem doExec_ledger (h : Ledger n s) (p : Nat) (stack args : Nat → Pte)
    (image : List (Nat × (Nat → Pte))) :
    Holds AnyStop (Ledger n) (doExec p stack args image s) := by
  have hnew : Ledger n (setProc p ⟨true, 0, 0, maxPagetableNum, []⟩ s) :=
    h.setProc (fun id hid => by cases hid) (Or.inl rfl)
  -- The root table is a page from free memory: a new process has none yet.
  have hroot : Holds AnyStop (fun r => (Ledger n r.2 ∧ r.1 < r.2.pageId) ∧
      freememKernel ≤ (r.2.pages r.1).kva ∧ (r.2.pages r.1).kva < r.2.kernMemCurr)
      (allocPagetable p .unswapable (setProc p ⟨true, 0, 0, maxPagetableNum, []⟩ s)) := by
    have hroom : ((setProc p ⟨true, 0, 0, maxPagetableNum, []⟩ s).procs p).pagenum ≠
        ((setProc p ⟨true, 0, 0, maxPagetableNum, []⟩ s).procs p).upbound := by
      simp only [setProc, if_pos]
      decide
    exact (allocPagetable_ledger hnew p .unswapable).both (allocPagetable_kva hnew .unswapable hroom)
  unfold doExec
  refine Holds.bind hroot fun r hr => ?_
  have hdir := hr.1.1.setProc (p := p) (r := { r.2.procs p with pgdir := (r.2.pages r.1).kva })
    (hr.1.1.listed p) (Or.inr hr.2)
  refine Holds.bind (allocPagetable_ledger (n := n) ?_ p _) fun r' hr' => ?_
  · exact hdir.same rfl rfl rfl rfl
  refine Holds.bind (allocPageHelper_ledger (n := n) ?_ _ p _) fun q hq => ?_
  · exact hr'.1.same rfl rfl rfl rfl
  refine loadTaskImg_ledger p image ?_
  exact hq.same rfl rfl rfl rfl

/-- A thread's stack is booked. -/
theorem doThreadCreate_ledger (h : Ledger n s) (p father childnum : Nat) (stack : Nat → Pte) :
    Holds AnyStop (Ledger n) (doThreadCreate p father childnum stack s) := by
  have hnew : Ledger n (setProc p ⟨true, (s.procs father).pgdir, 0, maxPagetableNum, []⟩ s) :=
    h.setProc (fun id hid => by cases hid) (h.dir father)
  unfold doThreadCreate
  refine Holds.bind (allocPagetable_ledger hnew p _) fun r hr => ?_
  refine Holds.bind (allocPageHelper_ledger (n := n) ?_ _ p _) fun q hq => hq
  exact hr.1.same rfl rfl rfl rfl

/-- `do_taskset_exec` takes two pages off the books at most, for a slot that has never
been used. -/
theorem doTasksetExec_ledger (h : Ledger n s) (unused : Bool) (image : List (Nat × (Nat → Pte))) :
    Holds AnyStop (Ledger (if unused then n + 2 else n)) (doTasksetExec unused image s) := by
  unfold doTasksetExec
  by_cases himage : image ≠ []
  · rw [if_pos himage]
    trivial
  · rw [if_neg himage]
    cases unused with
    | false => exact h
    | true =>
        have hr := h.room
        have hkern : (allocPage (allocPage s).2).2.kernMemCurr = s.kernMemCurr + 8192 := by
          simp only [allocPage]
          omega
        refine ⟨h.fresh, h.listed, h.count, ?_, fun p => ?_⟩
        · rw [hkern]
          change _ ∧ _ ∧ _ ≤ freememKernel + 4096 * (s.pageId + (n + 2))
          omega
        · rw [hkern]
          rcases h.dir p with h0 | ⟨hlo, hhi⟩
          · exact Or.inl h0
          · refine Or.inr ⟨hlo, ?_⟩
            change (s.procs p).pgdir < _
            omega

/-- A store of the program books nothing. -/
theorem put_ledger (h : Ledger n s) (p va : Nat) (word : Pte) : Ledger n (put p va word s) := by
  unfold put
  split
  · split_ifs
    · exact h.same rfl rfl rfl rfl
    · exact h
  · exact h

/-- No event of a process costs more than its descriptors. -/
theorem handle_ledger (h : Ledger n s) (e : Event) : Holds AnyStop (Ledger n) (handle e s) := by
  cases e with
  | exec p stack args image => exact doExec_ledger h p stack args image
  | load p stval =>
      simp only [handle]
      split_ifs
      · exact handleLoadPageFault_ledger h p stval
      · exact h
  | store p stval =>
      simp only [handle]
      split_ifs
      · exact handleStorePageFault_ledger h p stval
      · exact h
  | put p va word =>
      simp only [handle]
      split_ifs
      · exact put_ledger h p va word
      · exact h
  | snapshot p va =>
      simp only [handle]
      split_ifs
      · have hr := doSnapshot_ledger h p va
        cases hx : doSnapshot p va s with
        | ok r =>
            rw [hx] at hr
            exact hr
        | error e => trivial
      · exact h

/-- The search for a shared page's entry leaves the pages. -/
theorem shmSlot_state (key : Int) (v : Vm) :
    Holds AnyStop (fun r => r.2.state = v.state) (shmSlot key v) := by
  unfold shmSlot
  split
  · rfl
  · split
    · rfl
    · trivial

/-- A shared page is booked when it is made. -/
theorem shmPageGet_ledger {v : Vm} (h : Ledger n v.state) (p : Nat) (key : Int) :
    Holds AnyStop (fun r => Ledger n r.2.state) (shmPageGet p key v) := by
  unfold shmPageGet
  refine Holds.bind (shmSlot_state key v) fun r hr => ?_
  obtain ⟨k, w⟩ := r
  have hw : Ledger n w.state := by
    rw [show w.state = v.state from hr]
    exact h
  simp only
  split_ifs
  · refine Holds.bind (allocPagetable_ledger hw p _) fun r hr => ?_
    refine Holds.bind (buildPageHelper_ledger hr.1 _ p _) fun q hq => ?_
    exact hq.same rfl rfl rfl rfl
  · exact Holds.bind (buildPageHelper_ledger hw _ p _) fun q hq => hq

/-- Leaving a shared page books nothing. -/
theorem shmPageDt_ledger {v : Vm} (h : Ledger n v.state) (p addr : Nat) :
    Holds AnyStop (fun w => Ledger n w.state) (shmPageDt p addr v) := by
  unfold shmPageDt
  split
  · trivial
  · simp only
    split
    · exact h
    · exact h.same rfl rfl rfl rfl

/-- After boot nothing has been given out. -/
theorem Booted.ledger (h : Booted s) : Ledger 0 s := by
  refine ⟨fun id _ => by rw [h.pages], fun p id hid => ?_, ?_, ?_, fun p => Or.inl ?_⟩
  · rw [h.procs] at hid
    cases hid
  · rw [h.pageId]
    decide
  · rw [h.kernMemCurr, h.pageId]
    exact ⟨le_rfl, by decide, by omega⟩
  · rw [h.procs]

/-- A root table lies where its frame number has at most 44 bits. -/
theorem Ledger.frame (h : Ledger n s) (hn : n ≤ 64) (p : Nat) :
    kva2pa (s.procs p).pgdir / 4096 < 2 ^ 44 := by
  have hcount := h.count
  have hroom := h.room.2.2
  unfold pageNum at hcount
  rcases h.dir p with h0 | ⟨hlo, hhi⟩
  · rw [h0]
    decide
  · unfold kva2pa kvaOffset
    unfold freememKernel at hlo hroom
    omega

end Mm
